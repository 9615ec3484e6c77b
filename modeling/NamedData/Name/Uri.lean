import NamedData.Name.Basic
import NamedData.Text.Hex
import NamedData.Text.Quoted

/-!
The URI text of names. A component is written between slashes: digest components as a keyword and
hexadecimal digits, others with every byte outside the unreserved set percent-encoded, after the
type number if the type is not the generic one. Reading skips empty parts and one leading scheme,
and refuses a part that begins like a digest without being one or that has a bad escape.
-/

namespace NamedData

/-- Why a text is no name, with the whole raw part that is to blame. -/
inductive NameError where
  | invalidPercentEncoding (part : String)
  | invalidDigest (part : String)
deriving DecidableEq

def NameError.message : NameError → String
  | invalidPercentEncoding part => "invalid percent-encoding in component " ++ Text.quote part
  | invalidDigest part => "invalid sha256 digest component " ++ Text.quote part

namespace Uri

/-- What is left of a text after the given start, if it starts that way. -/
def afterStart? (start text : List Char) : Option (List Char) :=
  if start.isPrefixOf text then some (text.drop start.length) else none

/-- The pieces between slashes, empty ones included. -/
def pieces : List Char → List (List Char)
  | [] => [[]]
  | c :: rest =>
    if c = '/' then [] :: pieces rest
    else match pieces rest with
      | [] => [[c]]
      | piece :: more => (c :: piece) :: more

def scheme : List Char := ['n', 'd', 'n', ':']

def digestStart : List Char :=
  ['s', 'h', 'a', '2', '5', '6', 'd', 'i', 'g', 'e', 's', 't', '=']

def parameterStart : List Char :=
  ['p', 'a', 'r', 'a', 'm', 's', '-', 's', 'h', 'a', '2', '5', '6', '=']

/-- The parts of a URI: the pieces that are not empty, without the scheme. -/
def parts (uri : List Char) : List (List Char) :=
  (pieces ((afterStart? scheme uri).getD uri)).filter fun part => !part.isEmpty

def isUnreserved (b : UInt8) : Bool :=
  let n := b.toNat
  (48 ≤ n && n ≤ 57) || (65 ≤ n && n ≤ 90) || (97 ≤ n && n ≤ 122)
    || n = 45 || n = 46 || n = 95 || n = 126

/-- Bytes with every byte outside the unreserved set escaped. -/
def percentEncode (bytes : List UInt8) : List Char :=
  bytes.flatMap fun b => if isUnreserved b then [Char.ofNat b.toNat] else Hex.escape b

/-- The bytes of a text with its escapes resolved, if each has two hexadecimal digits. -/
def percentDecode : List Char → Option (List UInt8)
  | [] => some []
  | '%' :: high :: low :: rest =>
    match Hex.byte? high low, percentDecode rest with
    | some b, some bytes => some (b :: bytes)
    | _, _ => none
  | c :: rest =>
    if c = '%' then none
    else (percentDecode rest).map (String.utf8EncodeChar c ++ ·)

/-- A digest of exactly sixty-four hexadecimal digits. -/
def digest? (digits : List Char) : Option Digest :=
  match Hex.decode digits with
  | some bytes => if h : bytes.length = 32 then some ⟨bytes, h⟩ else none
  | none => none

def component (part : List Char) : Except NameError Component :=
  match afterStart? digestStart part with
  | some digits =>
    match digest? digits with
    | some digest => .ok (.implicitDigest digest)
    | none => .error (.invalidDigest (String.ofList part))
  | none =>
    match afterStart? parameterStart part with
    | some digits =>
      match digest? digits with
      | some digest => .ok (.parameterDigest digest)
      | none => .error (.invalidDigest (String.ofList part))
    | none =>
      match percentDecode part with
      | some bytes => .ok (.generic bytes)
      | none => .error (.invalidPercentEncoding (String.ofList part))

end Uri

namespace Component

def uriChars (c : Component) : List Char :=
  match c.kind with
  | .implicitDigest => Uri.digestStart ++ Hex.encode c.bytes
  | .parameterDigest => Uri.parameterStart ++ Hex.encode c.bytes
  | .other code => Nat.toDigits 10 code.toNat ++ '=' :: Uri.percentEncode c.bytes
  | .generic => Uri.percentEncode c.bytes

def uri (c : Component) : String :=
  String.ofList c.uriChars

def tagged (c : Component) : String :=
  "NameComponent(" ++ c.uri ++ ")"

end Component

namespace Name

/-- The characters of a name's URI; the empty name is a single slash. -/
def uriChars (n : Name) : List Char :=
  if n.isEmpty then ['/'] else n.flatMap fun c => '/' :: c.uriChars

def uri (n : Name) : String :=
  String.ofList n.uriChars

/-- Reads a name from the characters of a URI; the first bad part is to blame. -/
def ofUriChars (text : List Char) : Except NameError Name :=
  (Uri.parts text).mapM Uri.component

def ofUri (text : String) : Except NameError Name :=
  ofUriChars text.toList

def tagged (n : Name) : String :=
  "Name(" ++ n.uri ++ ")"

/-- The name as a JSON string. A URI has no character that JSON escapes. -/
def jsonText (n : Name) : String :=
  "\"" ++ n.uri ++ "\""

end Name

end NamedData
