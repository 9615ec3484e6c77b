import NamedData.Toml.Text
import NamedData.Toml.Value

/-!
Documents: lines of keys with values, and headers that start tables. Values are integers, strings,
arrays and inline tables; a document with any other kind of value is refused.
-/

namespace NamedData.Toml

/-! ### Integers -/

/-- The digits of a number in which single underscores stand between digits. -/
def digits (isDigit : Char → Bool) : List Char → Option (List Char)
  | [] => none
  | [c] => if isDigit c then some [c] else none
  | c :: '_' :: rest => if isDigit c then (digits isDigit rest).map (c :: ·) else none
  | c :: rest => if isDigit c then (digits isDigit rest).map (c :: ·) else none

def isDigitIn (base : Nat) (c : Char) : Bool :=
  (Hex.value? c).any fun d => d < base

def numberIn (base : Nat) (cs : List Char) : Option Nat :=
  (digits (isDigitIn base) cs).map fun ds =>
    ds.foldl (fun n c => base * n + (Hex.value? c).getD 0) 0

/-- A decimal number without needless zeros in front. -/
def decimal (cs : List Char) : Option Nat :=
  match cs with
  | '0' :: _ :: _ => none
  | _ => numberIn 10 cs

/-- An integer: a decimal with or without a sign, or a number in another base after its mark. -/
def integer (cs : List Char) : Option Int :=
  match cs with
  | '0' :: 'x' :: rest => (numberIn 16 rest).map Int.ofNat
  | '0' :: 'o' :: rest => (numberIn 8 rest).map Int.ofNat
  | '0' :: 'b' :: rest => (numberIn 2 rest).map Int.ofNat
  | '-' :: rest => (decimal rest).map fun n => -Int.ofNat n
  | '+' :: rest => (decimal rest).map Int.ofNat
  | _ => (decimal cs).map Int.ofNat

def isWord (c : Char) : Bool :=
  c.isAlphanum || c = '_' || c = '-' || c = '+' || c = '.' || c = ':'

/-! ### Values -/

mutual

def value : Nat → Reader Value
  | 0, _ => none
  | fuel + 1, cs =>
    match cs with
    | '"' :: _ => (quoted cs).map fun (s, rest) => (.text s, rest)
    | '\'' :: _ => (quoted cs).map fun (s, rest) => (.text s, rest)
    | '[' :: rest => (items fuel rest).map fun (vs, rest) => (.list vs, rest)
    | '\x7b' :: rest => (entries fuel [] rest).map fun (fs, rest) => (.table .inline fs, rest)
    | _ => (integer (cs.takeWhile isWord)).map fun n => (.integer n, cs.dropWhile isWord)

/-- The items of an array, after its bracket or a comma. -/
def items : Nat → Reader (List Value)
  | 0, _ => none
  | fuel + 1, cs =>
    match skipSpace cs with
    | none => none
    | some (']' :: rest) => some ([], rest)
    | some cs =>
      match value fuel cs with
      | none => none
      | some (v, rest) =>
        match skipSpace rest with
        | some (']' :: rest) => some ([v], rest)
        | some (',' :: rest) => (items fuel rest).map fun (vs, rest) => (v :: vs, rest)
        | _ => none

/-- The entries of an inline table, after its brace or a comma. They may spread over lines. -/
def entries : Nat → Fields → Reader Fields
  | 0, _, _ => none
  | fuel + 1, fields, cs =>
    match skipSpace cs with
    | none => none
    | some ('\x7d' :: rest) => some (fields, rest)
    | some cs =>
      match entry skipSpace fuel cs with
      | none => none
      | some ((path, v), rest) =>
        match fields.define path v, skipSpace rest with
        | some fields, some ('\x7d' :: rest) => some (fields, rest)
        | some fields, some (',' :: rest) => entries fuel fields rest
        | _, _ => none

/-- A key with its value; what may stand on either side of the sign between them is up to the place. -/
def entry (gap : List Char → Option (List Char)) : Nat → Reader (List (List Char) × Value)
  | 0, _ => none
  | fuel + 1, cs =>
    match key (cs.length + 1) cs with
    | none => none
    | some (path, rest) =>
      match gap rest with
      | some ('=' :: rest) =>
        match gap rest with
        | some rest => (value fuel rest).map fun (v, rest) => ((path, v), rest)
        | none => none
      | _ => none

end

/-! ### Documents -/

/-- The rest after the end of the line, which may hold blanks and a comment. -/
def endLine (cs : List Char) : Option (List Char) :=
  match skipComment (skipBlanks cs) with
  | some [] => some []
  | some tail => lineBreak? tail
  | none => none

/-- The key of a table header, after its bracket. -/
def header (cs : List Char) : Option (List (List Char) × List Char) :=
  match key (cs.length + 1) (skipBlanks cs) with
  | some (path, ']' :: rest) => some (path, rest)
  | _ => none

/-- The lines of a document from some line on, in the table of the given header. -/
def lines : Nat → List (List Char) → Fields → List Char → Option Fields
  | 0, _, _, _ => none
  | fuel + 1, current, fields, cs =>
    match skipSpace cs with
    | none => none
    | some [] => some fields
    | some ('[' :: rest) =>
      match header rest with
      | none => none
      | some (path, rest) =>
        match fields.openTable path, endLine rest with
        | some fields, some rest => lines fuel path fields rest
        | _, _ => none
    | some cs =>
      match entry (some ∘ skipBlanks) (2 * cs.length + 2) cs with
      | none => none
      | some ((path, v), rest) =>
        match fields.defineIn current path v, endLine rest with
        | some fields, some rest => lines fuel current fields rest
        | _, _ => none

/-- The fields of a document. A mark of the byte order at its start does not count. -/
def document (text : List Char) : Option Fields :=
  let cs := match text with
    | '\ufeff' :: rest => rest
    | _ => text
  lines (cs.length + 1) [] [] cs

end NamedData.Toml
