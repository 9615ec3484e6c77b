import NamedData.Text.Hex

/-!
The texts of a TOML document: quoted strings of the four kinds, keys, and the blank parts between
the other ones. Each reader takes the characters from where it stands and gives what it read with
the characters that are left, or nothing if the text is malformed.
-/

namespace NamedData.Toml

/-- A reader of one part of a document. -/
abbrev Reader (α : Type) := List Char → Option (α × List Char)

/-- A character that may not stand in a text or a comment: the controls other than the tab. -/
def isControl (c : Char) : Bool :=
  (c.toNat < 0x20 && c ≠ '\t') || c.toNat = 0x7F

def skipBlanks (cs : List Char) : List Char :=
  cs.dropWhile fun c => c = ' ' || c = '\t'

def lineBreak? : List Char → Option (List Char)
  | '\n' :: rest => some rest
  | '\r' :: '\n' :: rest => some rest
  | _ => none

/-- The rest from the end of the line on, past a comment if there is one. -/
def skipComment (cs : List Char) : Option (List Char) :=
  match cs with
  | '#' :: rest =>
    let tail := rest.dropWhile fun c => !isControl c
    if tail.isEmpty || (lineBreak? tail).isSome then some tail else none
  | _ => some cs

/-- The rest after blanks, comments and line breaks, at most so many lines. -/
def skipLines : Nat → List Char → Option (List Char)
  | 0, _ => none
  | fuel + 1, cs =>
    match skipComment (skipBlanks cs) with
    | none => none
    | some tail =>
      match lineBreak? tail with
      | some rest => skipLines fuel rest
      | none => some tail

def skipSpace (cs : List Char) : Option (List Char) :=
  skipLines (cs.length + 1) cs

/-- The character with the given hexadecimal code, if it is one. -/
def charOfHex (digits : List Char) : Option Char :=
  match digits.mapM Hex.value? with
  | some values =>
    let code := values.foldl (fun n d => 16 * n + d) 0
    if code.isValidChar then some (Char.ofNat code) else none
  | none => none

/-- The character that an escape stands for, after the backslash. -/
def escape : Reader Char
  | 'b' :: rest => some ('\x08', rest)
  | 't' :: rest => some ('\t', rest)
  | 'n' :: rest => some ('\n', rest)
  | 'f' :: rest => some ('\x0c', rest)
  | 'r' :: rest => some ('\r', rest)
  | 'e' :: rest => some ('\x1b', rest)
  | '"' :: rest => some ('"', rest)
  | '\\' :: rest => some ('\\', rest)
  | 'x' :: rest => coded 2 rest
  | 'u' :: rest => coded 4 rest
  | 'U' :: rest => coded 8 rest
  | _ => none
where
  /-- The character whose code has the given number of digits. -/
  coded (count : Nat) (rest : List Char) : Option (Char × List Char) :=
    if (rest.take count).length = count then
      (charOfHex (rest.take count)).map fun c => (c, rest.drop count)
    else none

/-- A string on one line, after its opening quote. -/
def literalString : Reader (List Char)
  | [] => none
  | c :: rest =>
    if c = '\'' then some ([], rest)
    else if isControl c then none
    else (literalString rest).map fun (s, tail) => (c :: s, tail)

/-- A string on one line with escapes, after its opening quote. -/
def basicString : Nat → Reader (List Char)
  | 0, _ => none
  | _, [] => none
  | fuel + 1, c :: rest =>
    if c = '"' then some ([], rest)
    else if c = '\\' then
      match escape rest with
      | some (e, rest) => (basicString fuel rest).map fun (s, tail) => (e :: s, tail)
      | none => none
    else if isControl c then none
    else (basicString fuel rest).map fun (s, tail) => (c :: s, tail)

/-- The closing quotes of a string on several lines: three of them after up to two that belong to the
string. -/
def closing (quote : Char) (cs : List Char) : Option (List Char × List Char) :=
  let run := (cs.takeWhile (· = quote)).length
  if 3 ≤ run then
    let extra := min (run - 3) 2
    some (List.replicate extra quote, cs.drop (extra + 3))
  else none

/-- A line break at the start of a string on several lines is left out. -/
def afterOpening (cs : List Char) : List Char :=
  (lineBreak? cs).getD cs

/-- The rest after blanks and line breaks: what a backslash at the end of a line skips. -/
def skipGap : List Char → List Char
  | ' ' :: rest => skipGap rest
  | '\t' :: rest => skipGap rest
  | '\n' :: rest => skipGap rest
  | '\r' :: '\n' :: rest => skipGap rest
  | cs => cs

/-- A string on several lines, after its opening quotes; escapes count between double quotes only.
-/
def longString (quote : Char) : Nat → Reader (List Char)
  | 0, _ => none
  | fuel + 1, cs =>
    match closing quote cs with
    | some result => some result
    | none =>
      match cs with
      | [] => none
      | '\r' :: '\n' :: rest =>
        (longString quote fuel rest).map fun (s, tail) => ('\r' :: '\n' :: s, tail)
      | '\n' :: rest => (longString quote fuel rest).map fun (s, tail) => ('\n' :: s, tail)
      | '\\' :: rest =>
        if quote = '"' then
          match lineBreak? (skipBlanks rest) with
          | some next => longString quote fuel (skipGap next)
          | none =>
            match escape rest with
            | some (e, rest) => (longString quote fuel rest).map fun (s, tail) => (e :: s, tail)
            | none => none
        else (longString quote fuel rest).map fun (s, tail) => ('\\' :: s, tail)
      | c :: rest =>
        if isControl c then none
        else (longString quote fuel rest).map fun (s, tail) => (c :: s, tail)

def quoted : Reader (List Char)
  | '"' :: '"' :: '"' :: rest => longString '"' (rest.length + 1) (afterOpening rest)
  | '\'' :: '\'' :: '\'' :: rest => longString '\'' (rest.length + 1) (afterOpening rest)
  | '"' :: rest => basicString (rest.length + 1) rest
  | '\'' :: rest => literalString rest
  | _ => none

def isBare (c : Char) : Bool :=
  c.isAlphanum || c = '_' || c = '-'

def keyPart : Reader (List Char)
  | '"' :: rest => basicString (rest.length + 1) rest
  | '\'' :: rest => literalString rest
  | cs =>
    let bare := cs.takeWhile isBare
    if bare.isEmpty then none else some (bare, cs.dropWhile isBare)

/-- A dotted key, and the rest after the blanks that follow it. -/
def key : Nat → Reader (List (List Char))
  | 0, _ => none
  | fuel + 1, cs =>
    match keyPart cs with
    | none => none
    | some (part, rest) =>
      match skipBlanks rest with
      | '.' :: more => (key fuel (skipBlanks more)).map fun (parts, tail) => (part :: parts, tail)
      | tail => some ([part], tail)

end NamedData.Toml
