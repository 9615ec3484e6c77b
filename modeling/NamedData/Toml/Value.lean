/-!
The values of a TOML document. Tables remember how they came about, because that decides what may
still be added to them.
-/

namespace NamedData.Toml

/-- How a table came about. -/
inductive TableOrigin where
  /-- It is on the way to the table of a header. -/
  | implied
  /-- It has a header of its own. -/
  | header
  /-- It is on the way to a dotted key. -/
  | dotted
  /-- It was written between braces. -/
  | inline
deriving DecidableEq

/-- A value. Floats, dates, booleans and arrays of tables are not among them. -/
inductive Value where
  | integer (n : Int)
  | text (s : List Char)
  | list (items : List Value)
  | table (origin : TableOrigin) (fields : List (List Char × Value))

/-- The keys of a table with their values, in the order in which they first appear. -/
abbrev Fields := List (List Char × Value)

namespace Fields

def get? (fields : Fields) (key : List Char) : Option Value :=
  fields.lookup key

def set (fields : Fields) (key : List Char) (value : Value) : Fields :=
  match fields with
  | [] => [(key, value)]
  | (k, v) :: rest => if k = key then (key, value) :: rest else (k, v) :: set rest key value

/-- Gives a dotted key a value, unless it has one. Tables on the way must be new or have come about
in the same way. -/
def define (fields : Fields) (path : List (List Char)) (value : Value) : Option Fields :=
  match path with
  | [] => none
  | [key] => if (fields.get? key).isSome then none else some (fields.set key value)
  | key :: rest =>
    let inner := match fields.get? key with
      | none => some []
      | some (.table .dotted inner) => some inner
      | some _ => none
    match inner with
    | some inner => (define inner rest value).map fun inner => fields.set key (.table .dotted inner)
    | none => none

/-- Starts the table of a header. It must be new, or only on the way to the table of another one. -/
def openTable (fields : Fields) (path : List (List Char)) : Option Fields :=
  match path with
  | [] => none
  | [key] =>
    match fields.get? key with
    | none => some (fields.set key (.table .header []))
    | some (.table .implied inner) => some (fields.set key (.table .header inner))
    | some _ => none
  | key :: rest =>
    match fields.get? key with
    | none => (openTable [] rest).map fun inner => fields.set key (.table .implied inner)
    | some (.table .inline _) => none
    | some (.table origin inner) =>
      (openTable inner rest).map fun inner => fields.set key (.table origin inner)
    | some _ => none

def defineIn (fields : Fields) (header path : List (List Char)) (value : Value) : Option Fields :=
  match header with
  | [] => fields.define path value
  | key :: rest =>
    match fields.get? key with
    | some (.table origin inner) =>
      (defineIn inner rest path value).map fun inner => fields.set key (.table origin inner)
    | _ => none

end Fields

end NamedData.Toml
