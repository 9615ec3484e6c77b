import NamedData.Name.Basic

/-!
Trees that hold a value at every name. Most names hold the blank value, and a branch without any
other value is not kept: the tree is no larger than what it holds. The branches below a node are
ordered by component. Each branch is written with its own branches below it and the branches after
it, so that a tree is plain inductive data.
-/

namespace NamedData

/-- Values with a blank one, which a tree need not store. -/
class Blank (α : Type) where
  blank : α
  isBlank : α → Bool
  isBlank_iff : ∀ a, isBlank a ↔ a = blank

/-- The branches below a node: the first one with what is below it, and the branches after it. -/
inductive Branches (α : Type) where
  | nil
  | cons (label : Component) (value : α) (below after : Branches α)
deriving DecidableEq

/-- A tree: the value of the empty name and the branches for the others. -/
structure NameTree (α : Type) where
  value : α
  below : Branches α
deriving DecidableEq

namespace Branches

variable {α : Type}

def isNil : Branches α → Bool
  | nil => true
  | cons .. => false

def find? (c : Component) : Branches α → Option (NameTree α)
  | nil => none
  | cons label value below after => if c = label then some ⟨value, below⟩ else after.find? c

/-- The labels and values of the branches themselves, without what is below them. -/
def heads : Branches α → List (Component × α)
  | nil => []
  | cons label value _ after => (label, value) :: after.heads

/-- All values of the branches, each one before those below it. -/
def values : Branches α → List α
  | nil => []
  | cons _ value below after => value :: below.values ++ after.values

variable [Blank α]

/-- A branch in front of others, unless it holds nothing. -/
def keep (label : Component) (value : α) (below after : Branches α) : Branches α :=
  if Blank.isBlank value && below.isNil then after else cons label value below after

/-- A new path in front of other branches, with a changed blank value at its end. -/
def graft (change : α → α) : Component → Name → Branches α → Branches α
  | c, [], after => keep c (change Blank.blank) nil after
  | c, d :: rest, after => keep c Blank.blank (graft change d rest nil) after

/-- Changes the value at the end of a path, adding and dropping branches as needed. -/
def alter (change : α → α) : Component → Name → Branches α → Branches α
  | c, rest, nil => graft change c rest nil
  | c, rest, cons label value below after =>
    match compare c label with
    | .lt => graft change c rest (cons label value below after)
    | .gt => cons label value below (after.alter change c rest)
    | .eq =>
      match rest with
      | [] => keep label (change value) below after
      | d :: more => keep label value (below.alter change d more) after

/-- Changes every value and drops the branches that hold nothing any more. -/
def mapValues (change : α → α) : Branches α → Branches α
  | nil => nil
  | cons label value below after =>
    keep label (change value) (below.mapValues change) (after.mapValues change)

end Branches

namespace NameTree

variable {α : Type}

def subtree? : NameTree α → Name → Option (NameTree α)
  | t, [] => some t
  | t, c :: rest =>
    match t.below.find? c with
    | some s => s.subtree? rest
    | none => none

/-- The values on the way down to a name, from the root to the last node there is. -/
def along : NameTree α → Name → List α
  | t, [] => [t.value]
  | t, c :: rest =>
    t.value :: match t.below.find? c with
      | some s => s.along rest
      | none => []

/-- All values of the tree, each one before those below it. -/
def values (t : NameTree α) : List α :=
  t.value :: t.below.values

variable [Blank α]

/-- A tree with a value at the root and nothing else. -/
def root (value : α) : NameTree α where
  value := value
  below := .nil

/-- The value at a name, blank if there is no node for it. -/
def get (t : NameTree α) (n : Name) : α :=
  ((t.subtree? n).map NameTree.value).getD Blank.blank

def alter (t : NameTree α) (n : Name) (change : α → α) : NameTree α :=
  match n with
  | [] => { t with value := change t.value }
  | c :: rest => { t with below := t.below.alter change c rest }

def mapValues (t : NameTree α) (change : α → α) : NameTree α where
  value := change t.value
  below := t.below.mapValues change

end NameTree

end NamedData
