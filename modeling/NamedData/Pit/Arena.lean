/-!
Storage with stable handles. Every value has a slot, and a slot that was given up is used again for
a later value; the generation in a token keeps the token of the old value from reaching the new one.
-/

namespace NamedData

/-- A handle to a stored value. -/
structure PitToken where
  index : Nat
  generation : UInt32
deriving DecidableEq

/-- What a correct node never meets. -/
inductive Fault where
  /-- A token whose value is gone was used as if it were there. -/
  | staleToken (token : PitToken)
  /-- A slot that is in use was listed as free. -/
  | slotInUse (index : Nat)
  /-- A name was given a strategy that is not registered. -/
  | unknownStrategy (id : Nat)
deriving DecidableEq

def Fault.message : Fault → String
  | staleToken t =>
    "stale PIT token PitToken \x7b index: " ++ toString t.index ++ ", generation: "
      ++ toString t.generation.toNat ++ " \x7d"
  | slotInUse _ => "free list points at an occupied slot"
  | unknownStrategy id => "no strategy with id " ++ toString id

/-- A place for a value; the generation of a vacant slot is that of its last value. -/
inductive Slot (α : Type) where
  | occupied (generation : UInt32) (value : α)
  | vacant (generation : UInt32)
deriving DecidableEq

/-- All slots, the vacant ones with the latest first, and the number of values. -/
structure Arena (α : Type) where
  slots : List (Slot α) := []
  free : List Nat := []
  size : Nat := 0
deriving DecidableEq

namespace Arena

variable {α : Type}

/-- The value of a token, if it is still there. -/
def get? (a : Arena α) (t : PitToken) : Option α :=
  match a.slots[t.index]? with
  | some (.occupied generation value) => if generation = t.generation then some value else none
  | _ => none

def contains (a : Arena α) (t : PitToken) : Bool :=
  (a.get? t).isSome

/-- The value of a token that must be there. -/
def get (a : Arena α) (t : PitToken) : Except Fault α :=
  match a.get? t with
  | some value => .ok value
  | none => .error (.staleToken t)

def set (a : Arena α) (t : PitToken) (value : α) : Arena α :=
  if a.contains t then { a with slots := a.slots.set t.index (.occupied t.generation value) } else a

def modify (a : Arena α) (t : PitToken) (change : α → α) : Arena α :=
  match a.get? t with
  | some value => a.set t (change value)
  | none => a

/-- Stores a value, in the slot that was given up last if there is one. -/
def insert (a : Arena α) (value : α) : Except Fault (PitToken × Arena α) :=
  match a.free with
  | index :: free =>
    match a.slots[index]? with
    | some (.vacant last) =>
      let generation := last + 1
      .ok (⟨index, generation⟩,
        { slots := a.slots.set index (.occupied generation value), free, size := a.size + 1 })
    | _ => .error (.slotInUse index)
  | [] =>
    .ok (⟨a.slots.length, 0⟩, { a with slots := a.slots ++ [.occupied 0 value], size := a.size + 1 })

def remove (a : Arena α) (t : PitToken) : Option (α × Arena α) :=
  match a.get? t with
  | some value =>
    some (value,
      { slots := a.slots.set t.index (.vacant t.generation)
        free := t.index :: a.free
        size := a.size - 1 })
  | none => none

/-- The tokens of all values, by slot. -/
def tokens (a : Arena α) : List PitToken :=
  a.slots.zipIdx.filterMap fun
    | (.occupied generation _, index) => some ⟨index, generation⟩
    | (.vacant _, _) => none

end Arena

end NamedData
