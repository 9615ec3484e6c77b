/-!
Points in time, as milliseconds that never leave the range of sixty-four bits: moving forward stops
at the end of the range and moving back stops at zero.
-/

namespace NamedData

/-- A length of time in milliseconds. -/
abbrev Millis := UInt64

/-- A point in time, in milliseconds. -/
structure Timestamp where
  ms : UInt64
deriving DecidableEq, Inhabited

namespace Timestamp

def toNat (t : Timestamp) : Nat :=
  t.ms.toNat

/-- The last point in time. -/
def limit : Nat := UInt64.size - 1

def zero : Timestamp := ⟨0⟩

instance : LE Timestamp where
  le a b := a.toNat ≤ b.toNat

instance : LT Timestamp where
  lt a b := a.toNat < b.toNat

instance (a b : Timestamp) : Decidable (a ≤ b) :=
  inferInstanceAs (Decidable (a.toNat ≤ b.toNat))

instance (a b : Timestamp) : Decidable (a < b) :=
  inferInstanceAs (Decidable (a.toNat < b.toNat))

instance : Ord Timestamp where
  compare a b := compare a.toNat b.toNat

/-- The later of two points. -/
instance : Max Timestamp where
  max a b := if a ≤ b then b else a

/-- The earlier of two points. -/
instance : Min Timestamp where
  min a b := if a ≤ b then a else b

/-- The point some time later, at most the last one. -/
def adding (t : Timestamp) (d : Millis) : Timestamp :=
  ⟨UInt64.ofNat (min (t.toNat + d.toNat) limit)⟩

/-- The point some time earlier, at least zero. -/
def removing (t : Timestamp) (d : Millis) : Timestamp :=
  ⟨UInt64.ofNat (t.toNat - d.toNat)⟩

/-- The time from the second point to the first, unless the second is later. -/
def since? (t earlier : Timestamp) : Option Millis :=
  if earlier ≤ t then some (UInt64.ofNat (t.toNat - earlier.toNat)) else none

def text (t : Timestamp) : String :=
  toString t.toNat ++ "ms"

theorem le_iff {a b : Timestamp} : a ≤ b ↔ a.toNat ≤ b.toNat := Iff.rfl

theorem lt_iff {a b : Timestamp} : a < b ↔ a.toNat < b.toNat := Iff.rfl

theorem toNat_le_limit (t : Timestamp) : t.toNat ≤ limit := by
  have := t.ms.toNat_lt
  unfold toNat limit
  simp only [UInt64.size]
  omega

theorem toNat_adding (t : Timestamp) (d : Millis) :
    (t.adding d).toNat = min (t.toNat + d.toNat) limit := by
  rw [adding, toNat, UInt64.toNat_ofNat_of_lt']
  have : limit < UInt64.size := by decide
  omega

theorem toNat_removing (t : Timestamp) (d : Millis) :
    (t.removing d).toNat = t.toNat - d.toNat := by
  have := t.ms.toNat_lt
  rw [removing, toNat, UInt64.toNat_ofNat_of_lt']
  unfold toNat
  simp only [UInt64.size]
  omega

end Timestamp

end NamedData
