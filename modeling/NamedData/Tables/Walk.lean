import NamedData.Tables.Basic

/-!
Walks over the names under a prefix, each seen with the strategy in effect there.
-/

namespace NamedData

/-- What a walk over the tables sees of one name; the context is the strategy in effect. -/
abbrev NameVisit := Visit NameRecord Nat

def Visit.depth {α σ : Type} (v : Visit α σ) : Nat :=
  v.name.length

def Visit.hasNextHops (v : NameVisit) : Bool :=
  !v.value.nextHops.isEmpty

def Visit.hasPending (v : NameVisit) : Bool :=
  !v.value.pending.isEmpty

namespace Tables

/-- The names at and under a prefix in the order of a walk that turns back where it is told to. -/
def walk (t : Tables) (stem : Name) (descend : NameVisit → Bool) : List NameVisit :=
  match t.tree.subtree? stem with
  | some s => s.walk (fun outer r => r.strategy?.getD outer) descend stem (t.effectiveStrategy stem)
  | none => []

def pendingAt (visits : List NameVisit) (wanted : NameVisit → Bool) : List PitToken :=
  (visits.filter wanted).flatMap fun v => v.value.pending

/-- A choice of pending entries under a prefix by depth, by strategy and by what the names hold. -/
structure Selection where
  stem : Name
  minDepth : Nat
  maxDepth : Nat
  onlyPending : Bool
  onlyStrategy : Option Nat
  stopAtNextHops : Bool

namespace Selection

/-- Whether the walk turns back because a deeper name has next hops of its own. -/
def stops (s : Selection) (v : NameVisit) : Bool :=
  s.stopAtNextHops && v.hasNextHops && s.stem.length < v.depth

def descends (s : Selection) (v : NameVisit) : Bool :=
  v.depth < s.maxDepth && !s.stops v

def includes (s : Selection) (v : NameVisit) : Bool :=
  s.minDepth ≤ v.depth && (!s.onlyPending || v.hasPending)
    && s.onlyStrategy.all (fun id => v.context = id) && !s.stops v

def run (s : Selection) (t : Tables) : List PitToken × List NameVisit :=
  let visits := t.walk s.stem s.descends
  (pendingAt visits s.includes, visits)

end Selection

end Tables

end NamedData
