import NamedData.NameTree.Walk
import NamedData.Ordered
import NamedData.Packet.Matching
import NamedData.Pit.Arena
import NamedData.Pit.Entry

/-!
Everything a node keeps by name, in one tree: the next hops of each prefix, the tokens of the
pending Interests of each name, and the strategy chosen for each prefix. The pending Interests
themselves live in an arena.
-/

namespace NamedData

/-- A face towards the Data under a prefix. -/
structure NextHop where
  cost : Nat
  face : FaceId
deriving DecidableEq

/-- Cheaper hops come first, and lower faces among hops of the same cost. -/
def NextHop.before (a b : NextHop) : Bool :=
  a.cost < b.cost || (a.cost = b.cost && a.face.id < b.face.id)

/-- What is kept at one name. -/
structure NameRecord where
  nextHops : List NextHop := []
  pending : List PitToken := []
  strategy? : Option Nat := none
deriving DecidableEq

instance : Blank NameRecord where
  blank := {}
  isBlank r := r.nextHops.isEmpty && r.pending.isEmpty && r.strategy?.isNone
  isBlank_iff r := by
    cases r
    simp [and_assoc]

/-- The tree of names and the arena of pending Interests. -/
structure Tables where
  tree : NameTree NameRecord
  pit : Arena PitEntry
deriving DecidableEq

namespace Tables

def new (strategy : Nat) : Tables where
  tree := .root { strategy? := some strategy }
  pit := {}

def recordAt (t : Tables) (n : Name) : NameRecord :=
  t.tree.get n

def change (t : Tables) (n : Name) (f : NameRecord → NameRecord) : Tables :=
  { t with tree := t.tree.alter n f }

/-! ### Next hops -/

/-- Makes a face a next hop of a prefix or changes its cost, and says whether it is new there. -/
def addNextHop (t : Tables) (stem : Name) (face : FaceId) (cost : Nat) : Bool × Tables :=
  let hop : NextHop := { cost, face }
  (!(t.recordAt stem).nextHops.any fun h => h.face = face,
    t.change stem fun r =>
      { r with nextHops :=
          insertOrdered NextHop.before hop (r.nextHops.filter fun h => h.face ≠ face) })

/-- Takes a face from the next hops of a prefix and says whether it was one. -/
def removeNextHop (t : Tables) (stem : Name) (face : FaceId) : Bool × Tables :=
  ((t.recordAt stem).nextHops.any fun h => h.face = face,
    t.change stem fun r => { r with nextHops := r.nextHops.filter fun h => h.face ≠ face })

/-- Takes a face from the next hops of every prefix. -/
def forgetNextHop (t : Tables) (face : FaceId) : Tables :=
  { t with tree := t.tree.mapValues fun r =>
      { r with nextHops := r.nextHops.filter fun h => h.face ≠ face } }

/-- The next hops of the longest prefix of a name that has any. -/
def nextHops (t : Tables) (n : Name) : List NextHop :=
  (((t.tree.along n).map NameRecord.nextHops).filter fun hops => !hops.isEmpty).getLast?.getD []

/-! ### Strategies -/

def setStrategy (t : Tables) (stem : Name) (strategy : Nat) : Tables :=
  t.change stem fun r => { r with strategy? := some strategy }

/-- Takes back the choice for a prefix and says whether there was one. The root keeps its own. -/
def unsetStrategy (t : Tables) (stem : Name) : Bool × Tables :=
  if stem.isEmpty then (false, t)
  else ((t.recordAt stem).strategy?.isSome, t.change stem fun r => { r with strategy? := none })

/-- The strategy chosen for the longest prefix of a name that has one. -/
def effectiveStrategy (t : Tables) (n : Name) : Nat :=
  ((t.tree.along n).filterMap NameRecord.strategy?).getLast?.getD 0

/-! ### Pending Interests -/

/-- The first of some tokens whose entry asks for the same as the Interest. -/
def firstAsking (t : Tables) (i : Interest) : List PitToken → Except Fault (Option PitToken)
  | [] => .ok none
  | token :: rest => do
    let entry ← t.pit.get token
    if entry.interest.sameSelectors i then .ok (some token) else t.firstAsking i rest

/-- The pending entry that asks for the same as the Interest. -/
def findPending (t : Tables) (i : Interest) : Except Fault (Option PitToken) :=
  t.firstAsking i (t.recordAt i.name).pending

/-- The pending entry for an Interest, made without records if there is none, and whether it is
new. -/
def findOrInsert (t : Tables) (i : Interest) : Except Fault ((PitToken × Bool) × Tables) := do
  match ← t.findPending i with
  | some token => .ok ((token, false), t)
  | none =>
    let (token, pit) ← t.pit.insert { interest := i.untagged }
    let t := { t with pit }
    .ok ((token, true), t.change i.name fun r => { r with pending := r.pending ++ [token] })

/-- The tokens that may stand for Interests answered by Data of the given name: those on the way
down to the name, and those of the digests right below it. -/
def candidates (t : Tables) (n : Name) : List PitToken :=
  (t.tree.along n).flatMap NameRecord.pending ++
    match t.tree.subtree? n with
    | some s => (s.below.heads.filter fun h => h.1.isImplicitDigest).flatMap fun h => h.2.pending
    | none => []

def withEntries (t : Tables) (tokens : List PitToken) : Except Fault (List (PitToken × PitEntry)) :=
  tokens.mapM fun token => do .ok (token, ← t.pit.get token)

/-- The pending entries that Data of the given name and digest answers, and how many of the entries
looked at had to be compared with the digest. -/
def answeredBy (t : Tables) (n : Name) (digest : Digest) : Except Fault (List PitToken × Nat) := do
  let entries ← t.withEntries (t.candidates n)
  .ok ((entries.filter fun e => e.2.interest.isAnsweredBy n digest).map Prod.fst,
    entries.countP fun e => e.2.interest.namesDigestOf n)

def erase (t : Tables) (token : PitToken) : Option (PitEntry × Tables) :=
  match t.pit.remove token with
  | some (entry, pit) =>
    let t := { t with pit }
    some (entry, t.change entry.name fun r => { r with pending := r.pending.filter (· ≠ token) })
  | none => none

end Tables

end NamedData
