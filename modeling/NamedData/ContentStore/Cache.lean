import NamedData.NameTree.Basic
import NamedData.Ordered
import NamedData.Packet.Digest

/-!
A bounded cache of Data. Packets are kept at their full names, together with the order in which they
first came in. When there are too many, the oldest unsolicited packet goes first, and the oldest of
all if none is unsolicited. A packet that is not used for the retention time goes when the cache is
pruned.
-/

namespace NamedData

/-- A packet in the cache. -/
structure CachedData where
  data : Data
  digest : Digest
  /-- The packet answers Interests that ask for fresh Data before this time. -/
  freshUntil : Timestamp
  /-- Pruning after this time removes the packet. -/
  keptUntil : Timestamp
  unsolicited : Bool
  /-- The number of packets that came in before this one. -/
  sequence : Nat
deriving DecidableEq

namespace CachedData

/-- Whether the packet may answer an Interest as far as freshness goes. -/
def mayAnswer (s : CachedData) (mustBeFresh : Bool) (now : Timestamp) : Bool :=
  !mustBeFresh || now < s.freshUntil

/-- Where the packet is kept: at its name followed by its digest. -/
def fullName (s : CachedData) : Name :=
  s.data.name.adding (.implicitDigest s.digest)

end CachedData

instance {α : Type} : Blank (Option α) where
  blank := none
  isBlank := Option.isNone
  isBlank_iff a := by simp

/-- The cached packets by full name, and their full names in order of arrival by eviction class. -/
structure Cache where
  tree : NameTree (Option CachedData) := .root none
  capacity : Nat
  retention : Millis
  unsolicited : List (Nat × Name) := []
  solicited : List (Nat × Name) := []
  nextSequence : Nat := 0
deriving DecidableEq

namespace Cache

/-- How many packets a cache holds unless the settings say otherwise. -/
def defaultCapacity : Nat := 65536

/-- How long an unused packet is kept unless the settings say otherwise. -/
def defaultRetention : Millis := 60000

def new (capacity : Nat) (retention : Millis) : Cache where
  capacity := capacity
  retention := retention

def size (c : Cache) : Nat :=
  c.unsolicited.length + c.solicited.length

/-- Removes the packet with the given full name, if it is there. -/
def remove (c : Cache) (fullName : Name) : Cache :=
  match c.tree.get fullName with
  | some s =>
    { c with
      tree := c.tree.alter fullName fun _ => none
      unsolicited := c.unsolicited.filter fun e => e.1 ≠ s.sequence
      solicited := c.solicited.filter fun e => e.1 ≠ s.sequence }
  | none => c

/-- The full name of the packet that goes first when there are too many. -/
def victim? (c : Cache) : Option Name :=
  match c.unsolicited with
  | e :: _ => some e.2
  | [] => c.solicited.head?.map Prod.snd

/-- The cache without the packet that goes first, if there is one. -/
def evictOne? (c : Cache) : Option Cache :=
  (c.victim?.filter fun fullName => (c.tree.get fullName).isSome).map c.remove

/-- Removes packets, one after another, while there are too many and one can be removed. -/
def evict (c : Cache) : Cache :=
  if c.capacity < c.size then
    match c.evictOne? with
    -- A removal that leaves the orders of arrival as they were would only fail the next time.
    | some rest => if rest.size < c.size then rest.evict else rest
    | none => c
  else c
termination_by c.size

/-- The cached packet after it came in again: it stays fresh and is kept for longer, and it counts as
solicited once a copy was asked for. -/
def refreshed (s : CachedData) (freshUntil keptUntil : Timestamp) (unsolicited : Bool) :
    CachedData :=
  { s with
    freshUntil := max s.freshUntil freshUntil
    keptUntil := keptUntil
    unsolicited := s.unsolicited && unsolicited }

/-- Moves a full name to the solicited ones, keeping its place among all arrivals. -/
def promote (c : Cache) (sequence : Nat) : Cache :=
  match c.unsolicited.find? fun e => e.1 = sequence with
  | some e =>
    { c with
      unsolicited := c.unsolicited.filter fun e => e.1 ≠ sequence
      solicited := insertOrdered (fun a b => a.1 < b.1) e c.solicited }
  | none => c

/-- Takes in a packet. A packet that is already there is refreshed; a cache without room for
anything takes nothing in. -/
def insert (c : Cache) (data : Data) (digest : Digest) (unsolicited : Bool) (now : Timestamp) :
    Cache :=
  let fullName := data.name.adding (.implicitDigest digest)
  let freshUntil := now.adding data.freshness
  let keptUntil := now.adding c.retention
  if c.capacity = 0 then c
  else match c.tree.get fullName with
    | some s =>
      let renewed := refreshed s freshUntil keptUntil unsolicited
      let c := { c with tree := c.tree.alter fullName fun _ => some renewed }
      if s.unsolicited && !unsolicited then c.promote s.sequence else c
    | none =>
      let s : CachedData :=
        { data := { data with incomingFace := none }, digest, freshUntil, keptUntil, unsolicited
          sequence := c.nextSequence }
      let entry := (c.nextSequence, fullName)
      let c := { c with
        tree := c.tree.alter fullName fun _ => some s
        nextSequence := c.nextSequence + 1 }
      evict <|
        if unsolicited then { c with unsolicited := c.unsolicited ++ [entry] }
        else { c with solicited := c.solicited ++ [entry] }

/-- The packets that an Interest may be answered with as far as names go, in the order of their full
names: one at the Interest's own name, and those below it if the name may be a prefix, or only those
directly below it. -/
def candidates (c : Cache) (i : Interest) : List CachedData :=
  match c.tree.subtree? i.name with
  | some s =>
    s.value.toList ++
      (if i.canBePrefix then s.below.values else s.below.heads.map Prod.snd).filterMap id
  | none => []

def answer? (c : Cache) (i : Interest) (now : Timestamp) : Option CachedData :=
  (c.candidates i).find? fun s => s.mayAnswer i.mustBeFresh now

/-- Answers an Interest from the cache. The packet given out is kept for another retention time. -/
def find (c : Cache) (i : Interest) (now : Timestamp) : Option Data × Cache :=
  match c.answer? i now with
  | some s =>
    (some { s.data with incomingFace := none },
      { c with tree := c.tree.alter s.fullName fun v =>
          v.map fun s => { s with keptUntil := now.adding c.retention } })
  | none => (none, c)

/-- Removes every packet that was not used for the retention time. -/
def prune (c : Cache) (now : Timestamp) : Cache :=
  let unused := (c.tree.values.filterMap id).filter fun s => s.keptUntil < now
  (unused.map CachedData.fullName).foldl remove c

end Cache

end NamedData
