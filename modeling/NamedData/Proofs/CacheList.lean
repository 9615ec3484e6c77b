import NamedData.ContentStore.Cache

/-!
The cache as its callers know it: a list of packets in the order in which they first came in, and
nothing else. A packet is told from others by its name and its digest. All that a call does is said
on this list, without trees, order numbers or eviction classes that are kept apart.
-/

namespace NamedData

/-- A packet of the list. -/
structure ListedData where
  data : Data
  digest : Digest
  /-- The packet answers Interests that ask for fresh Data before this time. -/
  freshUntil : Timestamp
  /-- Pruning after this time removes the packet. -/
  keptUntil : Timestamp
  unsolicited : Bool
deriving DecidableEq

namespace ListedData

def fullName (p : ListedData) : Name :=
  p.data.name.adding (.implicitDigest p.digest)

/-- Whether the packet has the given name and digest. -/
def isCopy (p : ListedData) (name : Name) (digest : Digest) : Bool :=
  p.data.name = name && p.digest = digest

/-- Whether the packet may be given out for an Interest. An Interest for a prefix takes every packet
whose full name it begins; any other takes a packet by its full name or by its name. -/
def answers (p : ListedData) (i : Interest) (now : Timestamp) : Bool :=
  (if i.canBePrefix then i.name.begins p.fullName
    else i.name = p.fullName || i.name = p.data.name) &&
  (!i.mustBeFresh || now < p.freshUntil)

/-- The packet with the least full name. -/
def leastByName? : List ListedData → Option ListedData
  | [] => none
  | p :: rest =>
    match leastByName? rest with
    | some q => if q.fullName.atMost p.fullName then some q else some p
    | none => some p

/-- The packets without the one that goes first: the oldest unsolicited one, or the oldest of all if
none is unsolicited. -/
def withoutVictim (packets : List ListedData) : List ListedData :=
  if packets.any ListedData.unsolicited then packets.eraseP ListedData.unsolicited
  else packets.tail

end ListedData

/-- A cache that is a list of packets, in the order in which they first came in. -/
structure CacheList where
  capacity : Nat
  retention : Millis
  packets : List ListedData := []
deriving DecidableEq

namespace CacheList

open ListedData

def new (capacity : Nat) (retention : Millis) : CacheList where
  capacity := capacity
  retention := retention

def size (l : CacheList) : Nat :=
  l.packets.length

/-- Takes in a packet. A copy of one in the list only changes what is said about it: it may stay
fresh for longer, it is kept for another retention time, and it counts as solicited from the first
solicited copy on. A new one goes to the end of the list, from which one packet goes if it is then
too long. -/
def insert (l : CacheList) (data : Data) (digest : Digest) (unsolicited : Bool) (now : Timestamp) :
    CacheList :=
  let freshUntil := now.adding data.freshness
  let keptUntil := now.adding l.retention
  if l.packets.any fun p => p.isCopy data.name digest then
    { l with packets := l.packets.map fun p =>
        if p.isCopy data.name digest then
          { p with
            freshUntil := max p.freshUntil freshUntil
            keptUntil := keptUntil
            unsolicited := p.unsolicited && unsolicited }
        else p }
  else
    let packets := l.packets ++
      [{ data := { data with incomingFace := none }, digest, freshUntil, keptUntil, unsolicited }]
    { l with packets := if l.capacity < packets.length then withoutVictim packets else packets }

/-- Gives out the packet with the least full name among those that answer the Interest, and keeps
that packet for another retention time. -/
def find (l : CacheList) (i : Interest) (now : Timestamp) : Option Data × CacheList :=
  match leastByName? (l.packets.filter fun p => p.answers i now) with
  | some s =>
    (some { s.data with incomingFace := none },
      { l with packets := l.packets.map fun p =>
          if p.isCopy s.data.name s.digest then { p with keptUntil := now.adding l.retention }
          else p })
  | none => (none, l)

/-- Removes the packets that were to be kept until before a given time. -/
def prune (l : CacheList) (now : Timestamp) : CacheList :=
  { l with packets := l.packets.filter fun p => !(p.keptUntil < now) }

end CacheList

/-! ### Calls -/

/-- A call to a cache. -/
inductive CacheCall where
  | insert (data : Data) (digest : Digest) (unsolicited : Bool) (now : Timestamp)
  | find (i : Interest) (now : Timestamp)
  | prune (now : Timestamp)

/-- What a caller learns from a call: the packet given out, and how many packets there are then. -/
structure CacheReply where
  answer : Option Data
  size : Nat
deriving DecidableEq

namespace Cache

def call (c : Cache) : CacheCall → Option Data × Cache
  | .insert data digest unsolicited now => (none, c.insert data digest unsolicited now)
  | .find i now => c.find i now
  | .prune now => (none, c.prune now)

/-- The cache after some calls. -/
def after (c : Cache) (calls : List CacheCall) : Cache :=
  calls.foldl (fun c k => (c.call k).2) c

/-- What the callers learn, call by call. -/
def replies (c : Cache) : List CacheCall → List CacheReply
  | [] => []
  | k :: rest => ⟨(c.call k).1, (c.call k).2.size⟩ :: (c.call k).2.replies rest

end Cache

namespace CacheList

def call (l : CacheList) : CacheCall → Option Data × CacheList
  | .insert data digest unsolicited now => (none, l.insert data digest unsolicited now)
  | .find i now => l.find i now
  | .prune now => (none, l.prune now)

/-- The list after some calls. -/
def after (l : CacheList) (calls : List CacheCall) : CacheList :=
  calls.foldl (fun l k => (l.call k).2) l

/-- What the callers learn, call by call. -/
def replies (l : CacheList) : List CacheCall → List CacheReply
  | [] => []
  | k :: rest => ⟨(l.call k).1, (l.call k).2.size⟩ :: (l.call k).2.replies rest

end CacheList

/-! ### What the list says about its packets -/

namespace ListedData

/-- Names followed by digests are full names, and no two packets share one. -/
theorem isCopy_iff_fullName {p : ListedData} {name : Name} {digest : Digest} :
    p.isCopy name digest = true ↔ p.fullName = name.adding (.implicitDigest digest) := by
  simp only [isCopy, fullName, Name.adding, Bool.and_eq_true, decide_eq_true_eq]
  constructor
  · rintro ⟨rfl, rfl⟩
    rfl
  · intro same
    obtain ⟨hname, hlast⟩ := List.append_inj' same rfl
    have hbytes : p.digest.bytes = digest.bytes :=
      congrArg Component.bytes (List.cons.inj hlast).1
    refine ⟨hname, ?_⟩
    cases hp : p.digest
    cases digest
    simp_all

theorem mem_of_leastByName? {l : List ListedData} {p : ListedData} (h : leastByName? l = some p) :
    p ∈ l := by
  induction l generalizing p with
  | nil => cases h
  | cons q rest ih =>
      rw [leastByName?] at h
      cases hrest : leastByName? rest with
      | none =>
          rw [hrest] at h
          cases h
          exact List.mem_cons_self
      | some r =>
          simp only [hrest] at h
          split at h <;> cases h
          · exact List.mem_cons_of_mem q (ih hrest)
          · exact List.mem_cons_self

theorem leastByName?_eq_none {l : List ListedData} (h : leastByName? l = none) : l = [] := by
  cases l with
  | nil => rfl
  | cons q rest =>
      rw [leastByName?] at h
      split at h
      · split at h <;> cases h
      · cases h

/-- The packet whose full name is before all others is the least one. -/
theorem leastByName?_eq_some {l : List ListedData} {p : ListedData} (hp : p ∈ l)
    (hleast : ∀ q ∈ l, q = p ∨ compare p.fullName q.fullName = .lt) :
    leastByName? l = some p := by
  induction l with
  | nil => cases hp
  | cons a rest ih =>
      have hrest : ∀ q ∈ rest, q = p ∨ compare p.fullName q.fullName = .lt := fun q member =>
        hleast q (List.mem_cons_of_mem a member)
      rw [leastByName?]
      cases hfound : leastByName? rest with
      | none =>
          have hlast : p = a := by simpa [leastByName?_eq_none hfound] using hp
          rw [hlast]
      | some q =>
          by_cases member : p ∈ rest
          · have same : q = p := Option.some.inj (hfound.symm.trans (ih member hrest))
            subst same
            have hatMost : q.fullName.atMost a.fullName = true := by
              rcases hleast a List.mem_cons_self with rfl | hlt
              · simp [Name.atMost, Std.compare_self]
              · simp [Name.atMost, hlt]
            simp [hatMost]
          · have same : p = a := (List.mem_cons.mp hp).resolve_right member
            subst same
            have hq : q ∈ rest := mem_of_leastByName? hfound
            have hlt : compare p.fullName q.fullName = .lt :=
              (hrest q hq).resolve_left fun same => member (same ▸ hq)
            have hnot : q.fullName.atMost p.fullName = false := by
              simp [Name.atMost, Std.OrientedCmp.gt_of_lt hlt]
            simp [hnot]

theorem withoutVictim_subset {l : List ListedData} {p : ListedData} (h : p ∈ withoutVictim l) :
    p ∈ l := by
  rw [withoutVictim] at h
  split at h
  · exact List.mem_of_mem_eraseP h
  · exact List.mem_of_mem_tail h

end ListedData

namespace CacheList

open ListedData

variable (l : CacheList)

theorem capacity_call (k : CacheCall) : (l.call k).2.capacity = l.capacity := by
  cases k with
  | insert data digest unsolicited now =>
      simp only [call, insert]
      split <;> rfl
  | find i now =>
      simp only [call, find]
      split <;> rfl
  | prune now => rfl

theorem capacity_after (calls : List CacheCall) : (l.after calls).capacity = l.capacity := by
  induction calls generalizing l with
  | nil => rfl
  | cons k rest ih => exact (ih (l.call k).2).trans (l.capacity_call k)

/-- Unsolicited packets never push out solicited ones. -/
theorem insert_keeps_solicited {p : ListedData} (hp : p ∈ l.packets) (hsolicited : p.unsolicited = false)
    (data : Data) (digest : Digest) (now : Timestamp) :
    ∃ p' ∈ (l.insert data digest true now).packets,
      p'.data = p.data ∧ p'.digest = p.digest ∧ p'.unsolicited = false := by
  rw [insert]
  dsimp only
  split
  · refine ⟨_, List.mem_map_of_mem hp, ?_⟩
    split <;> simp [hsolicited]
  · refine ⟨p, ?_, rfl, rfl, hsolicited⟩
    have hlonger : ∀ q : ListedData, p ∈ l.packets ++ [q] := fun q => List.mem_append_left _ hp
    dsimp only
    split
    · rw [withoutVictim, if_pos (by simp), List.mem_eraseP_of_neg (by simp [hsolicited])]
      exact hlonger _
    · exact hlonger _

end CacheList

end NamedData
