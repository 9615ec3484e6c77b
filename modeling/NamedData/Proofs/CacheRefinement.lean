import Mathlib.Data.List.Pairwise
import NamedData.Proofs.CacheList
import NamedData.Proofs.TreeOrder

/-!
The cache refines the list of packets. The packets of a cache, put in the order of their numbers,
say all there is to say about it: the tree holds each of them at its full name and nothing else, and
the two orders of arrival are the numbers and full names of the unsolicited and of the solicited
ones. Each call keeps this and does to the packets what it does to the list.
-/

namespace NamedData

namespace CachedData

/-- What the orders of arrival hold of a packet. -/
def arrival (s : CachedData) : Nat × Name :=
  (s.sequence, s.fullName)

/-- The packet as the list has it. -/
def listed (s : CachedData) : ListedData where
  data := s.data
  digest := s.digest
  freshUntil := s.freshUntil
  keptUntil := s.keptUntil
  unsolicited := s.unsolicited

/-- Packets that all have different full names. -/
def Distinct (stored : List CachedData) : Prop :=
  stored.Pairwise fun s t => s.fullName ≠ t.fullName

variable {s : CachedData} {older newer stored : List CachedData}

theorem Distinct.older_ne (h : Distinct (older ++ s :: newer)) :
    ∀ t ∈ older, t.fullName ≠ s.fullName := by
  intro t member
  exact (List.pairwise_append.mp h).2.2 t member s List.mem_cons_self

theorem Distinct.newer_ne (h : Distinct (older ++ s :: newer)) :
    ∀ t ∈ newer, t.fullName ≠ s.fullName := by
  intro t member
  exact ((List.pairwise_cons.mp (List.pairwise_append.mp h).2.1).1 t member).symm

/-- Another packet may stand among packets that all have other full names. -/
theorem Distinct.between (h : Distinct (older ++ newer))
    (hothers : ∀ t, t ∈ older ∨ t ∈ newer → t.fullName ≠ s.fullName) :
    Distinct (older ++ s :: newer) := by
  obtain ⟨hfirst, hlast, hacross⟩ := List.pairwise_append.mp h
  refine List.pairwise_append.mpr ⟨hfirst, List.pairwise_cons.mpr ⟨?_, hlast⟩, ?_⟩
  · exact fun t member => (hothers t (.inr member)).symm
  · intro t member u hu
    rcases List.mem_cons.mp hu with rfl | later
    · exact hothers t (.inl member)
    · exact hacross t member u later

/-- The packets without the one at a full name. -/
theorem Distinct.filter_ne (h : Distinct (older ++ s :: newer)) :
    (older ++ s :: newer).filter (fun t => t.fullName ≠ s.fullName) = older ++ newer := by
  have holder : older.filter (fun t => t.fullName ≠ s.fullName) = older :=
    List.filter_eq_self.mpr fun t member => by simpa using h.older_ne t member
  have hnewer : newer.filter (fun t => t.fullName ≠ s.fullName) = newer :=
    List.filter_eq_self.mpr fun t member => by simpa using h.newer_ne t member
  rw [List.filter_append, List.filter_cons_of_neg (by simp), holder, hnewer]

/-- The list with the packet at a full name changed. -/
theorem Distinct.map_listed (h : Distinct (older ++ s :: newer)) (f : ListedData → ListedData) :
    ((older ++ s :: newer).map listed).map
        (fun p => if p.isCopy s.data.name s.digest then f p else p) =
      older.map listed ++ f s.listed :: newer.map listed := by
  have hkept : ∀ t : CachedData, t.fullName ≠ s.fullName →
      (if t.listed.isCopy s.data.name s.digest then f t.listed else t.listed) = t.listed := by
    intro t hne
    rw [if_neg fun copy => hne ((ListedData.isCopy_iff_fullName (p := t.listed)).mp copy)]
  have hself : s.listed.isCopy s.data.name s.digest = true := by
    simp [ListedData.isCopy, listed]
  have holder := List.map_congr_left fun t member => hkept t (h.older_ne t member)
  have hnewer := List.map_congr_left fun t member => hkept t (h.newer_ne t member)
  simp [List.map_append, Function.comp_def, holder, hnewer, hself]

/-- Of a packet that fits an Interest's name, the full name goes on from that name: anyhow if the
Interest is for a prefix, and otherwise by no more than the digest. -/
theorem fits_iff (s : CachedData) (i : Interest) :
    (if i.canBePrefix then i.name.begins s.fullName
        else i.name = s.fullName || i.name = s.data.name) = true ↔
      ∃ n, s.fullName = i.name ++ n ∧ (i.canBePrefix = true ∨ n.length ≤ 1) := by
  cases i.canBePrefix with
  | true =>
      simp only [if_true, Name.begins_iff_prefix, true_or, and_true]
      exact ⟨fun ⟨n, hn⟩ => ⟨n, hn.symm⟩, fun ⟨n, hn⟩ => ⟨n, hn.symm⟩⟩
  | false =>
      simp only [Bool.false_eq_true, if_false, false_or, Bool.or_eq_true, decide_eq_true_eq]
      constructor
      · rintro (same | same)
        · exact ⟨[], by simp [same], by simp⟩
        · exact ⟨[.implicitDigest s.digest], by rw [same]; rfl, by simp⟩
      · rintro ⟨n, same, hlength⟩
        match n, hlength with
        | [], _ => exact .inl (by simpa using same.symm)
        | [d], _ => exact .inr (List.append_inj' same rfl).1.symm

end CachedData

open CachedData

/-! ### What the tree holds -/

/-- A tree that holds some packets, each at its full name, and nothing else. -/
structure NameTree.Stores (t : NameTree (Option CachedData)) (stored : List CachedData) : Prop where
  ordered : t.Ordered
  filled : t.Filled
  get_iff : ∀ n s, t.get n = some s ↔ s ∈ stored ∧ s.fullName = n
  distinct : Distinct stored

namespace NameTree.Stores

variable {t : NameTree (Option CachedData)} {stored older newer : List CachedData} {s : CachedData}
  {n : Name}

theorem get_of_mem (h : t.Stores stored) (hs : s ∈ stored) : t.get s.fullName = some s :=
  (h.get_iff s.fullName s).mpr ⟨hs, rfl⟩

theorem empty (value : Option CachedData) (h : value = none) : (NameTree.root value).Stores [] where
  ordered := ordered_root value
  filled := filled_root value
  get_iff n s := by
    subst h
    cases n <;> simp [NameTree.root, get_cons_below_nil, Blank.blank]
  distinct := List.Pairwise.nil

/-- What a change at one name does: the packet that was there, if any, makes room for another one or
for none. -/
theorem change {old new : Option CachedData} (h : t.Stores (older ++ old.toList ++ newer))
    (hget : t.get n = old) {f : Option CachedData → Option CachedData} (hnew : f old = new)
    (hname : ∀ s, new = some s → s.fullName = n) :
    (t.alter n f).Stores (older ++ new.toList ++ newer) := by
  have hothers : ∀ s, s ∈ older ∨ s ∈ newer → s.fullName ≠ n := by
    intro s member same
    have hs : s ∈ older ++ old.toList ++ newer := by
      simp only [List.mem_append]
      rcases member with member | member
      · exact .inl (.inl member)
      · exact .inr member
    have hold : old = some s := by rw [← hget, ← same]; exact h.get_of_mem hs
    have hdistinct : Distinct (older ++ s :: newer) := by simpa [hold] using h.distinct
    rcases member with member | member
    · exact hdistinct.older_ne s member rfl
    · exact hdistinct.newer_ne s member rfl
  have hsublist : (older ++ newer).Sublist (older ++ old.toList ++ newer) := by
    rw [List.append_assoc]
    exact List.Sublist.append_left (List.sublist_append_right _ _) older
  refine ⟨ordered_alter h.ordered n f, filled_alter h.filled n f, ?_, ?_⟩
  · intro m s
    rw [get_alter h.ordered]
    split
    next same =>
      subst same
      rw [hget, hnew]
      simp only [List.mem_append, Option.mem_toList]
      constructor
      · intro hs
        exact ⟨.inl (.inr hs), hname s hs⟩
      · rintro ⟨(member | hs) | member, same⟩
        · exact absurd same (hothers s (.inl member))
        · exact hs
        · exact absurd same (hothers s (.inr member))
    next other =>
      rw [h.get_iff]
      have hkept : ∀ {o : Option CachedData}, (∀ s, o = some s → s.fullName = n) →
          s.fullName = m → (s ∈ older ++ o.toList ++ newer ↔ s ∈ older ∨ s ∈ newer) := by
        intro o ho same
        have hnot : o ≠ some s := fun hs => other (same ▸ ho s hs)
        simp [hnot]
      have hold : ∀ s, old = some s → s.fullName = n := fun s hs =>
        ((h.get_iff n s).mp (hget.trans hs)).2
      refine and_congr_left fun same => ?_
      rw [hkept hold same, hkept hname same]
  · have hrest : Distinct (older ++ newer) := h.distinct.sublist hsublist
    cases hs : new with
    | none => simpa using hrest
    | some s =>
        rw [Option.toList_some, List.append_assoc]
        exact hrest.between fun u member => hname s hs ▸ hothers u member

/-- A packet that is read stands somewhere among the others. -/
theorem split (h : t.Stores stored) (hget : t.get n = some s) :
    ∃ older newer, stored = older ++ s :: newer ∧ s.fullName = n := by
  obtain ⟨hs, hname⟩ := (h.get_iff n s).mp hget
  obtain ⟨older, newer, rfl⟩ := List.append_of_mem hs
  exact ⟨older, newer, rfl, hname⟩

theorem replace (h : t.Stores (older ++ s :: newer)) {f : Option CachedData → Option CachedData}
    {s' : CachedData} (hnew : f (some s) = some s') (hname : s'.fullName = s.fullName) :
    (t.alter s.fullName f).Stores (older ++ s' :: newer) := by
  have hs : t.get s.fullName = some s := h.get_of_mem (by simp)
  have h' : t.Stores (older ++ (some s).toList ++ newer) := by simpa using h
  have := h'.change hs hnew fun u hu => Option.some.inj hu ▸ hname
  simpa using this

theorem drop (h : t.Stores (older ++ s :: newer)) :
    (t.alter s.fullName fun _ => none).Stores (older ++ newer) := by
  have hs : t.get s.fullName = some s := h.get_of_mem (by simp)
  have h' : t.Stores (older ++ (some s).toList ++ newer) := by simpa using h
  have := h'.change hs (f := fun _ => none) rfl nofun
  simpa using this

theorem add (h : t.Stores stored) (hget : t.get s.fullName = none) :
    (t.alter s.fullName fun _ => some s).Stores (stored ++ [s]) := by
  have h' : t.Stores (stored ++ (none : Option CachedData).toList ++ []) := by simpa using h
  have := h'.change hget (f := fun _ => some s) rfl fun u hu => Option.some.inj hu ▸ rfl
  simpa using this

theorem mem_values (h : t.Stores stored) : s ∈ t.values.filterMap id ↔ s ∈ stored := by
  have hread : ∀ n, (n, some s) ∈ t.paths ↔ t.get n = some s :=
    mem_paths_iff h.ordered (Option.some_ne_none s)
  rw [values_eq_paths, List.mem_filterMap]
  simp only [List.mem_map, id_eq, exists_eq_right, Prod.exists]
  constructor
  · rintro ⟨n, member⟩
    exact ((h.get_iff n s).mp ((hread n).mp member)).1
  · intro hs
    exact ⟨s.fullName, (hread _).mpr (h.get_of_mem hs)⟩

end NameTree.Stores

/-! ### What the cache holds -/

namespace Cache

/-- A cache whose packets, in the order of their numbers, are the given ones. -/
structure Holds (c : Cache) (stored : List CachedData) : Prop where
  tree : c.tree.Stores stored
  increasing : stored.Pairwise fun s t => s.sequence < t.sequence
  numbered : ∀ s ∈ stored, s.sequence < c.nextSequence
  unsolicited : c.unsolicited = (stored.filter fun s => s.unsolicited).map arrival
  solicited : c.solicited = (stored.filter fun s => !s.unsolicited).map arrival

variable {c : Cache} {stored older newer : List CachedData} {s : CachedData}

theorem holds_new (capacity : Nat) (retention : Millis) : (new capacity retention).Holds [] where
  tree := NameTree.Stores.empty none rfl
  increasing := List.Pairwise.nil
  numbered := nofun
  unsolicited := rfl
  solicited := rfl

theorem Holds.size_eq (h : c.Holds stored) : c.size = stored.length := by
  rw [size, h.unsolicited, h.solicited, List.length_map, List.length_map, ← List.length_append]
  exact (List.filter_append_perm (fun s : CachedData => s.unsolicited) stored).length_eq

theorem Holds.older_lt (h : c.Holds (older ++ s :: newer)) :
    ∀ t ∈ older, t.sequence < s.sequence := by
  intro t member
  exact (List.pairwise_append.mp h.increasing).2.2 t member s List.mem_cons_self

theorem Holds.newer_gt (h : c.Holds (older ++ s :: newer)) :
    ∀ t ∈ newer, s.sequence < t.sequence :=
  (List.pairwise_cons.mp (List.pairwise_append.mp h.increasing).2.1).1

/-! ### Removing and evicting -/

/-- An order of arrival without the number of one packet. -/
theorem Holds.filter_arrivals (h : c.Holds (older ++ s :: newer)) (p : CachedData → Bool) :
    (((older ++ s :: newer).filter p).map arrival).filter (fun e => e.1 ≠ s.sequence) =
      ((older ++ newer).filter p).map arrival := by
  have hothers : ∀ l : List CachedData, (∀ t ∈ l, t.sequence ≠ s.sequence) →
      ((l.filter p).map arrival).filter (fun e => e.1 ≠ s.sequence) = (l.filter p).map arrival := by
    intro l hl
    refine List.filter_eq_self.mpr fun e member => ?_
    obtain ⟨t, ht, rfl⟩ := List.mem_map.mp member
    exact decide_eq_true (hl t (List.mem_filter.mp ht).1)
  have hself : (([s].filter p).map arrival).filter (fun e => e.1 ≠ s.sequence) = [] := by
    by_cases hp : p s <;> simp [hp, arrival]
  have holder := hothers older fun t member => Nat.ne_of_lt (h.older_lt t member)
  have hnewer := hothers newer fun t member => Nat.ne_of_gt (h.newer_gt t member)
  calc (((older ++ s :: newer).filter p).map arrival).filter (fun e => e.1 ≠ s.sequence)
      = (((older ++ ([s] ++ newer)).filter p).map arrival).filter (fun e => e.1 ≠ s.sequence) := rfl
    _ = (older.filter p).map arrival ++ ([] ++ (newer.filter p).map arrival) := by
        simp only [List.filter_append, List.map_append, holder, hnewer, hself]
    _ = ((older ++ newer).filter p).map arrival := by simp

theorem Holds.remove (h : c.Holds (older ++ s :: newer)) :
    (c.remove s.fullName).Holds (older ++ newer) := by
  have hread : c.tree.get s.fullName = some s := h.tree.get_of_mem (by simp)
  have hsub : (older ++ newer).Sublist (older ++ s :: newer) :=
    (List.sublist_cons_self s newer).append_left older
  have hremove : c.remove s.fullName =
      { c with
        tree := c.tree.alter s.fullName fun _ => none
        unsolicited := c.unsolicited.filter fun e => e.1 ≠ s.sequence
        solicited := c.solicited.filter fun e => e.1 ≠ s.sequence } := by
    rw [Cache.remove, hread]
  rw [hremove]
  refine ⟨h.tree.drop, h.increasing.sublist hsub, fun t ht => h.numbered t (hsub.subset ht), ?_, ?_⟩
  · rw [h.unsolicited]
    exact h.filter_arrivals _
  · rw [h.solicited]
    exact h.filter_arrivals _

theorem remove_of_get_none {n : Name} (h : c.tree.get n = none) : c.remove n = c := by
  rw [remove, h]

@[simp] theorem capacity_remove (c : Cache) (n : Name) : (c.remove n).capacity = c.capacity := by
  rw [remove]
  split <;> rfl

@[simp] theorem retention_remove (c : Cache) (n : Name) : (c.remove n).retention = c.retention := by
  rw [remove]
  split <;> rfl

/-- The packet that goes first is found in the tree, and is the one that leaves the list. -/
theorem Holds.victim (h : c.Holds stored) (hsome : stored ≠ []) :
    ∃ older s newer, stored = older ++ s :: newer ∧ c.victim? = some s.fullName ∧
      ListedData.withoutVictim (stored.map listed) = (older ++ newer).map listed := by
  cases hfilter : stored.filter fun s => s.unsolicited with
  | cons s rest =>
      obtain ⟨older, newer, rfl, hnone, hs, -⟩ := List.filter_eq_cons_iff.mp hfilter
      refine ⟨older, s, newer, rfl, ?_, ?_⟩
      · rw [victim?, h.unsolicited, hfilter]
        rfl
      · have hany : ((older ++ s :: newer).map listed).any ListedData.unsolicited = true := by
          simp [listed, hs]
        have holder : ∀ p ∈ older.map listed, ¬ p.unsolicited = true := by
          intro p member
          obtain ⟨t, ht, rfl⟩ := List.mem_map.mp member
          exact hnone t ht
        rw [ListedData.withoutVictim, if_pos hany, List.map_append,
          List.eraseP_append_right _ holder, List.map_cons,
          List.eraseP_cons_of_pos (p := ListedData.unsolicited) (a := s.listed) hs,
          List.map_append]
  | nil =>
      obtain ⟨s, newer, rfl⟩ := List.exists_cons_of_ne_nil hsome
      have hall : ∀ t ∈ s :: newer, ¬ t.unsolicited = true := List.filter_eq_nil_iff.mp hfilter
      refine ⟨[], s, newer, rfl, ?_, ?_⟩
      · have hs : s.unsolicited = false := by simpa using hall s List.mem_cons_self
        rw [victim?, h.unsolicited, hfilter, h.solicited]
        simp [hs, arrival]
      · have hany : ¬ ((s :: newer).map listed).any ListedData.unsolicited = true := by
          simpa [listed] using hall
        rw [ListedData.withoutVictim, if_neg hany]
        rfl

/-- One removal takes out the packet that leaves the list. -/
theorem Holds.evictOne (h : c.Holds stored) (hsome : stored ≠ []) :
    ∃ rest kept, c.evictOne? = some rest ∧ rest.Holds kept ∧ kept.length + 1 = stored.length ∧
      kept.map listed = ListedData.withoutVictim (stored.map listed) := by
  obtain ⟨older, s, newer, rfl, hvictim, hwithout⟩ := h.victim hsome
  have hread : c.tree.get s.fullName = some s := h.tree.get_of_mem (by simp)
  refine ⟨c.remove s.fullName, older ++ newer, ?_, h.remove, ?_, hwithout.symm⟩
  · rw [evictOne?, hvictim, Option.filter_some, hread]
    rfl
  · simp only [List.length_append, List.length_cons]
    omega

theorem evictOne?_eq_some {rest : Cache} (h : c.evictOne? = some rest) :
    ∃ n, rest = c.remove n := by
  obtain ⟨n, -, rfl⟩ := Option.map_eq_some_iff.mp h
  exact ⟨n, rfl⟩

@[simp] theorem capacity_evict (c : Cache) : c.evict.capacity = c.capacity := by
  fun_induction evict c with
  | case1 c hfull rest hone hless ih =>
      obtain ⟨n, rfl⟩ := evictOne?_eq_some hone
      exact ih.trans (capacity_remove c n)
  | case2 c hfull rest hone =>
      obtain ⟨n, rfl⟩ := evictOne?_eq_some hone
      exact capacity_remove c n
  | case3 => rfl
  | case4 => rfl

@[simp] theorem retention_evict (c : Cache) : c.evict.retention = c.retention := by
  fun_induction evict c with
  | case1 c hfull rest hone hless ih =>
      obtain ⟨n, rfl⟩ := evictOne?_eq_some hone
      exact ih.trans (retention_remove c n)
  | case2 c hfull rest hone =>
      obtain ⟨n, rfl⟩ := evictOne?_eq_some hone
      exact retention_remove c n
  | case3 => rfl
  | case4 => rfl

theorem evict_of_fits (h : c.Holds stored) (hfits : stored.length ≤ c.capacity) : c.evict = c := by
  rw [evict, h.size_eq, if_neg (Nat.not_lt.mpr hfits)]

/-- Packets go one after another, as they leave the list, until there are no more than there may
be. -/
theorem Holds.evict (h : c.Holds stored) : ∃ kept, c.evict.Holds kept ∧
    kept.length = min stored.length c.capacity ∧
    kept.map listed =
      ListedData.withoutVictim^[stored.length - c.capacity] (stored.map listed) := by
  induction hexcess : stored.length - c.capacity generalizing c stored with
  | zero =>
      have hfits : stored.length ≤ c.capacity := Nat.sub_eq_zero_iff_le.mp hexcess
      rw [evict_of_fits h hfits]
      exact ⟨stored, h, (Nat.min_eq_left hfits).symm, rfl⟩
  | succ excess ih =>
      have hfull : c.capacity < stored.length := by omega
      obtain ⟨rest, kept, hone, hrest, hlength, hwithout⟩ :=
        h.evictOne (List.ne_nil_of_length_pos (Nat.zero_lt_of_lt hfull))
      obtain ⟨n, hremove⟩ := evictOne?_eq_some hone
      have hcapacity : rest.capacity = c.capacity := hremove ▸ capacity_remove c n
      have hless : rest.size < c.size := by
        rw [hrest.size_eq, h.size_eq]
        omega
      obtain ⟨left, hleft, hcount, hlisted⟩ := ih hrest (by omega)
      have hevict : c.evict = rest.evict := by
        rw [Cache.evict, h.size_eq, if_pos hfull, hone]
        exact if_pos (h.size_eq ▸ hless)
      rw [hevict]
      refine ⟨left, hleft, by omega, ?_⟩
      rw [hlisted, hwithout, Function.iterate_succ_apply]

/-! ### Changing a packet in its place -/

theorem Holds.sequences (h : c.Holds (older ++ s :: newer)) {s' : CachedData}
    (hsequence : s'.sequence = s.sequence) :
    ((older ++ s' :: newer).Pairwise fun t u => t.sequence < u.sequence) ∧
      ∀ t ∈ older ++ s' :: newer, t.sequence < c.nextSequence := by
  have hsame : (older ++ s' :: newer).map CachedData.sequence =
      (older ++ s :: newer).map CachedData.sequence := by
    simp [hsequence]
  have hincreasing := List.pairwise_map.mpr h.increasing
  have hnumbered : ∀ n ∈ (older ++ s :: newer).map CachedData.sequence, n < c.nextSequence :=
    List.forall_mem_map.mpr h.numbered
  rw [← hsame] at hincreasing hnumbered
  exact ⟨List.pairwise_map.mp hincreasing, List.forall_mem_map.mp hnumbered⟩

/-- A packet that keeps its place and its class changes in the tree alone. -/
theorem Holds.replace (h : c.Holds (older ++ s :: newer))
    {f : Option CachedData → Option CachedData} (s' : CachedData) (hnew : f (some s) = some s')
    (harrival : s'.arrival = s.arrival) (hclass : s'.unsolicited = s.unsolicited) :
    { c with tree := c.tree.alter s.fullName f }.Holds (older ++ s' :: newer) := by
  obtain ⟨hsequence, hname⟩ := Prod.mk.inj harrival
  obtain ⟨hincreasing, hnumbered⟩ := h.sequences hsequence
  have horder : ∀ p : Bool → Bool,
      ((older ++ s' :: newer).filter fun t => p t.unsolicited).map arrival =
        ((older ++ s :: newer).filter fun t => p t.unsolicited).map arrival := by
    intro p
    by_cases hp : p s.unsolicited <;> simp [hclass, hp, harrival]
  exact ⟨h.tree.replace hnew hname, hincreasing, hnumbered, h.unsolicited.trans (horder id).symm,
    h.solicited.trans (horder not).symm⟩

/-- A number goes between the smaller and the larger ones. -/
theorem insertOrdered_between {e : Nat × Name} {smaller larger : List (Nat × Name)}
    (hsmaller : ∀ d ∈ smaller, d.1 < e.1) (hlarger : ∀ d ∈ larger, e.1 < d.1) :
    insertOrdered (fun a b => a.1 < b.1) e (smaller ++ larger) = smaller ++ e :: larger := by
  induction smaller with
  | nil =>
      cases larger with
      | nil => rfl
      | cons d rest =>
          have hnot : ¬ d.1 < e.1 := Nat.lt_asymm (hlarger d List.mem_cons_self)
          simp [insertOrdered, hnot]
  | cons d rest ih =>
      have hlt : d.1 < e.1 := hsmaller d List.mem_cons_self
      have hrest := ih fun d' member => hsmaller d' (List.mem_cons_of_mem d member)
      simp [insertOrdered, hlt, hrest]

@[simp] theorem capacity_promote (c : Cache) (sequence : Nat) :
    (c.promote sequence).capacity = c.capacity := by
  rw [promote]
  split <;> rfl

@[simp] theorem retention_promote (c : Cache) (sequence : Nat) :
    (c.promote sequence).retention = c.retention := by
  rw [promote]
  split <;> rfl

/-- An unsolicited packet is found by its number. -/
theorem Holds.find?_unsolicited (h : c.Holds (older ++ s :: newer)) (hs : s.unsolicited = true) :
    c.unsolicited.find? (fun e => e.1 = s.sequence) = some s.arrival := by
  have hnone : ((older.filter fun t => t.unsolicited).map arrival).find?
      (fun e => e.1 = s.sequence) = none := by
    refine List.find?_eq_none.mpr fun e member => ?_
    obtain ⟨t, ht, rfl⟩ := List.mem_map.mp member
    have hlt : t.sequence < s.sequence := h.older_lt t (List.mem_filter.mp ht).1
    exact fun same => Nat.ne_of_lt hlt (of_decide_eq_true same)
  rw [h.unsolicited, List.filter_append, List.map_append, List.find?_append, hnone,
    List.filter_cons_of_pos hs]
  simp [arrival]

/-- The number of a packet goes between those of the older and of the newer ones. -/
theorem Holds.insertOrdered_arrival (h : c.Holds (older ++ s :: newer)) (p : CachedData → Bool) :
    insertOrdered (fun a b => a.1 < b.1) s.arrival
        ((older.filter p).map arrival ++ (newer.filter p).map arrival) =
      (older.filter p).map arrival ++ s.arrival :: (newer.filter p).map arrival := by
  apply insertOrdered_between
  · intro d member
    obtain ⟨t, ht, rfl⟩ := List.mem_map.mp member
    exact h.older_lt t (List.mem_filter.mp ht).1
  · intro d member
    obtain ⟨t, ht, rfl⟩ := List.mem_map.mp member
    exact h.newer_gt t (List.mem_filter.mp ht).1

/-- A packet that becomes solicited takes its place among all solicited ones. -/
theorem Holds.promote (h : c.Holds (older ++ s :: newer)) (hs : s.unsolicited = true)
    {f : Option CachedData → Option CachedData} {s' : CachedData} (hnew : f (some s) = some s')
    (harrival : s'.arrival = s.arrival) (hclass : s'.unsolicited = false) :
    ({ c with tree := c.tree.alter s.fullName f }.promote s.sequence).Holds
      (older ++ s' :: newer) := by
  obtain ⟨hsequence, hname⟩ := Prod.mk.inj harrival
  obtain ⟨hincreasing, hnumbered⟩ := h.sequences hsequence
  have hpromote : { c with tree := c.tree.alter s.fullName f }.promote s.sequence =
      { c with
        tree := c.tree.alter s.fullName f
        unsolicited := c.unsolicited.filter fun e => e.1 ≠ s.sequence
        solicited := insertOrdered (fun a b => a.1 < b.1) s.arrival c.solicited } := by
    simp only [Cache.promote, h.find?_unsolicited hs]
  rw [hpromote]
  refine ⟨h.tree.replace hnew hname, hincreasing, hnumbered, ?_, ?_⟩
  · change c.unsolicited.filter _ = _
    rw [h.unsolicited, h.filter_arrivals]
    simp [hclass]
  · change insertOrdered _ s.arrival c.solicited = _
    rw [h.solicited]
    simpa [hs, hclass, harrival] using h.insertOrdered_arrival fun t => !t.unsolicited

/-- A new packet gets the next number. -/
theorem Holds.append (h : c.Holds stored) (hread : c.tree.get s.fullName = none)
    (hsequence : s.sequence = c.nextSequence) {c' : Cache}
    (htree : c'.tree = c.tree.alter s.fullName fun _ => some s)
    (hnext : c'.nextSequence = c.nextSequence + 1)
    (hunsolicited : c'.unsolicited =
      c.unsolicited ++ if s.unsolicited then [s.arrival] else [])
    (hsolicited : c'.solicited = c.solicited ++ if s.unsolicited then [] else [s.arrival]) :
    c'.Holds (stored ++ [s]) := by
  refine ⟨htree ▸ h.tree.add hread, ?_, ?_, ?_, ?_⟩
  · refine List.pairwise_append.mpr ⟨h.increasing, List.pairwise_singleton _ s, ?_⟩
    intro t ht u hu
    rw [List.mem_singleton.mp hu, hsequence]
    exact h.numbered t ht
  · intro t ht
    rcases List.mem_append.mp ht with old | new
    · exact hnext ▸ Nat.lt_succ_of_lt (h.numbered t old)
    · rw [List.mem_singleton.mp new, hsequence, hnext]
      exact Nat.lt_succ_self _
  · rw [hunsolicited, h.unsolicited]
    cases hs : s.unsolicited <;> simp [hs]
  · rw [hsolicited, h.solicited]
    cases hs : s.unsolicited <;> simp [hs]

/-! ### Finding -/

/-- The names below which candidates are looked for, with the values at them. -/
def visited (t : NameTree (Option CachedData)) (deep : Bool) : List (Name × Option CachedData) :=
  ([], t.value) :: if deep then t.below.paths else t.below.heads.map fun e => ([e.1], e.2)

theorem visited_increasing {t : NameTree (Option CachedData)} (ht : t.Ordered) (deep : Bool) :
    (visited t deep).Pairwise fun e e' => compare e.1 e'.1 = .lt := by
  cases deep with
  | true => exact NameTree.paths_increasing ht
  | false =>
      refine List.pairwise_cons.mpr ⟨?_, List.pairwise_map.mpr ?_⟩
      · intro e member
        obtain ⟨head, -, rfl⟩ := List.mem_map.mp member
        rfl
      · exact (Branches.heads_increasing ht).imp fun hlt => Name.lt_of_head_lt hlt [] []

theorem mem_visited {t : NameTree (Option CachedData)} (ht : t.Ordered) (deep : Bool) (n : Name) :
    (n, some s) ∈ visited t deep ↔ t.get n = some s ∧ (deep = true ∨ n.length ≤ 1) := by
  have hpaths := NameTree.mem_paths_iff ht (Option.some_ne_none s) n
  cases deep with
  | true => exact hpaths.trans (by simp)
  | false =>
      cases n with
      | nil => simp [visited, eq_comm]
      | cons c rest =>
          have hheads := Branches.mem_heads_iff ht c (some s)
          cases rest with
          | nil =>
              have hget : t.get [c] = some s ↔ ∃ below, t.below.find? c = some ⟨some s, below⟩ := by
                rw [NameTree.get_cons, Branches.get]
                cases t.below.find? c with
                | none => simp [Blank.blank]
                | some u =>
                    cases u
                    simp
              rw [hget, ← hheads]
              simp [visited]
          | cons d more => simp [visited]

theorem candidates_eq (c : Cache) (i : Interest) {t : NameTree (Option CachedData)}
    (ht : c.tree.subtree? i.name = some t) :
    c.candidates i = (visited t i.canBePrefix).filterMap Prod.snd := by
  have hbelow : (if i.canBePrefix then t.below.values else t.below.heads.map Prod.snd) =
      (if i.canBePrefix then t.below.paths else t.below.heads.map fun e => ([e.1], e.2)).map
        Prod.snd := by
    cases i.canBePrefix <;> simp [Branches.values_eq_paths, Function.comp_def]
  rw [candidates, ht, visited, List.filterMap_cons]
  dsimp only
  rw [hbelow, List.filterMap_map]
  cases t.value <;> rfl

/-- The candidates come in increasing order of their full names. -/
theorem Holds.candidates_increasing (h : c.Holds stored) (i : Interest) :
    (c.candidates i).Pairwise fun s t => compare s.fullName t.fullName = .lt := by
  cases ht : c.tree.subtree? i.name with
  | none =>
      rw [candidates, ht]
      exact List.Pairwise.nil
  | some t =>
      have hordered : t.Ordered := NameTree.ordered_of_subtree? h.tree.ordered ht
      have hname : ∀ n s, (n, some s) ∈ visited t i.canBePrefix → s.fullName = i.name ++ n := by
        intro n s member
        have hread := ((mem_visited hordered i.canBePrefix n).mp member).1
        have hget : c.tree.get (i.name ++ n) = some s := by
          simp [NameTree.get_append, ht, hread]
        exact ((h.tree.get_iff _ s).mp hget).2
      rw [candidates_eq c i ht]
      refine List.pairwise_filterMap.mpr ?_
      refine (visited_increasing hordered i.canBePrefix).imp_of_mem ?_
      rintro ⟨n, _⟩ ⟨m, _⟩ hn hm hlt s rfl s' rfl
      rw [hname n s hn, hname m s' hm, Name.compare_append]
      exact hlt

/-- The candidates are the packets that fit the Interest's name. -/
theorem Holds.mem_candidates (h : c.Holds stored) (i : Interest) :
    s ∈ c.candidates i ↔ s ∈ stored ∧
      (if i.canBePrefix then i.name.begins s.fullName
        else i.name = s.fullName || i.name = s.data.name) = true := by
  rw [s.fits_iff i]
  cases ht : c.tree.subtree? i.name with
  | none =>
      rw [candidates, ht]
      refine ⟨nofun, ?_⟩
      rintro ⟨hs, n, same, -⟩
      have hget := h.tree.get_of_mem hs
      rw [same, NameTree.get_append, ht] at hget
      cases hget
  | some t =>
      have hordered : t.Ordered := NameTree.ordered_of_subtree? h.tree.ordered ht
      have hread : ∀ n, t.get n = some s ↔ s ∈ stored ∧ s.fullName = i.name ++ n := by
        intro n
        rw [← h.tree.get_iff, NameTree.get_append, ht]
        simp
      rw [candidates_eq c i ht]
      simp only [List.mem_filterMap, Prod.exists, exists_eq_right, mem_visited hordered, hread]
      constructor
      · rintro ⟨n, ⟨hs, same⟩, hdeep⟩
        exact ⟨hs, n, same, hdeep⟩
      · rintro ⟨hs, n, same, hdeep⟩
        exact ⟨n, ⟨hs, same⟩, hdeep⟩

/-- The packet given out comes before all other candidates that are fresh enough. -/
theorem Holds.answer?_first (h : c.Holds stored) {i : Interest} {now : Timestamp}
    (hanswer : c.answer? i now = some s) :
    (s ∈ c.candidates i ∧ s.mayAnswer i.mustBeFresh now = true) ∧
      ∀ t ∈ c.candidates i, t.mayAnswer i.mustBeFresh now = true →
        t = s ∨ compare s.fullName t.fullName = .lt := by
  obtain ⟨hmay, before, later, hcandidates, hbefore⟩ := List.find?_eq_some_iff_append.mp hanswer
  refine ⟨⟨by simp [hcandidates], hmay⟩, ?_⟩
  intro t hcandidate htmay
  have hincreasing := h.candidates_increasing i
  rw [hcandidates] at hcandidate hincreasing
  rcases List.mem_append.mp hcandidate with first | rest
  · exact absurd htmay (by simpa using hbefore t first)
  · rcases List.mem_cons.mp rest with rfl | last
    · exact .inl rfl
    · exact .inr ((List.pairwise_cons.mp (List.pairwise_append.mp hincreasing).2.1).1 t last)

/-- The cache answers with the packet that the list answers with. -/
theorem Holds.answer?_eq (h : c.Holds stored) (i : Interest) (now : Timestamp) :
    ListedData.leastByName? ((stored.map listed).filter fun p => p.answers i now) =
      (c.answer? i now).map listed := by
  have hanswers : ∀ t, (t ∈ c.candidates i ∧ t.mayAnswer i.mustBeFresh now = true) ↔
      t ∈ stored ∧ t.listed.answers i now = true := by
    intro t
    rw [h.mem_candidates i, ListedData.answers, Bool.and_eq_true, and_assoc]
    rfl
  cases hfound : c.answer? i now with
  | none =>
      have hnone := List.find?_eq_none.mp hfound
      have hempty : (stored.map listed).filter (fun p => p.answers i now) = [] := by
        refine List.filter_eq_nil_iff.mpr fun p member hp => ?_
        obtain ⟨t, ht, rfl⟩ := List.mem_map.mp member
        obtain ⟨hcandidate, hmay⟩ := (hanswers t).mpr ⟨ht, hp⟩
        exact hnone t hcandidate hmay
      rw [hempty]
      rfl
  | some s =>
      obtain ⟨hgiven, hfirst⟩ := h.answer?_first hfound
      obtain ⟨hstored, hlisted⟩ := (hanswers s).mp hgiven
      refine ListedData.leastByName?_eq_some
        (List.mem_filter.mpr ⟨List.mem_map_of_mem hstored, hlisted⟩) ?_
      intro p member
      obtain ⟨hp, hpanswers⟩ := List.mem_filter.mp member
      obtain ⟨t, ht, rfl⟩ := List.mem_map.mp hp
      obtain ⟨hcandidate, hmay⟩ := (hanswers t).mpr ⟨ht, hpanswers⟩
      exact (hfirst t hcandidate hmay).imp_left fun same => congrArg listed same

/-! ### The simulation -/

/-- A cache with room for its packets and the list of the same packets. -/
structure Mirrors (c : Cache) (l : CacheList) (stored : List CachedData) : Prop where
  holds : c.Holds stored
  fits : stored.length ≤ c.capacity
  list : l = { capacity := c.capacity, retention := c.retention, packets := stored.map listed }

variable {l : CacheList}

theorem mirrors_new (capacity : Nat) (retention : Millis) :
    (new capacity retention).Mirrors (CacheList.new capacity retention) [] where
  holds := holds_new capacity retention
  fits := Nat.zero_le capacity
  list := rfl

theorem Mirrors.size_eq (h : c.Mirrors l stored) : c.size = l.size := by
  rw [h.holds.size_eq, h.list, CacheList.size, List.length_map]

theorem Mirrors.find (h : c.Mirrors l stored) (i : Interest) (now : Timestamp) :
    (c.find i now).1 = (l.find i now).1 ∧
      ∃ stored', (c.find i now).2.Mirrors (l.find i now).2 stored' := by
  obtain ⟨hholds, hfits, rfl⟩ := h
  have hsame := hholds.answer?_eq i now
  cases hanswer : c.answer? i now with
  | none =>
      rw [hanswer] at hsame
      simp only [Cache.find, hanswer, CacheList.find, hsame, Option.map_none, true_and]
      exact ⟨stored, hholds, hfits, rfl⟩
  | some s =>
      rw [hanswer] at hsame
      have hs : s ∈ stored := ((hholds.mem_candidates i).mp (List.mem_of_find?_eq_some hanswer)).1
      obtain ⟨older, newer, rfl⟩ := List.append_of_mem hs
      let renewed : CachedData := { s with keptUntil := now.adding c.retention }
      constructor
      · simp only [Cache.find, hanswer, CacheList.find, hsame, Option.map_some]
        rfl
      refine ⟨older ++ renewed :: newer, ?_, ?_, ?_⟩
      · simp only [Cache.find, hanswer]
        exact hholds.replace renewed rfl rfl rfl
      · simpa [Cache.find, hanswer] using hfits
      · have hmap := hholds.tree.distinct.map_listed fun p =>
          { p with keptUntil := now.adding c.retention }
        simp only [CacheList.find, hsame, Option.map_some, Cache.find, hanswer]
        refine congrArg (CacheList.mk c.capacity c.retention) (hmap.trans ?_)
        simp [renewed, listed]

/-- Removing one name after the other leaves the packets with other names. -/
theorem Holds.removeAll (h : c.Holds stored) (names : List Name) :
    (names.foldl Cache.remove c).Holds (stored.filter fun s => s.fullName ∉ names) := by
  induction names generalizing c stored with
  | nil => simpa using h
  | cons n rest ih =>
      have hfirst : (c.remove n).Holds (stored.filter fun s => s.fullName ≠ n) := by
        cases hread : c.tree.get n with
        | none =>
            have hnone : stored.filter (fun s => s.fullName ≠ n) = stored := by
              refine List.filter_eq_self.mpr fun s hs => decide_eq_true fun same => ?_
              have hget := h.tree.get_of_mem hs
              rw [same, hread] at hget
              cases hget
            rw [hnone, remove_of_get_none hread]
            exact h
        | some s =>
            obtain ⟨older, newer, rfl, rfl⟩ := h.tree.split hread
            rw [h.tree.distinct.filter_ne]
            exact h.remove
      have hrest := ih hfirst
      rw [List.filter_filter] at hrest
      rw [List.foldl_cons]
      convert hrest using 2
      funext s
      simp [Bool.and_comm]

theorem settings_removeAll (names : List Name) (c : Cache) :
    (names.foldl Cache.remove c).capacity = c.capacity ∧
      (names.foldl Cache.remove c).retention = c.retention := by
  induction names generalizing c with
  | nil => exact ⟨rfl, rfl⟩
  | cons n rest ih => simp [ih (c.remove n)]

theorem Mirrors.prune (h : c.Mirrors l stored) (now : Timestamp) :
    ∃ stored', (c.prune now).Mirrors (l.prune now) stored' := by
  obtain ⟨hholds, hfits, rfl⟩ := h
  let unused := (c.tree.values.filterMap id).filter fun s => s.keptUntil < now
  let names := unused.map CachedData.fullName
  have hunused : ∀ s ∈ stored, (s.fullName ∉ names ↔ ¬ s.keptUntil < now) := by
    intro s hs
    simp only [names, unused, List.mem_map, List.mem_filter, hholds.tree.mem_values,
      decide_eq_true_eq, not_iff_not]
    constructor
    · rintro ⟨t, ⟨ht, hold⟩, same⟩
      have hread := hholds.tree.get_of_mem ht
      rw [same, hholds.tree.get_of_mem hs] at hread
      cases hread
      exact hold
    · intro hold
      exact ⟨s, ⟨hs, hold⟩, rfl⟩
  have hkept : stored.filter (fun s => s.fullName ∉ names) =
      stored.filter fun s => !(s.keptUntil < now) := by
    refine List.filter_congr fun s hs => ?_
    simp [hunused s hs]
  refine ⟨stored.filter fun s => !(s.keptUntil < now), ?_, ?_, ?_⟩
  · rw [← hkept]
    exact hholds.removeAll names
  · refine (List.length_filter_le _ stored).trans (hfits.trans (Nat.le_of_eq ?_))
    exact (settings_removeAll names c).1.symm
  · simp only [CacheList.prune, Cache.prune, settings_removeAll]
    rw [List.filter_map]
    rfl

/-- A packet that came in again is refreshed where it stands. -/
theorem Mirrors.refresh (h : c.Mirrors l stored) (data : Data) (digest : Digest)
    (unsolicited : Bool) (now : Timestamp) (hroom : c.capacity ≠ 0) {s : CachedData}
    (hread : c.tree.get (data.name.adding (.implicitDigest digest)) = some s) :
    ∃ stored', (c.insert data digest unsolicited now).Mirrors
      (l.insert data digest unsolicited now) stored' := by
  obtain ⟨hholds, hfits, rfl⟩ := h
  obtain ⟨older, newer, rfl, hname⟩ := hholds.tree.split hread
  let s' := refreshed s (now.adding data.freshness) (now.adding c.retention) unsolicited
  have hcopy : s.listed.isCopy data.name digest = true :=
    ListedData.isCopy_iff_fullName.mpr hname
  obtain ⟨hdata, hdigest⟩ : s.data.name = data.name ∧ s.digest = digest := by
    simp only [ListedData.isCopy, listed, Bool.and_eq_true] at hcopy
    exact ⟨of_decide_eq_true hcopy.1, of_decide_eq_true hcopy.2⟩
  subst hdigest
  rw [← hdata] at hread hcopy
  have hinsert : c.insert data s.digest unsolicited now =
      if s.unsolicited && !unsolicited then
        { c with tree := c.tree.alter s.fullName fun _ => some s' }.promote s.sequence
      else { c with tree := c.tree.alter s.fullName fun _ => some s' } := by
    rw [Cache.insert, if_neg hroom, ← hdata, hread]
    rfl
  have hlist : (CacheList.mk c.capacity c.retention ((older ++ s :: newer).map listed)).insert data
      s.digest unsolicited now =
      CacheList.mk c.capacity c.retention ((older ++ s' :: newer).map listed) := by
    have hany : ((older ++ s :: newer).map listed).any
        (fun p => p.isCopy s.data.name s.digest) = true :=
      List.any_eq_true.mpr ⟨s.listed, List.mem_map_of_mem (by simp), hcopy⟩
    have hmap := hholds.tree.distinct.map_listed fun p =>
      { p with
        freshUntil := max p.freshUntil (now.adding data.freshness)
        keptUntil := now.adding c.retention
        unsolicited := p.unsolicited && unsolicited }
    rw [CacheList.insert, ← hdata, if_pos hany]
    refine congrArg (CacheList.mk c.capacity c.retention) (hmap.trans ?_)
    simp [s', refreshed, listed]
  rw [hinsert, hlist]
  refine ⟨older ++ s' :: newer, ?_, ?_, ?_⟩
  · by_cases hpromote : s.unsolicited && !unsolicited
    · obtain ⟨hs, hsolicited⟩ : s.unsolicited = true ∧ unsolicited = false := by
        simpa using hpromote
      rw [if_pos hpromote]
      exact hholds.promote hs rfl rfl (by simp [s', refreshed, hsolicited])
    · rw [if_neg hpromote]
      refine hholds.replace _ rfl rfl ?_
      cases hs : s.unsolicited <;> cases unsolicited <;> simp_all [s', refreshed]
  · split <;> simpa using hfits
  · split <;> simp

/-- A new packet goes to the end of the list, and one packet goes if there are then too many. -/
theorem Mirrors.admit (h : c.Mirrors l stored) (data : Data) (digest : Digest)
    (unsolicited : Bool) (now : Timestamp) (hroom : c.capacity ≠ 0)
    (hread : c.tree.get (data.name.adding (.implicitDigest digest)) = none) :
    ∃ stored', (c.insert data digest unsolicited now).Mirrors
      (l.insert data digest unsolicited now) stored' := by
  obtain ⟨hholds, hfits, rfl⟩ := h
  let s : CachedData :=
    { data := { data with incomingFace := none }
      digest := digest
      freshUntil := now.adding data.freshness
      keptUntil := now.adding c.retention
      unsolicited := unsolicited
      sequence := c.nextSequence }
  let wider : Cache :=
    { c with
      tree := c.tree.alter s.fullName fun _ => some s
      unsolicited := c.unsolicited ++ if unsolicited then [s.arrival] else []
      solicited := c.solicited ++ if unsolicited then [] else [s.arrival]
      nextSequence := c.nextSequence + 1 }
  have hinsert : c.insert data digest unsolicited now = wider.evict := by
    rw [Cache.insert, if_neg hroom, hread]
    cases unsolicited <;> simp [wider, s, arrival, CachedData.fullName]
  have hwider : wider.Holds (stored ++ [s]) :=
    hholds.append (s := s) hread rfl rfl rfl rfl rfl
  have hnew : ¬ (stored.map listed).any (fun p => p.isCopy data.name digest) = true := by
    intro hany
    obtain ⟨p, member, hcopy⟩ := List.any_eq_true.mp hany
    obtain ⟨t, ht, rfl⟩ := List.mem_map.mp member
    have hget := hholds.tree.get_of_mem ht
    rw [show t.fullName = _ from ListedData.isCopy_iff_fullName.mp hcopy, hread] at hget
    cases hget
  have hlist : (CacheList.mk c.capacity c.retention (stored.map listed)).insert data digest
      unsolicited now = CacheList.mk c.capacity c.retention
        (if c.capacity < (stored ++ [s]).length then
          ListedData.withoutVictim ((stored ++ [s]).map listed)
        else (stored ++ [s]).map listed) := by
    rw [CacheList.insert, if_neg hnew]
    simp [s, listed]
  rw [hinsert, hlist]
  obtain ⟨kept, hkept, hlength, hwithout⟩ := hwider.evict
  have hone : (stored ++ [s]).length = stored.length + 1 := by simp
  refine ⟨kept, hkept, ?_, ?_⟩
  · rw [hlength, capacity_evict]
    exact Nat.min_le_right _ _
  · rw [hwithout, capacity_evict, retention_evict]
    change CacheList.mk c.capacity c.retention _ = CacheList.mk c.capacity c.retention
      (ListedData.withoutVictim^[(stored ++ [s]).length - c.capacity] ((stored ++ [s]).map listed))
    by_cases hfull : c.capacity < (stored ++ [s]).length
    · have hexcess : (stored ++ [s]).length - c.capacity = 1 := by omega
      rw [if_pos hfull, hexcess, Function.iterate_one]
    · have hroomy : (stored ++ [s]).length - c.capacity = 0 := by omega
      rw [if_neg hfull, hroomy, Function.iterate_zero_apply]

theorem Mirrors.insert (h : c.Mirrors l stored) (data : Data) (digest : Digest)
    (unsolicited : Bool) (now : Timestamp) :
    ∃ stored', (c.insert data digest unsolicited now).Mirrors
      (l.insert data digest unsolicited now) stored' := by
  by_cases hroom : c.capacity = 0
  · -- The list takes in the packet and has to let it go again.
    obtain ⟨hholds, hfits, rfl⟩ := h
    have hnone : stored = [] := List.eq_nil_of_length_eq_zero (by omega)
    subst hnone
    refine ⟨[], by simpa [Cache.insert, hroom] using hholds, Nat.zero_le _, ?_⟩
    cases unsolicited <;>
      simp [Cache.insert, CacheList.insert, hroom, ListedData.withoutVictim]
  · cases hread : c.tree.get (data.name.adding (.implicitDigest digest)) with
    | some s => exact h.refresh data digest unsolicited now hroom hread
    | none => exact h.admit data digest unsolicited now hroom hread

/-- Each call answers as the list does and leaves the cache with the packets of the list. -/
theorem Mirrors.call (h : c.Mirrors l stored) (k : CacheCall) :
    (c.call k).1 = (l.call k).1 ∧ ∃ stored', (c.call k).2.Mirrors (l.call k).2 stored' := by
  cases k with
  | insert data digest unsolicited now => exact ⟨rfl, h.insert data digest unsolicited now⟩
  | find i now => exact h.find i now
  | prune now => exact ⟨rfl, h.prune now⟩

theorem Mirrors.after (h : c.Mirrors l stored) (calls : List CacheCall) :
    ∃ stored', (c.after calls).Mirrors (l.after calls) stored' := by
  induction calls generalizing c l stored with
  | nil => exact ⟨stored, h⟩
  | cons k rest ih =>
      obtain ⟨stored', h'⟩ := (h.call k).2
      exact ih h'

theorem Mirrors.replies (h : c.Mirrors l stored) (calls : List CacheCall) :
    c.replies calls = l.replies calls := by
  induction calls generalizing c l stored with
  | nil => rfl
  | cons k rest ih =>
      obtain ⟨hanswer, stored', h'⟩ := h.call k
      rw [Cache.replies, CacheList.replies, hanswer, h'.size_eq, ih h']

theorem Mirrors.insert_keeps_solicited (h : c.Mirrors l stored) {n : Name}
    (hread : c.tree.get n = some s) (hsolicited : s.unsolicited = false) (data : Data)
    (digest : Digest) (now : Timestamp) :
    ∃ s', (c.insert data digest true now).tree.get n = some s' ∧ s'.data = s.data ∧
      s'.unsolicited = false := by
  obtain ⟨stored', h'⟩ := h.insert data digest true now
  obtain ⟨hs, hname⟩ := (h.holds.tree.get_iff n s).mp hread
  have hlisted : s.listed ∈ l.packets := by
    rw [h.list]
    exact List.mem_map_of_mem hs
  obtain ⟨p, hp, hdata, hdigest, hstill⟩ :=
    l.insert_keeps_solicited hlisted hsolicited data digest now
  rw [h'.list] at hp
  obtain ⟨s', hs', rfl⟩ := List.mem_map.mp hp
  have hsame : s'.fullName = s.fullName := congrArg₂ (fun (d : Data) (g : Digest) =>
    d.name.adding (.implicitDigest g)) hdata hdigest
  exact ⟨s', (h'.holds.tree.get_iff n s').mpr ⟨hs', hsame.trans hname⟩, hdata, hstill⟩

/-- Every node of the tree is on the way to a packet. -/
theorem Holds.leads_to_packet (h : c.Holds stored) {n : Name} (hn : n ≠ [])
    {t : NameTree (Option CachedData)} (ht : c.tree.subtree? n = some t) :
    ∃ s ∈ stored, n <+: s.fullName := by
  obtain ⟨rest, hrest⟩ :=
    NameTree.exists_value_of_subtree? h.tree.filled h.tree.ordered hn ht
  obtain ⟨s, hs⟩ := Option.ne_none_iff_exists'.mp hrest
  obtain ⟨hstored, hname⟩ := (h.tree.get_iff _ s).mp hs
  exact ⟨s, hstored, rest, hname.symm⟩

end Cache

/-- A cache behaves as the list of packets in all that its callers learn, whatever they call. It
never holds more than it may, unsolicited packets push out no solicited one, and the tree, the two
orders of arrival and the numbers say the same as the list, without a branch that leads nowhere. -/
theorem cache_refines_list (capacity : Nat) (retention : Millis) (calls : List CacheCall) :
    (Cache.new capacity retention).replies calls =
        (CacheList.new capacity retention).replies calls ∧
      let c := (Cache.new capacity retention).after calls
      c.size ≤ capacity ∧
      (∀ n s, c.tree.get n = some s → s.unsolicited = false → ∀ data digest now,
        ∃ s', (c.insert data digest true now).tree.get n = some s' ∧ s'.data = s.data ∧
          s'.unsolicited = false) ∧
      ∃ stored, ((CacheList.new capacity retention).after calls).packets = stored.map listed ∧
        c.Holds stored ∧
        ∀ n t, n ≠ [] → c.tree.subtree? n = some t → ∃ s ∈ stored, n <+: s.fullName := by
  have hnew := Cache.mirrors_new capacity retention
  obtain ⟨stored, h⟩ := hnew.after calls
  have hcapacity : ((Cache.new capacity retention).after calls).capacity = capacity := by
    have hlist := (CacheList.new capacity retention).capacity_after calls
    rwa [h.list] at hlist
  refine ⟨hnew.replies calls, ?_, ?_, stored, ?_, h.holds, ?_⟩
  · rw [h.holds.size_eq]
    exact h.fits.trans hcapacity.le
  · intro n s hread hsolicited data digest now
    exact h.insert_keeps_solicited hread hsolicited data digest now
  · rw [h.list]
  · intro n t hn ht
    exact h.holds.leads_to_packet hn ht

end NamedData
