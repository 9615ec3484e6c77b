import NamedData.Proofs.Lookup
import NamedData.Proofs.TreeOrder
import NamedData.Tables.Walk

/-!
Walks over a part of a name tree. A walk sees names of the tree in their order, and it sees a name
if there is a node for it and the walk goes on at every name on the way there. What it carries down
is what a lookup of the name would find: a walk over the tables sees each name with its record and
with the strategy in effect at it.
-/

namespace NamedData

/-- The proper prefixes of a name are the empty one and those that go on with its first
component. -/
theorem Name.forall_properPrefix_cons {P : Name → Prop} {c : Component} {rest : Name} :
    (∀ p, p <+: c :: rest → p ≠ c :: rest → P p) ↔
      P [] ∧ ∀ p, p <+: rest → p ≠ rest → P (c :: p) := by
  constructor
  · intro h
    exact ⟨h [] List.nil_prefix (by simp), fun p hp hne =>
      h (c :: p) (List.cons_prefix_cons.mpr ⟨rfl, hp⟩) fun heq => hne (List.cons.inj heq).2⟩
  · rintro ⟨hnil, hcons⟩ p hp hne
    cases p with
    | nil => exact hnil
    | cons d q =>
        obtain ⟨rfl, hq⟩ := List.cons_prefix_cons.mp hp
        exact hcons q hq fun heq => hne (congrArg (d :: ·) heq)

variable {α σ : Type} {inherit : σ → α → σ} {descend : Visit α σ → Bool} {v : Visit α σ}

/-- What a walk sees at the root of a tree. -/
def NameTree.visit (t : NameTree α) (inherit : σ → α → σ) (name : Name) (outer : σ) :
    Visit α σ where
  name := name
  value := t.value
  context := inherit outer t.value

/-- The walk goes on at every node along the path but the last, where it sees this. -/
def NameTree.Arrives (inherit : σ → α → σ) (descend : Visit α σ → Bool) (v : Visit α σ) :
    NameTree α → Name → σ → Name → Prop
  | t, name, outer, [] => v = t.visit inherit name outer
  | t, name, outer, c :: rest => descend (t.visit inherit name outer) = true ∧
    ∃ s, t.below.find? c = some s ∧
      s.Arrives inherit descend v (name ++ [c]) (t.visit inherit name outer).context rest

namespace Branches

theorem walk_cons (label : Component) (value : α) (below after : Branches α) (name : Name)
    (outer : σ) : (cons label value below after).walk inherit descend name outer =
      (NameTree.mk value below).walk inherit descend (name ++ [label]) outer ++
        after.walk inherit descend name outer := rfl

/-- A walk sees some of the names of the tree, in the order of the tree. -/
theorem walk_sublist_paths (b : Branches α) (name : Name) (outer : σ) :
    ((b.walk inherit descend name outer).map Visit.name).Sublist
      (b.paths.map fun e => name ++ e.1) := by
  induction b generalizing name outer with
  | nil => exact List.Sublist.refl _
  | cons label value below after ihbelow ihafter =>
      have hpaths : (cons label value below after).paths.map (fun e => name ++ e.1) =
          (name ++ [label]) :: (below.paths.map fun e => name ++ [label] ++ e.1) ++
            after.paths.map fun e => name ++ e.1 := by
        simp [paths, Function.comp_def]
      rw [hpaths, walk_cons, List.map_append]
      refine List.Sublist.append ?_ (ihafter name outer)
      rw [NameTree.walk, List.map_cons]
      refine List.Sublist.cons_cons _ ?_
      split
      · exact ihbelow _ _
      · exact List.nil_sublist _

end Branches

namespace NameTree

/-- A walk sees names in their order, each once. -/
theorem walk_increasing {t : NameTree α} (ht : t.Ordered) (name : Name) (outer : σ) :
    (t.walk inherit descend name outer).Pairwise fun v w => compare v.name w.name = .lt := by
  have hsublist : ((t.walk inherit descend name outer).map Visit.name).Sublist
      (t.paths.map fun e => name ++ e.1) := by
    rw [walk, List.map_cons, paths, List.map_cons, List.append_nil]
    refine List.Sublist.cons_cons _ ?_
    split
    · exact t.below.walk_sublist_paths _ _
    · exact List.nil_sublist _
  have hpaths : (t.paths.map fun e => name ++ e.1).Pairwise fun n m => compare n m = .lt := by
    refine List.pairwise_map.mpr ((paths_increasing ht).imp ?_)
    intro e e' hlt
    exact (Name.compare_append name e.1 e'.1).trans hlt
  exact List.pairwise_map.mp (hpaths.sublist hsublist)

/-- If a walk below the root sees what it arrives at, so does a walk from the root. -/
theorem mem_walk_of_below {t : NameTree α}
    (hbelow : ∀ name outer, v ∈ t.below.walk inherit descend name outer ↔
      ∃ c s rest, t.below.find? c = some s ∧
        s.Arrives inherit descend v (name ++ [c]) outer rest) (name : Name) (outer : σ) :
    v ∈ t.walk inherit descend name outer ↔
      ∃ rest, t.Arrives inherit descend v name outer rest := by
  have hwalk : v ∈ t.walk inherit descend name outer ↔ v = t.visit inherit name outer ∨
      descend (t.visit inherit name outer) = true ∧
        v ∈ t.below.walk inherit descend name (t.visit inherit name outer).context := by
    rw [walk, List.mem_cons, List.mem_ite_nil_right]
    rfl
  rw [hwalk, hbelow]
  constructor
  · rintro (hroot | ⟨hdescend, c, s, rest, hfind, harrives⟩)
    · exact ⟨[], hroot⟩
    · exact ⟨c :: rest, hdescend, s, hfind, harrives⟩
  · rintro ⟨rest, harrives⟩
    cases rest with
    | nil => exact .inl harrives
    | cons c rest =>
        obtain ⟨hdescend, s, hfind, hrest⟩ := harrives
        exact .inr ⟨hdescend, c, s, rest, hfind, hrest⟩

end NameTree

theorem Branches.mem_walk_iff {b : Branches α} (hb : b.Ordered) (name : Name) (outer : σ) :
    v ∈ b.walk inherit descend name outer ↔ ∃ c s rest, b.find? c = some s ∧
      s.Arrives inherit descend v (name ++ [c]) outer rest := by
  induction b generalizing name outer with
  | nil => simp [walk, find?]
  | cons label value below after ihbelow ihafter =>
      obtain ⟨hlabel, hbelow, hafter⟩ := hb
      rw [walk_cons, List.mem_append, ihafter hafter,
        NameTree.mem_walk_of_below (t := ⟨value, below⟩) (ihbelow hbelow)]
      constructor
      · rintro (⟨rest, harrives⟩ | ⟨c, s, rest, hfind, harrives⟩)
        · exact ⟨label, _, rest, find?_cons_self label value below after, harrives⟩
        · have hne : c ≠ label := by
            rintro rfl
            rw [find?_eq_none_of_before hlabel] at hfind
            cases hfind
          exact ⟨c, s, rest, (find?_cons_of_ne hne value below after).trans hfind, harrives⟩
      · rintro ⟨c, s, rest, hfind, harrives⟩
        by_cases same : c = label
        · subst same
          rw [find?_cons_self] at hfind
          cases hfind
          exact .inl ⟨rest, harrives⟩
        · rw [find?_cons_of_ne same] at hfind
          exact .inr ⟨c, s, rest, hfind, harrives⟩

/-- A walk sees exactly what it arrives at along some path. -/
theorem NameTree.mem_walk_iff {t : NameTree α} (ht : t.Ordered) (name : Name) (outer : σ) :
    v ∈ t.walk inherit descend name outer ↔
      ∃ rest, t.Arrives inherit descend v name outer rest :=
  mem_walk_of_below (Branches.mem_walk_iff ht) name outer

/-! ### Walks over the tables -/

namespace Tables

variable {t : Tables} {descend : NameVisit → Bool} {v : NameVisit}

/-- What there is to see of a name: its record, and the strategy in effect at it. -/
def view (t : Tables) (n : Name) : NameVisit where
  name := n
  value := t.recordAt n
  context := t.effectiveStrategy n

theorem recordAt_of_subtree? {n : Name} {s : NameTree NameRecord}
    (h : t.tree.subtree? n = some s) : t.recordAt n = s.value := by
  rw [recordAt, NameTree.get, h]
  rfl

/-- A name with anything at it has a node, and so has every prefix of it. -/
theorem exists_node {n : Name} (h : t.recordAt n ≠ Blank.blank) {p : Name} (hp : p <+: n) :
    ∃ s, t.tree.subtree? p = some s := by
  obtain ⟨rest, rfl⟩ := hp
  cases hsub : t.tree.subtree? p with
  | some s => exact ⟨s, rfl⟩
  | none =>
      rw [recordAt, NameTree.get_append, hsub] at h
      exact absurd rfl h

/-- The strategy that a walk passes on at a node makes it see there what there is to see. -/
theorem visit_eq_view {n : Name} {s : NameTree NameRecord} (h : t.tree.subtree? n = some s)
    {outer : Nat} (houter : (t.recordAt n).strategy?.getD outer = t.effectiveStrategy n) :
    s.visit (fun outer r => r.strategy?.getD outer) n outer = t.view n := by
  have hvalue := recordAt_of_subtree? h
  rw [NameTree.visit, view, ← hvalue, houter]

theorem subtree?_concat {n : Name} {s : NameTree NameRecord} (h : t.tree.subtree? n = some s)
    (c : Component) : t.tree.subtree? (n ++ [c]) = s.below.find? c := by
  rw [NameTree.subtree?_append, h, Option.bind_some, NameTree.subtree?]
  cases s.below.find? c <;> rfl

/-- A walk arrives at what there is to see of a name that has a node, if it goes on at every name on
the way. -/
theorem arrives_iff {n : Name} {s : NameTree NameRecord} (h : t.tree.subtree? n = some s)
    {outer : Nat} (houter : (t.recordAt n).strategy?.getD outer = t.effectiveStrategy n)
    (rest : Name) :
    s.Arrives (fun outer r => r.strategy?.getD outer) descend v n outer rest ↔
      v = t.view (n ++ rest) ∧ (∃ s', t.tree.subtree? (n ++ rest) = some s') ∧
        ∀ p, p <+: rest → p ≠ rest → descend (t.view (n ++ p)) = true := by
  induction rest generalizing n s outer with
  | nil =>
      rw [NameTree.Arrives, visit_eq_view h houter, List.append_nil]
      simp only [List.prefix_nil]
      exact ⟨fun hv => ⟨hv, ⟨s, h⟩, fun p hp hne => absurd hp hne⟩, And.left⟩
  | cons c rest ih =>
      have hcontext : (s.visit (fun outer r => r.strategy?.getD outer) n outer).context =
          t.effectiveStrategy n := by
        rw [visit_eq_view h houter]
        rfl
      have hdeeper (s' : NameTree NameRecord) (hfind : s.below.find? c = some s') :=
        ih ((subtree?_concat h c).trans hfind) (t.effectiveStrategy_concat n c).symm
      have hnode : (∃ s', t.tree.subtree? (n ++ c :: rest) = some s') →
          ∃ s', s.below.find? c = some s' := by
        rintro ⟨s', hs'⟩
        rw [List.append_cons, NameTree.subtree?_append, subtree?_concat h] at hs'
        obtain ⟨below, hfind, -⟩ := Option.bind_eq_some_iff.mp hs'
        exact ⟨below, hfind⟩
      rw [NameTree.Arrives, hcontext, visit_eq_view h houter, Name.forall_properPrefix_cons,
        List.append_nil]
      simp only [List.append_assoc, List.singleton_append] at hdeeper
      constructor
      · rintro ⟨hhere, s', hfind, harrives⟩
        obtain ⟨hv, hend, hway⟩ := (hdeeper s' hfind).mp harrives
        exact ⟨hv, hend, hhere, hway⟩
      · rintro ⟨hv, hend, hhere, hway⟩
        obtain ⟨s', hfind⟩ := hnode hend
        exact ⟨hhere, s', hfind, (hdeeper s' hfind).mpr ⟨hv, hend, hway⟩⟩

/-- A walk sees a name at or below its start if there is a node for it and the walk goes on at every
name on the way, and it sees there what a lookup of the name finds. -/
theorem mem_walk_iff (h : t.tree.Ordered) (stem : Name) :
    v ∈ t.walk stem descend ↔ ∃ rest, v = t.view (stem ++ rest) ∧
      (∃ s, t.tree.subtree? (stem ++ rest) = some s) ∧
      ∀ p, p <+: rest → p ≠ rest → descend (t.view (stem ++ p)) = true := by
  rw [walk]
  cases hsub : t.tree.subtree? stem with
  | none =>
      simp only [List.not_mem_nil, false_iff]
      rintro ⟨rest, -, ⟨s, hs⟩, -⟩
      rw [NameTree.subtree?_append, hsub] at hs
      cases hs
  | some s =>
      rw [NameTree.mem_walk_iff (NameTree.ordered_of_subtree? h hsub)]
      exact exists_congr fun rest => arrives_iff hsub (t.getD_effectiveStrategy stem) rest

theorem walk_increasing (h : t.tree.Ordered) (stem : Name) (descend : NameVisit → Bool) :
    (t.walk stem descend).Pairwise fun v w => compare v.name w.name = .lt := by
  rw [walk]
  split
  next s hsub => exact NameTree.walk_increasing (NameTree.ordered_of_subtree? h hsub) _ _
  next => exact List.Pairwise.nil

/-! ### The entries that a walk collects -/

/-- The tokens are those of different entries, in the order of their names. -/
structure InNameOrder (t : Tables) (tokens : List PitToken) : Prop where
  nodup : tokens.Nodup
  ordered : tokens.Pairwise fun u w => ∀ e e', t.pit.get? u = some e → t.pit.get? w = some e' →
    (compare e.name e'.name).isLE = true

theorem value_of_mem_walk (h : t.tree.Ordered) {stem : Name} (hv : v ∈ t.walk stem descend) :
    v.value = t.recordAt v.name := by
  obtain ⟨rest, rfl, -, -⟩ := (mem_walk_iff h stem).mp hv
  rfl

/-- A token is collected from the name of its entry, and from nowhere else. -/
theorem Indexed.mem_pendingAt_iff (h : t.Indexed) (stem : Name) (wanted : NameVisit → Bool)
    (token : PitToken) : token ∈ pendingAt (t.walk stem descend) wanted ↔
      ∃ e, t.pit.get? token = some e ∧ ∃ rest, e.name = stem ++ rest ∧
        (∀ p, p <+: rest → p ≠ rest → descend (t.view (stem ++ p)) = true) ∧
        wanted (t.view e.name) = true := by
  rw [pendingAt, List.mem_flatMap]
  constructor
  · rintro ⟨v, hv, hlisted⟩
    obtain ⟨hwalk, hwanted⟩ := List.mem_filter.mp hv
    obtain ⟨rest, rfl, -, hway⟩ := (mem_walk_iff h.ordered stem).mp hwalk
    obtain ⟨e, hget, hname⟩ := (h.listed (stem ++ rest) token).mp hlisted
    exact ⟨e, hget, rest, hname, hway, hname ▸ hwanted⟩
  · rintro ⟨e, hget, rest, hname, hway, hwanted⟩
    have hlisted : token ∈ (t.recordAt (stem ++ rest)).pending :=
      (h.listed (stem ++ rest) token).mpr ⟨e, hget, hname⟩
    have hfull : t.recordAt (stem ++ rest) ≠ Blank.blank := by
      intro hblank
      rw [hblank] at hlisted
      cases hlisted
    refine ⟨t.view (stem ++ rest), List.mem_filter.mpr ⟨?_, hname ▸ hwanted⟩, hlisted⟩
    exact (mem_walk_iff h.ordered stem).mpr
      ⟨rest, rfl, exists_node hfull List.prefix_rfl, hway⟩

/-- A walk collects entries in name order, each once. -/
theorem Indexed.pendingAt_inNameOrder (h : t.Indexed) (stem : Name)
    (descend wanted : NameVisit → Bool) :
    t.InNameOrder (pendingAt (t.walk stem descend) wanted) := by
  have hlisted {v : NameVisit} (hv : v ∈ (t.walk stem descend).filter wanted) {token : PitToken}
      (htoken : token ∈ v.value.pending) : ∃ e, t.pit.get? token = some e ∧ e.name = v.name := by
    rw [value_of_mem_walk h.ordered (List.mem_filter.mp hv).1] at htoken
    exact (h.listed v.name token).mp htoken
  have hname {v : NameVisit} (hv : v ∈ (t.walk stem descend).filter wanted) {token : PitToken}
      (htoken : token ∈ v.value.pending) {e : PitEntry} (hget : t.pit.get? token = some e) :
      e.name = v.name := by
    obtain ⟨e', hget', hname⟩ := hlisted hv htoken
    rwa [Option.some.inj (hget.symm.trans hget')]
  have hincreasing := (walk_increasing h.ordered stem descend).filter wanted
  constructor
  case nodup =>
    refine List.nodup_flatMap.mpr ⟨fun v hv => ?_, ?_⟩
    · rw [value_of_mem_walk h.ordered (List.mem_filter.mp hv).1]
      exact h.nodup v.name
    · refine hincreasing.imp_of_mem fun {v w} hv hw hlt token htoken htoken' => ?_
      obtain ⟨e, hget, hsame⟩ := hlisted hv htoken
      rw [← hsame, hname hw htoken' hget, Std.ReflOrd.compare_self] at hlt
      cases hlt
  case ordered =>
    refine List.pairwise_flatMap.mpr ⟨fun v hv => ?_, ?_⟩
    · refine List.pairwise_of_forall_mem_list fun u hu w hw e e' hget hget' => ?_
      rw [hname hv hu hget, hname hv hw hget', Std.ReflOrd.compare_self]
      rfl
    · refine hincreasing.imp_of_mem fun {v w} hv hw hlt u hu x hx e e' hget hget' => ?_
      rw [hname hv hu hget, hname hw hx hget', hlt]
      rfl

end Tables

end NamedData
