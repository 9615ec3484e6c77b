import NamedData.Proofs.PathCalls
import NamedData.Proofs.StrategyMap

/-!
The shape of the tree that the tables share. After any calls the children of every node are in
order, so that a search by halves finds each of them; no node but the root is there for nothing; the
next hops of a node are in order, each face once; and the token of every pending entry stands once,
at the node of its name, and no other token stands anywhere. Each call by path does what the call
does, and once nothing is left to hold, nothing is left of the tree but its root.
-/

namespace NamedData

variable {α : Type}

/-! ### The nodes of a tree -/

/-- The nodes with the paths that lead to them, each one before those below it. -/
def Branches.nodes : Branches α → List (Name × NameTree α)
  | nil => []
  | cons label value below after =>
    ([label], ⟨value, below⟩) :: below.nodes.map (fun e => (label :: e.1, e.2)) ++ after.nodes

def NameTree.nodes (t : NameTree α) : List (Name × NameTree α) :=
  ([], t) :: t.below.nodes

namespace Branches

theorem paths_eq_nodes (b : Branches α) : b.paths = b.nodes.map fun e => (e.1, e.2.value) := by
  induction b with
  | nil => rfl
  | cons label value below after ihbelow ihafter =>
      simp [paths, nodes, ihbelow, ihafter, Function.comp_def]

theorem head_of_mem_nodes {b : Branches α} {e : Name × NameTree α} (h : e ∈ b.nodes) :
    ∃ head ∈ b.heads, ∃ rest, e.1 = head.1 :: rest := by
  have hpath : (e.1, e.2.value) ∈ b.paths := by
    rw [paths_eq_nodes]
    exact List.mem_map_of_mem h
  exact head_of_mem_paths hpath

end Branches

/-- If the nodes below the root are those that paths lead to, so are all nodes. -/
theorem NameTree.mem_nodes_of_below {t s : NameTree α}
    (hbelow : ∀ c rest, (c :: rest, s) ∈ t.below.nodes ↔
      ∃ u, t.below.find? c = some u ∧ u.subtree? rest = some s) (n : Name) :
    (n, s) ∈ t.nodes ↔ t.subtree? n = some s := by
  rw [nodes, List.mem_cons]
  cases n with
  | nil =>
      have hnot : ([], s) ∉ t.below.nodes := by
        intro member
        obtain ⟨head, -, rest, heq⟩ := Branches.head_of_mem_nodes member
        cases heq
      simp [hnot, subtree?, eq_comm]
  | cons c rest =>
      rw [hbelow, subtree?]
      cases t.below.find? c <;> simp

namespace Branches

/-- The nodes of branches in order are those that paths lead to. -/
theorem mem_nodes_iff {s : NameTree α} {b : Branches α} (hb : b.Ordered) (c : Component)
    (rest : Name) :
    (c :: rest, s) ∈ b.nodes ↔ ∃ u, b.find? c = some u ∧ u.subtree? rest = some s := by
  induction b generalizing c rest with
  | nil => simp [nodes, find?]
  | cons label value below after ihbelow ihafter =>
      obtain ⟨hlabel, hbelow, hafter⟩ := hb
      have hnodes : (cons label value below after).nodes =
          (NameTree.mk value below).nodes.map (fun e => (label :: e.1, e.2)) ++ after.nodes := rfl
      have hfirst : (rest, s) ∈ (NameTree.mk value below).nodes ↔
          (NameTree.mk value below).subtree? rest = some s :=
        NameTree.mem_nodes_of_below (ihbelow hbelow) rest
      rw [hnodes, List.mem_append, ihafter hafter]
      by_cases same : c = label
      · subst same
        simp [find?_cons_self, find?_eq_none_of_before hlabel, hfirst]
      · simp [find?_cons_of_ne same, Ne.symm same]

/-- No node of branches that are kept for something is there for nothing. -/
theorem isHollow_of_mem_nodes [Blank α] {b : Branches α} (hb : b.Filled) {e : Name × NameTree α}
    (h : e ∈ b.nodes) : e.2.isHollow = false := by
  induction b generalizing e with
  | nil => cases h
  | cons label value below after ihbelow ihafter =>
      obtain ⟨hfull, hbelow, hafter⟩ := hb
      rw [nodes, List.mem_append, List.mem_cons, List.mem_map] at h
      rcases h with (rfl | ⟨deeper, hdeeper, rfl⟩) | hlater
      · exact hfull
      · exact ihbelow hbelow (e := deeper) hdeeper
      · exact ihafter hafter hlater

theorem children_increasing {b : Branches α} (hb : b.Ordered) :
    b.children.Pairwise fun a a' => compare a.1 a'.1 = .lt := by
  have hheads := heads_increasing hb
  rwa [heads_eq_children, List.pairwise_map] at hheads

/-- The search hits every child where it stands. -/
theorem locate_child {b : Branches α} (hb : b.Ordered) {i : Nat} {child : Component × NameTree α}
    (h : b.children[i]? = some child) : b.locate child.1 = .hit i := by
  obtain ⟨hi, rfl⟩ := List.getElem?_eq_some_iff.mp h
  have hparts : b.children = b.children.take i ++ [b.children[i]] ++ b.children.drop (i + 1) := by
    simp
  have hincreasing := children_increasing hb
  rw [hparts, List.pairwise_append, List.pairwise_append] at hincreasing
  obtain ⟨⟨-, -, hfront⟩, -, hback⟩ := hincreasing
  have hlength : (b.children.take i).length = i := List.length_take_of_le hi.le
  calc b.locate b.children[i].1
      = searchByHalves (fun child => compare child.1 b.children[i].1)
          (b.children.take i ++ (some b.children[i]).toList ++ b.children.drop (i + 1)) :=
        congrArg _ hparts
    _ = .hit (b.children.take i).length := by
        refine searchByHalves_parts (fun child member => ?_) ?_ (fun child member => ?_)
        · exact hfront child member _ List.mem_cons_self
        · rintro _ ⟨⟩
          exact Std.compare_self
        · have hself : b.children[i] ∈ b.children.take i ++ [b.children[i]] :=
            List.mem_append_right _ List.mem_cons_self
          exact Std.OrientedCmp.gt_of_lt (hback _ hself child member)
    _ = .hit i := by rw [hlength]

end Branches

theorem NameTree.mem_nodes_iff {t s : NameTree α} (ht : t.Ordered) (n : Name) :
    (n, s) ∈ t.nodes ↔ t.subtree? n = some s :=
  mem_nodes_of_below (Branches.mem_nodes_iff ht) n

theorem NameTree.nodes_increasing {t : NameTree α} (ht : t.Ordered) :
    t.nodes.Pairwise fun e e' => compare e.1 e'.1 = .lt := by
  have hpaths : t.paths = t.nodes.map fun e => (e.1, e.2.value) := by
    rw [paths, nodes, List.map_cons, Branches.paths_eq_nodes]
  have hincreasing := paths_increasing ht
  rwa [hpaths, List.pairwise_map] at hincreasing

/-! ### The shape -/

namespace Tables

/-- The tokens at all nodes, each with the path of its node. -/
def stored (t : Tables) : List (Name × PitToken) :=
  t.tree.nodes.flatMap fun e => e.2.value.pending.map (e.1, ·)

/-- The shape of the tree and of what its nodes hold. -/
structure Shaped (t : Tables) : Prop where
  sorted : ∀ e ∈ t.tree.nodes, e.2.below.children.Pairwise fun a b => compare a.1 b.1 = .lt
  /-- Every child is hit where it stands when its component is searched for. -/
  searched : ∀ e ∈ t.tree.nodes, ∀ i child, e.2.below.children[i]? = some child →
    e.2.below.locate child.1 = .hit i
  /-- So every node is found along its path, and nothing else is. -/
  reached : ∀ n s, (n, s) ∈ t.tree.nodes ↔ t.tree.descend? n = some s
  /-- A node other than the root has something at it or below it. -/
  used : ∀ e ∈ t.tree.nodes, e.1 ≠ [] → e.2.value.nextHops ≠ [] ∨ e.2.value.pending ≠ [] ∨
    e.2.value.strategy? ≠ none ∨ e.2.below.children ≠ []
  hops : ∀ e ∈ t.tree.nodes, e.2.value.nextHops.Pairwise (fun a b => a.before b = true) ∧
    (e.2.value.nextHops.map NextHop.face).Nodup
  single : (t.stored.map Prod.snd).Nodup
  /-- What stands at a node are the tokens of the pending entries of its name. -/
  stored_iff : ∀ n token, (n, token) ∈ t.stored ↔ ∃ e, t.pit.get? token = some e ∧ e.name = n

variable {t t' : Tables} {k : TableCall} {reply : TableReply}

theorem recordAt_of_mem_nodes (h : t.tree.Ordered) {e : Name × NameTree NameRecord}
    (he : e ∈ t.tree.nodes) : e.2.value = t.recordAt e.1 :=
  (recordAt_of_subtree? ((NameTree.mem_nodes_iff h e.1).mp he)).symm

/-- A node below the root has something at it or below it. -/
theorem used_of_mem_nodes (h : t.tree.Filled) {e : Name × NameTree NameRecord}
    (he : e ∈ t.tree.nodes) (hroot : e.1 ≠ []) : e.2.value.nextHops ≠ [] ∨ e.2.value.pending ≠ [] ∨
      e.2.value.strategy? ≠ none ∨ e.2.below.children ≠ [] := by
  have hbelow : e ∈ t.tree.below.nodes :=
    (List.mem_cons.mp he).resolve_left fun same => hroot (congrArg Prod.fst same)
  have hfull := Branches.isHollow_of_mem_nodes h hbelow
  obtain ⟨n, ⟨⟨hops, pending, strategy?⟩, below⟩⟩ := e
  by_contra hnothing
  simp only [not_or, not_not] at hnothing
  obtain ⟨rfl, rfl, rfl, hchildren⟩ := hnothing
  cases below with
  | nil => cases hfull
  | cons _ _ _ _ => cases hchildren

/-- The tokens that stand at a name are those of the entries of the name. -/
theorem Indexed.mem_stored_iff (h : t.Indexed) (n : Name) (token : PitToken) :
    (n, token) ∈ t.stored ↔ ∃ e, t.pit.get? token = some e ∧ e.name = n := by
  rw [stored, List.mem_flatMap, ← h.listed]
  constructor
  · rintro ⟨e, he, member⟩
    obtain ⟨_, hlisted, heq⟩ := List.mem_map.mp member
    cases heq
    rwa [recordAt_of_mem_nodes h.ordered he] at hlisted
  · intro hlisted
    have hfull : t.recordAt n ≠ Blank.blank := by
      intro hblank
      rw [hblank] at hlisted
      cases hlisted
    obtain ⟨s, hs⟩ := exists_node hfull List.prefix_rfl
    refine ⟨(n, s), (NameTree.mem_nodes_iff h.ordered n).mpr hs, List.mem_map.mpr ⟨token, ?_, rfl⟩⟩
    rwa [← recordAt_of_subtree? hs]

/-- No token stands twice: what stands at different nodes belongs to entries of different names. -/
theorem Indexed.nodup_stored (h : t.Indexed) : (t.stored.map Prod.snd).Nodup := by
  have htokens : t.stored.map Prod.snd = t.tree.nodes.flatMap fun e => e.2.value.pending := by
    simp [stored, List.map_flatMap, Function.comp_def]
  have hentry {e : Name × NameTree NameRecord} (he : e ∈ t.tree.nodes) {token : PitToken}
      (htoken : token ∈ e.2.value.pending) :
      ∃ entry, t.pit.get? token = some entry ∧ entry.name = e.1 := by
    rw [recordAt_of_mem_nodes h.ordered he] at htoken
    exact (h.listed e.1 token).mp htoken
  rw [htokens]
  refine List.nodup_flatMap.mpr ⟨fun e he => ?_, ?_⟩
  · rw [recordAt_of_mem_nodes h.ordered he]
    exact h.nodup e.1
  · refine (NameTree.nodes_increasing h.ordered).imp_of_mem fun {e e'} he he' hlt token htoken
      htoken' => ?_
    obtain ⟨entry, hget, hname⟩ := hentry he htoken
    obtain ⟨entry', hget', hname'⟩ := hentry he' htoken'
    cases hget.symm.trans hget'
    rw [← hname, ← hname', Std.ReflOrd.compare_self] at hlt
    cases hlt

theorem filled_call (h : t.tree.Filled) (hcall : t.call k = .ok (reply, t')) : t'.tree.Filled := by
  cases k with
  | addNextHop stem face cost =>
      cases hcall
      exact NameTree.filled_alter h stem _
  | removeNextHop stem face =>
      cases hcall
      exact NameTree.filled_alter h stem _
  | forgetNextHop face =>
      cases hcall
      exact NameTree.filled_mapValues t.tree _
  | setStrategy stem strategy =>
      cases hcall
      exact NameTree.filled_alter h stem _
  | unsetStrategy stem =>
      cases hcall
      change (t.unsetStrategy stem).2.tree.Filled
      rcases t.unsetStrategy_cases stem with hsame | hchanged
      · rwa [hsame]
      · rw [hchanged]
        exact NameTree.filled_alter h stem _
  | findOrInsert i =>
      obtain ⟨token, isNew, -, hfound⟩ := call_findOrInsert hcall
      rcases findOrInsert_cases hfound with ⟨rfl, _⟩ | ⟨pit, _, rfl⟩
      · exact h
      · exact NameTree.filled_alter h i.name _
  | revise token change =>
      cases hcall
      exact h
  | erase token =>
      rcases call_erase hcall with ⟨-, rfl⟩ | ⟨e, -, herase⟩
      · exact h
      · obtain ⟨pit, _, rfl⟩ := erase_eq_some.mp herase
        exact NameTree.filled_alter h e.name _

/-- What the tables keep to gives the tree its shape. -/
theorem shaped_of_tidy (h : t.Tidy) (hindexed : t.Indexed) : t.Shaped := by
  have hnode {e : Name × NameTree NameRecord} (he : e ∈ t.tree.nodes) : e.2.Ordered :=
    NameTree.ordered_of_subtree? h.ordered ((NameTree.mem_nodes_iff h.ordered e.1).mp he)
  constructor
  case sorted => exact fun e he => Branches.children_increasing (hnode he)
  case searched => exact fun e he i child hchild => Branches.locate_child (hnode he) hchild
  case reached =>
    intro n s
    rw [NameTree.mem_nodes_iff h.ordered, NameTree.descend?_eq_subtree? h.ordered]
  case used => exact fun e he => used_of_mem_nodes h.filled he
  case hops =>
    intro e he
    rw [recordAt_of_mem_nodes h.ordered he]
    exact ⟨(h.listed e.1).ordered, (h.listed e.1).single⟩
  case single => exact hindexed.nodup_stored
  case stored_iff => exact hindexed.mem_stored_iff

/-- The tree is its root alone exactly if nothing is held at any other name. -/
theorem tree_eq_root_iff (h : t.Tidy) (r : NameRecord) :
    t.tree = .root r ↔ t.recordAt [] = r ∧ ∀ n, n ≠ [] → t.recordAt n = Blank.blank := by
  constructor
  · intro htree
    refine ⟨by rw [recordAt, htree]; rfl, fun n hn => ?_⟩
    obtain ⟨c, rest, rfl⟩ := List.exists_cons_of_ne_nil hn
    rw [recordAt, htree]
    rfl
  · rintro ⟨hroot, hothers⟩
    refine NameTree.eq_of_get h.filled (NameTree.filled_root r) h.ordered
      (NameTree.ordered_root r) fun n => ?_
    cases n with
    | nil => exact hroot
    | cons c rest => exact hothers (c :: rest) (List.cons_ne_nil c rest)

/-- The tree is its root alone exactly if there is no next hop anywhere, no strategy but that of the
root and no pending entry. -/
theorem tree_eq_root_iff_empty {routes : Routes} {choices : Choices} (h : t.Tidy)
    (hindexed : t.Indexed) (hrouted : t.Routed routes) (hchosen : t.Chosen choices) :
    t.tree = .root { strategy? := choices [] } ↔
      (∀ stem face, routes stem face = none) ∧ (∀ stem, stem ≠ [] → choices stem = none) ∧
        ∀ token, t.pit.get? token = none := by
  have hhops (n : Name) : (t.recordAt n).nextHops = [] ↔ ∀ face, routes n face = none :=
    (hrouted n).eq_nil_iff.trans funext_iff
  rw [tree_eq_root_iff h]
  constructor
  · rintro ⟨hroot, hothers⟩
    have hnone (n : Name) : (t.recordAt n).nextHops = [] ∧ (t.recordAt n).pending = [] := by
      by_cases hn : n = []
      · rw [hn, hroot]
        exact ⟨rfl, rfl⟩
      · rw [hothers n hn]
        exact ⟨rfl, rfl⟩
    refine ⟨fun stem => (hhops stem).mp (hnone stem).1, fun stem hstem => ?_, fun token => ?_⟩
    · rw [← hchosen stem, hothers stem hstem]
      rfl
    · refine Option.eq_none_iff_forall_ne_some.mpr fun e hget => ?_
      have hlisted := (hindexed.listed e.name token).mpr ⟨e, hget, rfl⟩
      rw [(hnone e.name).2] at hlisted
      cases hlisted
  · rintro ⟨hroutes, hchoices, hpit⟩
    have hrecord (n : Name) : t.recordAt n = { strategy? := choices n } := by
      have hpending : (t.recordAt n).pending = [] := by
        refine List.eq_nil_iff_forall_not_mem.mpr fun token hlisted => ?_
        obtain ⟨e, hget, -⟩ := (hindexed.listed n token).mp hlisted
        cases (hpit token).symm.trans hget
      calc t.recordAt n
          = ⟨(t.recordAt n).nextHops, (t.recordAt n).pending, (t.recordAt n).strategy?⟩ := rfl
        _ = { strategy? := choices n } := by
          rw [(hhops n).mpr (hroutes n), hpending, hchosen n]
    refine ⟨hrecord [], fun n hn => ?_⟩
    rw [hrecord n, hchoices n hn]
    rfl

end Tables

/-- After any calls the tree has its shape: the children of each node are in order and a search by
halves finds each of them, no node but the root is there for nothing, the next hops of each node are
in order, each face once, and the tokens that stand at nodes are those of the pending entries, each
once and at the name of its entry. Every call by path does what the call does. And the tree is its
root alone if and only if there are no next hops, no strategies but that of the root and no pending
entries. -/
theorem tree_keeps_shape (strategy : Nat) (calls : List TableCall) :
    ∃ history t, Tables.record (Tables.new strategy) calls = .ok (history, t) ∧ t.Shaped ∧
      (∀ k, t.callByPath k = t.call k) ∧
      (t.tree = .root { strategy? := Choices.after strategy calls [] } ↔
        (∀ stem face, Routes.after calls stem face = none) ∧
        (∀ stem, stem ≠ [] → Choices.after strategy calls stem = none) ∧
        ∀ token, t.pit.get? token = none) := by
  have hkept : ∃ history t, Tables.record (Tables.new strategy) calls = .ok (history, t) ∧
      history.map TableStep.call = calls ∧ t.Sound (opened history).length ∧
        t.Routed (Routes.after (history.map TableStep.call)) ∧
        t.Chosen (Choices.after strategy (history.map TableStep.call)) ∧ t.tree.Filled :=
    Tables.record_induction strategy
      ⟨Tables.routed_new strategy, Tables.chosen_new strategy, NameTree.filled_root _⟩
      (fun history t k reply t' hsound h hcall => ⟨h.1.call hsound.indexed.ordered hcall,
        h.2.1.call hsound.indexed.ordered hcall, Tables.filled_call h.2.2 hcall⟩) calls
  obtain ⟨history, t, hrecord, hcalls, hsound, hrouted, hchosen, hfilled⟩ := hkept
  rw [hcalls] at hrouted hchosen
  have htidy : t.Tidy := ⟨hsound.indexed.ordered, hfilled, fun n => ⟨_, hrouted n⟩⟩
  exact ⟨history, t, hrecord, Tables.shaped_of_tidy htidy hsound.indexed, htidy.callByPath_eq,
    Tables.tree_eq_root_iff_empty htidy hsound.indexed hrouted hchosen⟩

end NamedData
