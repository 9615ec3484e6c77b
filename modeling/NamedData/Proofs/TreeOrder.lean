import Mathlib.Data.List.Pairwise
import NamedData.NameTree.Walk
import NamedData.Proofs.NameTree

/-!
The order and the extent of a name tree. Read node by node, each one before those below it, a tree
lists its values in increasing order of their names, and so does the list of the values right below
a node. And a tree has no node that leads to no value: what a change at a name leaves empty is
dropped with it.
-/

namespace NamedData

namespace Name

theorem compare_same_head (c : Component) (a b : Name) :
    compare (c :: a) (c :: b) = compare a b := by
  simp [List.compare_eq_compareLex]

theorem lt_of_head_lt {c d : Component} (h : compare c d = .lt) (a b : Name) :
    compare (c :: a) (d :: b) = .lt := by
  simp [List.compare_eq_compareLex, h]

theorem compare_append (n a b : Name) : compare (n ++ a) (n ++ b) = compare a b := by
  induction n with
  | nil => rfl
  | cons c rest ih => rw [List.cons_append, List.cons_append, compare_same_head, ih]

/-- A name is before every longer name that it begins. -/
theorem lt_append (n : Name) {m : Name} (h : m ≠ []) : compare n (n ++ m) = .lt := by
  obtain ⟨c, rest, rfl⟩ := List.exists_cons_of_ne_nil h
  calc compare n (n ++ c :: rest)
      = compare (n ++ []) (n ++ c :: rest) := by rw [List.append_nil]
    _ = compare [] (c :: rest) := compare_append n [] (c :: rest)
    _ = .lt := rfl

end Name

variable {α : Type}

namespace Branches

/-- The values with the paths that lead to them, each one before those below it. -/
def paths : Branches α → List (Name × α)
  | nil => []
  | cons label value below after =>
    ([label], value) :: below.paths.map (fun e => (label :: e.1, e.2)) ++ after.paths

theorem values_eq_paths (b : Branches α) : b.values = b.paths.map Prod.snd := by
  induction b with
  | nil => rfl
  | cons label value below after ihbelow ihafter =>
      simp [values, paths, ihbelow, ihafter, Function.comp_def]

theorem head_of_mem_paths {b : Branches α} {e : Name × α} (h : e ∈ b.paths) :
    ∃ head ∈ b.heads, ∃ rest, e.1 = head.1 :: rest := by
  induction b with
  | nil => cases h
  | cons label value below after _ ih =>
      rw [paths, List.mem_append, List.mem_cons, List.mem_map] at h
      rcases h with (rfl | ⟨deeper, -, rfl⟩) | later
      · exact ⟨(label, value), by simp [heads], [], rfl⟩
      · exact ⟨(label, value), by simp [heads], deeper.1, rfl⟩
      · obtain ⟨head, member, rest, same⟩ := ih later
        exact ⟨head, by simp [heads, member], rest, same⟩

/-- The paths are listed in increasing order. -/
theorem paths_increasing {b : Branches α} (hb : b.Ordered) :
    b.paths.Pairwise fun e e' => compare e.1 e'.1 = .lt := by
  induction b with
  | nil => exact List.Pairwise.nil
  | cons label value below after ihbelow ihafter =>
      obtain ⟨hlabel, hbelow, hafter⟩ := hb
      have hhere : (([label], value) :: below.paths.map fun e => (label :: e.1, e.2)).Pairwise
          fun e e' => compare e.1 e'.1 = .lt := by
        refine List.pairwise_cons.mpr ⟨?_, List.pairwise_map.mpr ((ihbelow hbelow).imp ?_)⟩
        · intro e member
          obtain ⟨deeper, hdeeper, rfl⟩ := List.mem_map.mp member
          obtain ⟨head, -, rest, same⟩ := head_of_mem_paths hdeeper
          exact Name.lt_append [label] (by simp [same])
        · intro e e' hlt
          exact (Name.compare_same_head label e.1 e'.1).trans hlt
      refine List.pairwise_append.mpr ⟨hhere, ihafter hafter, ?_⟩
      intro e hcame e' member
      obtain ⟨head, hhead, rest, same⟩ := head_of_mem_paths member
      obtain ⟨rest', same'⟩ : ∃ rest', e.1 = label :: rest' := by
        rcases List.mem_cons.mp hcame with rfl | hdeeper
        · exact ⟨[], rfl⟩
        · obtain ⟨deeper, -, rfl⟩ := List.mem_map.mp hdeeper
          exact ⟨deeper.1, rfl⟩
      rw [same, same']
      exact Name.lt_of_head_lt (hlabel head hhead) rest' rest

theorem heads_increasing {b : Branches α} (hb : b.Ordered) :
    b.heads.Pairwise fun h h' => compare h.1 h'.1 = .lt := by
  induction b with
  | nil => exact List.Pairwise.nil
  | cons label value below after _ ih =>
      obtain ⟨hlabel, _, hafter⟩ := hb
      exact List.pairwise_cons.mpr ⟨fun head member => hlabel head member, ih hafter⟩

/-- No branch leads to blank values alone. -/
def Filled [Blank α] : Branches α → Prop
  | nil => True
  | cons _ value below after =>
    (Blank.isBlank value && below.isNil) = false ∧ below.Filled ∧ after.Filled

variable [Blank α]

/-- The values other than the blank one are on the paths they are read at. -/
theorem mem_paths_iff {b : Branches α} (hb : b.Ordered) {value : α} (hvalue : value ≠ Blank.blank)
    (c : Component) (rest : Name) : (c :: rest, value) ∈ b.paths ↔ b.get c rest = value := by
  induction b generalizing c rest with
  | nil => simp [paths, get_nil_branches, hvalue.symm]
  | cons label first below after ihbelow ihafter =>
      obtain ⟨hlabel, hbelow, hafter⟩ := hb
      by_cases same : c = label
      · subst same
        have hlater : (c :: rest, value) ∉ after.paths := by
          intro member
          obtain ⟨head, hhead, rest', heq⟩ := head_of_mem_paths member
          exact Component.ne_of_before (hlabel head hhead) (List.cons.inj heq).1
        rw [get_cons_self]
        cases rest with
        | nil =>
            have hdeeper : ∀ e ∈ below.paths, e.1 ≠ [] := by
              intro e member
              obtain ⟨head, -, rest', heq⟩ := head_of_mem_paths member
              simp [heq]
            simp only [paths, List.mem_append, List.mem_cons, List.mem_map, hlater, or_false]
            constructor
            · rintro (heq | ⟨e, member, heq⟩)
              · exact (Prod.mk.inj heq).2.symm
              · exact absurd (List.cons.inj (Prod.mk.inj heq).1).2 (hdeeper e member)
            · rintro rfl
              exact .inl rfl
        | cons d more =>
            rw [NameTree.get_cons, ← ihbelow hbelow d more]
            simp [paths, hlater, Prod.ext_iff]
      · rw [get_cons_of_ne same, ← ihafter hafter c rest]
        simp [paths, same, Ne.symm same]

/-! ### Branches that lead somewhere -/

theorem filled_keep {label : Component} {value : α} {below after : Branches α}
    (hbelow : below.Filled) (hafter : after.Filled) : (keep label value below after).Filled := by
  rw [keep]
  split
  · exact hafter
  next hfull => exact ⟨by simpa using hfull, hbelow, hafter⟩

theorem filled_graft (change : α → α) (c : Component) (rest : Name) {after : Branches α}
    (hafter : after.Filled) : (graft change c rest after).Filled := by
  induction rest generalizing c after with
  | nil => exact filled_keep trivial hafter
  | cons d rest ih => exact filled_keep (ih d trivial) hafter

theorem filled_alter (change : α → α) (c : Component) (rest : Name) {b : Branches α}
    (hb : b.Filled) : (b.alter change c rest).Filled := by
  induction b generalizing c rest with
  | nil => exact filled_graft change c rest trivial
  | cons label value below after ihbelow ihafter =>
      obtain ⟨hfull, hbelow, hafter⟩ := hb
      cases hcompare : compare c label with
      | lt =>
          rw [alter_cons_of_lt change rest value below after hcompare]
          exact filled_graft change c rest ⟨hfull, hbelow, hafter⟩
      | gt =>
          rw [alter_cons_of_gt change rest value below after hcompare]
          exact ⟨hfull, hbelow, ihafter c rest hafter⟩
      | eq =>
          have same : c = label := Std.LawfulEqOrd.eq_of_compare hcompare
          subst same
          cases rest with
          | nil =>
              rw [alter_cons_self_nil]
              exact filled_keep hbelow hafter
          | cons d rest =>
              rw [alter_cons_self_cons]
              exact filled_keep (ihbelow d rest hbelow) hafter

theorem filled_mapValues (change : α → α) (b : Branches α) : (b.mapValues change).Filled := by
  induction b with
  | nil => trivial
  | cons label value below after ihbelow ihafter => exact filled_keep ihbelow ihafter

/-- Below a branch that is kept there is a value. -/
theorem exists_value_of_filled {b : Branches α} (hb : b.Filled) (hordered : b.Ordered)
    {c : Component} {s : NameTree α} (h : b.find? c = some s) :
    ∃ rest, s.get rest ≠ Blank.blank := by
  induction b generalizing c s with
  | nil => cases h
  | cons label value below after ihbelow ihafter =>
      obtain ⟨hfull, hbelow, hafter⟩ := hb
      by_cases same : c = label
      · subst same
        rw [find?_cons_self] at h
        cases h
        by_cases hvalue : value = Blank.blank
        · cases below with
          | nil =>
              have hblank : Blank.isBlank value = true := (Blank.isBlank_iff value).mpr hvalue
              simp [hblank, isNil] at hfull
          | cons d first deeper further =>
              obtain ⟨rest, hrest⟩ := ihbelow hbelow hordered.2.1 (find?_cons_self d first deeper further)
              refine ⟨d :: rest, ?_⟩
              rw [NameTree.get_cons, get_cons_self]
              exact hrest
        · exact ⟨[], hvalue⟩
      · rw [find?_cons_of_ne same] at h
        exact ihafter hafter hordered.2.2 h

section Holding

variable {label label' : Component} {value value' : α} {below below' after after' : Branches α}

/-- The first branch has something below its label, so that no branches that hold the same begin
after it. -/
theorem not_before_of_get (hb : (cons label value below after).Filled)
    (hordered : (cons label value below after).Ordered)
    (hordered' : (cons label' value' below' after').Ordered)
    (h : ∀ c rest, (cons label value below after).get c rest =
      (cons label' value' below' after').get c rest) : compare label label' ≠ .lt := by
  intro hlt
  obtain ⟨rest, hrest⟩ :=
    exists_value_of_filled hb hordered (find?_cons_self label value below after)
  have hnone : (cons label' value' below' after').find? label = none :=
    find?_eq_none_of_before (before_heads hlt hordered'.1)
  have hsame := h label rest
  rw [get_cons_self, get_of_find?_none hnone] at hsame
  exact hrest hsame

/-- Branches that are kept for something are told by what they hold. -/
theorem eq_of_get {b b' : Branches α} (hb : b.Filled) (hb' : b'.Filled) (hordered : b.Ordered)
    (hordered' : b'.Ordered) (h : ∀ c rest, b.get c rest = b'.get c rest) : b = b' := by
  induction b generalizing b' with
  | nil =>
      cases b' with
      | nil => rfl
      | cons label' value' below' after' =>
          obtain ⟨rest, hrest⟩ :=
            exists_value_of_filled hb' hordered' (find?_cons_self label' value' below' after')
          have hsame := h label' rest
          rw [get_cons_self, get_nil_branches] at hsame
          exact absurd hsame.symm hrest
  | cons label value below after ihbelow ihafter =>
      cases b' with
      | nil =>
          obtain ⟨rest, hrest⟩ :=
            exists_value_of_filled hb hordered (find?_cons_self label value below after)
          have hsame := h label rest
          rw [get_cons_self, get_nil_branches] at hsame
          exact absurd hsame hrest
      | cons label' value' below' after' =>
          have same : label = label' := by
            cases hcompare : compare label label' with
            | eq => exact Std.LawfulEqOrd.eq_of_compare hcompare
            | lt => exact absurd hcompare (not_before_of_get hb hordered hordered' h)
            | gt =>
                exact absurd (Std.OrientedCmp.lt_of_gt hcompare)
                  (not_before_of_get hb' hordered' hordered fun c rest => (h c rest).symm)
          subst same
          have hvalue : value = value' := by
            simpa only [get_cons_self, NameTree.get_nil] using h label []
          have hbelow : below = below' := by
            refine ihbelow hb.2.1 hb'.2.1 hordered.2.1 hordered'.2.1 fun c rest => ?_
            simpa only [get_cons_self, NameTree.get_cons] using h label (c :: rest)
          have hafter : after = after' := by
            refine ihafter hb.2.2 hb'.2.2 hordered.2.2 hordered'.2.2 fun c rest => ?_
            by_cases hfirst : c = label
            · subst hfirst
              rw [get_of_find?_none (find?_eq_none_of_before hordered.1),
                get_of_find?_none (find?_eq_none_of_before hordered'.1)]
            · simpa only [get_cons_of_ne hfirst] using h c rest
          rw [hvalue, hbelow, hafter]

end Holding

end Branches

namespace NameTree

variable [Blank α]

/-- Every node below the root leads to a value that is not blank. -/
def Filled (t : NameTree α) : Prop :=
  t.below.Filled

theorem filled_root (value : α) : (root value).Filled :=
  trivial

theorem filled_alter {t : NameTree α} (ht : t.Filled) (n : Name) (change : α → α) :
    (t.alter n change).Filled := by
  cases n with
  | nil => exact ht
  | cons c rest => exact Branches.filled_alter change c rest ht

theorem filled_mapValues (t : NameTree α) (change : α → α) : (t.mapValues change).Filled :=
  Branches.filled_mapValues change t.below

/-- A tree in which no node is there for nothing is told by what it holds. -/
theorem eq_of_get {t t' : NameTree α} (ht : t.Filled) (ht' : t'.Filled) (hordered : t.Ordered)
    (hordered' : t'.Ordered) (h : ∀ n, t.get n = t'.get n) : t = t' := by
  have hvalue : t.value = t'.value := h []
  have hbelow : t.below = t'.below := by
    refine Branches.eq_of_get ht ht' hordered hordered' fun c rest => ?_
    simpa only [get_cons] using h (c :: rest)
  calc t = ⟨t.value, t.below⟩ := rfl
    _ = ⟨t'.value, t'.below⟩ := by rw [hvalue, hbelow]

/-- A change is told by what it makes of the value that is there. -/
theorem alter_congr {t : NameTree α} (ht : t.Filled) (hordered : t.Ordered) {n : Name}
    {change change' : α → α} (h : change (t.get n) = change' (t.get n)) :
    t.alter n change = t.alter n change' := by
  refine eq_of_get (filled_alter ht n change) (filled_alter ht n change')
    (ordered_alter hordered n change) (ordered_alter hordered n change') fun m => ?_
  rw [get_alter hordered, get_alter hordered, h]

theorem alter_eq_self {t : NameTree α} (ht : t.Filled) (hordered : t.Ordered) {n : Name}
    {change : α → α} (h : change (t.get n) = t.get n) : t.alter n change = t := by
  refine eq_of_get (filled_alter ht n change) ht (ordered_alter hordered n change) hordered
    fun m => ?_
  rw [get_alter hordered, h]
  split
  next same => rw [same]
  next => rfl

theorem filled_of_find? {b : Branches α} (hb : b.Filled) {c : Component} {s : NameTree α}
    (h : b.find? c = some s) : s.Filled := by
  induction b with
  | nil => cases h
  | cons label value below after _ ih =>
      obtain ⟨-, hbelow, hafter⟩ := hb
      by_cases same : c = label
      · subst same
        rw [Branches.find?_cons_self] at h
        cases h
        exact hbelow
      · rw [Branches.find?_cons_of_ne same] at h
        exact ih hafter h

/-- No node but the root is there for nothing. -/
theorem exists_value_of_subtree? {t : NameTree α} (ht : t.Filled) (hordered : t.Ordered)
    {n : Name} (hn : n ≠ []) {s : NameTree α} (h : t.subtree? n = some s) :
    ∃ rest, t.get (n ++ rest) ≠ Blank.blank := by
  have hvalue : ∃ rest, s.get rest ≠ Blank.blank := by
    induction n generalizing t with
    | nil => exact absurd rfl hn
    | cons c more ih =>
        rw [subtree?] at h
        cases hfind : t.below.find? c with
        | none => simp [hfind] at h
        | some u =>
            rw [hfind] at h
            cases more with
            | nil =>
                cases h
                exact Branches.exists_value_of_filled ht hordered hfind
            | cons d more =>
                exact ih (filled_of_find? ht hfind) (ordered_of_find? hordered hfind)
                  (List.cons_ne_nil d more) h
  obtain ⟨rest, hrest⟩ := hvalue
  exact ⟨rest, by simpa [get_append, h] using hrest⟩

omit [Blank α] in
/-- The values of a tree with the names they are at, each one before those below it. -/
def paths (t : NameTree α) : List (Name × α) :=
  ([], t.value) :: t.below.paths

omit [Blank α] in
theorem values_eq_paths (t : NameTree α) : t.values = t.paths.map Prod.snd := by
  simp [values, paths, Branches.values_eq_paths]

omit [Blank α] in
theorem paths_increasing {t : NameTree α} (ht : t.Ordered) :
    t.paths.Pairwise fun e e' => compare e.1 e'.1 = .lt := by
  refine List.pairwise_cons.mpr ⟨?_, Branches.paths_increasing ht⟩
  intro e member
  obtain ⟨head, -, rest, same⟩ := Branches.head_of_mem_paths member
  exact Name.lt_append [] (by simp [same])

theorem mem_paths_iff {t : NameTree α} (ht : t.Ordered) {value : α} (hvalue : value ≠ Blank.blank)
    (n : Name) : (n, value) ∈ t.paths ↔ t.get n = value := by
  cases n with
  | nil =>
      have hbelow : ([], value) ∉ t.below.paths := by
        intro member
        obtain ⟨head, -, rest, same⟩ := Branches.head_of_mem_paths member
        cases same
      simp [paths, hbelow, eq_comm]
  | cons c rest =>
      rw [get_cons, ← Branches.mem_paths_iff ht hvalue c rest]
      simp [paths]

omit [Blank α] in
/-- A walk sees values of the tree only. -/
theorem value_mem_of_mem_walk {σ : Type} {inherit : σ → α → σ} {descend : Visit α σ → Bool}
    {t : NameTree α} {name : Name} {outer : σ} {v : Visit α σ}
    (h : v ∈ t.walk inherit descend name outer) : v.value ∈ t.values := by
  have hbelow (b : Branches α) (name : Name) (outer : σ)
      (h : v ∈ b.walk inherit descend name outer) : v.value ∈ b.values := by
    induction b generalizing name outer with
    | nil => cases h
    | cons label value below after ihbelow ihafter =>
        rw [Branches.walk, List.mem_append, List.mem_cons] at h
        rw [Branches.values, List.mem_append, List.mem_cons]
        rcases h with (rfl | hdeeper) | hlater
        · exact .inl (.inl rfl)
        · split at hdeeper
          · exact .inl (.inr (ihbelow _ _ hdeeper))
          · cases hdeeper
        · exact .inr (ihafter name outer hlater)
  rw [walk, List.mem_cons] at h
  rw [values, List.mem_cons]
  rcases h with rfl | hdeeper
  · exact .inl rfl
  · split at hdeeper
    · exact .inr (hbelow _ _ _ hdeeper)
    · cases hdeeper

/-- What holds of the value at every name holds of the value of every node. -/
theorem forall_values {t : NameTree α} (ht : t.Ordered) {P : α → Prop} (hblank : P Blank.blank)
    (h : ∀ n, P (t.get n)) : ∀ value ∈ t.values, P value := by
  intro value member
  by_cases hvalue : value = Blank.blank
  · exact hvalue ▸ hblank
  · rw [values_eq_paths] at member
    obtain ⟨⟨n, _⟩, hpath, rfl⟩ := List.mem_map.mp member
    exact (mem_paths_iff ht hvalue n).mp hpath ▸ h n

end NameTree

end NamedData
