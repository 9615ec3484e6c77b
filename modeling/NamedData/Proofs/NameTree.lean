import Mathlib.Data.List.Infix
import NamedData.NameTree.Basic

/-!
What a name tree holds, seen through the value at each name. Changing the value at one name changes
no other, dropping a branch that holds nothing changes none at all, and the two ways to read several
values at once, along a name and right below it, read the values at the names they pass. All of it
rests on the order of the branches below a node, which every operation keeps.
-/

namespace NamedData

theorem Component.ne_of_before {c d : Component} (h : compare c d = .lt) : c ≠ d := by
  intro same
  subst same
  rw [Std.compare_self] at h
  cases h

variable {α : Type}

namespace Branches

/-- The labels below every node are strictly increasing. -/
def Ordered : Branches α → Prop
  | nil => True
  | cons label _ below after =>
    (∀ head ∈ after.heads, compare label head.1 = .lt) ∧ below.Ordered ∧ after.Ordered

theorem find?_cons_self (c : Component) (value : α) (below after : Branches α) :
    (cons c value below after).find? c = some ⟨value, below⟩ := by
  simp [find?]

theorem find?_cons_of_ne {c label : Component} (h : c ≠ label) (value : α)
    (below after : Branches α) :
    (cons label value below after).find? c = after.find? c := by
  simp [find?, h]

theorem find?_eq_none_of_heads {c : Component} {b : Branches α}
    (h : ∀ head ∈ b.heads, c ≠ head.1) : b.find? c = none := by
  induction b with
  | nil => rfl
  | cons label value below after _ ih =>
      rw [find?_cons_of_ne (h (label, value) (by simp [heads]))]
      exact ih fun head member => h head (by simp [heads, member])

theorem find?_eq_none_of_before {c : Component} {b : Branches α}
    (h : ∀ head ∈ b.heads, compare c head.1 = .lt) : b.find? c = none :=
  find?_eq_none_of_heads fun head member => Component.ne_of_before (h head member)

/-- The branches themselves are read off by label. -/
theorem mem_heads_iff {b : Branches α} (hb : b.Ordered) (c : Component) (value : α) :
    (c, value) ∈ b.heads ↔ ∃ below, b.find? c = some ⟨value, below⟩ := by
  induction b with
  | nil => simp [heads, find?]
  | cons label first below after _ ih =>
      obtain ⟨hlabel, _, hafter⟩ := hb
      by_cases same : c = label
      · subst same
        have habsent : (c, value) ∉ after.heads := by
          intro member
          exact Component.ne_of_before (hlabel _ member) rfl
        simp [heads, find?_cons_self, habsent, eq_comm]
      · simp [heads, find?_cons_of_ne same, same, ih hafter]

variable [Blank α]

/-- The value on a path that begins with a branch, blank if there is no node for it. -/
def get (b : Branches α) (c : Component) (rest : Name) : α :=
  ((b.find? c).map fun s => s.get rest).getD Blank.blank

theorem get_nil_branches (c : Component) (rest : Name) :
    (nil : Branches α).get c rest = Blank.blank := rfl

theorem get_of_find?_none {b : Branches α} {c : Component} (h : b.find? c = none) (rest : Name) :
    b.get c rest = Blank.blank := by
  simp [get, h]

theorem get_cons_self (c : Component) (value : α) (below after : Branches α) (rest : Name) :
    (cons c value below after).get c rest = (NameTree.mk value below).get rest := by
  simp [get, find?_cons_self]

theorem get_cons_of_ne {c label : Component} (h : c ≠ label) (value : α)
    (below after : Branches α) (rest : Name) :
    (cons label value below after).get c rest = after.get c rest := by
  simp [get, find?_cons_of_ne h]

end Branches

namespace NameTree

variable [Blank α]

/-- The labels below every node are strictly increasing. -/
def Ordered (t : NameTree α) : Prop :=
  t.below.Ordered

@[simp] theorem get_nil (t : NameTree α) : t.get [] = t.value := rfl

theorem get_cons (t : NameTree α) (c : Component) (rest : Name) :
    t.get (c :: rest) = t.below.get c rest := by
  simp only [get, subtree?, Branches.get]
  cases t.below.find? c <;> rfl

theorem get_cons_below_nil (value : α) (c : Component) (rest : Name) :
    (NameTree.mk value .nil).get (c :: rest) = Blank.blank := rfl

end NameTree

namespace Branches

variable [Blank α]

/-- A branch that holds nothing may be dropped: what is read stays the same. -/
theorem get_keep {label : Component} {value : α} {below after : Branches α}
    (h : after.find? label = none) (c : Component) (rest : Name) :
    (keep label value below after).get c rest = (cons label value below after).get c rest := by
  rw [keep]
  split
  next hempty =>
    obtain ⟨hblank, hnil⟩ : Blank.isBlank value = true ∧ below.isNil = true := by
      simpa using hempty
    by_cases same : c = label
    · subst same
      cases below with
      | cons _ _ _ _ => cases hnil
      | nil =>
          rw [get_of_find?_none h, get_cons_self, (Blank.isBlank_iff value).mp hblank]
          cases rest <;> rfl
    · rw [get_cons_of_ne same]
  next => rfl

theorem mem_heads_keep {label : Component} {value : α} {below after : Branches α}
    {head : Component × α} (h : head ∈ (keep label value below after).heads) :
    head = (label, value) ∨ head ∈ after.heads := by
  rw [keep] at h
  split at h
  · exact .inr h
  · simpa [heads] using h

theorem ordered_keep {label : Component} {value : α} {below after : Branches α}
    (hlabel : ∀ head ∈ after.heads, compare label head.1 = .lt) (hbelow : below.Ordered)
    (hafter : after.Ordered) : (keep label value below after).Ordered := by
  rw [keep]
  split
  · exact hafter
  · exact ⟨hlabel, hbelow, hafter⟩

/-! ### New paths -/

theorem get_graft (change : α → α) (c : Component) (rest : Name) {after : Branches α}
    (h : after.find? c = none) (d : Component) (more : Name) :
    (graft change c rest after).get d more =
      if d = c ∧ more = rest then change Blank.blank else after.get d more := by
  induction rest generalizing c d more after with
  | nil =>
      rw [graft, get_keep h]
      by_cases same : d = c
      · subst same
        rw [get_cons_self]
        cases more with
        | nil => simp
        | cons e more => simp [NameTree.get_cons_below_nil, get_of_find?_none h]
      · simp [get_cons_of_ne same, same]
  | cons e rest ih =>
      rw [graft, get_keep h]
      by_cases same : d = c
      · subst same
        rw [get_cons_self]
        cases more with
        | nil => simp [get_of_find?_none h]
        | cons e' more =>
            have hnil : (nil : Branches α).find? e = none := rfl
            rw [NameTree.get_cons, ih e hnil e' more]
            simp [get_of_find?_none h, get_nil_branches]
      · simp [get_cons_of_ne same, same]

theorem mem_heads_graft {change : α → α} {c : Component} {rest : Name} {after : Branches α}
    {head : Component × α} (h : head ∈ (graft change c rest after).heads) :
    head.1 = c ∨ head ∈ after.heads := by
  cases rest with
  | nil => exact (mem_heads_keep h).imp_left fun same => by rw [same]
  | cons _ _ => exact (mem_heads_keep h).imp_left fun same => by rw [same]

theorem ordered_graft (change : α → α) (c : Component) (rest : Name) {after : Branches α}
    (hc : ∀ head ∈ after.heads, compare c head.1 = .lt) (hafter : after.Ordered) :
    (graft change c rest after).Ordered := by
  induction rest generalizing c after with
  | nil => exact ordered_keep hc trivial hafter
  | cons d rest ih =>
      have hnone : ∀ head ∈ (nil : Branches α).heads, compare d head.1 = .lt := by simp [heads]
      exact ordered_keep hc (ih d hnone trivial) hafter

/-! ### Changes at a name -/

section

variable (change : α → α) {c label : Component} (rest : Name) (value : α) (below after : Branches α)

theorem alter_cons_of_lt (h : compare c label = .lt) :
    (cons label value below after).alter change c rest =
      graft change c rest (cons label value below after) := by
  cases rest <;> simp only [alter, h]

theorem alter_cons_of_gt (h : compare c label = .gt) :
    (cons label value below after).alter change c rest =
      cons label value below (after.alter change c rest) := by
  cases rest <;> simp only [alter, h]

theorem alter_cons_self_nil :
    (cons c value below after).alter change c [] = keep c (change value) below after := by
  simp only [alter, Std.compare_self]

theorem alter_cons_self_cons (d : Component) :
    (cons c value below after).alter change c (d :: rest) =
      keep c value (below.alter change d rest) after := by
  simp only [alter, Std.compare_self]

end

omit [Blank α] in
theorem before_heads {c label : Component} {value : α} {below after : Branches α}
    (h : compare c label = .lt) (hlabel : ∀ head ∈ after.heads, compare label head.1 = .lt) :
    ∀ head ∈ (cons label value below after).heads, compare c head.1 = .lt := by
  intro head member
  rcases List.mem_cons.mp member with rfl | later
  · exact h
  · exact Std.TransCmp.lt_trans h (hlabel head later)

/-- A change on a path that begins with the first branch, where one below it is known. -/
theorem get_alter_cons_self (change : α → α) (c : Component) (rest : Name) (value : α)
    {below after : Branches α} (hnone : after.find? c = none)
    (hbelow : ∀ e rest e' more, (below.alter change e rest).get e' more =
      if e' = e ∧ more = rest then change (below.get e rest) else below.get e' more)
    (d : Component) (more : Name) :
    ((cons c value below after).alter change c rest).get d more =
      if d = c ∧ more = rest then change ((cons c value below after).get c rest)
      else (cons c value below after).get d more := by
  cases rest with
  | nil =>
      rw [alter_cons_self_nil, get_keep hnone, get_cons_self]
      by_cases same : d = c
      · subst same
        cases more <;> simp [get_cons_self, NameTree.get_cons]
      · simp [get_cons_of_ne same, same]
  | cons e rest =>
      rw [alter_cons_self_cons, get_keep hnone, get_cons_self]
      by_cases same : d = c
      · subst same
        cases more with
        | nil => simp [get_cons_self]
        | cons e' more =>
            simp only [get_cons_self, NameTree.get_cons, hbelow e rest e' more]
            simp
      · simp [get_cons_of_ne same, same]

/-- Changing the value on a path changes what is read there and nowhere else. -/
theorem get_alter (change : α → α) (c : Component) (rest : Name) {b : Branches α} (hb : b.Ordered)
    (d : Component) (more : Name) :
    (b.alter change c rest).get d more =
      if d = c ∧ more = rest then change (b.get c rest) else b.get d more := by
  -- The labels are in order, so that a label that comes before all of them has no branch yet.
  induction b generalizing c rest d more with
  | nil => rw [alter, get_graft change c rest rfl]; rfl
  | cons label value below after ihbelow ihafter =>
      obtain ⟨hlabel, hbelow, hafter⟩ := hb
      cases hcompare : compare c label with
      | lt =>
          rw [alter_cons_of_lt change rest value below after hcompare]
          have hnone : (cons label value below after).find? c = none :=
            find?_eq_none_of_before (before_heads hcompare hlabel)
          simp only [get_graft change c rest hnone, get_of_find?_none hnone rest]
      | gt =>
          rw [alter_cons_of_gt change rest value below after hcompare]
          have hne : c ≠ label := by
            intro same
            rw [same, Std.compare_self] at hcompare
            cases hcompare
          simp only [get_cons_of_ne hne]
          by_cases same : d = label
          · subst same
            simp [get_cons_self, Ne.symm hne]
          · simp only [get_cons_of_ne same]
            exact ihafter c rest hafter d more
      | eq =>
          have same : c = label := Std.LawfulEqOrd.eq_of_compare hcompare
          subst same
          exact get_alter_cons_self change c rest value (find?_eq_none_of_before hlabel)
            (fun e rest e' more => ihbelow e rest hbelow e' more) d more

theorem label_of_mem_heads_alter {change : α → α} {c : Component} {rest : Name} {b : Branches α}
    {head : Component × α} (h : head ∈ (b.alter change c rest).heads) :
    head.1 = c ∨ ∃ old ∈ b.heads, head.1 = old.1 := by
  induction b with
  | nil => exact .inl ((mem_heads_graft h).resolve_right (by simp [heads]))
  | cons label value below after _ ih =>
      cases hcompare : compare c label with
      | lt =>
          rw [alter_cons_of_lt change rest value below after hcompare] at h
          exact (mem_heads_graft h).imp_right fun member => ⟨head, member, rfl⟩
      | gt =>
          rw [alter_cons_of_gt change rest value below after hcompare] at h
          rcases List.mem_cons.mp h with rfl | later
          · exact .inr ⟨(label, value), by simp [heads], rfl⟩
          · rcases ih later with same | ⟨old, member, same⟩
            · exact .inl same
            · exact .inr ⟨old, by simp [heads, member], same⟩
      | eq =>
          have same : c = label := Std.LawfulEqOrd.eq_of_compare hcompare
          subst same
          have hkept : ∃ newValue newBelow, head ∈ (keep c newValue newBelow after).heads := by
            cases rest with
            | nil => exact ⟨_, _, alter_cons_self_nil change value below after ▸ h⟩
            | cons d rest => exact ⟨_, _, alter_cons_self_cons change rest value below after d ▸ h⟩
          obtain ⟨newValue, newBelow, hkept⟩ := hkept
          rcases mem_heads_keep hkept with rfl | member
          · exact .inl rfl
          · exact .inr ⟨head, by simp [heads, member], rfl⟩

theorem ordered_alter (change : α → α) (c : Component) (rest : Name) {b : Branches α}
    (hb : b.Ordered) : (b.alter change c rest).Ordered := by
  induction b generalizing c rest with
  | nil => exact ordered_graft change c rest (by simp [heads]) trivial
  | cons label value below after ihbelow ihafter =>
      obtain ⟨hlabel, hbelow, hafter⟩ := hb
      cases hcompare : compare c label with
      | lt =>
          rw [alter_cons_of_lt change rest value below after hcompare]
          exact ordered_graft change c rest (before_heads hcompare hlabel) ⟨hlabel, hbelow, hafter⟩
      | gt =>
          rw [alter_cons_of_gt change rest value below after hcompare]
          refine ⟨?_, hbelow, ihafter c rest hafter⟩
          intro head member
          rcases label_of_mem_heads_alter member with same | ⟨old, member, same⟩
          · rw [same]
            exact Std.OrientedCmp.lt_of_gt hcompare
          · rw [same]
            exact hlabel old member
      | eq =>
          have same : c = label := Std.LawfulEqOrd.eq_of_compare hcompare
          subst same
          cases rest with
          | nil =>
              rw [alter_cons_self_nil]
              exact ordered_keep hlabel hbelow hafter
          | cons d rest =>
              rw [alter_cons_self_cons]
              exact ordered_keep hlabel (ihbelow d rest hbelow) hafter

/-! ### Changes everywhere -/

theorem label_of_mem_heads_mapValues {change : α → α} {b : Branches α} {head : Component × α}
    (h : head ∈ (b.mapValues change).heads) : ∃ old ∈ b.heads, head.1 = old.1 := by
  induction b with
  | nil => simp [mapValues, heads] at h
  | cons label value below after _ ih =>
      rw [mapValues] at h
      rcases mem_heads_keep h with rfl | later
      · exact ⟨(label, value), by simp [heads], rfl⟩
      · obtain ⟨old, member, same⟩ := ih later
        exact ⟨old, by simp [heads, member], same⟩

theorem before_heads_mapValues {change : α → α} {b : Branches α} {c : Component}
    (h : ∀ head ∈ b.heads, compare c head.1 = .lt) :
    ∀ head ∈ (b.mapValues change).heads, compare c head.1 = .lt := by
  intro head member
  obtain ⟨old, holdMember, same⟩ := label_of_mem_heads_mapValues member
  rw [same]
  exact h old holdMember

theorem ordered_mapValues (change : α → α) {b : Branches α} (hb : b.Ordered) :
    (b.mapValues change).Ordered := by
  induction b with
  | nil => trivial
  | cons label value below after ihbelow ihafter =>
      obtain ⟨hlabel, hbelow, hafter⟩ := hb
      exact ordered_keep (before_heads_mapValues hlabel) (ihbelow hbelow) (ihafter hafter)

theorem get_mapValues {change : α → α} (hblank : change Blank.blank = Blank.blank)
    {b : Branches α} (hb : b.Ordered) (c : Component) (rest : Name) :
    (b.mapValues change).get c rest = change (b.get c rest) := by
  induction b generalizing c rest with
  | nil => exact hblank.symm
  | cons label value below after ihbelow ihafter =>
      obtain ⟨hlabel, hbelow, hafter⟩ := hb
      rw [mapValues, get_keep (find?_eq_none_of_before (before_heads_mapValues hlabel))]
      by_cases same : c = label
      · subst same
        rw [get_cons_self, get_cons_self]
        cases rest with
        | nil => rfl
        | cons d rest =>
            rw [NameTree.get_cons, NameTree.get_cons]
            exact ihbelow hbelow d rest
      · rw [get_cons_of_ne same, get_cons_of_ne same]
        exact ihafter hafter c rest

end Branches

namespace NameTree

variable [Blank α]

theorem get_alter {t : NameTree α} (ht : t.Ordered) (n : Name) (change : α → α) (m : Name) :
    (t.alter n change).get m = if m = n then change (t.get n) else t.get m := by
  cases n with
  | nil => cases m <;> simp [alter, get_cons]
  | cons c rest =>
      cases m with
      | nil => simp [alter]
      | cons d more =>
          simp only [alter, get_cons, Branches.get_alter change c rest ht, List.cons.injEq]

theorem ordered_alter {t : NameTree α} (ht : t.Ordered) (n : Name) (change : α → α) :
    (t.alter n change).Ordered := by
  cases n with
  | nil => exact ht
  | cons c rest => exact Branches.ordered_alter change c rest ht

theorem get_mapValues {t : NameTree α} (ht : t.Ordered) {change : α → α}
    (hblank : change Blank.blank = Blank.blank) (n : Name) :
    (t.mapValues change).get n = change (t.get n) := by
  cases n with
  | nil => rfl
  | cons c rest =>
      rw [get_cons, get_cons]
      exact Branches.get_mapValues hblank ht c rest

theorem ordered_mapValues {t : NameTree α} (ht : t.Ordered) (change : α → α) :
    (t.mapValues change).Ordered :=
  Branches.ordered_mapValues change ht

omit [Blank α] in
theorem ordered_root (value : α) : (root value).Ordered :=
  trivial

/-! ### Several values at once -/

/-- The values on the way down to a name are those of its prefixes, up to where the tree ends. -/
theorem map_get_inits (t : NameTree α) (n : Name) :
    ∃ missing, n.inits.map t.get = t.along n ++ List.replicate missing Blank.blank := by
  induction n generalizing t with
  | nil => exact ⟨0, rfl⟩
  | cons c rest ih =>
      rw [List.inits_cons, List.map_cons, List.map_map]
      cases hfind : t.below.find? c with
      | none =>
          refine ⟨rest.inits.length, ?_⟩
          have hblank : ∀ p ∈ rest.inits, (t.get ∘ fun p => c :: p) p = Blank.blank := by
            intro p _
            simp [get_cons, Branches.get_of_find?_none hfind]
          rw [List.map_congr_left hblank, List.map_const']
          simp [along, hfind]
      | some s =>
          obtain ⟨missing, hmissing⟩ := ih s
          refine ⟨missing, ?_⟩
          have hget : ∀ p ∈ rest.inits, (t.get ∘ fun p => c :: p) p = s.get p := by
            intro p _
            simp [get_cons, Branches.get, hfind]
          rw [List.map_congr_left hget, hmissing]
          simp [along, hfind]

/-- What is read off the values on the way down to a name may be read off its prefixes. -/
theorem flatMap_along {β : Type} {g : α → List β} (hg : g Blank.blank = []) (t : NameTree α)
    (n : Name) : (t.along n).flatMap g = n.inits.flatMap fun p => g (t.get p) := by
  obtain ⟨missing, hmissing⟩ := t.map_get_inits n
  calc (t.along n).flatMap g
      = (t.along n ++ List.replicate missing Blank.blank).flatMap g := by
        simp [List.flatMap_append, hg]
    _ = n.inits.flatMap fun p => g (t.get p) := by
        rw [← hmissing, List.flatMap_map]

omit [Blank α] in
theorem subtree?_append (t : NameTree α) (n m : Name) :
    t.subtree? (n ++ m) = (t.subtree? n).bind fun s => s.subtree? m := by
  induction n generalizing t with
  | nil => rfl
  | cons c rest ih =>
      simp only [List.cons_append, subtree?]
      cases t.below.find? c with
      | none => rfl
      | some s => exact ih s

theorem get_append (t : NameTree α) (n m : Name) :
    t.get (n ++ m) = ((t.subtree? n).map fun s => s.get m).getD Blank.blank := by
  simp only [get, subtree?_append]
  cases t.subtree? n <;> rfl

omit [Blank α] in
theorem ordered_of_find? {b : Branches α} (hb : b.Ordered) {c : Component} {s : NameTree α}
    (h : b.find? c = some s) : s.Ordered := by
  induction b with
  | nil => cases h
  | cons label value below after _ ih =>
      by_cases same : c = label
      · subst same
        rw [Branches.find?_cons_self] at h
        cases h
        exact hb.2.1
      · rw [Branches.find?_cons_of_ne same] at h
        exact ih hb.2.2 h

omit [Blank α] in
theorem ordered_of_subtree? {t : NameTree α} (ht : t.Ordered) {n : Name} {s : NameTree α}
    (h : t.subtree? n = some s) : s.Ordered := by
  induction n generalizing t with
  | nil =>
      cases h
      exact ht
  | cons c rest ih =>
      rw [subtree?] at h
      cases hfind : t.below.find? c with
      | none => simp [hfind] at h
      | some below =>
          rw [hfind] at h
          exact ih (ordered_of_find? ht hfind) h

/-- The values right below a name belong to the names one component longer. -/
theorem get_of_mem_heads {t : NameTree α} (ht : t.Ordered) {n : Name} {s : NameTree α}
    (h : t.subtree? n = some s) {c : Component} {value : α} (member : (c, value) ∈ s.below.heads) :
    t.get (n ++ [c]) = value := by
  obtain ⟨below, hfind⟩ := (Branches.mem_heads_iff (ordered_of_subtree? ht h) c value).mp member
  simp [get_append, h, get_cons, Branches.get, hfind]

/-- A value that is not blank right below a name is among those of its branches. -/
theorem mem_heads_of_get_ne_blank {t : NameTree α} (ht : t.Ordered) {n : Name} {c : Component}
    (h : t.get (n ++ [c]) ≠ Blank.blank) :
    ∃ s, t.subtree? n = some s ∧ (c, t.get (n ++ [c])) ∈ s.below.heads := by
  cases hsub : t.subtree? n with
  | none => simp [get_append, hsub] at h
  | some s =>
      refine ⟨s, rfl, (Branches.mem_heads_iff (ordered_of_subtree? ht hsub) c _).mpr ?_⟩
      have hget : t.get (n ++ [c]) = s.below.get c [] := by
        simp [get_append, hsub, get_cons]
      rw [hget] at h ⊢
      cases hfind : s.below.find? c with
      | none => exact absurd (Branches.get_of_find?_none hfind []) h
      | some below => exact ⟨below.below, by simp [Branches.get, hfind]⟩

end NameTree

end NamedData
