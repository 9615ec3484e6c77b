import NamedData.Proofs.KeyedLists
import NamedData.Proofs.TreeOrder

/-!
A name tree changed along its paths. The children of a node stand in a row, and a path goes from
child to child, each one searched for by halves. A path is planted, child by child where there is
none, or followed as long as there are children; afterwards what holds nothing is pruned, from the
end of the path upwards or below every node. In a tree that is in order, planting and pruning come
down to a change at a name that keeps no branch for nothing.
-/

namespace NamedData

variable {α : Type}

namespace Branches

/-- The nodes right below, each with its component. -/
def children : Branches α → List (Component × NameTree α)
  | nil => []
  | cons label value below after => (label, ⟨value, below⟩) :: after.children

def ofChildren : List (Component × NameTree α) → Branches α
  | [] => nil
  | (label, s) :: rest => cons label s.value s.below (ofChildren rest)

@[simp] theorem children_ofChildren (l : List (Component × NameTree α)) :
    (ofChildren l).children = l := by
  induction l with
  | nil => rfl
  | cons child rest ih => rw [ofChildren, children, ih]

@[simp] theorem ofChildren_children (b : Branches α) : ofChildren b.children = b := by
  induction b with
  | nil => rfl
  | cons label value below after _ ih => rw [children, ofChildren, ih]

theorem heads_eq_children (b : Branches α) :
    b.heads = b.children.map fun child => (child.1, child.2.value) := by
  induction b with
  | nil => rfl
  | cons label value below after _ ih => rw [heads, children, List.map_cons, ih]

theorem before_children {c : Component} {b : Branches α}
    (h : ∀ head ∈ b.heads, compare c head.1 = .lt) :
    ∀ child ∈ b.children, compare c child.1 = .lt := by
  intro child member
  refine h (child.1, child.2.value) ?_
  rw [heads_eq_children]
  exact List.mem_map_of_mem member

/-- Searches for the child with a component. -/
def locate (b : Branches α) (c : Component) : Landing :=
  searchByHalves (fun child => compare child.1 c) b.children

/-- The children with one for the component among them, which is empty if it is new, and its
number. -/
def seat [Blank α] (b : Branches α) (c : Component) : Nat × List (Component × NameTree α) :=
  match b.locate c with
  | .hit i => (i, b.children)
  | .gap i => (i, b.children.insertIdx i (c, .root Blank.blank))

end Branches

/-! ### The children around a component -/

/-- Children that lie before a component and children that lie after it. -/
structure Siblings (α : Type) (c : Component) where
  front : List (Component × NameTree α)
  back : List (Component × NameTree α)
  before : ∀ child ∈ front, compare child.1 c = .lt
  later : ∀ child ∈ back, compare c child.1 = .lt

namespace Siblings

variable {c : Component} (around : Siblings α c) (here? : Option (NameTree α))

/-- All the children, with or without one that has the component. -/
def fill : Branches α :=
  .ofChildren (around.front ++ (here?.map (c, ·)).toList ++ around.back)

theorem children_fill :
    (around.fill here?).children = around.front ++ (here?.map (c, ·)).toList ++ around.back :=
  Branches.children_ofChildren _

/-- The children of a node in order lie around every component. -/
theorem exists_fill {b : Branches α} (hb : b.Ordered) (c : Component) :
    ∃ (around : Siblings α c) (here? : Option (NameTree α)), b = around.fill here? := by
  induction b with
  | nil => exact ⟨⟨[], [], nofun, nofun⟩, none, rfl⟩
  | cons label value below after _ ih =>
      obtain ⟨hlabel, _, hafter⟩ := hb
      have hchildren := Branches.before_children hlabel
      cases hcompare : compare c label with
      | lt =>
          have hlater : ∀ child ∈ (Branches.cons label value below after).children,
              compare c child.1 = .lt :=
            Branches.before_children (Branches.before_heads hcompare hlabel)
          exact ⟨⟨[], _, nofun, hlater⟩, none, (Branches.ofChildren_children _).symm⟩
      | eq =>
          have same : c = label := Std.LawfulEqOrd.eq_of_compare hcompare
          subst same
          refine ⟨⟨[], _, nofun, hchildren⟩, some ⟨value, below⟩, ?_⟩
          exact (Branches.ofChildren_children (.cons c value below after)).symm
      | gt =>
          obtain ⟨around, here?, hafter⟩ := ih hafter
          have hbefore : compare label c = .lt := Std.OrientedCmp.lt_of_gt hcompare
          refine ⟨⟨(label, ⟨value, below⟩) :: around.front, around.back,
            List.forall_mem_cons.mpr ⟨hbefore, around.before⟩, around.later⟩, here?, ?_⟩
          rw [hafter]
          rfl

/-- The search hits the child with the component, or else the place of it. -/
theorem locate_fill : (around.fill here?).locate c =
    match here? with
    | some _ => .hit around.front.length
    | none => .gap around.front.length := by
  have hhere : ∀ child ∈ here?.map (c, ·), compare child.1 c = .eq := by
    intro child member
    obtain ⟨s, -, rfl⟩ := Option.map_eq_some_iff.mp member
    exact Std.compare_self
  have hback : ∀ child ∈ around.back, compare child.1 c = .gt :=
    fun child member => Std.OrientedCmp.gt_of_lt (around.later child member)
  rw [Branches.locate, children_fill, searchByHalves_parts around.before hhere hback]
  cases here? <;> rfl

theorem find?_ofChildren_append {front : List (Component × NameTree α)}
    (h : ∀ child ∈ front, c ≠ child.1) (rest : List (Component × NameTree α)) :
    (Branches.ofChildren (front ++ rest)).find? c = (Branches.ofChildren rest).find? c := by
  induction front with
  | nil => rfl
  | cons child front ih =>
      obtain ⟨hchild, hfront⟩ := List.forall_mem_cons.mp h
      exact (Branches.find?_cons_of_ne hchild _ _ _).trans (ih hfront)

theorem find?_fill : (around.fill here?).find? c = here? := by
  have hfront : ∀ child ∈ around.front, c ≠ child.1 :=
    fun child member => (Component.ne_of_before (around.before child member)).symm
  have hback : (Branches.ofChildren around.back).find? c = none := by
    have hne : ∀ child ∈ around.back, c ≠ child.1 :=
      fun child member => Component.ne_of_before (around.later child member)
    rw [← List.append_nil around.back]
    exact find?_ofChildren_append hne []
  rw [fill, List.append_assoc, find?_ofChildren_append hfront]
  cases here? with
  | none => exact hback
  | some s => exact Branches.find?_cons_self c _ _ _

end Siblings

/-! ### Following a path -/

namespace NameTree

/-- The node at the end of a path. -/
def descend? : NameTree α → Name → Option (NameTree α)
  | t, [] => some t
  | t, c :: rest =>
    match t.below.locate c with
    | .hit i => t.below.children[i]?.bind fun child => child.2.descend? rest
    | .gap _ => none

/-- Changes the value at the end of a path, if there is a node. -/
def amend (change : α → α) : NameTree α → Name → NameTree α
  | t, [] => { t with value := change t.value }
  | t, c :: rest =>
    match t.below.locate c with
    | .hit i =>
      { t with below := .ofChildren (t.below.children.modify i fun child =>
          (child.1, child.2.amend change rest)) }
    | .gap _ => t

variable [Blank α]

/-- Whether the node holds nothing and nothing is below it. -/
def isHollow (t : NameTree α) : Bool :=
  Blank.isBlank t.value && t.below.isNil

/-- Changes the value at the end of a path, with new nodes from where there are none. -/
def plant (change : α → α) : NameTree α → Name → NameTree α
  | t, [] => { t with value := change t.value }
  | t, c :: rest =>
    let (i, children) := t.below.seat c
    { t with below := .ofChildren (children.modify i fun child =>
        (child.1, child.2.plant change rest)) }

/-- Drops the nodes of a path that are left with nothing, from its end upwards. -/
def prune : NameTree α → Name → NameTree α
  | t, [] => t
  | t, c :: rest =>
    match t.below.locate c with
    | .hit i =>
      let children := t.below.children.modify i fun child => (child.1, child.2.prune rest)
      let hollow := children[i]?.any fun child => child.2.isHollow
      { t with below := .ofChildren (if hollow then children.eraseIdx i else children) }
    | .gap _ => t

/-- The node, unless it is there for nothing. -/
def kept? (t : NameTree α) : Option (NameTree α) :=
  if t.isHollow then none else some t

end NameTree

theorem insertIdx_append_length {β : Type} (front back : List β) (b : β) :
    (front ++ back).insertIdx front.length b = front ++ b :: back := by
  induction front with
  | nil => rfl
  | cons first front ih => exact congrArg (first :: ·) ih

namespace Siblings

variable {c : Component} (around : Siblings α c) (here? : Option (NameTree α)) (value : α)
  (rest : Name) (change : α → α)

theorem descend?_fill :
    (NameTree.mk value (around.fill here?)).descend? (c :: rest) =
      here?.bind fun s => s.descend? rest := by
  simp only [NameTree.descend?, locate_fill, children_fill]
  cases here? with
  | none => rfl
  | some s => simp

theorem amend_fill :
    (NameTree.mk value (around.fill here?)).amend change (c :: rest) =
      ⟨value, around.fill (here?.map fun s => s.amend change rest)⟩ := by
  simp only [NameTree.amend, locate_fill, children_fill]
  cases here? with
  | none => rfl
  | some s => simp [fill, List.modify_eq_take_cons_drop]

variable [Blank α]

theorem plant_fill :
    (NameTree.mk value (around.fill here?)).plant change (c :: rest) =
      ⟨value, around.fill (some ((here?.getD (.root Blank.blank)).plant change rest))⟩ := by
  simp only [NameTree.plant, Branches.seat, locate_fill, children_fill]
  cases here? with
  | none => simp [fill, insertIdx_append_length, List.modify_eq_take_cons_drop]
  | some s => simp [fill, List.modify_eq_take_cons_drop]

theorem prune_fill :
    (NameTree.mk value (around.fill here?)).prune (c :: rest) =
      ⟨value, around.fill (here?.bind fun s => (s.prune rest).kept?)⟩ := by
  simp only [NameTree.prune, locate_fill, children_fill]
  cases here? with
  | none => rfl
  | some s =>
      cases hhollow : (s.prune rest).isHollow <;>
        simp [fill, NameTree.kept?, List.modify_eq_take_cons_drop, hhollow,
          List.eraseIdx_append_of_length_le]

end Siblings

/-! ### Changes at a name -/

namespace Branches

variable [Blank α]

/-- A change that leaves the blank value leads to no path. -/
theorem graft_of_blank {change : α → α} (h : change Blank.blank = Blank.blank) (c : Component)
    (rest : Name) (after : Branches α) : graft change c rest after = after := by
  have hblank : Blank.isBlank (Blank.blank : α) = true := (Blank.isBlank_iff _).mpr rfl
  induction rest generalizing c after with
  | nil => simp [graft, keep, h, hblank, isNil]
  | cons d rest ih => simp [graft, keep, ih, hblank, isNil]

/-- A new path is a child changed at a name, if anything is left of it. -/
theorem graft_eq_keep (change : α → α) (c : Component) (rest : Name) (after : Branches α) :
    graft change c rest after =
      let s := (NameTree.root Blank.blank).alter rest change
      keep c s.value s.below after := by
  cases rest with
  | nil => rfl
  | cons d rest => rfl

theorem keep_eq_ofChildren (c : Component) (s : NameTree α) (l : List (Component × NameTree α)) :
    keep c s.value s.below (ofChildren l) = ofChildren ((s.kept?.map (c, ·)).toList ++ l) := by
  rw [keep, NameTree.kept?, NameTree.isHollow]
  split <;> rfl

/-- A name whose first component comes before all children. -/
theorem alter_of_before {c : Component} {l : List (Component × NameTree α)}
    (h : ∀ child ∈ l, compare c child.1 = .lt) (change : α → α) (rest : Name) :
    (ofChildren l).alter change c rest = graft change c rest (ofChildren l) := by
  cases l with
  | nil => exact alter.eq_1 change c rest
  | cons child l => exact alter_cons_of_lt change rest _ _ _ (h child List.mem_cons_self)

theorem alter_cons_self (change : α → α) (c : Component) (rest : Name) (s : NameTree α)
    (after : Branches α) : (cons c s.value s.below after).alter change c rest =
      keep c (s.alter rest change).value (s.alter rest change).below after := by
  cases rest with
  | nil => exact alter_cons_self_nil change s.value s.below after
  | cons d rest => exact alter_cons_self_cons change rest s.value s.below after d

end Branches

namespace Siblings

variable [Blank α] {c : Component} (around : Siblings α c) (here? : Option (NameTree α))

theorem alter_fill (change : α → α) (rest : Name) : (around.fill here?).alter change c rest =
    around.fill ((here?.getD (.root Blank.blank)).alter rest change).kept? := by
  obtain ⟨front, back, hbefore, hlater⟩ := around
  induction front with
  | nil =>
      cases here? with
      | none =>
          rw [fill, fill, Option.map_none, Option.toList_none, List.append_nil, List.nil_append,
            Branches.alter_of_before hlater, Branches.graft_eq_keep]
          exact Branches.keep_eq_ofChildren c _ back
      | some s =>
          exact (Branches.alter_cons_self change c rest s _).trans
            (Branches.keep_eq_ofChildren c _ back)
  | cons child front ih =>
      obtain ⟨hchild, hfront⟩ := List.forall_mem_cons.mp hbefore
      have hgt : compare c child.1 = .gt := Std.OrientedCmp.gt_of_lt hchild
      exact (Branches.alter_cons_of_gt change rest _ _ _ hgt).trans
        (congrArg (Branches.cons child.1 child.2.value child.2.below) (ih hfront))

end Siblings

namespace NameTree

variable [Blank α] {change : α → α}

@[simp] theorem get_root_blank (n : Name) :
    (root Blank.blank : NameTree α).get n = Blank.blank := by
  cases n <;> rfl

theorem isHollow_root_blank : (root Blank.blank : NameTree α).isHollow = true :=
  Bool.and_eq_true_iff.mpr ⟨(Blank.isBlank_iff _).mpr rfl, rfl⟩

theorem alter_root_blank (h : change Blank.blank = Blank.blank) (n : Name) :
    (root Blank.blank : NameTree α).alter n change = root Blank.blank := by
  cases n with
  | nil => rw [root, alter, h]
  | cons c rest =>
      rw [root, alter]
      exact congrArg (NameTree.mk Blank.blank) (Branches.graft_of_blank h c rest .nil)

/-- A node that is there for nothing has nothing at any name. -/
theorem get_of_isHollow {t : NameTree α} (h : t.isHollow = true) (n : Name) :
    t.get n = Blank.blank := by
  obtain ⟨value, below⟩ := t
  obtain ⟨hvalue, hbelow⟩ := Bool.and_eq_true_iff.mp h
  cases below with
  | nil =>
      have hblank : value = Blank.blank := (Blank.isBlank_iff value).mp hvalue
      rw [hblank]
      exact get_root_blank n
  | cons _ _ _ _ => cases hbelow

theorem kept?_of_get {t : NameTree α} {n : Name} (h : t.get n ≠ Blank.blank) :
    t.kept? = some t := by
  rw [kept?, if_neg fun hhollow => h (get_of_isHollow hhollow n)]

omit [Blank α] in
/-- The children of a tree in order lie around the first component of every name. -/
theorem exists_fill {t : NameTree α} (ht : t.Ordered) (c : Component) :
    ∃ (around : Siblings α c) (here? : Option (NameTree α)), t = ⟨t.value, around.fill here?⟩ ∧
      ∀ s ∈ here?, s.Ordered := by
  obtain ⟨around, here?, hbelow⟩ := Siblings.exists_fill ht c
  refine ⟨around, here?, by rw [← hbelow], fun s hs => ?_⟩
  have hfind : t.below.find? c = some s := by rw [hbelow, Siblings.find?_fill, hs]
  exact ordered_of_find? ht hfind

omit [Blank α] in
/-- The nodes that are searched for along a path are the nodes of the tree. -/
theorem descend?_eq_subtree? {t : NameTree α} (ht : t.Ordered) (n : Name) :
    t.descend? n = t.subtree? n := by
  induction n generalizing t with
  | nil => rfl
  | cons c rest ih =>
      obtain ⟨around, here?, heq, hordered⟩ := exists_fill ht c
      rw [heq, Siblings.descend?_fill, subtree?, Siblings.find?_fill]
      cases here? with
      | none => rfl
      | some s => exact ih (hordered s rfl)

theorem get_fill {c : Component} (around : Siblings α c) (here? : Option (NameTree α)) (value : α)
    (rest : Name) : (mk value (around.fill here?)).get (c :: rest) =
      (here?.getD (root Blank.blank)).get rest := by
  rw [get_cons, Branches.get, Siblings.find?_fill]
  cases here? with
  | none => exact (get_root_blank rest).symm
  | some s => rfl

theorem ordered_getD {here? : Option (NameTree α)} (h : ∀ s ∈ here?, s.Ordered) :
    (here?.getD (root Blank.blank)).Ordered := by
  cases here? with
  | none => exact ordered_root Blank.blank
  | some s => exact h s rfl

/-- Planting a path changes the value at its end, as long as it leaves something there. -/
theorem plant_eq_alter {t : NameTree α} (ht : t.Ordered) {n : Name}
    (hvalue : change (t.get n) ≠ Blank.blank) : t.plant change n = t.alter n change := by
  induction n generalizing t with
  | nil => rfl
  | cons c rest ih =>
      obtain ⟨around, here?, heq, hordered⟩ := exists_fill ht c
      have hchild := ordered_getD hordered
      rw [heq, get_fill] at hvalue
      have hleft : ((here?.getD (root Blank.blank)).alter rest change).get rest ≠ Blank.blank := by
        rwa [get_alter hchild, if_pos rfl]
      rw [heq, Siblings.plant_fill, alter, Siblings.alter_fill, ih hchild hvalue,
        kept?_of_get hleft]

/-- Changing the value at the end of a path and pruning the path is changing the value at a name. -/
theorem prune_amend {t : NameTree α} (ht : t.Ordered) (hblank : change Blank.blank = Blank.blank)
    (n : Name) : (t.amend change n).prune n = t.alter n change := by
  -- Along the name: what lies around its first component stays, and the child with it goes if it is
  -- left with nothing, whether it was there before or not.
  induction n generalizing t with
  | nil => rfl
  | cons c rest ih =>
      obtain ⟨around, here?, heq, hordered⟩ := exists_fill ht c
      rw [heq, Siblings.amend_fill, Siblings.prune_fill, alter, Siblings.alter_fill]
      cases here? with
      | none =>
          rw [Option.getD_none, alter_root_blank hblank, kept?, if_pos isHollow_root_blank]
          rfl
      | some s =>
          rw [Option.map_some, Option.bind_some, ih (hordered s rfl)]
          rfl

/-- A path that was planted may be changed at its end again. -/
theorem amend_plant {t : NameTree α} (ht : t.Ordered) (again : α → α) (n : Name) :
    (t.plant change n).amend again n = t.plant (again ∘ change) n := by
  induction n generalizing t with
  | nil => rfl
  | cons c rest ih =>
      obtain ⟨around, here?, heq, hordered⟩ := exists_fill ht c
      rw [heq, Siblings.plant_fill, Siblings.amend_fill, Siblings.plant_fill, Option.map_some,
        ih (ordered_getD hordered)]

/-- At the end of a path that was planted there is a node with the changed value. -/
theorem descend?_plant {t : NameTree α} (ht : t.Ordered) (change : α → α) (n : Name) :
    ∃ s, (t.plant change n).descend? n = some s ∧ s.value = change (t.get n) := by
  induction n generalizing t with
  | nil => exact ⟨_, rfl, rfl⟩
  | cons c rest ih =>
      obtain ⟨around, here?, heq, hordered⟩ := exists_fill ht c
      rw [heq, Siblings.plant_fill, Siblings.descend?_fill, get_fill]
      exact ih (ordered_getD hordered)

/-- Planting a path that is there changes nothing. -/
theorem plant_id {t : NameTree α} (ht : t.Ordered) {n : Name} (h : t.get n ≠ Blank.blank) :
    t.plant id n = t := by
  induction n generalizing t with
  | nil => rfl
  | cons c rest ih =>
      obtain ⟨around, here?, heq, hordered⟩ := exists_fill ht c
      rw [heq, get_fill] at h
      rw [heq, Siblings.plant_fill]
      cases here? with
      | none => exact absurd (get_root_blank rest) h
      | some s => rw [Option.getD_some, ih (hordered s rfl) h]

end NameTree

/-! ### Changes everywhere -/

namespace Branches

variable [Blank α] (change : α → α)

/-- Drops the children that are there for nothing. -/
def retain (b : Branches α) : Branches α :=
  .ofChildren (b.children.filter fun child => !child.2.isHollow)

/-- Changes the value of each child, and sweeps what is below it. -/
def sweep : Branches α → Branches α
  | nil => nil
  | cons label value below after => cons label (change value) below.sweep.retain after.sweep

theorem retain_cons (label : Component) (value : α) (below after : Branches α) :
    (cons label value below after).retain = keep label value below after.retain := by
  rw [retain, children, List.filter_cons]
  change _ = if (NameTree.mk value below).isHollow then after.retain
    else cons label value below after.retain
  cases (NameTree.mk value below).isHollow <;> rfl

theorem retain_sweep (b : Branches α) : (b.sweep change).retain = b.mapValues change := by
  induction b with
  | nil => rfl
  | cons label value below after ihbelow ihafter =>
      rw [sweep, retain_cons, ihbelow, ihafter, mapValues]

end Branches

/-- Changes the value of the node and sweeps what is below it. -/
def NameTree.sweep [Blank α] (t : NameTree α) (change : α → α) : NameTree α where
  value := change t.value
  below := (t.below.sweep change).retain

theorem NameTree.sweep_eq_mapValues [Blank α] (t : NameTree α) (change : α → α) :
    t.sweep change = t.mapValues change := by
  rw [sweep, mapValues, Branches.retain_sweep]

end NamedData
