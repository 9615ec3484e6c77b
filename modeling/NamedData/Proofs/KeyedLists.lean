import Mathlib.Data.List.Nodup

/-!
Lists with keys. A list of keys and values in which each key stands once is a map: a lookup gives
what the list holds, keys can be taken out of it, and a key that is put in front after it was taken
out has its new value. In a list that is ordered by key, a search may go by halves, also one that is
to tell where a key belongs that is not there.
-/

namespace NamedData

/-! ### Each key once -/

section KeysOnce

variable {κ β : Type} {l : List (κ × β)} {key other : κ} {value : β}

/-- Each key stands once. -/
def KeysOnce (l : List (κ × β)) : Prop :=
  (l.map Prod.fst).Nodup

namespace KeysOnce

theorem nil : KeysOnce ([] : List (κ × β)) :=
  List.nodup_nil

theorem filter (h : KeysOnce l) (keep : κ × β → Bool) : KeysOnce (l.filter keep) :=
  h.sublist (List.filter_sublist.map Prod.fst)

/-- A lookup gives the value that stands with the key. -/
theorem lookup_eq_some [BEq κ] [LawfulBEq κ] (h : KeysOnce l) :
    l.lookup key = some value ↔ (key, value) ∈ l := by
  induction l with
  | nil => simp
  | cons first rest ih =>
      obtain ⟨k, v⟩ := first
      obtain ⟨hfirst, hrest⟩ := List.nodup_cons.mp h
      by_cases same : key = k
      · subst same
        have habsent : (key, value) ∉ rest := fun member =>
          hfirst (List.mem_map.mpr ⟨(key, value), member, rfl⟩)
        simp [habsent, eq_comm]
      · have hother : (key == k) = false := by simpa using same
        simp [List.lookup_cons, hother, ih hrest, same]

variable [DecidableEq κ]

/-- A key may be given a value that replaces the one it had. -/
theorem put (h : KeysOnce l) (key : κ) (value : β) :
    KeysOnce ((key, value) :: l.filter fun e => e.1 ≠ key) := by
  refine List.nodup_cons.mpr ⟨?_, h.filter _⟩
  simp

end KeysOnce

theorem mem_put [DecidableEq κ] {new : β} :
    (key, value) ∈ (other, new) :: l.filter (fun e => e.1 ≠ other) ↔
      key = other ∧ value = new ∨ key ≠ other ∧ (key, value) ∈ l := by
  simp [and_comm]

end KeysOnce

/-! ### Search by halves -/

section Halves

variable {α : Type} {place : α → Ordering} {l : List α}

/-- Looks at the element in the middle and goes on in one half. Where an element lies is told from
what is searched for. -/
def indexByHalves? (place : α → Ordering) (l : List α) : Option Nat :=
  match _ : l.drop (l.length / 2) with
  | [] => none
  | a :: after =>
    match place a with
    | .eq => some (l.length / 2)
    | .lt => (indexByHalves? place after).map (· + (l.length / 2 + 1))
    | .gt => indexByHalves? place (l.take (l.length / 2))
termination_by l.length
decreasing_by
  all_goals
    have hdrop := congrArg List.length ‹l.drop _ = _›
    simp only [List.length_drop, List.length_cons, List.length_take] at hdrop ⊢
    omega

variable {a : α} {front back after : List α} {n i : Nat}

/-- A search from the front goes through what is before an element, that element, and the rest. -/
theorem findIdx?_of_drop (hdrop : l.drop n = a :: after) (sought : α → Bool) :
    l.findIdx? sought = ((l.take n).findIdx? sought).or
      (if sought a then some n else (after.findIdx? sought).map (· + (n + 1))) := by
  have hlength : (l.take n).length = n := by
    have hrest := congrArg List.length hdrop
    rw [List.length_drop, List.length_cons] at hrest
    rw [List.length_take]
    omega
  conv_lhs => rw [← List.take_append_drop n l, hdrop, List.findIdx?_append, List.findIdx?_cons,
    hlength]
  cases sought a with
  | true => simp
  | false => simp [Function.comp_def, Nat.add_comm, Nat.add_left_comm]

/-- From the first element on that is not before what is searched for, all are after it. -/
def PlacedBy (place : α → Ordering) (l : List α) : Prop :=
  l.Pairwise fun a b => place a ≠ .lt → place b = .gt

namespace PlacedBy

/-- Each element is placed to those before it and to those after it. -/
theorem of_drop (h : PlacedBy place l) (hdrop : l.drop n = a :: after) :
    PlacedBy place (l.take n) ∧ PlacedBy place after ∧
      (∀ b ∈ l.take n, place b ≠ .lt → place a = .gt) ∧
      ∀ b ∈ after, place a ≠ .lt → place b = .gt := by
  rw [PlacedBy, ← List.take_append_drop n l, hdrop] at h
  obtain ⟨hbefore, hrest, hbetween⟩ := List.pairwise_append.mp h
  obtain ⟨hafter, hlast⟩ := List.pairwise_cons.mp hrest
  exact ⟨hbefore, hlast, fun b hb => hbetween b hb a List.mem_cons_self, hafter⟩

/-- Nothing is found in front of an element that is not too far. -/
theorem findIdx?_take (h : PlacedBy place l) (hdrop : l.drop n = a :: after)
    (hplace : place a ≠ .gt) : (l.take n).findIdx? (fun b => place b = .eq) = none := by
  refine List.findIdx?_eq_none_iff.mpr fun b hb => decide_eq_false fun heq => ?_
  obtain ⟨-, -, hbefore, -⟩ := h.of_drop hdrop
  exact hplace (hbefore b hb (by simp [heq]))

/-- Nothing is found behind an element that is far enough. -/
theorem findIdx?_after (h : PlacedBy place l) (hdrop : l.drop n = a :: after)
    (hplace : place a ≠ .lt) : after.findIdx? (fun b => place b = .eq) = none := by
  refine List.findIdx?_eq_none_iff.mpr fun b hb => decide_eq_false fun heq => ?_
  obtain ⟨-, -, -, hafter⟩ := h.of_drop hdrop
  cases heq.symm.trans (hafter b hb hplace)

/-- The search by halves finds the place that a search from the front finds. -/
theorem indexByHalves?_eq (h : PlacedBy place l) :
    indexByHalves? place l = l.findIdx? fun a => place a = .eq := by
  fun_induction indexByHalves? place l with
  | case1 l hempty =>
      have hlength := List.drop_eq_nil_iff.mp hempty
      have hnil : l = [] := List.length_eq_zero_iff.mp (by omega)
      rw [hnil]
      rfl
  | case2 l a after hdrop hplace =>
      rw [findIdx?_of_drop hdrop, h.findIdx?_take hdrop (by simp [hplace]), Option.none_or,
        if_pos (decide_eq_true hplace)]
  | case3 l a after hdrop hplace ih =>
      rw [findIdx?_of_drop hdrop, h.findIdx?_take hdrop (by simp [hplace]), Option.none_or,
        ih (h.of_drop hdrop).2.1]
      simp [hplace]
  | case4 l a after hdrop hplace ih =>
      rw [findIdx?_of_drop hdrop, h.findIdx?_after hdrop (by simp [hplace]),
        ih (h.of_drop hdrop).1]
      simp [hplace]

/-- One element at most lies where the search looks. -/
theorem eraseP_eq (h : PlacedBy place l) :
    (l.eraseP fun a => place a = .eq) = l.filter fun a => place a ≠ .eq := by
  induction l with
  | nil => rfl
  | cons a rest ih =>
      obtain ⟨hafter, hrest⟩ := List.pairwise_cons.mp h
      by_cases hplace : place a = .eq
      · have hall : rest.filter (fun b => place b ≠ .eq) = rest :=
          List.filter_eq_self.mpr fun b hb => by simp [hafter b hb (by simp [hplace])]
        simpa [hplace] using hall.symm
      · simpa [hplace] using ih hrest

/-- Without the element at the place that is found, the list has what lies elsewhere. -/
theorem eraseIdx_eq (h : PlacedBy place l) (hi : indexByHalves? place l = some i) :
    l.eraseIdx i = l.filter fun a => place a ≠ .eq := by
  rw [← h.eraseP_eq, List.eraseP_eq_eraseIdx, ← h.indexByHalves?_eq, hi]

end PlacedBy

/-- Where a search ends: at an element, or in front of the one with the given number. -/
inductive Landing where
  | hit (index : Nat)
  | gap (index : Nat)
deriving DecidableEq

namespace Landing

/-- The number of the element that was hit. -/
def index? : Landing → Option Nat
  | hit index => some index
  | gap _ => none

/-- Counts from further in front. -/
def shift (count : Nat) : Landing → Landing
  | hit index => hit (index + count)
  | gap index => gap (index + count)

end Landing

/-- A search by halves that tells as well where what it did not find belongs. -/
def searchByHalves (place : α → Ordering) (l : List α) : Landing :=
  match _ : l.drop (l.length / 2) with
  | [] => .gap 0
  | a :: after =>
    match place a with
    | .eq => .hit (l.length / 2)
    | .lt => (searchByHalves place after).shift (l.length / 2 + 1)
    | .gt => searchByHalves place (l.take (l.length / 2))
termination_by l.length
decreasing_by
  all_goals
    have hdrop := congrArg List.length ‹l.drop _ = _›
    simp only [List.length_drop, List.length_cons, List.length_take] at hdrop ⊢
    omega

theorem indexByHalves?_of_drop (hdrop : l.drop (l.length / 2) = a :: after) :
    indexByHalves? place l = match place a with
      | .eq => some (l.length / 2)
      | .lt => (indexByHalves? place after).map (· + (l.length / 2 + 1))
      | .gt => indexByHalves? place (l.take (l.length / 2)) := by
  rw [indexByHalves?]
  split
  next hempty => cases hdrop.symm.trans hempty
  next hdrop' =>
    cases hdrop.symm.trans hdrop'
    rfl

/-- It hits what the other search finds. -/
theorem index?_searchByHalves (place : α → Ordering) (l : List α) :
    (searchByHalves place l).index? = indexByHalves? place l := by
  fun_induction searchByHalves place l with
  | case1 l hempty =>
      have hlength := List.drop_eq_nil_iff.mp hempty
      have hnil : l = [] := List.length_eq_zero_iff.mp (by omega)
      rw [hnil, (show PlacedBy place [] from .nil).indexByHalves?_eq]
      rfl
  | case2 l a after hdrop hplace =>
      simp only [indexByHalves?_of_drop hdrop, hplace, Landing.index?]
  | case3 l a after hdrop hplace ih =>
      simp only [indexByHalves?_of_drop hdrop, hplace, ← ih]
      cases searchByHalves place after <;> rfl
  | case4 l a after hdrop hplace ih => simp only [indexByHalves?_of_drop hdrop, hplace, ih]

/-- What is not found belongs behind all that lie before it. -/
theorem PlacedBy.index_of_gap (h : PlacedBy place l) (hgap : searchByHalves place l = .gap i) :
    i = l.countP fun b => place b = .lt := by
  fun_induction searchByHalves place l generalizing i with
  | case1 l hempty =>
      have hlength := List.drop_eq_nil_iff.mp hempty
      have hnil : l = [] := List.length_eq_zero_iff.mp (by omega)
      cases hgap
      rw [hnil, List.countP_nil]
  | case2 l a after hdrop hplace => cases hgap
  | case3 l a after hdrop hplace ih =>
      obtain ⟨-, hafter, hfront, -⟩ := h.of_drop hdrop
      have hlt : ∀ b ∈ l.take (l.length / 2), place b = .lt := fun b hb => by
        by_contra hne
        cases hplace.symm.trans (hfront b hb hne)
      have hcount : (l.take (l.length / 2)).countP (fun b => place b = .lt) = l.length / 2 := by
        rw [List.countP_eq_length.mpr (by simpa using hlt), List.length_take]
        omega
      cases hrest : searchByHalves place after with
      | hit j =>
          rw [hrest] at hgap
          cases hgap
      | gap j =>
          rw [hrest] at hgap
          cases hgap
          conv_rhs => rw [← List.take_append_drop (l.length / 2) l, List.countP_append, hdrop,
            hcount, List.countP_cons, ← ih hafter hrest, if_pos (decide_eq_true hplace)]
          omega
  | case4 l a after hdrop hplace ih =>
      obtain ⟨hbefore, -, -, hback⟩ := h.of_drop hdrop
      have hnone : after.countP (fun b => place b = .lt) = 0 :=
        List.countP_eq_zero.mpr fun b hb => by simp [hback b hb (by simp [hplace])]
      rw [ih hbefore hgap]
      conv_rhs => rw [← List.take_append_drop (l.length / 2) l, List.countP_append, hdrop,
        List.countP_cons, hnone]
      simp [hplace]

/-- A search in a list that is known in parts: what lies before, what is searched for, if it is
there, and what lies after. -/
theorem searchByHalves_parts {here? : Option α} (hfront : ∀ b ∈ front, place b = .lt)
    (hhere : ∀ b ∈ here?, place b = .eq) (hback : ∀ b ∈ back, place b = .gt) :
    searchByHalves place (front ++ here?.toList ++ back) =
      match here? with
      | some _ => .hit front.length
      | none => .gap front.length := by
  have hfind : front.findIdx? (fun b => place b = .eq) = none :=
    List.findIdx?_eq_none_iff.mpr fun b hb => by simp [hfront b hb]
  have hnot : back.findIdx? (fun b => place b = .eq) = none :=
    List.findIdx?_eq_none_iff.mpr fun b hb => by simp [hback b hb]
  have hcount : front.countP (fun b => place b = .lt) = front.length :=
    List.countP_eq_length.mpr fun b hb => by simp [hfront b hb]
  have hnone : back.countP (fun b => place b = .lt) = 0 :=
    List.countP_eq_zero.mpr fun b hb => by simp [hback b hb]
  have hplaced : PlacedBy place (front ++ here?.toList ++ back) := by
    refine List.pairwise_append.mpr ⟨List.pairwise_append.mpr ⟨?_, ?_, ?_⟩, ?_, ?_⟩
    · exact List.pairwise_of_forall_mem_list fun b hb _ _ hne => absurd (hfront b hb) hne
    · cases here? <;> simp
    · exact fun b hb _ _ hne => absurd (hfront b hb) hne
    · exact List.pairwise_of_forall_mem_list fun _ _ b hb _ => hback b hb
    · exact fun _ _ b hb _ => hback b hb
  have hindex := index?_searchByHalves place (front ++ here?.toList ++ back)
  rw [hplaced.indexByHalves?_eq, List.findIdx?_append, List.findIdx?_append, hfind, hnot] at hindex
  cases hsearch : searchByHalves place (front ++ here?.toList ++ back) with
  | hit index =>
      rw [hsearch] at hindex
      cases here? with
      | none => cases hindex
      | some b =>
          have heq : place b = .eq := hhere b rfl
          simpa [heq, Landing.index?] using hindex
  | gap index =>
      have hgap := hplaced.index_of_gap hsearch
      rw [hsearch] at hindex
      cases here? with
      | none => simpa [hcount, hnone] using hgap
      | some b =>
          have heq : place b = .eq := hhere b rfl
          simp [heq, Landing.index?] at hindex

/-- What stands at the place that a search finds is what the search finds. -/
theorem find?_eq_bind_findIdx? (sought : α → Bool) (l : List α) :
    l.find? sought = (l.findIdx? sought).bind (l[·]?) := by
  induction l with
  | nil => rfl
  | cons a rest ih =>
      rw [List.find?_cons, List.findIdx?_cons]
      cases sought a with
      | true => rfl
      | false =>
          rw [ih]
          cases rest.findIdx? sought <;> rfl

end Halves

end NamedData
