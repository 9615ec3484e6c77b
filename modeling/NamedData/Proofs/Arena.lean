import Mathlib.Algebra.BigOperators.Group.List.Basic
import Mathlib.Algebra.GroupWithZero.Nat
import Mathlib.Data.List.Nodup
import NamedData.Pit.Arena

/-!
What storage with stable handles holds, seen through the value that each token reaches. Storing,
replacing and removing a value change what its own token reaches and nothing else, whatever slot is
reused for it. The second view is the list of all stored values, over which quantities are summed.
-/

namespace NamedData

/-! ### Computations that may end with a fault -/

theorem bind_eq_ok {ε α β : Type} {x : Except ε α} {next : α → Except ε β} {b : β} :
    x >>= next = .ok b ↔ ∃ a, x = .ok a ∧ next a = .ok b := by
  cases x with
  | error fault => simp [bind, Except.bind]
  | ok a => simp [bind, Except.bind]

/-- An invariant over what is still to be done holds at the end with nothing left. -/
theorem foldlM_consume {σ α ε : Type} {P : List α → σ → Prop} {step : σ → α → Except ε σ}
    (hstep : ∀ s a rest s', step s a = .ok s' → P (a :: rest) s → P rest s') {l : List α}
    {s s' : σ} (h : l.foldlM step s = .ok s') (hs : P l s) : P [] s' := by
  induction l generalizing s with
  | nil =>
      cases h
      exact hs
  | cons a rest ih =>
      rw [List.foldlM_cons] at h
      obtain ⟨next, hfirst, hrest⟩ := bind_eq_ok.mp h
      exact ih hrest (hstep s a rest next hfirst hs)

/-- What one step after another keeps is kept by all of them. -/
theorem foldlM_preserve {σ α ε : Type} {P : σ → Prop} {step : σ → α → Except ε σ}
    (hstep : ∀ s a s', step s a = .ok s' → P s → P s') {l : List α} {s s' : σ}
    (h : l.foldlM step s = .ok s') (hs : P s) : P s' :=
  foldlM_consume (P := fun _ => P) (fun s a _ s' hfirst => hstep s a s' hfirst) h hs

/-- If no step ends with a fault where a property holds that every step keeps, then none does. -/
theorem foldlM_ok {σ α ε : Type} {P : σ → Prop} {step : σ → α → Except ε σ} {l : List α}
    (hstep : ∀ s, P s → ∀ a ∈ l, ∃ s', step s a = .ok s' ∧ P s') {s : σ} (hs : P s) :
    ∃ s', l.foldlM step s = .ok s' ∧ P s' := by
  induction l generalizing s with
  | nil => exact ⟨s, rfl, hs⟩
  | cons a rest ih =>
      obtain ⟨next, hfirst, hnext⟩ := hstep s hs a List.mem_cons_self
      obtain ⟨last, hrest, hlast⟩ :=
        ih (fun s hs b hb => hstep s hs b (List.mem_cons_of_mem a hb)) hnext
      refine ⟨last, ?_, hlast⟩
      rw [List.foldlM_cons]
      exact bind_eq_ok.mpr ⟨next, hfirst, hrest⟩

/-! ### Slots -/

def Slot.value? {α : Type} : Slot α → Option α
  | .occupied _ value => some value
  | .vacant _ => none

namespace Arena

variable {α : Type}

theorem get_eq_ok {a : Arena α} {t : PitToken} {value : α} :
    a.get t = .ok value ↔ a.get? t = some value := by
  rw [get]
  cases a.get? t <;> simp

theorem get?_eq_some {a : Arena α} {t : PitToken} {value : α} :
    a.get? t = some value ↔ a.slots[t.index]? = some (.occupied t.generation value) := by
  rw [get?]
  cases a.slots[t.index]? with
  | none => simp
  | some s =>
      cases s with
      | vacant generation => simp
      | occupied generation stored =>
          by_cases same : generation = t.generation <;> simp [same]

theorem contains_of_get? {a : Arena α} {t : PitToken} {value : α} (h : a.get? t = some value) :
    a.contains t = true := by
  simp [contains, h]

theorem contains_iff {a : Arena α} {t : PitToken} :
    a.contains t = true ↔ ∃ value, a.get? t = some value :=
  Option.isSome_iff_exists

/-- Every list of slots that differs in one slot only reaches the same values through the tokens of
the other slots. -/
theorem get?_congr {a b : Arena α} {t : PitToken} (h : a.slots[t.index]? = b.slots[t.index]?) :
    a.get? t = b.get? t := by
  simp only [get?, h]

/-- No token but its own reaches the value of an occupied slot. -/
theorem get?_of_occupied {a : Arena α} {t u : PitToken} {value : α}
    (h : a.slots[t.index]? = some (.occupied t.generation value)) (hindex : u.index = t.index)
    (hne : u ≠ t) : a.get? u = none := by
  have hgeneration : t.generation ≠ u.generation := by
    intro same
    apply hne
    cases t
    cases u
    simp_all
  rw [← hindex] at h
  simp [get?, h, hgeneration]

theorem get?_of_vacant {a : Arena α} {t : PitToken} {generation : UInt32}
    (h : a.slots[t.index]? = some (.vacant generation)) : a.get? t = none := by
  simp [get?, h]

theorem index_lt_of_get? {a : Arena α} {t : PitToken} {value : α} (h : a.get? t = some value) :
    t.index < a.slots.length :=
  (List.getElem?_eq_some_iff.mp (get?_eq_some.mp h)).1

/-! ### What the operations do to the value of a token -/

theorem get?_set {a : Arena α} {t : PitToken} {old : α} (h : a.get? t = some old) (value : α)
    (u : PitToken) : (a.set t value).get? u = if u = t then some value else a.get? u := by
  rw [set, if_pos (contains_of_get? h)]
  have hlt := index_lt_of_get? h
  by_cases hindex : u.index = t.index
  · have hslot : (a.slots.set t.index (.occupied t.generation value))[t.index]? =
        some (.occupied t.generation value) := by simp [hlt]
    by_cases same : u = t
    · subst same
      rw [if_pos rfl]
      exact get?_eq_some.mpr hslot
    · rw [if_neg same, get?_of_occupied (t := t) hslot hindex same,
        get?_of_occupied (get?_eq_some.mp h) hindex same]
  · have hne : u ≠ t := fun same => hindex (by rw [same])
    rw [if_neg hne]
    apply get?_congr
    simp [List.getElem?_set_ne (Ne.symm hindex)]

/-- Writing a value over itself changes nothing. -/
theorem set_self {a : Arena α} {t : PitToken} {value : α} (h : a.get? t = some value) :
    a.set t value = a := by
  obtain ⟨hlt, hslot⟩ := List.getElem?_eq_some_iff.mp (get?_eq_some.mp h)
  rw [set, if_pos (contains_of_get? h), ← hslot, List.set_getElem_self]

/-- Writing a value keeps which tokens reach one. -/
theorem contains_set (a : Arena α) (t : PitToken) (value : α) (u : PitToken) :
    (a.set t value).contains u = a.contains u := by
  cases hget : a.get? t with
  | none => rw [set, if_neg (by simp [contains, hget])]
  | some old =>
      rw [contains, contains, get?_set hget]
      split
      next same => rw [same, hget, Option.isSome_some, Option.isSome_some]
      next => rfl

/-- Of two values written one after the other the second one stays. -/
theorem set_set (a : Arena α) (t : PitToken) (first second : α) :
    (a.set t first).set t second = a.set t second := by
  cases hcontains : a.contains t with
  | true =>
      have hagain : (a.set t first).contains t = true := (a.contains_set t first t).trans hcontains
      rw [set, if_pos hagain, set, if_pos hcontains, set, if_pos hcontains, List.set_set]
  | false =>
      have hsame (value : α) : a.set t value = a := by
        rw [set, if_neg (Bool.eq_false_iff.mp hcontains)]
      rw [hsame first, hsame second]

theorem get?_insert {a b : Arena α} {t : PitToken} {value : α} (h : a.insert value = .ok (t, b))
    (u : PitToken) : b.get? u = if u = t then some value else a.get? u := by
  rw [insert] at h
  split at h
  next index free hfree =>
    split at h
    next last hslot =>
      cases h
      have hlt : index < a.slots.length := (List.getElem?_eq_some_iff.mp hslot).1
      have hnew : (a.slots.set index (.occupied (last + 1) value))[index]? =
          some (.occupied (last + 1) value) := by simp [hlt]
      by_cases hindex : u.index = index
      · by_cases same : u = ⟨index, last + 1⟩
        · rw [if_pos same, same]
          exact get?_eq_some.mpr hnew
        · rw [if_neg same, get?_of_occupied (t := ⟨index, last + 1⟩) hnew hindex same]
          exact (get?_of_vacant (by rw [hindex, hslot])).symm
      · have hne : u ≠ ⟨index, last + 1⟩ := fun same => hindex (by rw [same])
        rw [if_neg hne]
        apply get?_congr
        simp [List.getElem?_set_ne (Ne.symm hindex)]
    next => cases h
  next =>
    cases h
    by_cases hindex : u.index = a.slots.length
    · have hold : a.get? u = none := by simp [get?, hindex]
      by_cases same : u = ⟨a.slots.length, 0⟩
      · rw [if_pos same, same]
        exact get?_eq_some.mpr (by simp)
      · rw [if_neg same, hold]
        have hlast : (a.slots ++ [.occupied 0 value])[a.slots.length]? =
          some (.occupied 0 value) := by simp
        exact get?_of_occupied (t := ⟨a.slots.length, 0⟩) hlast hindex same
    · have hne : u ≠ ⟨a.slots.length, 0⟩ := fun same => hindex (by rw [same])
      rw [if_neg hne]
      apply get?_congr
      by_cases hlt : u.index < a.slots.length
      · simp [List.getElem?_append_left hlt]
      · rw [List.getElem?_eq_none (by simp; omega), List.getElem?_eq_none (by omega)]

/-- The token of a new value reached nothing before. -/
theorem get?_of_insert {a b : Arena α} {t : PitToken} {value : α}
    (h : a.insert value = .ok (t, b)) : a.get? t = none := by
  rw [insert] at h
  split at h
  next index free hfree =>
    split at h
    next last hslot =>
      cases h
      exact get?_of_vacant hslot
    next => cases h
  next =>
    cases h
    simp [get?]

theorem get?_remove {a b : Arena α} {t : PitToken} {value : α} (h : a.remove t = some (value, b))
    (u : PitToken) : b.get? u = if u = t then none else a.get? u := by
  rw [remove] at h
  cases hget : a.get? t with
  | none => simp [hget] at h
  | some old =>
      simp only [hget, Option.some.injEq, Prod.mk.injEq] at h
      obtain ⟨_, rfl⟩ := h
      have hlt := index_lt_of_get? hget
      by_cases hindex : u.index = t.index
      · have hvacant : (a.slots.set t.index (.vacant t.generation))[u.index]? =
            some (.vacant t.generation) := by simp [hindex, hlt]
        rw [get?_of_vacant hvacant]
        by_cases same : u = t
        · rw [if_pos same]
        · rw [if_neg same, get?_of_occupied (get?_eq_some.mp hget) hindex same]
      · have hne : u ≠ t := fun same => hindex (by rw [same])
        rw [if_neg hne]
        apply get?_congr
        simp [List.getElem?_set_ne (Ne.symm hindex)]

theorem remove_of_get? {a : Arena α} {t : PitToken} {value : α} (h : a.get? t = some value) :
    ∃ b, a.remove t = some (value, b) := by
  simp [remove, h]

theorem get?_of_remove {a b : Arena α} {t : PitToken} {value : α}
    (h : a.remove t = some (value, b)) : a.get? t = some value := by
  rw [remove] at h
  split at h
  next old hget =>
    cases h
    exact hget
  next => cases h

theorem mem_tokens {a : Arena α} {t : PitToken} :
    t ∈ a.tokens ↔ ∃ value, a.get? t = some value := by
  simp only [tokens, List.mem_filterMap, get?_eq_some]
  constructor
  · rintro ⟨⟨s, index⟩, member, htoken⟩
    cases s with
    | vacant generation => cases htoken
    | occupied generation value =>
        cases htoken
        exact ⟨value, by simpa [List.mem_zipIdx_iff_getElem?] using member⟩
  · rintro ⟨value, hslot⟩
    exact ⟨(.occupied t.generation value, t.index),
      by simpa [List.mem_zipIdx_iff_getElem?] using hslot, rfl⟩

/-- Tokens that are read off the slots one by one stand in the order of the slots. -/
theorem map_index_sublist {read : Slot α × Nat → Option PitToken}
    (hread : ∀ s index t, read (s, index) = some t → t.index = index) (slots : List (Slot α))
    (start : Nat) : (((slots.zipIdx start).filterMap read).map PitToken.index).Sublist
      (List.range' start slots.length) := by
  induction slots generalizing start with
  | nil => exact List.Sublist.refl _
  | cons s rest ih =>
      rw [List.zipIdx_cons, List.length_cons, List.range'_succ]
      cases htoken : read (s, start) with
      | none =>
          rw [List.filterMap_cons_none htoken]
          exact (ih (start + 1)).cons _
      | some t =>
          rw [List.filterMap_cons_some htoken, List.map_cons, hread s start t htoken]
          exact (ih (start + 1)).cons_cons _

/-- No slot holds two values, and so no token is listed twice. -/
theorem tokens_nodup (a : Arena α) : a.tokens.Nodup := by
  rw [tokens]
  apply List.Nodup.of_map PitToken.index
  refine List.Nodup.sublist (map_index_sublist ?_ a.slots 0) List.nodup_range'
  intro s index t htoken
  cases s with
  | vacant generation => cases htoken
  | occupied generation value =>
      cases htoken
      rfl

/-! ### All values -/

/-- Everything that is stored, by slot. -/
def values (a : Arena α) : List α :=
  a.slots.filterMap Slot.value?

/-- The sum of a quantity over everything that is stored. -/
def total (a : Arena α) (weight : α → Nat) : Nat :=
  (a.values.map weight).sum

private def slotWeight (weight : α → Nat) (s : Slot α) : Nat :=
  (s.value?.map weight).getD 0

private theorem sum_filterMap (weight : α → Nat) (slots : List (Slot α)) :
    ((slots.filterMap Slot.value?).map weight).sum = (slots.map (slotWeight weight)).sum := by
  induction slots with
  | nil => rfl
  | cons s rest ih =>
      cases s with
      | vacant generation => simpa [List.filterMap_cons, Slot.value?, slotWeight] using ih
      | occupied generation value => simpa [List.filterMap_cons, Slot.value?, slotWeight] using ih

private theorem sum_set {slots : List (Slot α)} {index : Nat} {old : Slot α} (weight : α → Nat)
    (h : slots[index]? = some old) (new : Slot α) :
    ((slots.set index new).map (slotWeight weight)).sum + slotWeight weight old =
      (slots.map (slotWeight weight)).sum + slotWeight weight new := by
  induction slots generalizing index with
  | nil => simp at h
  | cons s rest ih =>
      cases index with
      | zero =>
          simp only [List.getElem?_cons_zero, Option.some.injEq] at h
          subst h
          simp only [List.set_cons_zero, List.map_cons, List.sum_cons]
          omega
      | succ index =>
          have hold : rest[index]? = some old := by simpa using h
          have hrest := ih hold
          simp only [List.set_cons_succ, List.map_cons, List.sum_cons]
          omega

theorem total_set {a : Arena α} {t : PitToken} {old : α} (weight : α → Nat)
    (h : a.get? t = some old) (value : α) :
    (a.set t value).total weight + weight old = a.total weight + weight value := by
  rw [set, if_pos (contains_of_get? h)]
  simp only [total, values, sum_filterMap]
  exact sum_set weight (get?_eq_some.mp h) (.occupied t.generation value)

theorem total_insert {a b : Arena α} {t : PitToken} {value : α} (weight : α → Nat)
    (h : a.insert value = .ok (t, b)) : b.total weight = a.total weight + weight value := by
  rw [insert] at h
  split at h
  next index free hfree =>
    split at h
    next last hslot =>
      cases h
      simp only [total, values, sum_filterMap]
      exact sum_set weight hslot (.occupied (last + 1) value)
    next => cases h
  next =>
    cases h
    simp [total, values, Slot.value?]

theorem total_remove {a b : Arena α} {t : PitToken} {value : α} (weight : α → Nat)
    (h : a.remove t = some (value, b)) : b.total weight + weight value = a.total weight := by
  rw [remove] at h
  cases hget : a.get? t with
  | none => simp [hget] at h
  | some old =>
      simp only [hget, Option.some.injEq, Prod.mk.injEq] at h
      obtain ⟨rfl, rfl⟩ := h
      simp only [total, values, sum_filterMap]
      exact sum_set weight (get?_eq_some.mp hget) (.vacant t.generation)

end Arena

end NamedData
