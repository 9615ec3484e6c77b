import NamedData.Proofs.Arena

/-!
Tokens over time. A slot is given out again only when it is vacant, and each time under the next
generation. As long as there are generations left, the token of a value that is gone reaches nothing
any more, and a new token is one that no value had before. How far the generations have come is
bounded by the number of insertions.
-/

namespace NamedData

variable {α : Type}

namespace Slot

/-- The generation of the value in a slot, or of the last value that was there. -/
def generation : Slot α → UInt32
  | .occupied current _ => current
  | .vacant last => last

/-- The value of a generation is gone from the slot, for good unless the generations start again. -/
def IsPast : Slot α → UInt32 → Prop
  | .occupied current _, generation => generation < current
  | .vacant last, generation => generation ≤ last

end Slot

namespace Arena

variable {a b : Arena α} {t u : PitToken} {value old : α} {count : Nat}

/-- What storage keeps after the given number of insertions. -/
structure Sound (a : Arena α) (count : Nat) : Prop where
  free_nodup : a.free.Nodup
  free_vacant : ∀ index ∈ a.free, ∃ last, a.slots[index]? = some (.vacant last)
  generation_lt : ∀ s ∈ a.slots, s.generation.toNat < count

/-- The token was given out, and its value is gone. -/
def Spent (a : Arena α) (t : PitToken) : Prop :=
  ∃ s, a.slots[t.index]? = some s ∧ s.IsPast t.generation

theorem sound_empty : (Arena.mk [] [] 0 : Arena α).Sound 0 where
  free_nodup := List.nodup_nil
  free_vacant := nofun
  generation_lt := nofun

/-! ### What an operation does to the slots -/

/-- An insertion takes the slot that is free first, under the next generation, or adds a slot. -/
theorem insert_cases (h : a.insert value = .ok (t, b)) :
    (∃ last free, a.free = t.index :: free ∧ a.slots[t.index]? = some (.vacant last) ∧
        t.generation = last + 1 ∧ b.free = free ∧
        b.slots = a.slots.set t.index (.occupied t.generation value)) ∨
      (a.free = [] ∧ t.index = a.slots.length ∧ t.generation = 0 ∧ b.free = [] ∧
        b.slots = a.slots ++ [.occupied 0 value]) := by
  rw [insert] at h
  split at h
  next index free hfree =>
    split at h
    next last hslot =>
      cases h
      exact .inl ⟨last, free, hfree, hslot, rfl, rfl, rfl⟩
    next => cases h
  next hfree =>
    cases h
    exact .inr ⟨hfree, rfl, rfl, hfree, rfl⟩

theorem remove_cases (h : a.remove t = some (value, b)) :
    a.slots[t.index]? = some (.occupied t.generation value) ∧
      b.slots = a.slots.set t.index (.vacant t.generation) ∧ b.free = t.index :: a.free := by
  have hslot := get?_eq_some.mp (get?_of_remove h)
  rw [remove, get?_of_remove h] at h
  cases h
  exact ⟨hslot, rfl, rfl⟩

theorem slots_set (h : a.get? t = some old) (value : α) :
    (a.set t value).slots = a.slots.set t.index (.occupied t.generation value) := by
  rw [set, if_pos (contains_of_get? h)]

theorem free_set (a : Arena α) (t : PitToken) (value : α) : (a.set t value).free = a.free := by
  rw [set]
  split <;> rfl

/-- An occupied slot is not listed as free. -/
theorem Sound.not_free (h : a.Sound count) {index : Nat} {generation : UInt32}
    (hslot : a.slots[index]? = some (.occupied generation value)) : index ∉ a.free := by
  intro member
  obtain ⟨last, hvacant⟩ := h.free_vacant index member
  cases hslot.symm.trans hvacant

/-! ### Storage stays sound -/

/-- Sound storage has room: an insertion never meets a slot that is in use. -/
theorem Sound.insert_ok (h : a.Sound count) (value : α) : ∃ t b, a.insert value = .ok (t, b) := by
  rw [Arena.insert]
  split
  next index free hfree =>
    obtain ⟨last, hvacant⟩ := h.free_vacant index (hfree ▸ List.mem_cons_self)
    rw [hvacant]
    exact ⟨_, _, rfl⟩
  next => exact ⟨_, _, rfl⟩

theorem Sound.set (h : a.Sound count) (hget : a.get? t = some old) (value : α) :
    (a.set t value).Sound count where
  free_nodup := by
    rw [free_set]
    exact h.free_nodup
  free_vacant index member := by
    rw [free_set] at member
    obtain ⟨last, hvacant⟩ := h.free_vacant index member
    have hne : t.index ≠ index := by
      rintro rfl
      exact h.not_free (get?_eq_some.mp hget) member
    exact ⟨last, by rw [slots_set hget, List.getElem?_set_ne hne, hvacant]⟩
  generation_lt s hs := by
    rw [slots_set hget] at hs
    rcases List.mem_or_eq_of_mem_set hs with hold | rfl
    · exact h.generation_lt s hold
    · exact h.generation_lt (.occupied _ old) (List.mem_of_getElem? (get?_eq_some.mp hget))

theorem Sound.remove (h : a.Sound count) (hremove : a.remove t = some (value, b)) :
    b.Sound count := by
  obtain ⟨hslot, hslots, hfree⟩ := remove_cases hremove
  constructor
  · rw [hfree]
    exact List.nodup_cons.mpr ⟨h.not_free hslot, h.free_nodup⟩
  · intro index member
    rw [hslots]
    rcases List.mem_cons.mp (hfree ▸ member) with rfl | hold
    · exact ⟨t.generation, by simp [(List.getElem?_eq_some_iff.mp hslot).1]⟩
    · obtain ⟨last, hvacant⟩ := h.free_vacant index hold
      have hne : t.index ≠ index := by
        rintro rfl
        exact h.not_free hslot hold
      exact ⟨last, by rw [List.getElem?_set_ne hne, hvacant]⟩
  · intro s hs
    rw [hslots] at hs
    rcases List.mem_or_eq_of_mem_set hs with hold | rfl
    · exact h.generation_lt s hold
    · exact h.generation_lt (.occupied _ value) (List.mem_of_getElem? hslot)

/-- Each insertion uses up one generation at most. -/
theorem Sound.insert (h : a.Sound count) (hinsert : a.insert value = .ok (t, b)) :
    b.Sound (count + 1) := by
  rcases insert_cases hinsert with
    ⟨last, free, hfree, hvacant, hgeneration, hrest, hslots⟩ | ⟨hfree, -, -, hrest, hslots⟩
  · have hnodup := List.nodup_cons.mp (hfree ▸ h.free_nodup)
    refine ⟨hrest ▸ hnodup.2, ?_, ?_⟩
    · intro index member
      rw [hrest] at member
      obtain ⟨last', hvacant'⟩ := h.free_vacant index (hfree ▸ List.mem_cons_of_mem _ member)
      have hne : t.index ≠ index := by
        rintro rfl
        exact hnodup.1 member
      exact ⟨last', by rw [hslots, List.getElem?_set_ne hne, hvacant']⟩
    · intro s hs
      rw [hslots] at hs
      rcases List.mem_or_eq_of_mem_set hs with hold | rfl
      · exact Nat.lt_succ_of_lt (h.generation_lt s hold)
      · have hlast : last.toNat < count := h.generation_lt _ (List.mem_of_getElem? hvacant)
        have hnext : (last + 1).toNat ≤ last.toNat + 1 := by
          rw [UInt32.toNat_add]
          exact Nat.mod_le _ _
        rw [Slot.generation, hgeneration]
        omega
  · refine ⟨by rw [hrest]; exact List.nodup_nil, by rw [hrest]; nofun, ?_⟩
    intro s hs
    rcases List.mem_append.mp (hslots ▸ hs) with hold | hnew
    · exact Nat.lt_succ_of_lt (h.generation_lt s hold)
    · rw [List.mem_singleton.mp hnew]
      exact Nat.succ_pos count

/-! ### Tokens of values that are gone -/

/-- A spent token reaches nothing. -/
theorem Spent.get?_eq_none (h : a.Spent t) : a.get? t = none := by
  obtain ⟨s, hslot, hpast⟩ := h
  rw [get?, hslot]
  cases s with
  | vacant last => rfl
  | occupied current value =>
      have hlt : t.generation < current := hpast
      exact if_neg (UInt32.ne_of_lt hlt).symm

/-- The token of a removed value is spent. -/
theorem spent_of_remove (h : a.remove t = some (value, b)) : b.Spent t := by
  obtain ⟨hslot, hslots, -⟩ := remove_cases h
  have hlt : t.index < a.slots.length := (List.getElem?_eq_some_iff.mp hslot).1
  exact ⟨.vacant t.generation, by simp [hslots, hlt], UInt32.le_refl _⟩

theorem Spent.set (h : a.Spent u) (hget : a.get? t = some old) (value : α) :
    (a.set t value).Spent u := by
  obtain ⟨s, hslot, hpast⟩ := h
  rw [Spent, slots_set hget]
  by_cases same : t.index = u.index
  · rw [← same, get?_eq_some.mp hget] at hslot
    cases hslot
    have hlt : t.index < a.slots.length := index_lt_of_get? hget
    exact ⟨.occupied t.generation value, by simp [← same, hlt], hpast⟩
  · exact ⟨s, by rw [List.getElem?_set_ne same, hslot], hpast⟩

theorem Spent.remove (h : a.Spent u) (hremove : a.remove t = some (value, b)) : b.Spent u := by
  obtain ⟨s, hslot, hpast⟩ := h
  obtain ⟨hremoved, hslots, -⟩ := remove_cases hremove
  rw [Spent, hslots]
  by_cases same : t.index = u.index
  · rw [← same, hremoved] at hslot
    cases hslot
    have hlt : t.index < a.slots.length := (List.getElem?_eq_some_iff.mp hremoved).1
    have hpast : u.generation < t.generation := hpast
    exact ⟨.vacant t.generation, by simp [← same, hlt], UInt32.le_of_lt hpast⟩
  · exact ⟨s, by rw [List.getElem?_set_ne same, hslot], hpast⟩

/-- The next generation comes after all those before it while there are any left. -/
theorem generation_lt_next (h : a.Sound count) (few : count < 2 ^ 32) {index : Nat} {last : UInt32}
    (hslot : a.slots[index]? = some (.vacant last)) : last < last + 1 := by
  have hlast : last.toNat < count := h.generation_lt _ (List.mem_of_getElem? hslot)
  rw [UInt32.lt_iff_toNat_lt, UInt32.toNat_add]
  have hone : (1 : UInt32).toNat = 1 := rfl
  rw [hone, Nat.mod_eq_of_lt (by omega)]
  exact Nat.lt_succ_self _

/-- A spent token stays spent when its slot is given out again. -/
theorem Spent.insert (h : a.Spent u) (hsound : a.Sound count) (few : count < 2 ^ 32)
    (hinsert : a.insert value = .ok (t, b)) : b.Spent u := by
  obtain ⟨s, hslot, hpast⟩ := h
  have hlt : u.index < a.slots.length := (List.getElem?_eq_some_iff.mp hslot).1
  rcases insert_cases hinsert with
    ⟨last, free, -, hvacant, hgeneration, -, hslots⟩ | ⟨-, -, -, -, hslots⟩
  · rw [Spent, hslots]
    by_cases same : t.index = u.index
    · rw [← same, hvacant] at hslot
      cases hslot
      -- The slot of the spent token is given out again, under a later generation.
      have hpast : u.generation ≤ last := hpast
      have hnext : u.generation < t.generation :=
        hgeneration ▸ UInt32.lt_of_le_of_lt hpast (generation_lt_next hsound few hvacant)
      exact ⟨.occupied t.generation value, by simp [same, hlt], hnext⟩
    · exact ⟨s, by rw [List.getElem?_set_ne same, hslot], hpast⟩
  · exact ⟨s, by rw [hslots, List.getElem?_append_left hlt, hslot], hpast⟩

/-- A new token is not a spent one. -/
theorem Spent.ne_inserted (h : a.Spent u) (hsound : a.Sound count) (few : count < 2 ^ 32)
    (hinsert : a.insert value = .ok (t, b)) : u ≠ t := by
  rintro rfl
  cases (h.insert hsound few hinsert).get?_eq_none.symm.trans
    ((get?_insert hinsert u).trans (if_pos rfl))

end Arena

end NamedData
