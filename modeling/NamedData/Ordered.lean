/-!
Ordered lists. A new element goes in front of the first one that it precedes or equals.
-/

namespace NamedData

variable {α : Type}

/-- Inserts an element after all those that are before it. -/
def insertOrdered (before : α → α → Bool) (a : α) : List α → List α
  | [] => [a]
  | b :: rest => if before b a then b :: insertOrdered before a rest else a :: b :: rest

/-- Inserts an element after all those that are before it, unless it is there. -/
def insertDistinct [DecidableEq α] (before : α → α → Bool) (a : α) : List α → List α
  | [] => [a]
  | b :: rest =>
    if before b a then b :: insertDistinct before a rest
    else if a = b then b :: rest
    else a :: b :: rest

/-- The element with the smallest key, the first one among several. -/
def leastBy? (key : α → Nat) : List α → Option α
  | [] => none
  | a :: rest =>
    match leastBy? key rest with
    | some b => if key b < key a then some b else some a
    | none => some a

theorem insertOrdered_perm (before : α → α → Bool) (a : α) (l : List α) :
    (insertOrdered before a l).Perm (a :: l) := by
  induction l with
  | nil => exact List.Perm.refl _
  | cons b rest ih =>
    rw [insertOrdered]
    split
    · exact (ih.cons b).trans (List.Perm.swap a b rest)
    · exact List.Perm.refl _

theorem mem_insertOrdered {before : α → α → Bool} {a x : α} {l : List α} :
    x ∈ insertOrdered before a l ↔ x = a ∨ x ∈ l := by
  rw [(insertOrdered_perm before a l).mem_iff, List.mem_cons]

/-- Elements in order stay in order with the new one among them. -/
theorem pairwise_insertOrdered {before : α → α → Bool} {r : α → α → Prop}
    (htrans : ∀ a b c, r a b → r b c → r a c) {a : α} {l : List α} (h : l.Pairwise r)
    (hbefore : ∀ b ∈ l, before b a = true → r b a) (hnot : ∀ b ∈ l, before b a = false → r a b) :
    (insertOrdered before a l).Pairwise r := by
  induction l with
  | nil => exact List.pairwise_singleton r a
  | cons first rest ih =>
    obtain ⟨hfirst, hrest⟩ := List.pairwise_cons.mp h
    obtain ⟨hbeforeFirst, hbeforeRest⟩ := List.forall_mem_cons.mp hbefore
    obtain ⟨hnotFirst, hnotRest⟩ := List.forall_mem_cons.mp hnot
    rw [insertOrdered]
    cases hfront : before first a with
    | true =>
      rw [if_pos rfl]
      refine List.pairwise_cons.mpr ⟨?_, ih hrest hbeforeRest hnotRest⟩
      intro b hb
      rcases mem_insertOrdered.mp hb with rfl | hold
      · exact hbeforeFirst hfront
      · exact hfirst b hold
    | false =>
      rw [if_neg Bool.false_ne_true]
      refine List.pairwise_cons.mpr ⟨?_, h⟩
      intro b hb
      rcases List.mem_cons.mp hb with rfl | hold
      · exact hnotFirst hfront
      · exact htrans a first b (hnotFirst hfront) (hfirst b hold)

theorem mem_insertDistinct [DecidableEq α] {before : α → α → Bool} {a x : α} {l : List α} :
    x ∈ insertDistinct before a l ↔ x = a ∨ x ∈ l := by
  induction l with
  | nil => simp [insertDistinct]
  | cons b rest ih =>
    rw [insertDistinct]
    split
    · simp only [List.mem_cons, ih]
      exact or_left_comm
    · split
      · simp_all
      · simp

end NamedData
