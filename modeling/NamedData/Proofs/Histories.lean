/-!
Histories of calls. Something is called again and again, and each call gives a reply and what it is
then; the history has the calls with their replies. What holds at first and is kept by every call
holds of every history, and two things that give the same reply to each call have the same history.
-/

namespace NamedData

variable {σ τ κ ρ : Type}

/-- Makes some calls, the latest first, and keeps them with their replies. -/
def recordCalls (call : σ → κ → ρ × σ) (start : σ) : List κ → List (κ × ρ) × σ
  | [] => ([], start)
  | k :: earlier =>
    let (history, s) := recordCalls call start earlier
    let (reply, s') := call s k
    ((k, reply) :: history, s')

variable {call : σ → κ → ρ × σ} {start : σ}

/-- The history has the calls that were made. -/
theorem map_fst_recordCalls (calls : List κ) :
    (recordCalls call start calls).1.map Prod.fst = calls := by
  induction calls with
  | nil => rfl
  | cons k earlier ih => exact congrArg (k :: ·) ih

theorem recordCalls_induction {P : List (κ × ρ) → σ → Prop} (hstart : P [] start)
    (hstep : ∀ history s k, P history s → P ((k, (call s k).1) :: history) (call s k).2)
    (calls : List κ) : P (recordCalls call start calls).1 (recordCalls call start calls).2 := by
  induction calls with
  | nil => exact hstart
  | cons k earlier ih => exact hstep _ _ k ih

/-- Replies stay the same as long as a relation is kept under which they are. -/
theorem recordCalls_simulation {other : τ → κ → ρ × τ} {first : τ} {R : σ → τ → Prop}
    (hstart : R start first)
    (hstep : ∀ s t k, R s t → (call s k).1 = (other t k).1 ∧ R (call s k).2 (other t k).2)
    (calls : List κ) :
    (recordCalls call start calls).1 = (recordCalls other first calls).1 ∧
      R (recordCalls call start calls).2 (recordCalls other first calls).2 := by
  induction calls with
  | nil => exact ⟨rfl, hstart⟩
  | cons k earlier ih =>
      obtain ⟨hhistory, hrelated⟩ := ih
      obtain ⟨hreply, hnext⟩ := hstep _ _ k hrelated
      refine ⟨?_, hnext⟩
      change (k, _) :: (recordCalls call start earlier).1 = _
      rw [hreply, hhistory]
      rfl

end NamedData
