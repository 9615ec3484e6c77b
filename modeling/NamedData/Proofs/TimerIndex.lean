import NamedData.Proofs.KeyedLists
import NamedData.Proofs.TimerCalls

/-!
Timers in two lists: in firing order, and with the deadline of each number, which finds a timer to
cancel without a search. Both lists always hold the same timers, and no caller can tell such a queue
from one with a single list.
-/

namespace NamedData

variable {α : Type}

/-- Timers by deadline and number, and their deadlines by number. -/
structure TimerIndex (α : Type) where
  queue : List (Timer α) := []
  deadlines : List (Nat × Timestamp) := []
  nextId : Nat := 0

/-- Whether the timer has the given deadline and number. -/
def Timer.isAt (t : Timer α) (deadline : Timestamp) (id : Nat) : Bool :=
  t.deadline = deadline && t.id = id

namespace TimerIndex

def schedule (x : TimerIndex α) (deadline : Timestamp) (entry : α) : Nat × TimerIndex α :=
  let timer : Timer α := { deadline, id := x.nextId, entry }
  (x.nextId,
    { queue := insertOrdered Timer.firesBefore timer
        (x.queue.filter fun t => !t.isAt deadline x.nextId)
      deadlines := (x.nextId, deadline) :: x.deadlines.filter fun e => e.1 ≠ x.nextId
      nextId := x.nextId + 1 })

/-- Looks up the deadline by the number, and removes what has both from the queue. -/
def cancel (x : TimerIndex α) (id : Nat) : Bool × TimerIndex α :=
  match x.deadlines.lookup id with
  | some deadline =>
    (x.queue.any fun t => t.isAt deadline id,
      { x with
        queue := x.queue.filter fun t => !t.isAt deadline id
        deadlines := x.deadlines.filter fun e => e.1 ≠ id })
  | none => (false, x)

def popDue (x : TimerIndex α) (now : Timestamp) : Option (Timer α × TimerIndex α) :=
  match x.queue with
  | t :: rest =>
    if t.deadline ≤ now then
      some (t, { x with queue := rest, deadlines := x.deadlines.filter fun e => e.1 ≠ t.id })
    else none
  | [] => none

def nextDeadline? (x : TimerIndex α) : Option Timestamp :=
  x.queue.head?.map Timer.deadline

def call (x : TimerIndex α) : TimerCall α → TimerReply α × TimerIndex α
  | .schedule deadline entry =>
    let (id, x) := x.schedule deadline entry
    (.armed id, x)
  | .cancel id =>
    let (done, x) := x.cancel id
    (.cancelled done, x)
  | .popDue now =>
    match x.popDue now with
    | some (t, x) => (.popped (some (t.id, t.entry)), x)
    | none => (.popped none, x)

/-- Both lists hold the timers of a queue. -/
structure Mirrors (x : TimerIndex α) (q : TimerQueue α) : Prop where
  queue : x.queue = q.timers
  deadlines : x.deadlines.Perm (q.timers.map fun t => (t.id, t.deadline))
  nextId : x.nextId = q.nextId

variable {x : TimerIndex α} {q : TimerQueue α} {t : Timer α} {deadline : Timestamp} {id : Nat}

theorem mirrors_empty : TimerIndex.Mirrors ({} : TimerIndex α) {} where
  queue := rfl
  deadlines := .nil
  nextId := rfl

theorem Mirrors.keysOnce (h : x.Mirrors q) (hsound : q.Sound) : KeysOnce x.deadlines := by
  have hkeys := h.deadlines.map Prod.fst
  rw [List.map_map] at hkeys
  exact hkeys.nodup_iff.mpr hsound.nodup

/-- The deadline that is found by a number is that of the timer with the number. -/
theorem Mirrors.lookup_eq_some (h : x.Mirrors q) (hsound : q.Sound) :
    x.deadlines.lookup id = some deadline ↔ ∃ t ∈ q.timers, t.isAt deadline id = true := by
  rw [(h.keysOnce hsound).lookup_eq_some, h.deadlines.mem_iff, List.mem_map]
  simp [Timer.isAt, and_comm]

/-- Without one number both lists hold the same timers again. -/
theorem Mirrors.filter (h : x.Mirrors q) (id : Nat) :
    (x.deadlines.filter fun e => e.1 ≠ id).Perm
      ((q.timers.filter fun t => t.id ≠ id).map fun t => (t.id, t.deadline)) := by
  have hleft := h.deadlines.filter fun e => decide (e.1 ≠ id)
  rwa [List.filter_map] at hleft

theorem Mirrors.schedule (h : x.Mirrors q) (hsound : q.Sound) (deadline : Timestamp) (entry : α) :
    (x.schedule deadline entry).1 = (q.schedule deadline entry).1 ∧
      (x.schedule deadline entry).2.Mirrors (q.schedule deadline entry).2 := by
  have hqueue : x.queue.filter (fun t => !t.isAt deadline x.nextId) = q.timers := by
    rw [h.queue, h.nextId]
    refine List.filter_eq_self.mpr fun t ht => ?_
    simp [Timer.isAt, Nat.ne_of_lt (hsound.below t ht)]
  have hdeadlines := h.filter x.nextId
  have hall : q.timers.filter (fun t => t.id ≠ x.nextId) = q.timers :=
    List.filter_eq_self.mpr fun t ht =>
      decide_eq_true (h.nextId ▸ Nat.ne_of_lt (hsound.below t ht))
  rw [hall] at hdeadlines
  have hnew := (insertOrdered_perm Timer.firesBefore
    { deadline, id := q.nextId, entry } q.timers).map fun t => (t.id, t.deadline)
  refine ⟨h.nextId, ?_, ?_, congrArg (· + 1) h.nextId⟩
  · simp only [TimerIndex.schedule, TimerQueue.schedule, hqueue]
    rw [h.nextId]
  · refine (hdeadlines.cons (x.nextId, deadline)).trans ?_
    rw [h.nextId]
    exact hnew.symm

theorem Mirrors.cancel (h : x.Mirrors q) (hsound : q.Sound) (id : Nat) :
    (x.cancel id).1 = (q.cancel id).1 ∧ (x.cancel id).2.Mirrors (q.cancel id).2 := by
  rw [TimerIndex.cancel]
  cases hlookup : x.deadlines.lookup id with
  | some deadline =>
      obtain ⟨t, ht, hat⟩ := (h.lookup_eq_some hsound).mp hlookup
      obtain ⟨rfl, rfl⟩ : t.deadline = deadline ∧ t.id = id := by simpa [Timer.isAt] using hat
      -- Of the timers in the queue only that one has its number, so the deadline adds nothing.
      have hsame : ∀ u ∈ q.timers, u.isAt t.deadline t.id = decide (u.id = t.id) := by
        intro u hu
        rw [Timer.isAt, Bool.eq_iff_iff]
        simp only [Bool.and_eq_true, decide_eq_true_eq]
        refine ⟨And.right, fun hid => ⟨?_, hid⟩⟩
        exact congrArg Timer.deadline ((hsound.id_eq_iff hu ht).mp hid)
      dsimp only
      rw [h.queue]
      refine ⟨?_, List.filter_congr fun u hu => ?_, h.filter t.id, h.nextId⟩
      · exact (List.any_eq_true.mpr ⟨t, ht, hat⟩).trans
          (List.any_eq_true.mpr ⟨t, ht, decide_eq_true rfl⟩).symm
      · rw [hsame u hu, decide_not]
  | none =>
      have hnone : ∀ t ∈ q.timers, t.id ≠ id := by
        intro t ht hid
        have hat : t.isAt t.deadline id = true := by simp [Timer.isAt, hid]
        cases hlookup.symm.trans ((h.lookup_eq_some hsound).mpr ⟨t, ht, hat⟩)
      have hall : q.timers.filter (fun t => t.id ≠ id) = q.timers :=
        List.filter_eq_self.mpr fun t ht => decide_eq_true (hnone t ht)
      refine ⟨(List.any_eq_false.mpr fun t ht => by simpa using hnone t ht).symm, ?_, ?_, h.nextId⟩
      · exact h.queue.trans hall.symm
      · exact (h.deadlines.trans (.of_eq (congrArg _ hall.symm)))

theorem Mirrors.popDue (h : x.Mirrors q) (hsound : q.Sound) (now : Timestamp) :
    (x.call (.popDue now)).1 = (q.call (.popDue now)).1 ∧
      (x.call (.popDue now)).2.Mirrors (q.call (.popDue now)).2 := by
  cases htimers : q.timers with
  | nil =>
      have hwait : x.call (.popDue now) = (.popped none, x) := by
        simp only [TimerIndex.call, TimerIndex.popDue, h.queue, htimers]
      rw [hwait, TimerQueue.call_popDue_of_empty htimers]
      exact ⟨rfl, h⟩
  | cons t rest =>
      by_cases hdue : t.deadline ≤ now
      · have hpop : x.call (.popDue now) = (.popped (some (t.id, t.entry)),
            { x with queue := rest, deadlines := x.deadlines.filter fun e => e.1 ≠ t.id }) := by
          simp only [TimerIndex.call, TimerIndex.popDue, h.queue, htimers, if_pos hdue]
        have hleft := h.filter t.id
        rw [hsound.filter_tail htimers] at hleft
        rw [hpop, TimerQueue.call_popDue_of_due htimers hdue]
        exact ⟨rfl, rfl, hleft, h.nextId⟩
      · have hwait : x.call (.popDue now) = (.popped none, x) := by
          simp only [TimerIndex.call, TimerIndex.popDue, h.queue, htimers, if_neg hdue]
        rw [hwait, TimerQueue.call_popDue_of_later htimers hdue]
        exact ⟨rfl, h⟩

theorem Mirrors.call (h : x.Mirrors q) (hsound : q.Sound) (k : TimerCall α) :
    (x.call k).1 = (q.call k).1 ∧ (x.call k).2.Mirrors (q.call k).2 := by
  cases k with
  | schedule deadline entry =>
      obtain ⟨hreply, hnext⟩ := h.schedule hsound deadline entry
      exact ⟨congrArg TimerReply.armed hreply, hnext⟩
  | cancel id =>
      obtain ⟨hreply, hnext⟩ := h.cancel hsound id
      exact ⟨congrArg TimerReply.cancelled hreply, hnext⟩
  | popDue now => exact h.popDue hsound now

end TimerIndex

/-- After any calls to a queue, each of its timers is armed from when it was set, under the next
number, until it fires or is cancelled, which happens to it at most once. What a call then replies
and leaves behind is the one outcome that the set of the armed timers allows, and the next deadline
is the least one. A queue with two lists gives the same replies, and its lists always hold the same
timers. -/
theorem timers_fire_once_in_order (calls : List (TimerCall α)) :
    let (history, q) := recordCalls TimerQueue.call ({} : TimerQueue α) calls
    let (history', x) := recordCalls TimerIndex.call ({} : TimerIndex α) calls
    q.set.Follows history ∧
      (∀ k reply s, q.set.Step k reply s ↔ reply = (q.call k).1 ∧ s = (q.call k).2.set) ∧
      (∀ deadline, q.nextDeadline? = some deadline ↔
        IsLeast (Timer.deadline '' q.set.armed) deadline) ∧
      history' = history ∧ x.nextDeadline? = q.nextDeadline? ∧ x.Mirrors q := by
  obtain ⟨hsound, hfollows⟩ := TimerQueue.sound_history calls
  obtain ⟨hsame, -, hmirrors⟩ := recordCalls_simulation
    (R := fun (x : TimerIndex α) (q : TimerQueue α) => q.Sound ∧ x.Mirrors q)
    ⟨TimerQueue.sound_empty, TimerIndex.mirrors_empty⟩
    (fun x q k ⟨hsound, hmirrors⟩ =>
      ⟨(hmirrors.call hsound k).1, hsound.call k, (hmirrors.call hsound k).2⟩) calls
  refine ⟨hfollows, fun k reply s => ⟨fun hstep => ?_, ?_⟩, hsound.nextDeadline?_iff, hsame, ?_,
    hmirrors⟩
  · exact hstep.unique hfollows.distinct (hsound.step k)
  · rintro ⟨rfl, rfl⟩
    exact hsound.step k
  · exact congrArg (fun timers => timers.head?.map Timer.deadline) hmirrors.queue

end NamedData
