import Mathlib.Data.Set.Image
import Mathlib.Order.Bounds.Defs
import NamedData.Proofs.Histories
import NamedData.Proofs.Timing

/-!
Queues of timers as sets. To its callers a queue is a set of armed timers: setting a timer gives it
the next number, cancelling takes the timer with a number if there is one, and what is due is taken
by deadline and number. The set allows one outcome of each call, and the queue has it. So a timer
fires or is cancelled at most once.
-/

namespace NamedData

/-- A call to a queue of timers. -/
inductive TimerCall (α : Type) where
  | schedule (deadline : Timestamp) (entry : α)
  | cancel (id : Nat)
  | popDue (now : Timestamp)

/-- What a call returns. -/
inductive TimerReply (α : Type) where
  | armed (id : Nat)
  | cancelled (done : Bool)
  | popped (timer? : Option (Nat × α))
deriving DecidableEq

variable {α : Type}

namespace TimerCall

/-- The timer that a call with this reply set. -/
def scheduled? : TimerCall α → TimerReply α → Option (Timer α)
  | schedule deadline entry, .armed id => some { deadline, id, entry }
  | _, _ => none

/-- The number of the timer that fired or was cancelled in a call with this reply. -/
def ended? : TimerCall α → TimerReply α → Option Nat
  | cancel id, .cancelled true => some id
  | popDue _, .popped (some (id, _)) => some id
  | _, _ => none

end TimerCall

/-! ### Sets of timers -/

/-- The armed timers, and the number of the next one to be set. -/
structure TimerSet (α : Type) where
  armed : Set (Timer α)
  nextId : Nat

namespace TimerSet

/-- The timers that were set, the latest first. -/
def scheduled (history : List (TimerCall α × TimerReply α)) : List (Timer α) :=
  history.filterMap fun p => p.1.scheduled? p.2

/-- The numbers of the timers that fired or were cancelled, the latest first. -/
def ended (history : List (TimerCall α × TimerReply α)) : List Nat :=
  history.filterMap fun p => p.1.ended? p.2

/-- What a call may reply, and the armed timers after it. -/
inductive Step (s : TimerSet α) : TimerCall α → TimerReply α → TimerSet α → Prop where
  | schedule (deadline : Timestamp) (entry : α) :
      Step s (.schedule deadline entry) (.armed s.nextId)
        { armed := insert { deadline, id := s.nextId, entry } s.armed, nextId := s.nextId + 1 }
  | cancel {t : Timer α} {id : Nat} (ht : t ∈ s.armed) (hid : t.id = id) :
      Step s (.cancel id) (.cancelled true) { s with armed := s.armed \ {t} }
  | unknown {id : Nat} (hnone : ∀ t ∈ s.armed, t.id ≠ id) :
      Step s (.cancel id) (.cancelled false) s
  | pop {t : Timer α} {now : Timestamp} (ht : t ∈ s.armed)
      (hfirst : ∀ u ∈ s.armed, u ≠ t → t.firesBefore u = true) (hdue : t.deadline ≤ now) :
      Step s (.popDue now) (.popped (some (t.id, t.entry))) { s with armed := s.armed \ {t} }
  | wait {now : Timestamp} (hlater : ∀ t ∈ s.armed, now < t.deadline) :
      Step s (.popDue now) (.popped none) s

/-- The set after a history: which numbers were given, and which timers are armed. -/
structure Follows (s : TimerSet α) (history : List (TimerCall α × TimerReply α)) : Prop where
  /-- The numbers are given one after another. -/
  numbered : (scheduled history).map Timer.id = (List.range s.nextId).reverse
  /-- A timer is armed from when it is set until it fires or is cancelled. -/
  armed_iff : ∀ t, t ∈ s.armed ↔ t ∈ scheduled history ∧ t.id ∉ ended history
  /-- Only timers that were set fire or are cancelled. -/
  ended_lt : ∀ id ∈ ended history, id < s.nextId
  /-- No timer fires or is cancelled twice. -/
  once : (ended history).Nodup

variable {s s' s'' : TimerSet α} {k : TimerCall α} {reply reply' : TimerReply α} {t u : Timer α}
  {history : List (TimerCall α × TimerReply α)}

/-- No two armed timers have the same number. -/
def Distinct (s : TimerSet α) : Prop :=
  ∀ t ∈ s.armed, ∀ u ∈ s.armed, t.id = u.id → t = u

/-- The timer that fires before all others is one. -/
theorem first_unique (ht : t ∈ s.armed) (hfirst : ∀ v ∈ s.armed, v ≠ t → t.firesBefore v = true)
    (hu : u ∈ s.armed) (hfirst' : ∀ v ∈ s.armed, v ≠ u → u.firesBefore v = true) : t = u := by
  by_contra hne
  have hself := Timer.firesBefore_trans (hfirst u hu (Ne.symm hne)) (hfirst' t ht hne)
  rw [Timer.firesBefore_iff] at hself
  rcases hself with hlt | ⟨-, hlt⟩
  · exact Nat.lt_irrefl _ hlt
  · exact Nat.lt_irrefl _ hlt

/-- The set allows one outcome of a call. -/
theorem Step.unique (hdistinct : s.Distinct) (h : s.Step k reply s') (h' : s.Step k reply' s'') :
    reply = reply' ∧ s' = s'' := by
  cases h with
  | schedule deadline entry =>
      cases h'
      exact ⟨rfl, rfl⟩
  | @cancel t id ht hid =>
      cases h' with
      | @cancel u _ hu hid' =>
          have same : t = u := hdistinct t ht u hu (hid.trans hid'.symm)
          subst same
          exact ⟨rfl, rfl⟩
      | unknown hnone => exact absurd hid (hnone t ht)
  | unknown hnone =>
      cases h' with
      | cancel hu hid => exact absurd hid (hnone _ hu)
      | unknown => exact ⟨rfl, rfl⟩
  | @pop t now ht hfirst hdue =>
      cases h' with
      | @pop u _ hu hfirst' =>
          have same : t = u := first_unique ht hfirst hu hfirst'
          subst same
          exact ⟨rfl, rfl⟩
      | wait hlater => exact absurd hdue (Nat.not_le.mpr (hlater t ht))
  | wait hlater =>
      cases h' with
      | pop hu _ hdue => exact absurd hdue (Nat.not_le.mpr (hlater _ hu))
      | wait => exact ⟨rfl, rfl⟩

/-! ### What a history says -/

theorem follows_empty : TimerSet.Follows ({ armed := ∅, nextId := 0 } : TimerSet α) [] where
  numbered := rfl
  armed_iff t := by simp [scheduled]
  ended_lt := nofun
  once := List.nodup_nil

/-- Timers that were set have numbers of their own. -/
theorem Follows.eq_of_id (h : s.Follows history) (ht : t ∈ scheduled history)
    (hu : u ∈ scheduled history) (hid : t.id = u.id) : t = u := by
  have hnodup : ((scheduled history).map Timer.id).Nodup := by
    rw [h.numbered, List.nodup_reverse]
    exact List.nodup_range
  exact List.inj_on_of_nodup_map hnodup ht hu hid

theorem Follows.distinct (h : s.Follows history) : s.Distinct := fun t ht u hu =>
  h.eq_of_id ((h.armed_iff t).mp ht).1 ((h.armed_iff u).mp hu).1

/-- One more timer is set. -/
theorem Follows.schedule (h : s.Follows history) (hscheduled : k.scheduled? reply = some t)
    (hended : k.ended? reply = none) (hid : t.id = s.nextId) :
    TimerSet.Follows { armed := insert t s.armed, nextId := s.nextId + 1 }
      ((k, reply) :: history) := by
  have hmore : scheduled ((k, reply) :: history) = t :: scheduled history :=
    List.filterMap_cons_some hscheduled
  have hsame : ended ((k, reply) :: history) = ended history := List.filterMap_cons_none hended
  constructor
  · rw [hmore, List.map_cons, h.numbered, hid, List.range_succ, List.reverse_append]
    rfl
  · intro u
    rw [hmore, hsame, Set.mem_insert_iff, h.armed_iff, List.mem_cons]
    constructor
    · rintro (rfl | ⟨hset, hlives⟩)
      · exact ⟨.inl rfl, fun member => Nat.ne_of_lt (h.ended_lt _ member) hid⟩
      · exact ⟨.inr hset, hlives⟩
    · rintro ⟨rfl | hset, hlives⟩
      · exact .inl rfl
      · exact .inr ⟨hset, hlives⟩
  · intro id member
    exact Nat.lt_succ_of_lt (h.ended_lt id (hsame ▸ member))
  · rw [hsame]
    exact h.once

/-- An armed timer fires or is cancelled. -/
theorem Follows.finish (h : s.Follows history) (ht : t ∈ s.armed)
    (hscheduled : k.scheduled? reply = none) (hended : k.ended? reply = some t.id) :
    TimerSet.Follows { s with armed := s.armed \ {t} } ((k, reply) :: history) := by
  have hsame : scheduled ((k, reply) :: history) = scheduled history :=
    List.filterMap_cons_none hscheduled
  have hmore : ended ((k, reply) :: history) = t.id :: ended history :=
    List.filterMap_cons_some hended
  obtain ⟨hset, hlives⟩ := (h.armed_iff t).mp ht
  have hid : t.id < s.nextId := by
    have hnumber := List.mem_map_of_mem (f := Timer.id) hset
    rw [h.numbered, List.mem_reverse, List.mem_range] at hnumber
    exact hnumber
  constructor
  · rw [hsame]
    exact h.numbered
  · intro u
    rw [hsame, hmore, Set.mem_sdiff, Set.mem_singleton_iff, h.armed_iff, List.mem_cons, not_or]
    constructor
    · rintro ⟨⟨hset', hlives'⟩, hne⟩
      exact ⟨hset', fun same => hne (h.eq_of_id hset' hset same), hlives'⟩
    · rintro ⟨hset', hne, hlives'⟩
      exact ⟨⟨hset', hlives'⟩, fun same => hne (congrArg Timer.id same)⟩
  · rw [hmore]
    exact List.forall_mem_cons.mpr ⟨hid, h.ended_lt⟩
  · rw [hmore]
    exact List.nodup_cons.mpr ⟨hlives, h.once⟩

/-- Nothing happens. -/
theorem Follows.idle (h : s.Follows history) (hscheduled : k.scheduled? reply = none)
    (hended : k.ended? reply = none) : s.Follows ((k, reply) :: history) := by
  have hset : scheduled ((k, reply) :: history) = scheduled history :=
    List.filterMap_cons_none hscheduled
  have hgone : ended ((k, reply) :: history) = ended history := List.filterMap_cons_none hended
  constructor
  · rw [hset]
    exact h.numbered
  · rw [hset, hgone]
    exact h.armed_iff
  · rw [hgone]
    exact h.ended_lt
  · rw [hgone]
    exact h.once

theorem Follows.step (h : s.Follows history) (hstep : s.Step k reply s') :
    s'.Follows ((k, reply) :: history) := by
  cases hstep with
  | schedule deadline entry => exact h.schedule rfl rfl rfl
  | cancel ht hid => exact h.finish ht rfl (congrArg some hid.symm)
  | unknown => exact h.idle rfl rfl
  | pop ht => exact h.finish ht rfl rfl
  | wait => exact h.idle rfl rfl

end TimerSet

/-! ### The queue -/

namespace TimerQueue

variable {q : TimerQueue α} {k : TimerCall α} {t u : Timer α} {rest : List (Timer α)}

def call (q : TimerQueue α) : TimerCall α → TimerReply α × TimerQueue α
  | .schedule deadline entry =>
    let (id, q) := q.schedule deadline entry
    (.armed id, q)
  | .cancel id =>
    let (done, q) := q.cancel id
    (.cancelled done, q)
  | .popDue now =>
    match q.popDue now with
    | some (t, q) => (.popped (some (t.id, t.entry)), q)
    | none => (.popped none, q)

theorem call_popDue_of_empty {now : Timestamp} (htimers : q.timers = []) :
    q.call (.popDue now) = (.popped none, q) := by
  rw [call, popDue, htimers]

theorem call_popDue_of_due {now : Timestamp} (htimers : q.timers = t :: rest)
    (hdue : t.deadline ≤ now) :
    q.call (.popDue now) = (.popped (some (t.id, t.entry)), { q with timers := rest }) := by
  simp only [call, popDue, htimers, if_pos hdue]

theorem call_popDue_of_later {now : Timestamp} (htimers : q.timers = t :: rest)
    (hlater : ¬ t.deadline ≤ now) : q.call (.popDue now) = (.popped none, q) := by
  simp only [call, popDue, htimers, if_neg hlater]

/-- What a queue is to its callers. -/
def set (q : TimerQueue α) : TimerSet α where
  armed := { t | t ∈ q.timers }
  nextId := q.nextId

/-- The timers stand in firing order, and each has a number that was given before. -/
structure Sound (q : TimerQueue α) : Prop where
  ordered : q.timers.Pairwise fun t u => t.firesBefore u = true
  below : ∀ t ∈ q.timers, t.id < q.nextId
  nodup : (q.timers.map Timer.id).Nodup

theorem sound_empty : ({} : TimerQueue α).Sound where
  ordered := .nil
  below := nofun
  nodup := List.nodup_nil

/-- Timers that are left alone stay sound. -/
theorem Sound.sublist (h : q.Sound) {timers : List (Timer α)} (hsub : timers.Sublist q.timers) :
    TimerQueue.Sound { q with timers } where
  ordered := h.ordered.sublist hsub
  below t ht := h.below t (hsub.subset ht)
  nodup := h.nodup.sublist (hsub.map Timer.id)

theorem Sound.schedule (h : q.Sound) (deadline : Timestamp) (entry : α) :
    (q.schedule deadline entry).2.Sound where
  ordered := ordered_insertOrdered h.ordered fun t ht => Nat.ne_of_lt (h.below t ht)
  below t ht := by
    rcases mem_insertOrdered.mp ht with rfl | hold
    · exact Nat.lt_succ_self _
    · exact Nat.lt_succ_of_lt (h.below t hold)
  nodup := by
    have hperm := (insertOrdered_perm Timer.firesBefore
      { deadline, id := q.nextId, entry } q.timers).map Timer.id
    refine hperm.nodup_iff.mpr (List.nodup_cons.mpr ⟨fun member => ?_, h.nodup⟩)
    obtain ⟨t, ht, hid⟩ := List.mem_map.mp member
    exact Nat.ne_of_lt (h.below t ht) hid

theorem Sound.call (h : q.Sound) (k : TimerCall α) : (q.call k).2.Sound := by
  cases k with
  | schedule deadline entry => exact h.schedule deadline entry
  | cancel id => exact h.sublist List.filter_sublist
  | popDue now =>
      cases htimers : q.timers with
      | nil => rwa [call_popDue_of_empty htimers]
      | cons t rest =>
          by_cases hdue : t.deadline ≤ now
          · rw [call_popDue_of_due htimers hdue]
            exact h.sublist (htimers ▸ List.sublist_cons_self t rest)
          · rwa [call_popDue_of_later htimers hdue]

/-- Timers of one number are the same. -/
theorem Sound.id_eq_iff (h : q.Sound) (ht : t ∈ q.timers) (hu : u ∈ q.timers) :
    t.id = u.id ↔ t = u :=
  ⟨List.inj_on_of_nodup_map h.nodup ht hu, congrArg Timer.id⟩

/-- Without one number the others are left. -/
theorem Sound.set_filter (h : q.Sound) (ht : t ∈ q.timers) :
    TimerQueue.set { q with timers := q.timers.filter fun u => u.id ≠ t.id } =
      { q.set with armed := q.set.armed \ {t} } := by
  refine congrArg (TimerSet.mk · q.nextId) (Set.ext fun u => ?_)
  simp only [Set.mem_ofPred_eq, List.mem_filter, decide_eq_true_eq, Set.mem_sdiff,
    Set.mem_singleton_iff]
  exact and_congr_right fun hu => not_congr (h.id_eq_iff hu ht)

/-- Without the first timer the others are left. -/
theorem Sound.filter_tail (h : q.Sound) (htimers : q.timers = t :: rest) :
    q.timers.filter (fun u => u.id ≠ t.id) = rest := by
  have hnodup := h.nodup
  rw [htimers, List.map_cons, List.nodup_cons] at hnodup
  rw [htimers, List.filter_cons_of_neg (by simp)]
  refine List.filter_eq_self.mpr fun u hu => decide_eq_true fun same => hnodup.1 ?_
  exact List.mem_map.mpr ⟨u, hu, same⟩

/-- The first timer fires before all others. -/
theorem Sound.head_firesBefore (h : q.Sound) (htimers : q.timers = t :: rest) :
    ∀ u ∈ q.timers, u ≠ t → t.firesBefore u = true := by
  intro u hu hne
  have hlater := (List.mem_cons.mp (htimers ▸ hu)).resolve_left hne
  exact (List.pairwise_cons.mp (htimers ▸ h.ordered)).1 u hlater

theorem Sound.head_deadline_le (h : q.Sound) (htimers : q.timers = t :: rest) :
    ∀ u ∈ q.timers, t.deadline ≤ u.deadline := by
  intro u hu
  by_cases same : u = t
  · exact Nat.le_of_eq (same ▸ rfl)
  · exact Timer.deadline_le_of_firesBefore (h.head_firesBefore htimers u hu same)

theorem Sound.step_cancel (h : q.Sound) (id : Nat) :
    q.set.Step (.cancel id) (q.call (.cancel id)).1 (q.call (.cancel id)).2.set := by
  by_cases hthere : ∃ t ∈ q.timers, t.id = id
  · obtain ⟨t, ht, rfl⟩ := hthere
    have hdone : (q.call (.cancel t.id)).1 = .cancelled true :=
      congrArg TimerReply.cancelled (List.any_eq_true.mpr ⟨t, ht, decide_eq_true rfl⟩)
    have hleft := h.set_filter ht
    rw [hdone]
    exact hleft ▸ .cancel ht rfl
  · have hnone : ∀ t ∈ q.timers, t.id ≠ id := fun t ht hid => hthere ⟨t, ht, hid⟩
    have hdone : (q.call (.cancel id)).1 = .cancelled false :=
      congrArg TimerReply.cancelled (List.any_eq_false.mpr fun t ht => by simpa using hnone t ht)
    have hleft : (q.call (.cancel id)).2 = q :=
      congrArg (TimerQueue.mk · q.nextId)
        (List.filter_eq_self.mpr fun t ht => decide_eq_true (hnone t ht))
    rw [hdone, hleft]
    exact .unknown hnone

theorem Sound.step_popDue (h : q.Sound) (now : Timestamp) :
    q.set.Step (.popDue now) (q.call (.popDue now)).1 (q.call (.popDue now)).2.set := by
  cases htimers : q.timers with
  | nil =>
      rw [call_popDue_of_empty htimers]
      exact .wait fun t ht => absurd (htimers ▸ ht : t ∈ []) List.not_mem_nil
  | cons t rest =>
      have ht : t ∈ q.timers := htimers ▸ List.mem_cons_self
      by_cases hdue : t.deadline ≤ now
      · have hleft := h.set_filter ht
        rw [h.filter_tail htimers] at hleft
        rw [call_popDue_of_due htimers hdue]
        exact hleft ▸ .pop ht (h.head_firesBefore htimers) hdue
      · rw [call_popDue_of_later htimers hdue]
        exact .wait fun u hu =>
          Nat.lt_of_lt_of_le (Nat.lt_of_not_le hdue) (h.head_deadline_le htimers u hu)

/-- What the queue does is what the set allows. -/
theorem Sound.step (h : q.Sound) (k : TimerCall α) :
    q.set.Step k (q.call k).1 (q.call k).2.set := by
  cases k with
  | schedule deadline entry =>
      have hset : (q.call (.schedule deadline entry)).2.set =
          { armed := insert { deadline, id := q.nextId, entry } q.set.armed
            nextId := q.nextId + 1 } :=
        congrArg (TimerSet.mk · (q.nextId + 1)) (Set.ext fun t => mem_insertOrdered)
      exact hset ▸ .schedule deadline entry
  | cancel id => exact h.step_cancel id
  | popDue now => exact h.step_popDue now

/-- The next deadline is that of the timer that fires first. -/
theorem Sound.nextDeadline?_iff (h : q.Sound) (deadline : Timestamp) :
    q.nextDeadline? = some deadline ↔ IsLeast (Timer.deadline '' q.set.armed) deadline := by
  cases htimers : q.timers with
  | nil =>
      have hnone : q.nextDeadline? = none := by rw [nextDeadline?, htimers]; rfl
      rw [hnone]
      refine ⟨nofun, fun hleast => ?_⟩
      obtain ⟨t, ht, -⟩ := hleast.1
      exact absurd (htimers ▸ ht : t ∈ []) List.not_mem_nil
  | cons t rest =>
      have hnext : q.nextDeadline? = some t.deadline := by rw [nextDeadline?, htimers]; rfl
      have ht : t ∈ q.timers := htimers ▸ List.mem_cons_self
      have hleast := h.head_deadline_le htimers
      rw [hnext, Option.some.injEq]
      constructor
      · rintro rfl
        exact ⟨Set.mem_image_of_mem _ ht, Set.forall_mem_image.2 hleast⟩
      · rintro ⟨⟨u, hu, rfl⟩, hlower⟩
        exact Timestamp.eq_of_toNat
          (Nat.le_antisymm (hleast u hu) (hlower (Set.mem_image_of_mem _ ht)))

theorem sound_history (calls : List (TimerCall α)) :
    (recordCalls call ({} : TimerQueue α) calls).2.Sound ∧
      (recordCalls call ({} : TimerQueue α) calls).2.set.Follows
        (recordCalls call ({} : TimerQueue α) calls).1 := by
  refine recordCalls_induction
    (P := fun history (q : TimerQueue α) => q.Sound ∧ q.set.Follows history) ?_ ?_ calls
  · refine ⟨sound_empty, ?_⟩
    have hempty : ({} : TimerQueue α).set = { armed := ∅, nextId := 0 } :=
      congrArg (TimerSet.mk · 0) (Set.ext fun t => by simp)
    rw [hempty]
    exact TimerSet.follows_empty
  · rintro history q k ⟨hsound, hfollows⟩
    exact ⟨hsound.call k, hfollows.step (hsound.step k)⟩

end TimerQueue

end NamedData
