import Mathlib.Data.List.Nodup
import NamedData.Proofs.Frames

/-!
Timers and the entries they end. An entry that has a timer stores its number, and every armed timer
is the one that its entry stores; setting a timer anew, for whatever time, keeps both sides together
and moves no timer of another entry. An entry may be without a timer only while it is made.
-/

namespace NamedData

theorem Timestamp.eq_of_toNat {a b : Timestamp} (h : a.toNat = b.toNat) : a = b :=
  congrArg Timestamp.mk (UInt64.toNat_inj.mp h)

namespace Timer

variable {α : Type} {t u v : Timer α}

theorem firesBefore_iff : t.firesBefore u = true ↔
    t.deadline < u.deadline ∨ t.deadline = u.deadline ∧ t.id < u.id := by
  simp [firesBefore]

theorem firesBefore_trans (htu : t.firesBefore u = true) (huv : u.firesBefore v = true) :
    t.firesBefore v = true := by
  rw [firesBefore_iff] at *
  rcases htu with hlt | ⟨heq, hid⟩
  · rcases huv with hlt' | ⟨heq', -⟩
    · exact .inl (Nat.lt_trans hlt hlt')
    · exact .inl (heq' ▸ hlt)
  · rcases huv with hlt' | ⟨heq', hid'⟩
    · exact .inl (heq ▸ hlt')
    · exact .inr ⟨heq.trans heq', Nat.lt_trans hid hid'⟩

theorem deadline_le_of_firesBefore (h : t.firesBefore u = true) : t.deadline ≤ u.deadline := by
  rcases firesBefore_iff.mp h with hlt | ⟨heq, -⟩
  · exact Nat.le_of_lt hlt
  · exact Nat.le_of_eq (congrArg Timestamp.toNat heq)

/-- Of two timers with different numbers one fires first. -/
theorem firesBefore_of_not (hid : t.id ≠ u.id) (h : u.firesBefore t = false) :
    t.firesBefore u = true := by
  rw [← Bool.not_eq_true, firesBefore_iff, not_or] at h
  obtain ⟨hlater, hsame⟩ := h
  rw [firesBefore_iff]
  rcases Nat.lt_or_eq_of_le (Nat.le_of_not_lt hlater) with hlt | heq
  · exact .inl hlt
  · have heq' : t.deadline = u.deadline := Timestamp.eq_of_toNat heq
    exact .inr ⟨heq', Nat.lt_of_le_of_ne (Nat.le_of_not_lt fun hlt => hsame ⟨heq'.symm, hlt⟩) hid⟩

end Timer

/-- Armed timers and stored timer numbers belong together, one to one, and the timers are in firing
order. -/
structure Timed (timers : List (Timer PitToken)) (nextId : Nat)
    (entryOf? : PitToken → Option PitEntry) : Prop where
  nodup : (timers.map Timer.id).Nodup
  below : ∀ t ∈ timers, t.id < nextId
  owned : ∀ t ∈ timers, ∃ e, entryOf? t.entry = some e ∧ e.expiryTimer = some t.id
  armed : ∀ token e id, entryOf? token = some e → e.expiryTimer = some id →
    ∃ deadline, Timer.mk deadline id token ∈ timers
  ordered : timers.Pairwise fun t u => t.firesBefore u = true

/-- The timer of an entry is armed and fires at the given time. -/
def EndsAt (timers : List (Timer PitToken)) (token : PitToken) (e : PitEntry)
    (deadline : Timestamp) : Prop :=
  ∃ id, e.expiryTimer = some id ∧ Timer.mk deadline id token ∈ timers

namespace Timed

variable {timers : List (Timer PitToken)} {nextId : Nat} {entryOf? : PitToken → Option PitEntry}

/-- Only the stored timer numbers count. -/
theorem congr (h : Timed timers nextId entryOf?) {other? : PitToken → Option PitEntry}
    (hsame : ∀ token, (other? token).map PitEntry.expiryTimer =
      (entryOf? token).map PitEntry.expiryTimer) : Timed timers nextId other? where
  nodup := h.nodup
  below := h.below
  owned t ht := by
    obtain ⟨e, hget, hid⟩ := h.owned t ht
    have hview := hsame t.entry
    rw [hget, Option.map_some, Option.map_eq_some_iff] at hview
    obtain ⟨e', hget', hid'⟩ := hview
    exact ⟨e', hget', hid'.trans hid⟩
  armed token e id hget hid := by
    have hview := hsame token
    rw [hget, Option.map_some, eq_comm, Option.map_eq_some_iff] at hview
    obtain ⟨e', hget', hid'⟩ := hview
    exact h.armed token e' id hget' (hid'.trans hid)
  ordered := h.ordered

theorem byDeadline (h : Timed timers nextId entryOf?) :
    timers.Pairwise fun t u => t.deadline ≤ u.deadline :=
  h.ordered.imp Timer.deadline_le_of_firesBefore

/-- Two armed timers of one number are the same timer. -/
theorem eq_of_id (h : Timed timers nextId entryOf?) {t u : Timer PitToken} (ht : t ∈ timers)
    (hu : u ∈ timers) (hid : t.id = u.id) : t = u :=
  List.inj_on_of_nodup_map h.nodup ht hu hid

/-- The number in an entry is that of no timer but its own. -/
theorem id_eq_iff (h : Timed timers nextId entryOf?) {token : PitToken} {e : PitEntry} {id : Nat}
    (hget : entryOf? token = some e) (hid : e.expiryTimer = some id) {t : Timer PitToken}
    (ht : t ∈ timers) : t.id = id ↔ t.entry = token := by
  constructor
  · intro same
    obtain ⟨deadline, member⟩ := h.armed token e id hget hid
    rw [h.eq_of_id ht member same]
  · intro same
    obtain ⟨e', hget', hid'⟩ := h.owned t ht
    rw [same, hget, Option.some.injEq] at hget'
    rw [← hget', hid, Option.some.injEq] at hid'
    exact hid'.symm

/-- A timer armed for an entry without a timer number does not exist. -/
theorem entry_ne_of_idle (h : Timed timers nextId entryOf?) {token : PitToken} {e : PitEntry}
    (hget : entryOf? token = some e) (hidle : e.expiryTimer = none) {t : Timer PitToken}
    (ht : t ∈ timers) : t.entry ≠ token := by
  intro same
  obtain ⟨e', hget', hid'⟩ := h.owned t ht
  rw [same, hget, Option.some.injEq] at hget'
  rw [← hget', hidle] at hid'
  cases hid'

theorem endsAt_unique (h : Timed timers nextId entryOf?) {token : PitToken} {e : PitEntry}
    {d d' : Timestamp} (hd : EndsAt timers token e d) (hd' : EndsAt timers token e d') :
    d = d' := by
  obtain ⟨id, hid, member⟩ := hd
  obtain ⟨id', hid', member'⟩ := hd'
  rw [hid, Option.some.injEq] at hid'
  have same := h.eq_of_id member member' hid'
  exact congrArg Timer.deadline same

/-- A new entry has no timer yet. -/
theorem insert (h : Timed timers nextId entryOf?) {other? : PitToken → Option PitEntry}
    {token : PitToken} {e : PitEntry} (hfresh : entryOf? token = none)
    (hidle : e.expiryTimer = none)
    (hother : ∀ t, other? t = if t = token then some e else entryOf? t) :
    Timed timers nextId other? where
  nodup := h.nodup
  below := h.below
  owned t ht := by
    obtain ⟨e', hget, hid⟩ := h.owned t ht
    have hne : t.entry ≠ token := by
      intro same
      rw [same, hfresh] at hget
      cases hget
    exact ⟨e', by rw [hother, if_neg hne, hget], hid⟩
  armed t e' id hget hid := by
    rw [hother] at hget
    split at hget
    · cases hget
      rw [hidle] at hid
      cases hid
    · exact h.armed t e' id hget hid
  ordered := h.ordered

/-- The timer that fires first goes together with its entry. -/
theorem erase {t : Timer PitToken} {rest : List (Timer PitToken)}
    (h : Timed (t :: rest) nextId entryOf?) {other? : PitToken → Option PitEntry}
    (hother : ∀ token, other? token = if token = t.entry then none else entryOf? token) :
    Timed rest nextId other? where
  nodup := (List.nodup_cons.mp h.nodup).2
  below u hu := h.below u (List.mem_cons_of_mem t hu)
  owned u hu := by
    obtain ⟨e, hget, hid⟩ := h.owned u (List.mem_cons_of_mem t hu)
    have hne : u.entry ≠ t.entry := by
      intro same
      have hsame := (h.id_eq_iff hget hid List.mem_cons_self).mpr same.symm
      exact (List.nodup_cons.mp h.nodup).1 (hsame ▸ List.mem_map_of_mem hu)
    exact ⟨e, by rw [hother, if_neg hne, hget], hid⟩
  armed token e id hget hid := by
    rw [hother] at hget
    split at hget
    · cases hget
    next hne =>
      obtain ⟨deadline, member⟩ := h.armed token e id hget hid
      rcases List.mem_cons.mp member with same | later
      · exact absurd (congrArg Timer.entry same) hne
      · exact ⟨deadline, later⟩
  ordered := (List.pairwise_cons.mp h.ordered).2

end Timed

theorem Timestamp.adding_zero (t : Timestamp) : t.adding 0 = t := by
  have hle := t.toNat_le_limit
  simp only [adding, UInt64.toNat_zero, Nat.add_zero, Nat.min_eq_left hle]
  simp [toNat]

namespace TimerQueue

variable {α : Type}

/-- A timer with a number of its own goes to its place in the firing order. -/
theorem ordered_insertOrdered {l : List (Timer α)}
    (h : l.Pairwise fun t u => t.firesBefore u = true) {timer : Timer α}
    (hnew : ∀ t ∈ l, t.id ≠ timer.id) :
    (insertOrdered Timer.firesBefore timer l).Pairwise fun t u => t.firesBefore u = true := by
  have htrans (t u v : Timer α) : t.firesBefore u = true → u.firesBefore v = true →
      t.firesBefore v = true := Timer.firesBefore_trans
  refine pairwise_insertOrdered htrans h ?_ ?_
  · exact fun t _ hbefore => hbefore
  · exact fun t ht hnot => Timer.firesBefore_of_not (hnew t ht).symm hnot

/-- Of timers in order, those that are due stand in front of those that are not. -/
theorem span_due {l : List (Timer α)} (h : l.Pairwise fun t u => t.deadline ≤ u.deadline)
    (now : Timestamp) :
    (l.takeWhile fun t => t.deadline ≤ now) = (l.filter fun t => t.deadline ≤ now) ∧
      (l.dropWhile fun t => t.deadline ≤ now) = l.filter fun t => now < t.deadline := by
  induction l with
  | nil => exact ⟨rfl, rfl⟩
  | cons first rest ih =>
      obtain ⟨hfirst, hrest⟩ := List.pairwise_cons.mp h
      by_cases hdue : first.deadline ≤ now
      · have hnot : ¬ now < first.deadline := Nat.not_lt.mpr hdue
        simpa [hdue, hnot] using ih hrest
      · have hlater : ∀ t ∈ first :: rest, now < t.deadline :=
          List.forall_mem_cons.mpr ⟨Nat.lt_of_not_le hdue, fun t ht =>
            Nat.lt_of_lt_of_le (Nat.lt_of_not_le hdue) (hfirst t ht)⟩
        have hnone : (first :: rest).filter (fun t => t.deadline ≤ now) = [] :=
          List.filter_eq_nil_iff.mpr fun t ht hle =>
            absurd (of_decide_eq_true hle) (Nat.not_le.mpr (hlater t ht))
        have hall : (first :: rest).filter (fun t => now < t.deadline) = first :: rest :=
          List.filter_eq_self.mpr fun t ht => decide_eq_true (hlater t ht)
        rw [hnone, hall]
        simp [hdue]

/-- Every timer whose time has come is taken, and no other. -/
theorem takeDue_eq {q : TimerQueue α} (h : q.timers.Pairwise fun t u => t.deadline ≤ u.deadline)
    (now : Timestamp) : q.takeDue now = (q.timers.filter fun t => t.deadline ≤ now,
      { q with timers := q.timers.filter fun t => now < t.deadline }) := by
  rw [takeDue, (span_due h now).1, (span_due h now).2]

theorem mem_takeDue {q : TimerQueue α} (h : q.timers.Pairwise fun t u => t.deadline ≤ u.deadline)
    {now : Timestamp} {t : Timer α} :
    t ∈ (q.takeDue now).1 ↔ t ∈ q.timers ∧ t.deadline ≤ now := by
  rw [takeDue_eq h, List.mem_filter, decide_eq_true_iff]

theorem takeDue_append (q : TimerQueue α) (now : Timestamp) :
    (q.takeDue now).1 ++ (q.takeDue now).2.timers = q.timers :=
  List.takeWhile_append_dropWhile

end TimerQueue

namespace Focus

/-- The timers of a node belong to its entries, where the entry at hand counts as it is now. -/
def Timed (f : Focus) : Prop :=
  NamedData.Timed f.node.timers.timers f.node.timers.nextId f.entryOf?

def EndsAt (f : Focus) (deadline : Timestamp) : Prop :=
  NamedData.EndsAt f.node.timers.timers f.token f.entry deadline

/-- The timers without that of the entry at hand. -/
def disarmed (f : Focus) : TimerQueue PitToken :=
  match f.entry.expiryTimer with
  | some id => (f.node.timers.cancel id).2
  | none => f.node.timers

theorem nextId_disarmed (f : Focus) : f.disarmed.nextId = f.node.timers.nextId := by
  rw [disarmed]
  split <;> rfl

theorem timers_disarmed {f : Focus} (h : f.Timed) :
    f.disarmed.timers = f.node.timers.timers.filter fun t => t.entry ≠ f.token := by
  rw [disarmed]
  split
  next id hid =>
    apply List.filter_congr
    intro t ht
    exact decide_eq_decide.mpr (not_congr (h.id_eq_iff f.entryOf?_self hid ht))
  next hid =>
    refine (List.filter_eq_self.mpr ?_).symm
    intro t ht
    exact decide_eq_true (h.entry_ne_of_idle f.entryOf?_self hid ht)

theorem timers_setExpiry (f : Focus) (after : Millis) :
    (f.setExpiry after).node.timers =
      (f.disarmed.schedule (f.node.now.adding after) f.token).2 := rfl

theorem expiryTimer_setExpiry (f : Focus) (after : Millis) :
    (f.setExpiry after).entry.expiryTimer = some f.node.timers.nextId :=
  congrArg some f.nextId_disarmed

theorem nextId_setExpiry (f : Focus) (after : Millis) :
    (f.setExpiry after).node.timers.nextId = f.node.timers.nextId + 1 :=
  congrArg (· + 1) f.nextId_disarmed

/-- Setting the timer of the entry at hand replaces its timer and no other. -/
theorem timers_setExpiry_perm {f : Focus} (h : f.Timed) (after : Millis) :
    (f.setExpiry after).node.timers.timers.Perm
      (Timer.mk (f.node.now.adding after) f.node.timers.nextId f.token ::
        f.node.timers.timers.filter fun t => t.entry ≠ f.token) := by
  rw [timers_setExpiry, TimerQueue.schedule, nextId_disarmed, timers_disarmed h]
  exact insertOrdered_perm _ _ _

theorem mem_timers_setExpiry {f : Focus} (h : f.Timed) (after : Millis) {t : Timer PitToken} :
    t ∈ (f.setExpiry after).node.timers.timers ↔
      t = Timer.mk (f.node.now.adding after) f.node.timers.nextId f.token ∨
        t ∈ f.node.timers.timers ∧ t.entry ≠ f.token := by
  rw [(timers_setExpiry_perm h after).mem_iff, List.mem_cons, List.mem_filter, decide_eq_true_iff]

theorem endsAt_setExpiry {f : Focus} (h : f.Timed) (after : Millis) :
    (f.setExpiry after).EndsAt (f.node.now.adding after) :=
  ⟨f.node.timers.nextId, f.expiryTimer_setExpiry after,
    (mem_timers_setExpiry h after).mpr (.inl rfl)⟩

theorem timed_setExpiry {f : Focus} (h : f.Timed) (after : Millis) : (f.setExpiry after).Timed where
  nodup := by
    have hperm := (timers_setExpiry_perm h after).map Timer.id
    rw [hperm.nodup_iff, List.map_cons, List.nodup_cons]
    constructor
    · intro member
      obtain ⟨t, ht, hid⟩ := List.mem_map.mp member
      exact Nat.ne_of_lt (h.below t (List.mem_filter.mp ht).1) hid
    · exact h.nodup.sublist (List.filter_sublist.map _)
  below t ht := by
    rw [nextId_setExpiry]
    rcases (mem_timers_setExpiry h after).mp ht with rfl | ⟨old, _⟩
    · exact Nat.lt_succ_self _
    · exact Nat.lt_succ_of_lt (h.below t old)
  owned t ht := by
    rcases (mem_timers_setExpiry h after).mp ht with rfl | ⟨old, hne⟩
    · exact ⟨_, (f.setExpiry after).entryOf?_self, f.expiryTimer_setExpiry after⟩
    · obtain ⟨e, hget, hid⟩ := h.owned t old
      exact ⟨e, ((f.keeps_setExpiry after).entryOf?_of_ne hne).trans hget, hid⟩
  armed token e id hget hid := by
    by_cases same : token = f.token
    · subst same
      have hown : (f.setExpiry after).entryOf? f.token = some (f.setExpiry after).entry :=
        (f.setExpiry after).entryOf?_self
      rw [hown, Option.some.injEq] at hget
      rw [← hget, expiryTimer_setExpiry, Option.some.injEq] at hid
      exact ⟨_, (mem_timers_setExpiry h after).mpr (.inl (by rw [hid]))⟩
    · rw [(f.keeps_setExpiry after).entryOf?_of_ne same] at hget
      obtain ⟨deadline, member⟩ := h.armed token e id hget hid
      exact ⟨deadline, (mem_timers_setExpiry h after).mpr (.inr ⟨member, same⟩)⟩
  ordered := by
    rw [timers_setExpiry, TimerQueue.schedule, timers_disarmed h, nextId_disarmed]
    refine TimerQueue.ordered_insertOrdered (h.ordered.sublist List.filter_sublist) ?_
    exact fun t ht => Nat.ne_of_lt (h.below t (List.mem_filter.mp ht).1)

/-- Work that leaves the timers and the number in the entry alone. -/
theorem timed_of_keeps {f f' : Focus} (h : f.Timed) (hkeeps : f.Keeps f')
    (htimers : f'.node.timers = f.node.timers)
    (hid : f'.entry.expiryTimer = f.entry.expiryTimer) : f'.Timed := by
  unfold Timed
  rw [htimers]
  refine h.congr fun token => ?_
  by_cases same : token = f.token
  · rw [same, entryOf?_self, ← hkeeps.token, entryOf?_self, Option.map_some, Option.map_some, hid]
  · rw [hkeeps.entryOf?_of_ne same]

end Focus

end NamedData
