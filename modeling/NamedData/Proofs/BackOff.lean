import Mathlib.Algebra.Order.Ring.Nat
import NamedData.Strategy.Suppression

/-!
The back-off of retransmissions. Whatever happens to a pending entry, it remembers when its Interest
was forwarded last and how often it was forwarded again since it last counted as new, up to a limit.
The decision on the next retransmission is told from the list of the forwardings alone: it is
suppressed until the first quiet period, doubled once for each repetition up to a limit, has passed
since the latest of them, in exact arithmetic cut off at the last point in time. The one exception is
a first quiet period of zero that is doubled sixty-four times or more, which lasts to the end of time
instead of staying zero.
-/

namespace NamedData

/-- What happens to a pending entry: its Interest is forwarded on a decision, or the entry changes
in any way that leaves what it remembers of the forwardings. -/
inductive EntryCall where
  | forward (decision : RetransmissionDecision) (now : Timestamp)
  | change (change : PitEntry → PitEntry)

/-- Suppressed before some time, and forwarded from then on. -/
def RetransmissionDecision.until (bound : Nat) (now : Timestamp) : RetransmissionDecision :=
  if now.toNat < bound then .suppress else .forward

namespace PitEntry

def call (e : PitEntry) : EntryCall → PitEntry
  | .forward decision now => e.recordForwarded decision now
  | .change change => { change e with retransmission := e.retransmission }

/-- The entry after some calls, the latest first. -/
def after (start : PitEntry) : List EntryCall → PitEntry
  | [] => start
  | k :: earlier => (start.after earlier).call k

end PitEntry

/-- The decisions on which an Interest was forwarded and their times, the latest first. -/
abbrev Forwardings := List (RetransmissionDecision × Timestamp)

/-- The forwardings among some calls. -/
def forwardings (calls : List EntryCall) : Forwardings :=
  calls.filterMap fun
    | .forward decision now => some (decision, now)
    | .change _ => none

namespace Forwardings

/-- The time of the latest forwarding. -/
def latest? (fs : Forwardings) : Option Timestamp :=
  fs.head?.map Prod.snd

/-- How often the Interest was forwarded again since it last counted as new. -/
def repetitions (fs : Forwardings) : Nat :=
  (fs.takeWhile fun f => f.1 ≠ .new).length

/-- What an entry remembers of the forwardings. -/
def remembered (fs : Forwardings) : Retransmission where
  lastForwarded := fs.latest?
  count := min fs.repetitions Suppression.countLimit

theorem repetitions_cons (decision : RetransmissionDecision) (now : Timestamp) (fs : Forwardings) :
    repetitions ((decision, now) :: fs) = if decision = .new then 0 else fs.repetitions + 1 := by
  by_cases hnew : decision = .new <;> simp [repetitions, hnew]

/-- The next forwarding, noted in an entry that remembers the earlier ones. -/
theorem remembered_cons {e : PitEntry} {fs : Forwardings} (h : e.retransmission = fs.remembered)
    (decision : RetransmissionDecision) (now : Timestamp) :
    (e.recordForwarded decision now).retransmission = remembered ((decision, now) :: fs) := by
  have hcount : e.retransmission.count = min fs.repetitions Suppression.countLimit := by rw [h]; rfl
  have hnext : min (min fs.repetitions Suppression.countLimit + 1) Suppression.countLimit =
      min (fs.repetitions + 1) Suppression.countLimit := by omega
  rw [remembered, repetitions_cons]
  cases decision <;> simp [PitEntry.recordForwarded, hcount, hnext, latest?]

end Forwardings

namespace PitEntry

theorem retransmission_call {e : PitEntry} {calls : List EntryCall}
    (h : e.retransmission = (forwardings calls).remembered) (k : EntryCall) :
    (e.call k).retransmission = (forwardings (k :: calls)).remembered := by
  cases k with
  | forward decision now => exact Forwardings.remembered_cons h decision now
  | change change => exact h

/-- An entry remembers its forwardings, whatever else happens to it. -/
theorem retransmission_after (i : Interest) (calls : List EntryCall) :
    (after { interest := i } calls).retransmission = (forwardings calls).remembered := by
  induction calls with
  | nil => rfl
  | cons k earlier ih => exact retransmission_call ih k

end PitEntry

namespace Suppression

variable (s : Suppression)

/-- The quiet period after so many repetitions, in exact arithmetic. -/
def exactPeriod (count : Nat) : Nat :=
  s.minDelay.toNat * 2 ^ min count s.maxDoublings

/-- The end of the quiet period that begins at some time, in exact arithmetic up to the last point
in time. -/
def quietUntil (last : Timestamp) (count : Nat) : Nat :=
  min Timestamp.limit (last.toNat + s.exactPeriod count)

/-- Whether zero is doubled so often that the quiet period becomes endless. -/
def OverdoublesZero (count : Nat) : Prop :=
  s.minDelay = 0 ∧ 64 ≤ min count s.maxDoublings

theorem minDelay_pos (h : s.minDelay ≠ 0) : 0 < s.minDelay.toNat := by
  by_contra hzero
  exact h (UInt64.toNat_inj.mp (by simpa using hzero))

/-- Sixty-four doublings take every period but zero out of the range of times. -/
theorem limit_lt_exactPeriod {count : Nat} (h : s.minDelay ≠ 0)
    (hmany : 64 ≤ min count s.maxDoublings) : Timestamp.limit < s.exactPeriod count := by
  have hpos := s.minDelay_pos h
  calc Timestamp.limit < 2 ^ 64 := by decide
    _ ≤ 2 ^ min count s.maxDoublings := Nat.pow_le_pow_right (by decide) hmany
    _ ≤ s.exactPeriod count := Nat.le_mul_of_pos_left _ hpos

theorem quietPeriod_of_fits {count : Nat} (hfew : min count s.maxDoublings < 64)
    (hfits : s.exactPeriod count ≤ Timestamp.limit) :
    (s.quietPeriod count).toNat = s.exactPeriod count := by
  have hshift : s.minDelay.toNat <<< min count s.maxDoublings = s.exactPeriod count :=
    Nat.shiftLeft_eq _ _
  have hrange : Timestamp.limit < UInt64.size := by decide
  rw [quietPeriod, if_pos ⟨hfew, hshift ▸ hfits⟩, hshift,
    UInt64.toNat_ofNat_of_lt' (Nat.lt_of_le_of_lt hfits hrange)]

theorem quietPeriod_of_exceeds {count : Nat}
    (h : 64 ≤ min count s.maxDoublings ∨ Timestamp.limit < s.exactPeriod count) :
    (s.quietPeriod count).toNat = Timestamp.limit := by
  have hshift : s.minDelay.toNat <<< min count s.maxDoublings = s.exactPeriod count :=
    Nat.shiftLeft_eq _ _
  have hexceeds : ¬ (min count s.maxDoublings < 64 ∧
      s.minDelay.toNat <<< min count s.maxDoublings ≤ Timestamp.limit) := by
    rw [hshift]
    omega
  rw [quietPeriod, if_neg hexceeds]
  decide

/-- The quiet period ends when exact arithmetic says, unless zero is doubled too often. -/
theorem toNat_adding_quietPeriod {count : Nat} (h : ¬ s.OverdoublesZero count) (last : Timestamp) :
    (last.adding (s.quietPeriod count)).toNat = s.quietUntil last count := by
  rw [Timestamp.toNat_adding, quietUntil]
  rcases Nat.lt_or_ge Timestamp.limit (s.exactPeriod count) with hexceeds | hfits
  · rw [s.quietPeriod_of_exceeds (.inr hexceeds)]
    omega
  · have hfew : min count s.maxDoublings < 64 := by
      by_contra hmany
      have hmany := Nat.le_of_not_lt hmany
      exact absurd (s.limit_lt_exactPeriod (fun hzero => h ⟨hzero, hmany⟩) hmany) (by omega)
    rw [s.quietPeriod_of_fits hfew hfits, Nat.min_comm]

/-- Zero that is doubled too often stays no longer zero, but lasts to the end of time. -/
theorem toNat_adding_of_overdoublesZero {count : Nat} (h : s.OverdoublesZero count) (last : Timestamp) :
    (last.adding (s.quietPeriod count)).toNat = Timestamp.limit ∧
      s.quietUntil last count = last.toNat := by
  have hzero : s.exactPeriod count = 0 := by rw [exactPeriod, h.1]; exact Nat.zero_mul _
  have hlast := last.toNat_le_limit
  rw [Timestamp.toNat_adding, s.quietPeriod_of_exceeds (.inl h.2), quietUntil, hzero]
  omega

variable {s} {e : PitEntry} {fs : Forwardings}

theorem decide_eq_new (h : e.retransmission = fs.remembered) (hnone : fs = [] ∨ e.outRecords = [])
    (now : Timestamp) : s.decide e now = .new := by
  rcases hnone with rfl | hnone
  · rw [Suppression.decide, h]
    rfl
  · rw [Suppression.decide]
    split
    next => rfl
    next => rw [if_pos (by simp [hnone])]

theorem decide_eq_until {last : Timestamp} (h : e.retransmission = fs.remembered)
    (hlast : fs.latest? = some last) (hout : e.outRecords ≠ []) (now : Timestamp) :
    s.decide e now =
      .until (last.adding (s.quietPeriod (min fs.repetitions countLimit))).toNat now := by
  have hout : e.outRecords.isEmpty = false := by simpa using hout
  rw [Suppression.decide, h, show fs.remembered.lastForwarded = some last from hlast]
  simp only [hout, Bool.false_eq_true, if_false]
  rfl

end Suppression

/-- Two times are the same if no moment tells them apart by what is decided until them. -/
theorem RetransmissionDecision.until_inj {a b : Nat} (ha : a ≤ Timestamp.limit)
    (hb : b ≤ Timestamp.limit) (h : ∀ now, RetransmissionDecision.until a now = .until b now) :
    a = b := by
  have hiff : ∀ n ≤ Timestamp.limit, n < a ↔ n < b := by
    intro n hn
    have hrange : Timestamp.limit < UInt64.size := by decide
    have hat : Timestamp.toNat ⟨UInt64.ofNat n⟩ = n := UInt64.toNat_ofNat_of_lt' (by omega)
    have hsame := h ⟨UInt64.ofNat n⟩
    simp only [RetransmissionDecision.until, hat] at hsame
    grind
  have hab := hiff a ha
  have hba := hiff b hb
  omega

open Suppression

/-- Without a forwarding or without an out-record the Interest counts as new. Otherwise it is
suppressed exactly until the quiet period since the latest forwarding, in exact arithmetic, is over,
unless zero was doubled sixty-four times or more before the end of time, and then it is suppressed
up to the end of time. -/
theorem backs_off_exactly_iff (s : Suppression) (i : Interest) (calls : List EntryCall) :
    let e := PitEntry.after { interest := i } calls
    let count := min (forwardings calls).repetitions 255
    (forwardings calls = [] ∨ e.outRecords = [] → ∀ now, s.decide e now = .new) ∧
    ∀ last, (forwardings calls).latest? = some last → e.outRecords ≠ [] →
      ((∀ now, s.decide e now = .until (min (2 ^ 64 - 1)
            (last.toNat + s.minDelay.toNat * 2 ^ min count s.maxDoublings)) now) ↔
        ¬ (s.minDelay = 0 ∧ 64 ≤ min count s.maxDoublings ∧ last.toNat < 2 ^ 64 - 1)) ∧
      (s.minDelay = 0 → 64 ≤ min count s.maxDoublings →
        ∀ now, s.decide e now = .until (2 ^ 64 - 1) now) := by
  intro e count
  have hremembers : e.retransmission = (forwardings calls).remembered :=
    PitEntry.retransmission_after i calls
  refine ⟨fun hnone now => decide_eq_new hremembers hnone now, fun last hlast hout => ?_⟩
  have hdecide : ∀ now, s.decide e now = .until (last.adding (s.quietPeriod count)).toNat now :=
    decide_eq_until hremembers hlast hout
  have hexact : min (2 ^ 64 - 1)
      (last.toNat + s.minDelay.toNat * 2 ^ min count s.maxDoublings) = s.quietUntil last count := rfl
  have hlimit : 2 ^ 64 - 1 = Timestamp.limit := rfl
  rw [hexact, hlimit]
  by_cases hzero : s.OverdoublesZero count
  · obtain ⟨hends, hstays⟩ := s.toNat_adding_of_overdoublesZero hzero last
    rw [hends] at hdecide
    rw [hstays]
    refine ⟨⟨?_, fun hnever => ?_⟩, fun _ _ => hdecide⟩
    · rintro hsame ⟨-, -, hbefore⟩
      have hnone := RetransmissionDecision.until_inj (Nat.le_refl _) last.toNat_le_limit fun now =>
        (hdecide now).symm.trans (hsame now)
      omega
    · have hlast := last.toNat_le_limit
      have hatEnd : ¬ last.toNat < Timestamp.limit := fun hbefore =>
        hnever ⟨hzero.1, hzero.2, hbefore⟩
      rwa [show last.toNat = Timestamp.limit by omega]
  · have hends := s.toNat_adding_quietPeriod hzero last
    refine ⟨⟨fun _ h => hzero ⟨h.1, h.2.1⟩, fun _ => ?_⟩, fun h hmany => absurd ⟨h, hmany⟩ hzero⟩
    rwa [← hends]

namespace Sample

/-- The history of an Interest that went to one face, as a new one and then again so often. -/
def sentAgain (times : Nat) (now : Timestamp) : List EntryCall :=
  List.replicate times (.forward .forward now) ++
    [.forward .new now, .change fun e => e.recordOut { face := ⟨256⟩ } e.interest now]

def sentAgainEntry (times : Nat) (now : Timestamp) : PitEntry :=
  .after { interest := { name := [.generic [97]], nonce := ⟨1⟩ } } (sentAgain times now)

end Sample

open Sample

/-- Eight milliseconds that were doubled sixty-one times leave the range of times. -/
theorem backs_off_exactly_iff_saturated :
    (sentAgainEntry 61 ⟨100⟩).outRecords ≠ [] ∧
      ∀ now, Suppression.decide { minDelay := 8, maxDoublings := 61 } (sentAgainEntry 61 ⟨100⟩) now =
        .until (min (2 ^ 64 - 1) (100 + 8 * 2 ^ 61)) now := by
  have hout : (sentAgainEntry 61 ⟨100⟩).outRecords ≠ [] := by decide +kernel
  have hcount : (forwardings (sentAgain 61 ⟨100⟩)).repetitions = 61 := by decide +kernel
  have hexact := backs_off_exactly_iff { minDelay := 8, maxDoublings := 61 }
    { name := [.generic [97]], nonce := ⟨1⟩ } (sentAgain 61 ⟨100⟩)
  have hiff := (hexact.2 ⟨100⟩ (by decide +kernel) hout).1
  rw [hcount] at hiff
  exact ⟨hout, hiff.mpr (by decide)⟩

/-- No quiet period at all, doubled sixty-four times, lets nothing through any more. -/
theorem no_delay_suppresses :
    (sentAgainEntry 64 ⟨100⟩).outRecords ≠ [] ∧
      (forwardings (sentAgain 64 ⟨100⟩)).latest? = some ⟨100⟩ ∧
      (forwardings (sentAgain 64 ⟨100⟩)).repetitions = 64 ∧
      RetransmissionDecision.until (min (2 ^ 64 - 1) (100 + 0 * 2 ^ min 64 64)) ⟨100⟩ = .forward ∧
      Suppression.decide { minDelay := 0, maxDoublings := 64 } (sentAgainEntry 64 ⟨100⟩) ⟨100⟩ =
        .suppress := by
  decide +kernel

end NamedData
