import NamedData.Pit.Entry

/-!
Suppression of retransmissions. After an Interest was forwarded, the same Interest is not forwarded
again for a quiet period, which doubles with each retransmission up to a limit.
-/

namespace NamedData

/-- Whether an Interest that came in is forwarded, and how that counts. -/
inductive RetransmissionDecision where
  /-- It was not forwarded before. -/
  | new
  /-- It was forwarded before, and long enough ago. -/
  | forward
  /-- It was forwarded too short a time ago. -/
  | suppress
deriving DecidableEq

def RetransmissionDecision.label : RetransmissionDecision → String
  | new => "New"
  | forward => "Forward"
  | suppress => "Suppress"

/-- The first quiet period, and how often it doubles at most. -/
structure Suppression where
  minDelay : Millis := 8
  maxDoublings : Nat := 5
deriving DecidableEq

namespace Suppression

/-- The last value that a retransmission count takes. -/
def countLimit : Nat := 255

/-- The quiet period after so many retransmissions. It is endless once the doublings number
sixty-four or their result leaves the range of times. -/
def quietPeriod (s : Suppression) (count : Nat) : Millis :=
  let doublings := min count s.maxDoublings
  if doublings < 64 ∧ s.minDelay.toNat <<< doublings ≤ Timestamp.limit then
    UInt64.ofNat (s.minDelay.toNat <<< doublings)
  else UInt64.ofNat Timestamp.limit

def decide (s : Suppression) (e : PitEntry) (now : Timestamp) : RetransmissionDecision :=
  match e.retransmission.lastForwarded with
  | none => .new
  | some last =>
    if e.outRecords.isEmpty then .new
    else if now < last.adding (s.quietPeriod e.retransmission.count) then .suppress
    else .forward

end Suppression

/-- Notes in the entry that its Interest is forwarded on the given decision. -/
def PitEntry.recordForwarded (e : PitEntry) (decision : RetransmissionDecision) (now : Timestamp) :
    PitEntry :=
  let count := match decision with
    | .new => 0
    | _ => min (e.retransmission.count + 1) Suppression.countLimit
  { e with retransmission := { lastForwarded := some now, count } }

end NamedData
