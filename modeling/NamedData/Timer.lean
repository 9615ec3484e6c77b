import NamedData.Ordered
import NamedData.Time.Timestamp

/-!
Timers in the order they fire: by deadline, and by number among equal deadlines, so that the one
set first fires first. Nothing fires by itself; whoever reads the clock asks for what is due.
-/

namespace NamedData

/-- An armed timer: its deadline, its number, and what it is for. -/
structure Timer (α : Type) where
  deadline : Timestamp
  id : Nat
  entry : α
deriving DecidableEq

def Timer.firesBefore {α : Type} (a b : Timer α) : Bool :=
  a.deadline < b.deadline || (a.deadline = b.deadline && a.id < b.id)

/-- The armed timers in firing order, and the number of the next one to be set. -/
structure TimerQueue (α : Type) where
  timers : List (Timer α) := []
  nextId : Nat := 0

namespace TimerQueue

variable {α : Type}

def schedule (q : TimerQueue α) (deadline : Timestamp) (entry : α) : Nat × TimerQueue α :=
  let timer : Timer α := { deadline, id := q.nextId, entry }
  (q.nextId,
    { timers := insertOrdered Timer.firesBefore timer q.timers, nextId := q.nextId + 1 })

def cancel (q : TimerQueue α) (id : Nat) : Bool × TimerQueue α :=
  (q.timers.any fun t => t.id = id, { q with timers := q.timers.filter fun t => t.id ≠ id })

def popDue (q : TimerQueue α) (now : Timestamp) : Option (Timer α × TimerQueue α) :=
  match q.timers with
  | t :: rest => if t.deadline ≤ now then some (t, { q with timers := rest }) else none
  | [] => none

/-- Takes all timers that are due, in firing order. -/
def takeDue (q : TimerQueue α) (now : Timestamp) : List (Timer α) × TimerQueue α :=
  (q.timers.takeWhile fun t => t.deadline ≤ now,
    { q with timers := q.timers.dropWhile fun t => t.deadline ≤ now })

def nextDeadline? (q : TimerQueue α) : Option Timestamp :=
  q.timers.head?.map Timer.deadline

def size (q : TimerQueue α) : Nat :=
  q.timers.length

end TimerQueue

end NamedData
