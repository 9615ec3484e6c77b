import NamedData.Time.Timestamp

/-!
Clocks that move only when told to. Several handles may read one clock: whatever is done through a
handle is seen by every handle that shares its clock.
-/

namespace NamedData

/-- The times of some clocks, and for each handle the clock it reads. -/
structure Clocks where
  times : List Timestamp
  handles : List Nat

namespace Clocks

/-- One clock at the start of time, with one handle. -/
def initial : Clocks where
  times := [.zero]
  handles := [0]

def start (c : Clocks) (time : Timestamp) : Clocks where
  times := c.times ++ [time]
  handles := c.handles ++ [c.times.length]

def share (c : Clocks) (handle : Nat) : Clocks :=
  match c.handles[handle]? with
  | some clock => { c with handles := c.handles ++ [clock] }
  | none => c

def read? (c : Clocks) (handle : Nat) : Option Timestamp :=
  c.handles[handle]?.bind fun clock => c.times[clock]?

def update (c : Clocks) (handle : Nat) (change : Timestamp → Timestamp) : Clocks :=
  match c.handles[handle]? with
  | some clock => { c with times := c.times.modify clock change }
  | none => c

def set (c : Clocks) (handle : Nat) (time : Timestamp) : Clocks :=
  c.update handle fun _ => time

def advance (c : Clocks) (handle : Nat) (d : Millis) : Clocks :=
  c.update handle fun time => time.adding d

/-- The times that the handles read, in the order of the handles. -/
def readings (c : Clocks) : List Timestamp :=
  c.handles.map fun clock => c.times.getD clock .zero

end Clocks

end NamedData
