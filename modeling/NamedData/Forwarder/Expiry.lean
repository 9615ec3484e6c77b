import NamedData.Forwarder.Basic

/-!
The end of pending Interests. Whoever runs the forwarder runs the timers now and then; each entry
whose timer is due is counted as satisfied or not, its nonces are remembered if they are worth it,
and it is gone.
-/

namespace NamedData.Forwarder

def finalize (f : Focus) : Node :=
  let isSatisfied := f.entry.satisfied
  let f := f.say (.finalized f.entry.name isSatisfied)
  let f := if isSatisfied then f else f.report (.expire f.entry)
  let f := f.rememberNonces f.entry.outRecords
  let f := f.onNode fun n => n.count fun c =>
    if isSatisfied then { c with satisfied := c.satisfied + 1 }
    else { c with unsatisfied := c.unsatisfied + 1 }
  match f.node.tables.erase f.token with
  | some (_, tables) => { f.node with tables }
  | none => f.node

/-- Fires one timer and says whether an entry ended. A timer that its entry has given up does
nothing. -/
def fire (fw : Forwarder) (timer : Timer PitToken) : Bool × Forwarder :=
  match fw.node.focus timer.entry with
  | .ok f =>
    if f.entry.expiryTimer = some timer.id then
      (true, { fw with node := finalize (f.onEntry fun e => { e with expiryTimer := none }) })
    else (false, fw)
  | .error _ => (false, fw)

/-- Ends every entry whose timer is due, and says how many there were. -/
def runTimers (fw : Forwarder) (now : Timestamp) : Nat × Forwarder :=
  let fw := fw.tick now
  let (due, timers) := fw.node.timers.takeDue now
  due.foldl
    (fun (count, fw) timer =>
      let (ended, fw) := fw.fire timer
      (if ended then count + 1 else count, fw))
    (0, fw.onNode fun n => { n with timers })

def nextDeadline? (fw : Forwarder) : Option Timestamp :=
  fw.node.timers.nextDeadline?

end NamedData.Forwarder
