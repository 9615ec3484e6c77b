import NamedData.Face.Table
import NamedData.Packet.Basic

/-!
A face to an application in the same process: a queue with a sending and a receiving half. Packets
come out in the order they went in. Once the receiving half is gone nothing is taken any more; once
the sending half is gone the receiver first gets everything that is still queued.
-/

namespace NamedData

/-- The queue between the two halves, and which halves are still held. -/
structure InProcessFace where
  queue : List (Packet × Nat) := []
  hasSender : Bool := true
  hasReceiver : Bool := true

namespace InProcessFace

def send (f : InProcessFace) (packet : Packet) (endpoint : Nat) : Except FaceError InProcessFace :=
  if f.hasReceiver then .ok { f with queue := f.queue ++ [(packet, endpoint)] }
  else .error .disconnected

/-- Takes the oldest packet, if any; an empty queue without a sender is disconnected. -/
def receive (f : InProcessFace) : Except FaceError (Option (Packet × Nat) × InProcessFace) :=
  match f.queue with
  | p :: rest => .ok (some p, { f with queue := rest })
  | [] => if f.hasSender then .ok (none, f) else .error .disconnected

def drain (f : InProcessFace) : List (Packet × Nat) × InProcessFace :=
  (f.queue, { f with queue := [] })

def dropSender (f : InProcessFace) : InProcessFace :=
  { f with hasSender := false }

def dropReceiver (f : InProcessFace) : InProcessFace :=
  { f with hasReceiver := false }

end InProcessFace

end NamedData
