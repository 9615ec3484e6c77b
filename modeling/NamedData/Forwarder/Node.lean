import NamedData.DeadNonceList
import NamedData.Face.Table
import NamedData.Forwarder.Journal
import NamedData.Policy.Region
import NamedData.Tables.Walk
import NamedData.Timer

/-!
The state of a node that strategies work on: its faces, its tables, its memory of resolved
Interests, its timers and its counts. Every pipeline reads the clock once; the time it read stays
in the state.
-/

namespace NamedData

/-- How often what happened since the node started. -/
structure Counters where
  inInterests : Nat := 0
  outInterests : Nat := 0
  inData : Nat := 0
  outData : Nat := 0
  inNacks : Nat := 0
  outNacks : Nat := 0
  storeHits : Nat := 0
  storeMisses : Nat := 0
  satisfied : Nat := 0
  unsatisfied : Nat := 0
  unsolicited : Nat := 0
deriving DecidableEq

/-- Everything a node has apart from its strategies and its content store. -/
structure Node where
  faces : FaceTable := .initial
  tables : Tables
  deadNonces : DeadNonceList
  timers : TimerQueue PitToken := {}
  counters : Counters := {}
  regions : RegionTable := {}
  now : Timestamp := .zero
  /-- Faces that refused a packet since they were last asked for, each once. -/
  disconnected : List FaceId := []
  journal : Journal := {}

namespace Node

def say (n : Node) (notice : Notice) : Node :=
  { n with journal := { n.journal with notices := n.journal.notices ++ [notice] } }

def report (n : Node) (event : Event) : Node :=
  { n with journal := { n.journal with events := n.journal.events ++ [event] } }

def count (n : Node) (f : Counters → Counters) : Node :=
  { n with counters := f n.counters }

/-- Remembers that a face refused a packet. -/
def noteDisconnected (n : Node) (face : FaceId) : Node :=
  let n := n.say (.faceDisconnected face)
  if face ∈ n.disconnected then n else { n with disconnected := n.disconnected ++ [face] }

def transmit (n : Node) (peer : FaceEndpoint) (packet : Packet) : Node :=
  match n.faces.handOver peer.face with
  | none => n
  | some (isTaken, faces) =>
    let sent := n.journal.sent ++ [{ peer, packet, isTaken }]
    let n := { n with faces, journal := { n.journal with sent } }
    if isTaken then n else n.noteDisconnected peer.face

/-- Sends Data out of a face. Data under `/localhost` stays on the host. -/
def sendData (n : Node) (egress : FaceEndpoint) (data : Data) : Node :=
  match n.faces.info? egress.face with
  | none => n.say (.outgoingDataNowhere data.name)
  | some info =>
    if !info.isLocal && data.name.isLocalhost then
      n.say (.outgoingData egress.face data.name true)
    else
      ((n.say (.outgoingData egress.face data.name false)).transmit egress (.data data)).count
        fun c => { c with outData := c.outData + 1 }

end Node

end NamedData
