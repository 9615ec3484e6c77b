import NamedData.Forwarder.Notice
import NamedData.Tables.Basic

/-!
What a node did, kept in order for whoever runs it: the packets it handed to its faces, the events
it reported to observers, and its notices. Nothing in the journal has an effect on forwarding.
-/

namespace NamedData

/-- A packet handed to the link of a face, and whether the link took it. -/
structure Transmission where
  peer : FaceEndpoint
  packet : Packet
  isTaken : Bool
deriving DecidableEq

/-- The points of the pipelines at which a strategy is asked. -/
inductive Hook where
  | interest
  | looped
  | beforeSatisfy
  | storeHit
  | data
  | nack
  | newNextHop
  | dropped
deriving DecidableEq

def Hook.label : Hook → String
  | interest => "interest"
  | looped => "looped"
  | beforeSatisfy => "before_satisfy"
  | storeHit => "cs_hit"
  | data => "data"
  | nack => "nack"
  | newNextHop => "new_next_hop"
  | dropped => "dropped"

/-- What observers get to see. The first four come from the pipelines, the others from strategies
that report what they are asked and what they look up. -/
inductive Event where
  | storeHit (interest : Interest) (data : Data)
  | storeMiss (interest : Interest)
  | satisfy (entry : PitEntry) (ingress : FaceId) (data : Data)
  | expire (entry : PitEntry)
  | hook (strategy : String) (hook : Hook) (peer : FaceEndpoint) (text : String)
  | nextHops (hops : List NextHop)
  | faceInfo (info : Option FaceInfo)
  | entry (now : Timestamp) (entry : PitEntry)
deriving DecidableEq

/-- Whether the event comes from the pipelines. -/
def Event.isMetric : Event → Bool
  | storeHit .. => true
  | storeMiss .. => true
  | satisfy .. => true
  | expire .. => true
  | _ => false

/-- Everything a node did, oldest first. -/
structure Journal where
  sent : List Transmission := []
  events : List Event := []
  notices : List Notice := []
deriving DecidableEq

/-- The packets that reached a peer. The pseudo-face of the content store has no peer. -/
def Journal.delivered (j : Journal) : List Transmission :=
  j.sent.filter fun t => t.isTaken && t.peer.face ≠ .contentStore

end NamedData
