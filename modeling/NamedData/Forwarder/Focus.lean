import NamedData.Forwarder.Node

/-!
A node seen from one of its pending Interests. Pipelines and strategies work on an entry that was
taken out of the tables for the time of their work and is put back afterwards, so that the entry
they work on cannot go away under them.
-/

namespace NamedData

/-- A node with one pending entry at hand. What the tables hold for the token does not count until
the entry is put back. -/
structure Focus where
  node : Node
  token : PitToken
  entry : PitEntry

/-- Takes the entry of a token out; the token must be alive. -/
def Node.focus (n : Node) (token : PitToken) : Except Fault Focus :=
  match n.tables.pit.get token with
  | .ok entry => .ok { node := n, token, entry }
  | .error fault => .error fault

namespace Focus

/-- Puts the entry back. -/
def release (f : Focus) : Node :=
  { f.node with
    tables := { f.node.tables with pit := f.node.tables.pit.set f.token f.entry } }

def onNode (f : Focus) (change : Node → Node) : Focus :=
  { f with node := change f.node }

def onEntry (f : Focus) (change : PitEntry → PitEntry) : Focus :=
  { f with entry := change f.entry }

def say (f : Focus) (notice : Notice) : Focus :=
  f.onNode fun n => n.say notice

def report (f : Focus) (event : Event) : Focus :=
  f.onNode fun n => n.report event

/-- The next hops for the entry's Interest. While its forwarding hint points elsewhere, the first
delegation that has next hops takes precedence over the name. -/
def nextHops (f : Focus) : List NextHop :=
  let i := f.entry.interest
  let tables := f.node.tables
  let delegations := if f.node.regions.reaches i.forwardingHint then [] else i.forwardingHint
  ((delegations.map tables.nextHops).find? fun hops => !hops.isEmpty).getD
    (tables.nextHops i.name)

/-- Lets the entry end after a time, and not when it would have ended before. -/
def setExpiry (f : Focus) (after : Millis) : Focus :=
  let cleared := match f.entry.expiryTimer with
    | some id => (f.node.timers.cancel id).2
    | none => f.node.timers
  let (id, timers) := cleared.schedule (f.node.now.adding after) f.token
  { f with
    node := { f.node with timers }
    entry := { f.entry with expiryTimer := some id } }

/-- Gives the entry up: it ends when timers are run next. -/
def reject (f : Focus) : Focus :=
  f.setExpiry 0

/-- Sends an Interest out of a face and notes it in the entry. -/
def sendInterest (f : Focus) (egress : FaceEndpoint) (interest : Interest) : Focus :=
  if f.node.faces.contains egress.face then
    (((f.say (.outgoingInterest egress.face f.entry.name)).onEntry
      fun e => e.recordOut egress interest f.node.now).onNode
      fun n => n.transmit egress (.interest interest.untagged)).onNode
      fun n => n.count fun c => { c with outInterests := c.outInterests + 1 }
  else f.say (.outgoingInterestNowhere interest.name)

/-- Sends Data to a face, which thereby is no longer waiting. -/
def sendData (f : Focus) (egress : FaceEndpoint) (data : Data) : Focus :=
  (f.onEntry fun e => e.deleteIn egress.face).onNode fun n => n.sendData egress data

/-- The peers that are still waiting when Data comes in, in order. The face that the Data came from
is left out unless its link is ad hoc. -/
def waiting (f : Focus) (ingress : FaceId) : List FaceEndpoint :=
  let adHoc := (f.node.faces.info? ingress).any FaceInfo.isAdHoc
  FaceEndpoint.ordered <|
    (f.entry.inRecords.filter fun r => r.isLive f.node.now && (r.face ≠ ingress || adHoc)).map
      InRecord.peer

def sendDataToAll (f : Focus) (ingress : FaceEndpoint) (data : Data) : Focus :=
  (f.waiting ingress.face).foldl (fun f egress => f.sendData egress data) f

/-- Hands an Interest back to a face that sent it, if the face has a single peer and is waiting. The
face thereby waits no longer. -/
def sendNack (f : Focus) (egress : FaceEndpoint) (reason : NackReason) : Focus :=
  let name := f.entry.name
  match f.node.faces.info? egress.face with
  | none => f.say (.outgoingNackNowhere name reason)
  | some info =>
    match f.entry.inRecord? egress.face with
    | none => f.say (.outgoingNack egress.face name reason .noInRecord)
    | some record =>
      if info.isPointToPoint then
        let nack : Nack := { interest := record.interest.untagged, reason }
        (((f.say (.outgoingNack egress.face name reason .sent)).onEntry
          fun e => e.deleteIn egress.face).onNode
          fun n => n.transmit egress (.nack nack)).onNode
          fun n => n.count fun c => { c with outNacks := c.outNacks + 1 }
      else f.say (.outgoingNack egress.face name reason (.wrongLink info.link))

/-- Hands the Interest back to everybody who sent it, apart from the given peers. -/
def sendNacks (f : Focus) (reason : NackReason) (except : List FaceEndpoint) : Focus :=
  ((f.entry.inRecords.map InRecord.peer).filter fun p => p ∉ except).foldl
    (fun f egress => f.sendNack egress reason) f

/-- Whether nonces of the entry are worth remembering after it: always if it was not satisfied, and
otherwise only if the Data goes stale before the memory of a nonce does and fresh Data was asked
for. -/
def remembersNonces (f : Focus) : Bool :=
  !f.entry.satisfied
    || (f.entry.interest.mustBeFresh && f.entry.dataFreshness < f.node.deadNonces.lifetime)

/-- Remembers the nonces of some out-records if they are worth it. -/
def rememberNonces (f : Focus) (records : List OutRecord) : Focus :=
  if f.remembersNonces then
    let add (l : DeadNonceList) (r : OutRecord) := l.add f.entry.name r.nonce f.node.now
    f.onNode fun n => { n with deadNonces := records.foldl add n.deadNonces }
  else f

end Focus

end NamedData
