import NamedData.Forwarder.Basic

/-!
The pipeline of incoming Interests. An Interest that is not new to the node is a loop; one that
nobody else is waiting for may be answered from the content store; any other waits in its entry and
is left to the strategy, unless it carries the tag of the face that it must be sent to.
-/

namespace NamedData.Forwarder

/-- Treats an Interest as a loop: a face with a single peer is told, others are not. -/
def rejectLoop (fw : Forwarder) (ingress : FaceEndpoint) (info : FaceInfo) (interest : Interest) :
    Forwarder :=
  let fw := fw.say (.interestLoop ingress.face interest.name info.isPointToPoint)
  if info.isPointToPoint then
    fw.onNode fun n =>
      n.transmit ingress (.nack { interest := interest.untagged, reason := .duplicate })
  else fw

/-- Whether an Interest whose nonce is already in the given records loops. A face with a single peer
may repeat the nonce that it used itself. -/
def isLoop (info : FaceInfo) (duplicate : DuplicateNonce) : Bool :=
  !duplicate.isNone && !(info.isPointToPoint && duplicate.inSame)

/-- Records the Interest in its entry, which now lives at least as long as any of those who wait. -/
def awaitData (ingress : FaceEndpoint) (interest : Interest) (f : Focus) : Focus :=
  let now := f.node.now
  let f := f.onEntry fun e => e.recordIn ingress interest now
  f.setExpiry ((f.entry.lastInExpiry?.bind fun expiry => expiry.since? now).getD 0)

/-- Sends a tagged Interest to the face of its tag and nowhere else. -/
def followTag (interest : Interest) (hop : FaceId) (f : Focus) : Focus :=
  if f.node.faces.contains hop then
    (f.say (.nextHopTag interest.name hop true)).sendInterest { face := hop } interest
  else f.say (.nextHopTag interest.name hop false)

/-- Goes on with an Interest that was not answered from the content store. -/
def onStoreMiss (fw : Forwarder) (ingress : FaceEndpoint) (token : PitToken) (interest : Interest) :
    Except Fault Forwarder :=
  let fw := fw.onNode fun n =>
    ((n.say (.storeMiss interest.name)).count
      fun c => { c with storeMisses := c.storeMisses + 1 }).report (.storeMiss interest)
  fw.atEntry token fun f =>
    let f := awaitData ingress interest f
    match interest.nextHopFace with
    | some hop => .ok (followTag interest hop f)
    | none => fw.consult f fun s f => s.afterInterest interest ingress f

/-- Goes on with an Interest that was answered from the content store. -/
def onStoreHit (fw : Forwarder) (ingress : FaceEndpoint) (token : PitToken) (interest : Interest)
    (data : Data) : Except Fault Forwarder :=
  let fw := fw.onNode fun n =>
    ((n.say (.storeHit interest.name)).count
      fun c => { c with storeHits := c.storeHits + 1 }).report (.storeHit interest data)
  let data := { data with incomingFace := some .contentStore }
  let source : FaceEndpoint := { face := .contentStore }
  fw.atEntry token fun f =>
    let f := (f.onEntry fun e =>
      { e with satisfied := true, dataFreshness := data.freshness }).setExpiry 0
    let f := f.report (.satisfy f.entry source.face data)
    fw.consult f fun s f => s.afterStoreHit data ingress (s.beforeSatisfy data source f)

/-- Goes on with an Interest that is not known to have been resolved before. -/
def admitInterest (fw : Forwarder) (ingress : FaceEndpoint) (info : FaceInfo)
    (interest : Interest) : Except Fault Forwarder := do
  let ((token, _), tables) ← fw.node.tables.findOrInsert interest
  let fw := fw.onNode fun n => { n with tables }
  let f ← fw.node.focus token
  if isLoop info (f.entry.findNonce interest.nonce ingress.face) then
    let fw := fw.rejectLoop ingress info interest
    fw.atEntry token fun f => fw.consult f fun s f => s.afterLoop interest ingress f
  else if f.entry.hasInRecords then
    fw.onStoreMiss ingress token interest
  else
    match fw.findStored interest with
    | (some data, fw) => fw.onStoreHit ingress token interest data
    | (none, fw) => fw.onStoreMiss ingress token interest

/-- The Interest without its forwarding hint if the hint has led it here. -/
def arrive (fw : Forwarder) (ingress : FaceEndpoint) (interest : Interest) :
    Forwarder × Interest :=
  if fw.node.regions.reaches interest.forwardingHint then
    (fw.say (.incomingInterest ingress.face interest.name .reachingProducerRegion),
      { interest with forwardingHint := [] })
  else (fw, interest)

def receiveInterest (fw : Forwarder) (now : Timestamp) (ingress : FaceEndpoint)
    (interest : Interest) : Except Fault Forwarder :=
  let fw := fw.tick now
  match fw.node.faces.info? ingress.face with
  | none => .ok (fw.say (.incomingInterest ingress.face interest.name .unknownFace))
  | some info =>
    let fw := (fw.say (.incomingInterest ingress.face interest.name .seen)).onNode
      fun n => n.count fun c => { c with inInterests := c.inInterests + 1 }
    let interest := { interest with incomingFace := some ingress.face }
    if !info.isLocal && interest.name.isLocalhost then
      .ok (fw.say (.incomingInterest ingress.face interest.name .violatesLocalhost))
    else if fw.node.deadNonces.has interest.name interest.nonce now then
      .ok (fw.rejectLoop ingress info interest)
    else
      let (fw, interest) := fw.arrive ingress interest
      fw.admitInterest ingress info interest

/-- A face gave up on an Interest that it was sent. -/
def onDroppedInterest (fw : Forwarder) (now : Timestamp) (egress : FaceEndpoint)
    (interest : Interest) : Except Fault Forwarder := do
  let fw := fw.tick now
  let s ← fw.strategy (fw.node.tables.effectiveStrategy interest.name)
  .ok (fw.onNode (s.afterDrop interest egress))

end NamedData.Forwarder
