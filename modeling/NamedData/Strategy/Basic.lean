import NamedData.Forwarder.Focus
import NamedData.Strategy.Scope
import NamedData.Strategy.Suppression

/-!
Strategies decide where Interests go and how a pending entry reacts to Data, Nacks and new next
hops. The pipelines ask them at fixed points, and they answer by sending packets out of the entry at
hand. Every question but one has an answer that a strategy may leave as it is.
-/

namespace NamedData

/-! ### The answers of a strategy that does not care -/

namespace StandardHook

def afterLoop (interest : Interest) (ingress : FaceEndpoint) (f : Focus) : Focus :=
  f.say (.afterLoop ingress.face interest.name interest.nonce)

def beforeSatisfy (data : Data) (ingress : FaceEndpoint) (f : Focus) : Focus :=
  f.say (.beforeSatisfy f.entry.name ingress.face data.name)

/-- Data from the content store goes to whoever asked. -/
def afterStoreHit (data : Data) (ingress : FaceEndpoint) (f : Focus) : Focus :=
  (f.say (.afterStoreHit f.entry.name ingress.face data.name)).sendData ingress data

/-- Data from a face goes to everybody who is waiting. -/
def afterData (data : Data) (ingress : FaceEndpoint) (f : Focus) : Focus :=
  (f.say (.afterData f.entry.name ingress.face data.name)).sendDataToAll ingress data

def afterNack (nack : Nack) (ingress : FaceEndpoint) (f : Focus) : Focus :=
  f.say (.afterNack ingress.face nack.interest.name nack.reason)

def afterNewNextHop (hop : NextHop) (f : Focus) : Focus :=
  f.say (.afterNewNextHop f.entry.name hop.face)

def afterDrop (interest : Interest) (egress : FaceEndpoint) (n : Node) : Node :=
  n.say (.afterDrop egress.face interest.name)

end StandardHook

/-- A strategy: its name and its answers. -/
structure Strategy where
  name : String
  /-- Whether pending Interests are offered to next hops that appear later. -/
  wantsNewNextHops : Bool := false
  /-- A new or repeated Interest waits in the entry. -/
  afterInterest : Interest → FaceEndpoint → Focus → Focus
  /-- An Interest came back that is already on its way. -/
  afterLoop : Interest → FaceEndpoint → Focus → Focus := StandardHook.afterLoop
  /-- Data was found for the entry. -/
  beforeSatisfy : Data → FaceEndpoint → Focus → Focus := StandardHook.beforeSatisfy
  /-- The Data was in the content store. -/
  afterStoreHit : Data → FaceEndpoint → Focus → Focus := StandardHook.afterStoreHit
  /-- The Data came in from a face, and no other entry waits for it. -/
  afterData : Data → FaceEndpoint → Focus → Focus := StandardHook.afterData
  /-- A Nack came back from a face that the Interest was sent to. -/
  afterNack : Nack → FaceEndpoint → Focus → Focus := StandardHook.afterNack
  /-- A next hop appeared that the entry would use now. -/
  afterNewNextHop : NextHop → Focus → Focus := StandardHook.afterNewNextHop
  /-- A face gave up on an Interest. -/
  afterDrop : Interest → FaceEndpoint → Node → Node := StandardHook.afterDrop

namespace Focus

/-- The next hops that exist and that the Interest may be forwarded to from the given face. -/
def eligibleHops (f : Focus) (ingress : FaceInfo) (interest : Interest) : List NextHop :=
  f.nextHops.filter fun hop =>
    (f.node.faces.info? hop.face).any fun egress => Scope.isEligible ingress interest egress

/-- Hands the Interest back for want of a route and gives the entry up. -/
def rejectNoRoute (f : Focus) (ingress : FaceEndpoint) : Focus :=
  ((f.say (.noEligibleNextHop f.entry.name)).sendNack ingress .noRoute).reject

/-- Once no face may still answer, hands the Interest back to everybody with the mildest of the
reasons that came in. -/
def propagateNacks (f : Focus) : Focus :=
  if f.entry.hasPendingOutRecords f.node.now then f.say (.waitingForUpstreams f.entry.name)
  else
    let reasons := f.entry.outRecords.filterMap OutRecord.nack?
    let mildest := (leastBy? NackReason.severity reasons).getD .unspecified
    (f.say (.allUpstreamsNacked f.entry.name mildest)).sendNacks mildest []

/-- The answer of both built-in strategies to a Nack. -/
def passNackOn (nack : Nack) (ingress : FaceEndpoint) (f : Focus) : Focus :=
  (f.say (.afterNack ingress.face nack.interest.name nack.reason)).propagateNacks

end Focus

end NamedData
