import NamedData.Strategy.Basic

/-!
The multicast strategy sends each Interest to all eligible next hops, and offers pending Interests
to next hops that show up while they wait.
-/

namespace NamedData

namespace Multicast

def sendToAll (f : Focus) (interest : Interest) (ingress : FaceId) (hops : List NextHop) : Focus :=
  hops.foldl (fun f hop =>
    (f.say (.multicastTo ingress interest.name hop.face)).sendInterest { face := hop.face } interest)
    f

def afterInterest (s : Suppression) (interest : Interest) (ingress : FaceEndpoint) (f : Focus) :
    Focus :=
  let now := f.node.now
  let decision := s.decide f.entry now
  if decision = .suppress then f.say (.suppressed ingress.face interest.name)
  else match f.node.faces.info? ingress.face with
    | none => f
    | some info =>
      let hops := f.eligibleHops info interest
      if hops.isEmpty then
        if f.entry.hasPendingOutRecords now then f else f.rejectNoRoute ingress
      else
        sendToAll (f.onEntry fun e => e.recordForwarded decision now) interest ingress.face hops

/-- The Interest of the first waiting face other than the new next hop from which it may be
forwarded there. -/
def voucher? (f : Focus) (egress : FaceInfo) : Option Interest :=
  (f.entry.inRecords.find? fun r =>
    r.face ≠ egress.face && r.isLive f.node.now &&
      (f.node.faces.info? r.face).any fun ingress =>
        Scope.isEligible ingress r.interest egress).map InRecord.interest

def afterNewNextHop (hop : NextHop) (f : Focus) : Focus :=
  match f.node.faces.info? hop.face with
  | none => f
  | some egress =>
    if (f.entry.outRecord? hop.face).any fun r => r.isPending f.node.now then f
    else match voucher? f egress with
      | none => f
      | some interest =>
        (f.say (.offeredTo f.entry.name hop.face)).sendInterest { face := hop.face } interest

end Multicast

/-- Sends each Interest to all next hops. -/
def Strategy.multicast (s : Suppression) : Strategy where
  name := "multicast"
  wantsNewNextHops := true
  afterInterest := Multicast.afterInterest s
  afterNack := Focus.passNackOn
  afterNewNextHop := Multicast.afterNewNextHop

end NamedData
