import NamedData.Strategy.Basic

/-!
The best-route strategy sends a new Interest to the cheapest eligible next hop only. A
retransmission goes to an eligible next hop that was not tried yet, or else to the one that was
tried longest ago.
-/

namespace NamedData

namespace BestRoute

/-- When a next hop was tried last, counted from one; zero if it was not tried. -/
def lastTried (e : PitEntry) (hop : NextHop) : Nat :=
  match e.outRecord? hop.face with
  | some record => record.renewed.toNat + 1
  | none => 0

def choose (e : PitEntry) (decision : RetransmissionDecision) (eligible : List NextHop) :
    Option NextHop :=
  match decision with
  | .new => eligible.head?
  | _ => leastBy? (lastTried e) eligible

def afterInterest (s : Suppression) (interest : Interest) (ingress : FaceEndpoint) (f : Focus) :
    Focus :=
  let now := f.node.now
  let decision := s.decide f.entry now
  if decision = .suppress then f.say (.suppressed ingress.face interest.name)
  else match f.node.faces.info? ingress.face with
    | none => f
    | some info =>
      match choose f.entry decision (f.eligibleHops info interest) with
      | some hop =>
        ((f.say (.bestRouteChosen ingress.face interest.name hop.face (decision ≠ .new))).onEntry
          fun e => e.recordForwarded decision now).sendInterest { face := hop.face } interest
      | none =>
        if decision = .new then f.rejectNoRoute ingress
        else f.say (.noHopForRetransmission ingress.face interest.name)

end BestRoute

/-- Sends each Interest to one next hop. -/
def Strategy.bestRoute (s : Suppression) : Strategy where
  name := "best-route"
  afterInterest := BestRoute.afterInterest s
  afterNack := Focus.passNackOn

end NamedData
