import NamedData.Name.Uri
import NamedData.Packet.Basic
import NamedData.Policy.Unsolicited

/-!
What a node says about its work. Each notice holds what happened; its level and wording are
functions of it.
-/

namespace NamedData

/-- How much a notice matters. -/
inductive NoticeLevel where
  | debug
  | warn
deriving DecidableEq

def NoticeLevel.label : NoticeLevel → String
  | debug => "DEBUG"
  | warn => "WARN"

/-- What became of an incoming Interest at first sight. -/
inductive InterestArrival where
  | unknownFace
  | seen
  | violatesLocalhost
  | reachingProducerRegion
deriving DecidableEq

/-- What became of incoming Data at first sight. -/
inductive DataArrival where
  | unknownFace
  | seen
  | violatesLocalhost
  | matching (entry : Name)
deriving DecidableEq

/-- What became of an incoming Nack. -/
inductive NackArrival where
  | unknownFace
  | wrongLink (link : LinkType)
  | noEntry
  | noOutRecord
  | nonceMismatch (received expected : Nonce)
  | accepted
deriving DecidableEq

/-- What became of a Nack on its way out of a face. -/
inductive NackDeparture where
  | noInRecord
  | wrongLink (link : LinkType)
  | sent
deriving DecidableEq

/-- What a node may say. -/
inductive Notice where
  | faceAdded (info : FaceInfo)
  | faceRemoved (face : FaceId)
  | faceDisconnected (face : FaceId)
  | routeToUnknownFace (stem : Name) (face : FaceId)
  | routeAdded (stem : Name) (face : FaceId) (cost : Nat) (isNew : Bool)
  | routeRemoved (stem : Name) (face : FaceId)
  | strategyAdded (strategy : String) (id : Nat)
  | strategyUnknown (stem : Name) (id : Nat)
  | strategyChosen (stem : Name) (strategy : String)
  | incomingInterest (face : FaceId) (name : Name) (arrival : InterestArrival)
  | interestLoop (face : FaceId) (name : Name) (isAnswered : Bool)
  | storeMiss (name : Name)
  | nextHopTag (name : Name) (face : FaceId) (isFound : Bool)
  | storeHit (name : Name)
  | incomingData (face : FaceId) (name : Name) (arrival : DataArrival)
  | unsolicited (face : FaceId) (name : Name) (decision : UnsolicitedDecision)
  | incomingNack (face : FaceId) (name : Name) (reason : NackReason) (arrival : NackArrival)
  | finalized (name : Name) (isSatisfied : Bool)
  | outgoingInterest (face : FaceId) (entry : Name)
  | outgoingInterestNowhere (name : Name)
  | outgoingData (face : FaceId) (name : Name) (violatesLocalhost : Bool)
  | outgoingDataNowhere (name : Name)
  | outgoingNack (face : FaceId) (entry : Name) (reason : NackReason) (departure : NackDeparture)
  | outgoingNackNowhere (entry : Name) (reason : NackReason)
  | afterLoop (face : FaceId) (name : Name) (nonce : Nonce)
  | beforeSatisfy (entry : Name) (face : FaceId) (data : Name)
  | afterStoreHit (entry : Name) (face : FaceId) (data : Name)
  | afterData (entry : Name) (face : FaceId) (data : Name)
  | afterNack (face : FaceId) (name : Name) (reason : NackReason)
  | afterNewNextHop (entry : Name) (hop : FaceId)
  | afterDrop (face : FaceId) (name : Name)
  | waitingForUpstreams (entry : Name)
  | allUpstreamsNacked (entry : Name) (reason : NackReason)
  | noEligibleNextHop (entry : Name)
  | suppressed (face : FaceId) (name : Name)
  | noHopForRetransmission (face : FaceId) (name : Name)
  | bestRouteChosen (face : FaceId) (name : Name) (hop : FaceId) (isRetransmission : Bool)
  | multicastTo (face : FaceId) (name : Name) (hop : FaceId)
  | offeredTo (entry : Name) (hop : FaceId)
deriving DecidableEq

namespace Notice

/-- Notices about faces and strategies that do not exist are warnings. -/
def level : Notice → NoticeLevel
  | routeToUnknownFace .. => .warn
  | strategyUnknown .. => .warn
  | incomingInterest _ _ .unknownFace => .warn
  | incomingData _ _ .unknownFace => .warn
  | incomingNack _ _ _ .unknownFace => .warn
  | outgoingInterestNowhere .. => .warn
  | outgoingDataNowhere .. => .warn
  | outgoingNackNowhere .. => .warn
  | _ => .debug

def nackText (name : Name) (reason : NackReason) : String :=
  name.uri ++ "~" ++ reason.text

def message : Notice → String
  | faceAdded info =>
    "addFace face=" ++ info.face.text ++ " scope=" ++ info.scope.label
      ++ " link-type=" ++ info.link.label
  | faceRemoved face => "removeFace face=" ++ face.text
  | faceDisconnected face => "face=" ++ face.text ++ " disconnected"
  | routeToUnknownFace stem face =>
    "registerPrefix prefix=" ++ stem.uri ++ " face=" ++ face.text ++ " unknown face"
  | routeAdded stem face cost isNew =>
    "registerPrefix prefix=" ++ stem.uri ++ " face=" ++ face.text ++ " cost=" ++ toString cost
      ++ " new=" ++ toString isNew
  | routeRemoved stem face => "unregisterPrefix prefix=" ++ stem.uri ++ " face=" ++ face.text
  | strategyAdded strategy id => "registerStrategy name=" ++ strategy ++ " id=" ++ toString id
  | strategyUnknown stem id =>
    "setStrategy prefix=" ++ stem.uri ++ " unknown strategy id=" ++ toString id
  | strategyChosen stem strategy => "setStrategy prefix=" ++ stem.uri ++ " strategy=" ++ strategy
  | incomingInterest face name arrival =>
    "onIncomingInterest in=" ++ face.text ++ " interest=" ++ name.uri ++ match arrival with
      | .unknownFace => " unknown face"
      | .seen => ""
      | .violatesLocalhost => " violates /localhost"
      | .reachingProducerRegion => " reaching-producer-region"
  | interestLoop face name isAnswered =>
    "onInterestLoop in=" ++ face.text ++ " interest=" ++ name.uri
      ++ if isAnswered then " send-Nack-duplicate" else " drop"
  | storeMiss name => "onContentStoreMiss interest=" ++ name.uri
  | nextHopTag name face isFound =>
    "onContentStoreMiss interest=" ++ name.uri ++ " nexthop-faceid=" ++ face.text
      ++ if isFound then "" else " not found"
  | storeHit name => "onContentStoreHit interest=" ++ name.uri
  | incomingData face name arrival =>
    "onIncomingData in=" ++ face.text ++ " data=" ++ name.uri ++ match arrival with
      | .unknownFace => " unknown face"
      | .seen => ""
      | .violatesLocalhost => " violates /localhost"
      | .matching entry => " matching=" ++ entry.uri
  | unsolicited face name decision =>
    "onDataUnsolicited in=" ++ face.text ++ " data=" ++ name.uri ++ " decision=" ++ decision.text
  | incomingNack face name reason arrival =>
    "onIncomingNack in=" ++ face.text ++ " nack=" ++ nackText name reason ++ match arrival with
      | .unknownFace => " unknown face"
      | .wrongLink link => " link-type=" ++ link.label
      | .noEntry => " no-PIT-entry"
      | .noOutRecord => " no-out-record"
      | .nonceMismatch received expected =>
        " nonce-mismatch " ++ received.text ++ "!=" ++ expected.text
      | .accepted => " OK"
  | finalized name isSatisfied =>
    "onInterestFinalize interest=" ++ name.uri
      ++ if isSatisfied then " satisfied" else " unsatisfied"
  | outgoingInterest face entry =>
    "onOutgoingInterest out=" ++ face.text ++ " interest=" ++ entry.uri
  | outgoingInterestNowhere name => "onOutgoingInterest out=(invalid) interest=" ++ name.uri
  | outgoingData face name violatesLocalhost =>
    "onOutgoingData out=" ++ face.text ++ " data=" ++ name.uri
      ++ if violatesLocalhost then " violates /localhost" else ""
  | outgoingDataNowhere name => "onOutgoingData out=(invalid) data=" ++ name.uri
  | outgoingNack face entry reason departure =>
    "onOutgoingNack out=" ++ face.text ++ " nack=" ++ nackText entry reason ++ match departure with
      | .noInRecord => " no-in-record"
      | .wrongLink link => " link-type=" ++ link.label
      | .sent => " OK"
  | outgoingNackNowhere entry reason =>
    "onOutgoingNack out=(invalid) nack=" ++ nackText entry reason
  | afterLoop face name nonce =>
    "afterReceiveLoopedInterest in=" ++ face.text ++ " interest=" ++ name.uri
      ++ " nonce=" ++ nonce.text
  | beforeSatisfy entry face data =>
    "beforeSatisfyInterest pitEntry=" ++ entry.uri ++ " in=" ++ face.text ++ " data=" ++ data.uri
  | afterStoreHit entry face data =>
    "afterContentStoreHit pitEntry=" ++ entry.uri ++ " in=" ++ face.text ++ " data=" ++ data.uri
  | afterData entry face data =>
    "afterReceiveData pitEntry=" ++ entry.uri ++ " in=" ++ face.text ++ " data=" ++ data.uri
  | afterNack face name reason =>
    "afterReceiveNack in=" ++ face.text ++ " nack=" ++ nackText name reason
  | afterNewNextHop entry hop =>
    "afterNewNextHop pitEntry=" ++ entry.uri ++ " nexthop=" ++ hop.text
  | afterDrop face name => "onDroppedInterest out=" ++ face.text ++ " interest=" ++ name.uri
  | waitingForUpstreams entry =>
    "afterReceiveNack pitEntry=" ++ entry.uri ++ " waiting for other upstreams"
  | allUpstreamsNacked entry reason =>
    "afterReceiveNack pitEntry=" ++ entry.uri ++ " all upstreams Nacked, reason=" ++ reason.text
  | noEligibleNextHop entry =>
    "afterReceiveInterest pitEntry=" ++ entry.uri ++ " no eligible next hop, send Nack NoRoute"
  | suppressed face name =>
    "afterReceiveInterest in=" ++ face.text ++ " interest=" ++ name.uri ++ " suppressed"
  | noHopForRetransmission face name =>
    "afterReceiveInterest in=" ++ face.text ++ " interest=" ++ name.uri
      ++ " retransmission with no eligible next hop"
  | bestRouteChosen face name hop isRetransmission =>
    "afterReceiveInterest in=" ++ face.text ++ " interest=" ++ name.uri ++ " to=" ++ hop.text
      ++ " retransmission=" ++ toString isRetransmission
  | multicastTo face name hop =>
    "afterReceiveInterest in=" ++ face.text ++ " interest=" ++ name.uri ++ " to=" ++ hop.text
  | offeredTo entry hop => "afterNewNextHop pitEntry=" ++ entry.uri ++ " to=" ++ hop.text

end Notice

end NamedData
