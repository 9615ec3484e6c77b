import NamedData.Strategy.Basic

/-!
Strategies that follow a script. A scripted strategy reports every question it is asked and answers
it with the actions that its script lists for the question, or as any strategy would if the script
says nothing about it.
-/

namespace NamedData

/-- One step of a script. A step without a target of its own is aimed at the face that the question
is about. -/
inductive ScriptAction where
  | sendInterest (target : Option FaceEndpoint) (nonce : Option Nonce)
  | sendData (target : Option FaceEndpoint) (data : Option Data)
  | sendDataToAll (target : Option FaceEndpoint) (data : Option Data)
  | sendNack (target : Option FaceEndpoint) (reason : NackReason)
  | sendNacks (reason : NackReason) (except : List (Option FaceEndpoint))
  | reject
  | forwardAlongFib (nonce : Option Nonce)
  | satisfy (isSatisfied : Bool) (freshness : Millis)
  | reportNextHops
  | reportFaceInfo (target : Option FaceEndpoint)
  | reportEntry

/-- What a question is about: a peer, an Interest, and Data if there is any. -/
structure Occasion where
  peer : FaceEndpoint
  interest : Interest
  data : Option Data := none

namespace ScriptAction

/-- The Interest of the occasion, with another nonce if one is given. -/
def withNonce (interest : Interest) (nonce : Option Nonce) : Interest :=
  { interest with nonce := nonce.getD interest.nonce }

/-- Carries out one step. A step that needs Data does nothing on an occasion without any. -/
def run (o : Occasion) (f : Focus) : ScriptAction → Focus
  | sendInterest target nonce => f.sendInterest (target.getD o.peer) (withNonce o.interest nonce)
  | sendData target data =>
    match data <|> o.data with
    | some d => f.sendData (target.getD o.peer) d
    | none => f
  | sendDataToAll target data =>
    match data <|> o.data with
    | some d => f.sendDataToAll (target.getD o.peer) d
    | none => f
  | sendNack target reason => f.sendNack (target.getD o.peer) reason
  | sendNacks reason except => f.sendNacks reason (except.map (·.getD o.peer))
  | reject => f.reject
  | forwardAlongFib nonce =>
    (f.nextHops.filter fun hop => hop.face ≠ o.peer.face).foldl
      (fun f hop => f.sendInterest { face := hop.face } (withNonce o.interest nonce)) f
  | satisfy isSatisfied freshness =>
    f.onEntry fun e => { e with satisfied := isSatisfied, dataFreshness := freshness }
  | reportNextHops => f.report (.nextHops f.nextHops)
  | reportFaceInfo target =>
    f.report (.faceInfo (f.node.faces.info? (target.getD o.peer).face))
  | reportEntry => f.report (.entry f.node.now f.entry)

end ScriptAction

/-- What a strategy does at each question that its script covers. -/
structure Script where
  name : String := "scripted"
  wantsNewNextHops : Bool := false
  actions : Hook → Option (List ScriptAction) := fun _ => none

namespace Script

/-- Reports a question and answers it from the script, or in the given way. -/
def answer (s : Script) (hook : Hook) (text : String) (o : Occasion) (standard : Focus → Focus)
    (f : Focus) : Focus :=
  let f := f.report (.hook s.name hook o.peer text)
  match s.actions hook with
  | some actions => actions.foldl (fun f action => action.run o f) f
  | none => standard f

def strategy (s : Script) : Strategy where
  name := s.name
  wantsNewNextHops := s.wantsNewNextHops
  afterInterest interest ingress f :=
    s.answer .interest interest.name.uri { peer := ingress, interest } id f
  afterLoop interest ingress f :=
    s.answer .looped interest.name.uri { peer := ingress, interest }
      (StandardHook.afterLoop interest ingress) f
  beforeSatisfy data ingress f :=
    s.answer .beforeSatisfy data.name.uri
      { peer := ingress, interest := f.entry.interest, data := some data }
      (StandardHook.beforeSatisfy data ingress) f
  afterStoreHit data ingress f :=
    s.answer .storeHit data.name.uri
      { peer := ingress, interest := f.entry.interest, data := some data }
      (StandardHook.afterStoreHit data ingress) f
  afterData data ingress f :=
    s.answer .data data.name.uri
      { peer := ingress, interest := f.entry.interest, data := some data }
      (StandardHook.afterData data ingress) f
  afterNack nack ingress f :=
    s.answer .nack nack.reason.text { peer := ingress, interest := nack.interest }
      (StandardHook.afterNack nack ingress) f
  afterNewNextHop hop f :=
    s.answer .newNextHop (toString hop.cost)
      { peer := { face := hop.face }, interest := f.entry.interest }
      (StandardHook.afterNewNextHop hop) f
  afterDrop interest egress n :=
    StandardHook.afterDrop interest egress
      (n.report (.hook s.name .dropped egress interest.name.uri))

end Script

end NamedData
