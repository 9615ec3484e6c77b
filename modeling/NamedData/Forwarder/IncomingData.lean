import NamedData.Forwarder.Basic

/-!
The pipeline of incoming Data. Data goes to the content store and to everybody who waits for it.
Data for one entry is left to its strategy; Data for several entries is sent once to each peer that
waits in any of them.
-/

namespace NamedData.Forwarder

def onUnsolicited (fw : Forwarder) (ingress : FaceEndpoint) (info : FaceInfo) (data : Data) :
    Forwarder :=
  let decision := fw.policy.decide info
  let fw := (fw.onNode fun n => n.count fun c => { c with unsolicited := c.unsolicited + 1 }).say
    (.unsolicited ingress.face data.name decision)
  match decision with
  | .cache =>
    { fw with store := fw.store.insert data (data.implicitDigest fw.hash) true fw.node.now }
  | .drop => fw

/-- Notes that Data comes in for an entry, which ends when timers are run next. -/
def announce (ingress : FaceEndpoint) (data : Data) (f : Focus) : Focus :=
  let f := f.setExpiry 0
  f.report (.satisfy f.entry ingress.face data)

/-- Closes an entry that Data came in for, and remembers the nonce that was sent to where the Data
came from. -/
def closeEntry (ingress : FaceEndpoint) (data : Data) (f : Focus) : Focus :=
  let f := f.onEntry fun e => { e with satisfied := true, dataFreshness := data.freshness }
  (f.rememberNonces (f.entry.outRecord? ingress.face).toList).onEntry
    fun e => e.deleteOut ingress.face

def sayMatching (ingress : FaceEndpoint) (data : Data) (f : Focus) : Focus :=
  f.say (.incomingData ingress.face data.name (.matching f.entry.name))

/-- Data for a single entry: the strategy sends it on. -/
def satisfyOne (fw : Forwarder) (ingress : FaceEndpoint) (data : Data) (token : PitToken) :
    Except Fault Forwarder :=
  fw.atEntry token fun f => do
    let f := announce ingress data (sayMatching ingress data f)
    let f ← fw.consult f fun s f => s.afterData data ingress (s.beforeSatisfy data ingress f)
    .ok (closeEntry ingress data f)

/-- Data for one of several entries: the peers that wait are collected, and nobody waits afterwards.
-/
def satisfyAmong (ingress : FaceEndpoint) (data : Data) (state : Forwarder × List FaceEndpoint)
    (token : PitToken) : Except Fault (Forwarder × List FaceEndpoint) := do
  let (fw, peers) := state
  let f ← fw.node.focus token
  let live := (f.entry.inRecords.filter fun r => r.isLive fw.node.now).map InRecord.peer
  let f := announce ingress data (sayMatching ingress data f)
  let f ← fw.consult f fun s f => s.beforeSatisfy data ingress f
  let f := (closeEntry ingress data f).onEntry PitEntry.clearIn
  .ok ({ fw with node := f.release }, peers ++ live)

def satisfyAll (fw : Forwarder) (ingress : FaceEndpoint) (info : FaceInfo) (data : Data)
    (tokens : List PitToken) : Except Fault Forwarder := do
  let (fw, peers) ← tokens.foldlM (satisfyAmong ingress data) (fw, [])
  let others := (FaceEndpoint.ordered peers).filter fun p => p.face ≠ ingress.face || info.isAdHoc
  .ok (fw.onNode fun n => others.foldl (fun n egress => n.sendData egress data) n)

def keep (fw : Forwarder) (data : Data) (digest : Digest) : Forwarder :=
  { fw with store := fw.store.insert data digest false fw.node.now }

def receiveData (fw : Forwarder) (now : Timestamp) (ingress : FaceEndpoint) (data : Data) :
    Except Fault Forwarder := do
  let fw := fw.tick now
  match fw.node.faces.info? ingress.face with
  | none => .ok (fw.say (.incomingData ingress.face data.name .unknownFace))
  | some info =>
    let fw := (fw.say (.incomingData ingress.face data.name .seen)).onNode
      fun n => n.count fun c => { c with inData := c.inData + 1 }
    let data := { data with incomingFace := some ingress.face }
    if !info.isLocal && data.name.isLocalhost then
      .ok (fw.say (.incomingData ingress.face data.name .violatesLocalhost))
    else
      let digest := data.implicitDigest fw.hash
      match ← fw.node.tables.answeredBy data.name digest with
      | ([], _) => .ok (fw.onUnsolicited ingress info data)
      | ([token], _) => (fw.keep data digest).satisfyOne ingress data token
      | (tokens, _) => (fw.keep data digest).satisfyAll ingress info data tokens

end NamedData.Forwarder
