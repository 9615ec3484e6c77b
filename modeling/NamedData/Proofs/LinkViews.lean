import NamedData.Proofs.Answers

/-!
What links do to packets, set apart from the rest of a node. A view changes the answers of links,
what is known of past answers, and the faces that are reported for them; it leaves everything that
a pipeline may look at. If a view commutes with handing one packet over, it commutes with all that
an entry or a strategy does, since nobody asks how a packet fared.
-/

namespace NamedData

/-- Whether the notice tells of a link that refused a packet. -/
def Notice.isDisconnection : Notice → Bool
  | faceDisconnected _ => true
  | _ => false

/-- The node after it handed a packet to a face, before it notes how the packet fared. -/
def Node.handed (n : Node) (peer : FaceEndpoint) (packet : Packet) (isTaken : Bool) : Node :=
  { n with
    faces := n.faces.modify peer.face fun f => { f with handed := f.handed + 1 }
    journal := { n.journal with sent := n.journal.sent ++ [{ peer, packet, isTaken }] } }

theorem Node.transmit_of_find? {n : Node} {peer : FaceEndpoint} {f : Face}
    (hfind : n.faces.find? peer.face = some f) (packet : Packet) :
    n.transmit peer packet =
      if f.takes f.handed then n.handed peer packet true
      else (n.handed peer packet false).noteDisconnected peer.face := by
  rw [transmit, FaceTable.handOver, hfind]
  cases htakes : f.takes f.handed with
  | true => simp only [htakes]; rfl
  | false => simp only [htakes]; rfl

theorem Node.transmit_of_find?_none {n : Node} {peer : FaceEndpoint}
    (hfind : n.faces.find? peer.face = none) (packet : Packet) : n.transmit peer packet = n := by
  rw [transmit, FaceTable.handOver, hfind]

/-- Another account of what the links of a node did. -/
structure LinkView where
  faces : FaceTable → FaceTable
  sent : List Transmission → List Transmission
  /-- The faces that are reported, from what was sent. -/
  reported : List Transmission → List FaceId
  notices : List Notice → List Notice

namespace LinkView

/-- A node as the view shows it. -/
def node (v : LinkView) (n : Node) : Node :=
  { n with
    faces := v.faces n.faces
    disconnected := v.reported n.journal.sent
    journal := { n.journal with
      sent := v.sent n.journal.sent
      notices := v.notices n.journal.notices } }

/-- A node and its entry at hand as the view shows them. -/
def focus (v : LinkView) (f : Focus) : Focus :=
  f.onNode v.node

/-- A view commutes with doing something over and over if it commutes with doing it once. -/
theorem focus_foldl {v : LinkView} {α : Type} {work : Focus → α → Focus}
    (hwork : ∀ f a, v.focus (work f a) = work (v.focus f) a) (l : List α) (f : Focus) :
    v.focus (l.foldl work f) = l.foldl work (v.focus f) :=
  (List.foldl_hom v.focus fun f a => (hwork f a).symm).symm

theorem focus_rememberNonces (v : LinkView) (f : Focus) (records : List OutRecord) :
    v.focus (f.rememberNonces records) = (v.focus f).rememberNonces records := by
  have hremembers : (v.focus f).remembersNonces = f.remembersNonces := rfl
  rw [Focus.rememberNonces, Focus.rememberNonces, hremembers]
  split <;> rfl

/-- The view shows every face as it is, leaves other notices, and commutes with handing a packet
over. -/
structure Lawful (v : LinkView) : Prop where
  info? : ∀ t, (v.faces t).info? = t.info?
  notices : ∀ l (x : Notice), x.isDisconnection = false → v.notices (l ++ [x]) = v.notices l ++ [x]
  transmit : ∀ n peer packet, v.node (n.transmit peer packet) = (v.node n).transmit peer packet

namespace Lawful

variable {v : LinkView} (h : v.Lawful)
include h

theorem say (n : Node) {x : Notice} (hx : x.isDisconnection = false) :
    v.node (n.say x) = (v.node n).say x := by
  simp only [node, Node.say, h.notices _ x hx]

theorem contains (n : Node) (face : FaceId) :
    (v.node n).faces.contains face = n.faces.contains face := by
  rw [FaceTable.contains_eq, FaceTable.contains_eq]
  exact congrArg (fun info? => (info? face).isSome) (h.info? n.faces)

theorem dispatch (n : Node) {x : Notice} (hx : x.isDisconnection = false) (peer : FaceEndpoint)
    (packet : Packet) (f : Counters → Counters) :
    v.node (((n.say x).transmit peer packet).count f) =
      (((v.node n).say x).transmit peer packet).count f := by
  rw [← h.say n hx, ← h.transmit]
  rfl

theorem sendData (n : Node) (egress : FaceEndpoint) (data : Data) :
    v.node (n.sendData egress data) = (v.node n).sendData egress data := by
  have hinfo : (v.node n).faces.info? egress.face = n.faces.info? egress.face :=
    congrFun (h.info? n.faces) egress.face
  rw [Node.sendData, Node.sendData, hinfo]
  split
  · exact h.say n rfl
  · split
    · exact h.say n rfl
    · exact h.dispatch n rfl egress _ _

/-! ### Entries at hand -/

theorem focus_say (f : Focus) {x : Notice} (hx : x.isDisconnection = false) :
    v.focus (f.say x) = (v.focus f).say x :=
  congrArg (fun n => { f with node := n }) (h.say f.node hx)

theorem focus_info? (f : Focus) : (v.focus f).node.faces.info? = f.node.faces.info? :=
  h.info? f.node.faces

theorem sendInterest (f : Focus) (egress : FaceEndpoint) (interest : Interest) :
    v.focus (f.sendInterest egress interest) = (v.focus f).sendInterest egress interest := by
  have hcontains : (v.focus f).node.faces.contains egress.face =
      f.node.faces.contains egress.face := h.contains f.node egress.face
  cases hknown : f.node.faces.contains egress.face with
  | true =>
      rw [Focus.sendInterest_of_known hknown, Focus.sendInterest_of_known (hcontains.trans hknown)]
      exact congrArg
        (fun n => Focus.mk n f.token (f.entry.recordOut egress interest f.node.now))
        (h.dispatch f.node rfl egress _ _)
  | false =>
      rw [Focus.sendInterest_of_unknown hknown,
        Focus.sendInterest_of_unknown (hcontains.trans hknown)]
      exact h.focus_say f rfl

theorem focus_sendData (f : Focus) (egress : FaceEndpoint) (data : Data) :
    v.focus (f.sendData egress data) = (v.focus f).sendData egress data :=
  congrArg (fun n => Focus.mk n f.token (f.entry.deleteIn egress.face))
    (h.sendData f.node egress data)

theorem sendDataToAll (f : Focus) (ingress : FaceEndpoint) (data : Data) :
    v.focus (f.sendDataToAll ingress data) = (v.focus f).sendDataToAll ingress data := by
  have hwaiting : (v.focus f).waiting ingress.face = f.waiting ingress.face := by
    rw [Focus.waiting, Focus.waiting, h.focus_info?]
    rfl
  rw [Focus.sendDataToAll, Focus.sendDataToAll, hwaiting]
  exact focus_foldl (fun f p => h.focus_sendData f p data) _ f

theorem sendNack (f : Focus) (egress : FaceEndpoint) (reason : NackReason) :
    v.focus (f.sendNack egress reason) = (v.focus f).sendNack egress reason := by
  have hentry : (v.focus f).entry = f.entry := rfl
  simp only [Focus.sendNack, h.focus_info?, hentry]
  split
  · exact h.focus_say f rfl
  · split
    · exact h.focus_say f rfl
    · split
      · exact congrArg (fun n => Focus.mk n f.token (f.entry.deleteIn egress.face))
          (h.dispatch f.node rfl egress _ _)
      · exact h.focus_say f rfl

theorem sendNacks (f : Focus) (reason : NackReason) (except : List FaceEndpoint) :
    v.focus (f.sendNacks reason except) = (v.focus f).sendNacks reason except :=
  focus_foldl (fun f p => h.sendNack f p reason) _ f

theorem rejectNoRoute (f : Focus) (ingress : FaceEndpoint) :
    v.focus (f.rejectNoRoute ingress) = (v.focus f).rejectNoRoute ingress := by
  have hsay := h.focus_say f (x := .noEligibleNextHop f.entry.name) rfl
  have hnack := h.sendNack (f.say (.noEligibleNextHop f.entry.name)) ingress .noRoute
  rw [hsay] at hnack
  exact congrArg Focus.reject hnack

theorem propagateNacks (f : Focus) :
    v.focus f.propagateNacks = (v.focus f).propagateNacks := by
  have hentry : (v.focus f).entry = f.entry := rfl
  have hnow : (v.focus f).node.now = f.node.now := rfl
  simp only [Focus.propagateNacks, hentry, hnow]
  split
  · exact h.focus_say f rfl
  · rw [h.sendNacks, h.focus_say f rfl]

theorem passNackOn (nack : Nack) (ingress : FaceEndpoint) (f : Focus) :
    v.focus (f.passNackOn nack ingress) = (v.focus f).passNackOn nack ingress := by
  rw [Focus.passNackOn, h.propagateNacks, h.focus_say f rfl]
  rfl

/-! ### Strategies -/

theorem eligibleHops (f : Focus) (ingress : FaceInfo) (interest : Interest) :
    (v.focus f).eligibleHops ingress interest = f.eligibleHops ingress interest := by
  have hhops : (v.focus f).nextHops = f.nextHops := rfl
  rw [Focus.eligibleHops, Focus.eligibleHops, hhops, h.focus_info?]

theorem bestRoute (s : Suppression) (interest : Interest) (ingress : FaceEndpoint) (f : Focus) :
    v.focus (BestRoute.afterInterest s interest ingress f) =
      BestRoute.afterInterest s interest ingress (v.focus f) := by
  have hentry : (v.focus f).entry = f.entry := rfl
  have hnow : (v.focus f).node.now = f.node.now := rfl
  simp only [BestRoute.afterInterest, h.focus_info?, h.eligibleHops, hentry, hnow]
  split
  · exact h.focus_say f rfl
  · split
    · rfl
    next info hinfo =>
      split
      next hop hchosen =>
        rw [h.sendInterest]
        exact congrArg (fun g : Focus => (g.onEntry fun e =>
          e.recordForwarded (s.decide f.entry f.node.now) f.node.now).sendInterest
            { face := hop.face } interest) (h.focus_say f rfl)
      · split
        · exact h.rejectNoRoute f ingress
        · exact h.focus_say f rfl

theorem sendToAll (interest : Interest) (ingress : FaceId) (hops : List NextHop) (f : Focus) :
    v.focus (Multicast.sendToAll f interest ingress hops) =
      Multicast.sendToAll (v.focus f) interest ingress hops := by
  refine focus_foldl (fun f hop => ?_) hops f
  rw [h.sendInterest, h.focus_say f rfl]

theorem multicast (s : Suppression) (interest : Interest) (ingress : FaceEndpoint) (f : Focus) :
    v.focus (Multicast.afterInterest s interest ingress f) =
      Multicast.afterInterest s interest ingress (v.focus f) := by
  have hentry : (v.focus f).entry = f.entry := rfl
  have hnow : (v.focus f).node.now = f.node.now := rfl
  simp only [Multicast.afterInterest, h.focus_info?, h.eligibleHops, hentry, hnow]
  split
  · exact h.focus_say f rfl
  · split
    · rfl
    · split
      · split
        · rfl
        · exact h.rejectNoRoute f ingress
      · exact h.sendToAll interest ingress.face _ _

theorem afterNewNextHop (hop : NextHop) (f : Focus) :
    v.focus (Multicast.afterNewNextHop hop f) = Multicast.afterNewNextHop hop (v.focus f) := by
  have hvoucher (egress : FaceInfo) :
      Multicast.voucher? (v.focus f) egress = Multicast.voucher? f egress := by
    rw [Multicast.voucher?, Multicast.voucher?, h.focus_info?]
    rfl
  have hentry : (v.focus f).entry = f.entry := rfl
  have hnow : (v.focus f).node.now = f.node.now := rfl
  simp only [Multicast.afterNewNextHop, h.focus_info?, hvoucher, hentry, hnow]
  split
  · rfl
  · split
    · rfl
    · split
      · rfl
      · rw [h.sendInterest, h.focus_say f rfl]

end Lawful

/-- What a view commutes with of the answers of a strategy. -/
structure Accepts (v : LinkView) (s : Strategy) : Prop where
  afterInterest : ∀ i p f, v.focus (s.afterInterest i p f) = s.afterInterest i p (v.focus f)
  afterLoop : ∀ i p f, v.focus (s.afterLoop i p f) = s.afterLoop i p (v.focus f)
  beforeSatisfy : ∀ d p f, v.focus (s.beforeSatisfy d p f) = s.beforeSatisfy d p (v.focus f)
  afterStoreHit : ∀ d p f, v.focus (s.afterStoreHit d p f) = s.afterStoreHit d p (v.focus f)
  afterData : ∀ d p f, v.focus (s.afterData d p f) = s.afterData d p (v.focus f)
  afterNack : ∀ k p f, v.focus (s.afterNack k p f) = s.afterNack k p (v.focus f)
  afterNewNextHop : ∀ hop f, v.focus (s.afterNewNextHop hop f) = s.afterNewNextHop hop (v.focus f)
  afterDrop : ∀ i p n, v.node (s.afterDrop i p n) = s.afterDrop i p (v.node n)

/-- A view commutes with the answers of the built-in strategies. -/
theorem Lawful.accepts {v : LinkView} (h : v.Lawful) (b : BuiltIn) : v.Accepts b.strategy where
  afterInterest i p f := by
    cases b with
    | bestRoute s => exact h.bestRoute s i p f
    | multicast s => exact h.multicast s i p f
  afterLoop i p f := by
    rw [b.afterLoop_eq]
    exact h.focus_say f rfl
  beforeSatisfy d p f := by
    rw [b.beforeSatisfy_eq]
    exact h.focus_say f rfl
  afterStoreHit d p f := by
    rw [b.afterStoreHit_eq, StandardHook.afterStoreHit, h.focus_sendData, h.focus_say f rfl]
    rfl
  afterData d p f := by
    rw [b.afterData_eq, StandardHook.afterData, h.sendDataToAll, h.focus_say f rfl]
    rfl
  afterNack k p f := by
    rw [b.afterNack_eq]
    exact h.passNackOn k p f
  afterNewNextHop hop f := by
    cases b with
    | bestRoute s => exact h.focus_say f rfl
    | multicast s => exact h.afterNewNextHop hop f
  afterDrop i p n := by
    rw [b.afterDrop_eq]
    exact h.say n rfl

end LinkView

end NamedData
