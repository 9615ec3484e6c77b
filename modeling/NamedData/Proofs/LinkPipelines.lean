import NamedData.Proofs.Delivery
import NamedData.Proofs.LinkViews
import NamedData.Proofs.LoopRejection

/-!
Views of links commute with the pipelines: what a forwarder becomes is shown as what it would have
become as it is shown. Only calls that are about links themselves, and the removal of a face, look
at what a view changes.
-/

namespace NamedData

/-- A view of results commutes with two steps if it commutes with each. -/
theorem map_bind {ε α β γ δ : Type} {x : Except ε α} {x' : Except ε γ} {g : α → γ}
    {next : α → Except ε β} {view : β → δ} {next' : γ → Except ε δ} (hx : x.map g = x')
    (hnext : ∀ a, x = .ok a → (next a).map view = next' (g a)) :
    (x >>= next).map view = x' >>= next' := by
  subst hx
  cases x with
  | error fault => rfl
  | ok a => exact hnext a rfl

theorem map_bind_same {ε α β δ : Type} {x : Except ε α} {next : α → Except ε β} {view : β → δ}
    {next' : α → Except ε δ} (hnext : ∀ a, x = .ok a → (next a).map view = next' a) :
    (x >>= next).map view = x >>= next' := by
  cases x with
  | error fault => rfl
  | ok a => exact hnext a rfl

/-- A view that commutes with a step wherever a property holds that steps keep commutes with the
steps for a list. -/
theorem map_foldlM {σ τ α ε : Type} {P : σ → Prop} {view : σ → τ} {step : σ → α → Except ε σ}
    {step' : τ → α → Except ε τ} (hstep : ∀ s a, P s → (step s a).map view = step' (view s) a)
    (hkeeps : ∀ s a s', step s a = .ok s' → P s → P s') (l : List α) {s : σ} (hs : P s) :
    (l.foldlM step s).map view = l.foldlM step' (view s) := by
  induction l generalizing s with
  | nil => rfl
  | cons a rest ih =>
      rw [List.foldlM_cons, List.foldlM_cons]
      exact map_bind (hstep s a hs) fun s' hs' => ih (hkeeps s a s' hs' hs)

namespace LinkView

/-- A forwarder as the view shows it. -/
def forwarder (v : LinkView) (fw : Forwarder) : Forwarder :=
  fw.onNode v.node

/-- The view commutes with the answers of every strategy. -/
def AcceptsAll (v : LinkView) (fw : Forwarder) : Prop :=
  ∀ s ∈ fw.strategies, v.Accepts s

theorem Lawful.acceptsAll {v : LinkView} (h : v.Lawful) {fw : Forwarder}
    (hbuiltIn : fw.BuiltInOnly) : v.AcceptsAll fw := by
  intro s hs
  obtain ⟨b, rfl⟩ := hbuiltIn s hs
  exact h.accepts b

theorem map_focus (v : LinkView) (n : Node) (token : PitToken) :
    (n.focus token).map v.focus = (v.node n).focus token := by
  have htables : (v.node n).tables = n.tables := rfl
  rw [Node.focus, Node.focus, htables]
  split <;> rfl

variable {v : LinkView} {fw : Forwarder} {now : Timestamp} {ingress : FaceEndpoint}
  {token : PitToken}

theorem map_atEntry {work work' : Focus → Except Fault Focus}
    (hwork : ∀ f, (work f).map v.focus = work' (v.focus f)) :
    (fw.atEntry token work).map v.forwarder = (v.forwarder fw).atEntry token work' := by
  rw [Forwarder.atEntry, Forwarder.atEntry]
  refine map_bind (v.map_focus fw.node token) fun f _ => ?_
  exact map_bind (hwork f) fun _ _ => rfl

theorem map_consult (haccepts : v.AcceptsAll fw) {f : Focus} {ask : Strategy → Focus → Focus}
    (hask : ∀ s, v.Accepts s → v.focus (ask s f) = ask s (v.focus f)) :
    (fw.consult f ask).map v.focus = (v.forwarder fw).consult (v.focus f) ask := by
  have hid : (v.forwarder fw).strategy
      ((v.focus f).node.tables.effectiveStrategy (v.focus f).entry.name) =
        fw.strategy (f.node.tables.effectiveStrategy f.entry.name) := rfl
  rw [Forwarder.consult, Forwarder.consult, hid]
  cases hstrategy : fw.strategy (f.node.tables.effectiveStrategy f.entry.name) with
  | error fault => rfl
  | ok s =>
      have hs := List.mem_of_getElem? (Forwarder.strategy_eq_ok.mp hstrategy)
      exact congrArg Except.ok (hask s (haccepts s hs))

theorem forwarder_onNode {change : Node → Node}
    (hchange : ∀ n, v.node (change n) = change (v.node n)) (fw : Forwarder) :
    v.forwarder (fw.onNode change) = (v.forwarder fw).onNode change :=
  congrArg (fun n => { fw with node := n }) (hchange fw.node)

theorem focus_closeEntry (v : LinkView) (ingress : FaceEndpoint) (data : Data) (f : Focus) :
    v.focus (Forwarder.closeEntry ingress data f) =
      Forwarder.closeEntry ingress data (v.focus f) := by
  rw [Forwarder.closeEntry_eq, Forwarder.closeEntry_eq]
  exact congrArg (fun g : Focus => g.onEntry fun e => e.deleteOut ingress.face)
    (v.focus_rememberNonces _ _)

theorem focus_recordNack (v : LinkView) (face : FaceId) (reason : NackReason) (f : Focus) :
    v.focus (Forwarder.recordNack face reason f) =
      Forwarder.recordNack face reason (v.focus f) := by
  let marked := f.onEntry fun e => e.recordNack face reason
  change v.focus (if marked.entry.hasPendingOutRecords f.node.now then marked
      else marked.setExpiry 0) =
    if marked.entry.hasPendingOutRecords f.node.now then v.focus marked
      else (v.focus marked).setExpiry 0
  split <;> rfl

theorem focus_forgetFace (v : LinkView) (face : FaceId) (f : Focus) :
    v.focus (Forwarder.forgetFace face f) = Forwarder.forgetFace face (v.focus f) := by
  let forgotten := f.onEntry fun e => e.forgetFace face
  change v.focus (if f.entry.mentions face then
      if forgotten.entry.hasRecords then forgotten else forgotten.reject else f) =
    if f.entry.mentions face then
      if forgotten.entry.hasRecords then v.focus forgotten else (v.focus forgotten).reject
    else v.focus f
  split
  · split <;> rfl
  · rfl

theorem acceptsAll_satisfyAmong {data : Data} {s s' : Forwarder × List FaceEndpoint}
    (hstep : Forwarder.satisfyAmong ingress data s token = .ok s') (haccepts : v.AcceptsAll s.1) :
    v.AcceptsAll s'.1 := by
  obtain ⟨f, _, hrest⟩ := bind_eq_ok.mp hstep
  obtain ⟨g, _, hresult⟩ := bind_eq_ok.mp hrest
  cases hresult
  exact haccepts

theorem acceptsAll_atEntry {work : Focus → Except Fault Focus} {fw' : Forwarder}
    (hstep : fw.atEntry token work = .ok fw') (haccepts : v.AcceptsAll fw) : v.AcceptsAll fw' := by
  obtain ⟨e, f, _, _, rfl⟩ := Forwarder.atEntry_eq_ok.mp hstep
  exact haccepts

theorem map_offerEach (haccepts : v.AcceptsAll fw) (hop : NextHop) (tokens : List PitToken) :
    (tokens.foldlM (fun (k : Forwarder) token => k.atEntry token fun f =>
        k.consult f fun s f => s.afterNewNextHop hop f) fw).map v.forwarder =
      tokens.foldlM (fun (k : Forwarder) token => k.atEntry token fun f =>
        k.consult f fun s f => s.afterNewNextHop hop f) (v.forwarder fw) := by
  refine map_foldlM (P := v.AcceptsAll) (fun k token hk => ?_)
    (fun _ _ _ hstep hk => acceptsAll_atEntry hstep hk) tokens haccepts
  exact map_atEntry fun f => map_consult hk fun s hs => hs.afterNewNextHop hop f

theorem map_forgetEach (v : LinkView) (fw : Forwarder) (face : FaceId) (tokens : List PitToken) :
    (tokens.foldlM (fun (k : Forwarder) token => k.atEntry token fun f =>
        .ok (Forwarder.forgetFace face f)) fw).map v.forwarder =
      tokens.foldlM (fun (k : Forwarder) token => k.atEntry token fun f =>
        .ok (Forwarder.forgetFace face f)) (v.forwarder fw) := by
  refine map_foldlM (P := fun _ => True) (fun k token _ => ?_) (fun _ _ _ _ _ => trivial) tokens
    trivial
  exact map_atEntry fun f => congrArg Except.ok (v.focus_forgetFace face f)

theorem onDroppedInterest (haccepts : v.AcceptsAll fw) (now : Timestamp) (egress : FaceEndpoint)
    (interest : Interest) : (fw.onDroppedInterest now egress interest).map v.forwarder =
      (v.forwarder fw).onDroppedInterest now egress interest := by
  refine map_bind_same fun s hs => ?_
  have haccepted := haccepts s (List.mem_of_getElem? (Forwarder.strategy_eq_ok.mp hs))
  exact congrArg Except.ok
    (forwarder_onNode (haccepted.afterDrop interest egress) (fw.tick now))

namespace Lawful

variable (h : v.Lawful)
include h

theorem forwarder_say (fw : Forwarder) {x : Notice} (hx : x.isDisconnection = false) :
    v.forwarder (fw.say x) = (v.forwarder fw).say x :=
  forwarder_onNode (fun n => h.say n hx) fw

theorem forwarder_info? (fw : Forwarder) (face : FaceId) :
    (v.forwarder fw).node.faces.info? face = fw.node.faces.info? face :=
  congrFun (h.info? fw.node.faces) face

/-! ### Interests -/

theorem tellLoop (ingress : FaceEndpoint) (info : FaceInfo) (interest : Interest) (n : Node) :
    v.node (Forwarder.tellLoop ingress info interest n) =
      Forwarder.tellLoop ingress info interest (v.node n) := by
  rw [Forwarder.tellLoop, Forwarder.tellLoop]
  split
  · rw [h.transmit, h.say n rfl]
  · exact h.say n rfl

theorem rejectLoop (fw : Forwarder) (ingress : FaceEndpoint) (info : FaceInfo)
    (interest : Interest) : v.forwarder (fw.rejectLoop ingress info interest) =
      (v.forwarder fw).rejectLoop ingress info interest := by
  rw [Forwarder.rejectLoop_eq, Forwarder.rejectLoop_eq]
  exact forwarder_onNode (h.tellLoop ingress info interest) fw

theorem followTag (interest : Interest) (hop : FaceId) (f : Focus) :
    v.focus (Forwarder.followTag interest hop f) =
      Forwarder.followTag interest hop (v.focus f) := by
  have hcontains : (v.focus f).node.faces.contains hop = f.node.faces.contains hop :=
    h.contains f.node hop
  rw [Forwarder.followTag, Forwarder.followTag, hcontains]
  split
  · rw [h.sendInterest, h.focus_say f rfl]
  · exact h.focus_say f rfl

theorem noteMiss (interest : Interest) (n : Node) :
    v.node (Forwarder.noteMiss interest n) = Forwarder.noteMiss interest (v.node n) := by
  rw [Forwarder.noteMiss, Forwarder.noteMiss, ← h.say n rfl]
  rfl

theorem noteHit (interest : Interest) (data : Data) (n : Node) :
    v.node (Forwarder.noteHit interest data n) = Forwarder.noteHit interest data (v.node n) := by
  rw [Forwarder.noteHit, Forwarder.noteHit, ← h.say n rfl]
  rfl

theorem onStoreMiss (haccepts : v.AcceptsAll fw) (ingress : FaceEndpoint) (token : PitToken)
    (interest : Interest) : (fw.onStoreMiss ingress token interest).map v.forwarder =
      (v.forwarder fw).onStoreMiss ingress token interest := by
  have hnoted := forwarder_onNode (h.noteMiss interest) fw
  change (Forwarder.atEntry (fw.onNode (Forwarder.noteMiss interest)) token _).map v.forwarder =
    Forwarder.atEntry ((v.forwarder fw).onNode (Forwarder.noteMiss interest)) token _
  rw [← hnoted]
  refine map_atEntry fun f => ?_
  cases interest.nextHopFace with
  | some hop => exact congrArg Except.ok (h.followTag interest hop _)
  | none =>
      have hall : v.AcceptsAll (fw.onNode (Forwarder.noteMiss interest)) := haccepts
      exact map_consult hall fun s hs => hs.afterInterest interest ingress _

theorem onStoreHit (haccepts : v.AcceptsAll fw) (ingress : FaceEndpoint) (token : PitToken)
    (interest : Interest) (data : Data) :
    (fw.onStoreHit ingress token interest data).map v.forwarder =
      (v.forwarder fw).onStoreHit ingress token interest data := by
  have hnoted := forwarder_onNode (h.noteHit interest data) fw
  change (Forwarder.atEntry (fw.onNode (Forwarder.noteHit interest data)) token _).map v.forwarder =
    Forwarder.atEntry ((v.forwarder fw).onNode (Forwarder.noteHit interest data)) token _
  rw [← hnoted]
  refine map_atEntry fun f => ?_
  have hall : v.AcceptsAll (fw.onNode (Forwarder.noteHit interest data)) := haccepts
  refine map_consult hall fun s hs => ?_
  rw [hs.afterStoreHit, hs.beforeSatisfy]

theorem onLoop (haccepts : v.AcceptsAll fw) (ingress : FaceEndpoint) (info : FaceInfo)
    (token : PitToken) (interest : Interest) :
    ((fw.rejectLoop ingress info interest).atEntry token fun f =>
        (fw.rejectLoop ingress info interest).consult f fun s f =>
          s.afterLoop interest ingress f).map v.forwarder =
      ((v.forwarder fw).rejectLoop ingress info interest).atEntry token fun f =>
        ((v.forwarder fw).rejectLoop ingress info interest).consult f fun s f =>
          s.afterLoop interest ingress f := by
  have hall : v.AcceptsAll (fw.rejectLoop ingress info interest) := by
    rw [Forwarder.rejectLoop_eq]
    exact haccepts
  rw [← h.rejectLoop]
  exact map_atEntry fun f => map_consult hall fun s hs => hs.afterLoop interest ingress f

theorem lookUp (haccepts : v.AcceptsAll fw) (ingress : FaceEndpoint) (token : PitToken)
    (interest : Interest) :
    Except.map v.forwarder (match fw.findStored interest with
      | (some data, fw) => fw.onStoreHit ingress token interest data
      | (none, fw) => fw.onStoreMiss ingress token interest) =
    match (v.forwarder fw).findStored interest with
      | (some data, fw) => fw.onStoreHit ingress token interest data
      | (none, fw) => fw.onStoreMiss ingress token interest := by
  have hfind : (v.forwarder fw).findStored interest =
      ((fw.findStored interest).1, v.forwarder (fw.findStored interest).2) := rfl
  have hall : v.AcceptsAll (fw.findStored interest).2 := haccepts
  rw [hfind]
  generalize fw.findStored interest = looked at hall ⊢
  obtain ⟨found, fw'⟩ := looked
  cases found with
  | some data => exact h.onStoreHit hall ingress token interest data
  | none => exact h.onStoreMiss hall ingress token interest

theorem admitInterest (haccepts : v.AcceptsAll fw) (ingress : FaceEndpoint) (info : FaceInfo)
    (interest : Interest) : (fw.admitInterest ingress info interest).map v.forwarder =
      (v.forwarder fw).admitInterest ingress info interest := by
  have htables : (v.forwarder fw).node.tables = fw.node.tables := rfl
  rw [Forwarder.admitInterest, Forwarder.admitInterest, htables]
  refine map_bind_same ?_
  rintro ⟨⟨token, isNew⟩, tables⟩ _
  refine map_bind (v.map_focus _ token) fun f _ => ?_
  have hall : v.AcceptsAll (fw.onNode fun n => { n with tables }) := haccepts
  have hentry : (v.focus f).entry = f.entry := rfl
  rw [hentry]
  split
  · exact h.onLoop hall ingress info token interest
  · split
    · exact h.onStoreMiss hall ingress token interest
    · exact h.lookUp hall ingress token interest

theorem arrive (fw : Forwarder) (ingress : FaceEndpoint) (interest : Interest) :
    (v.forwarder fw).arrive ingress interest =
      (v.forwarder (fw.arrive ingress interest).1, (fw.arrive ingress interest).2) := by
  have hregions : (v.forwarder fw).node.regions = fw.node.regions := rfl
  rw [Forwarder.arrive, Forwarder.arrive, hregions]
  split
  · have hsaid := h.forwarder_say fw
      (x := .incomingInterest ingress.face interest.name .reachingProducerRegion) rfl
    rw [hsaid]
  · rfl

theorem noteInterest (now : Timestamp) (ingress : FaceEndpoint) (interest : Interest) (n : Node) :
    v.node (Forwarder.noteInterest now ingress interest n) =
      Forwarder.noteInterest now ingress interest (v.node n) :=
  congrArg (fun m : Node => m.count fun c => { c with inInterests := c.inInterests + 1 })
    (h.say { n with now } rfl)

theorem receiveInterest (haccepts : v.AcceptsAll fw) (now : Timestamp) (ingress : FaceEndpoint)
    (interest : Interest) : (fw.receiveInterest now ingress interest).map v.forwarder =
      (v.forwarder fw).receiveInterest now ingress interest := by
  have hsame := h.forwarder_info? fw ingress.face
  cases hinfo : fw.node.faces.info? ingress.face with
  | none =>
      have htick : (fw.tick now).node.faces.info? ingress.face = none := hinfo
      have htick' : ((v.forwarder fw).tick now).node.faces.info? ingress.face = none :=
        hsame.trans hinfo
      simp only [Forwarder.receiveInterest, htick, htick']
      exact congrArg Except.ok (h.forwarder_say (fw.tick now) rfl)
  | some info =>
      let noted := fw.onNode (Forwarder.noteInterest now ingress interest)
      have hnoted : v.forwarder noted =
          (v.forwarder fw).onNode (Forwarder.noteInterest now ingress interest) :=
        forwarder_onNode (h.noteInterest now ingress interest) fw
      have hdead : (v.forwarder fw).node.deadNonces = fw.node.deadNonces := rfl
      rw [Forwarder.receiveInterest_of_known hinfo,
        Forwarder.receiveInterest_of_known (hsame.trans hinfo), ← hnoted, hdead]
      split
      · refine congrArg (fun n => Except.ok { fw with node := n }) ?_
        rw [h.say _ rfl, h.noteInterest]
        rfl
      · split
        · refine congrArg (fun n => Except.ok { fw with node := n }) ?_
          rw [h.tellLoop, h.noteInterest]
          rfl
        · dsimp only
          rw [h.arrive noted ingress]
          have hall : v.AcceptsAll (noted.arrive ingress
              { interest with incomingFace := some ingress.face }).1 := by
            rw [Forwarder.arrive]
            split <;> exact haccepts
          exact h.admitInterest hall ingress info _

/-! ### Data -/

theorem announce (ingress : FaceEndpoint) (data : Data) (f : Focus) :
    v.focus (Forwarder.announce ingress data (Forwarder.sayMatching ingress data f)) =
      Forwarder.announce ingress data (Forwarder.sayMatching ingress data (v.focus f)) :=
  congrArg (Forwarder.announce ingress data) (h.focus_say f rfl)

theorem satisfyOne (haccepts : v.AcceptsAll fw) (ingress : FaceEndpoint) (data : Data)
    (token : PitToken) : (fw.satisfyOne ingress data token).map v.forwarder =
      (v.forwarder fw).satisfyOne ingress data token := by
  refine map_atEntry fun f => ?_
  refine map_bind ?_ fun g _ => congrArg Except.ok (v.focus_closeEntry ingress data g)
  rw [← h.announce]
  refine map_consult haccepts fun s hs => ?_
  rw [hs.afterData, hs.beforeSatisfy]

theorem satisfyAmong (haccepts : v.AcceptsAll fw) (ingress : FaceEndpoint) (data : Data)
    (peers : List FaceEndpoint) (token : PitToken) :
    (Forwarder.satisfyAmong ingress data (fw, peers) token).map (Prod.map v.forwarder id) =
      Forwarder.satisfyAmong ingress data (v.forwarder fw, peers) token := by
  refine map_bind (v.map_focus fw.node token) fun f _ => ?_
  dsimp only
  rw [← h.announce]
  refine map_bind (map_consult haccepts fun s hs => hs.beforeSatisfy data ingress _) fun g _ => ?_
  rw [← v.focus_closeEntry]
  rfl

theorem satisfyAll (haccepts : v.AcceptsAll fw) (ingress : FaceEndpoint) (info : FaceInfo)
    (data : Data) (tokens : List PitToken) :
    (fw.satisfyAll ingress info data tokens).map v.forwarder =
      (v.forwarder fw).satisfyAll ingress info data tokens := by
  have hfold : (tokens.foldlM (Forwarder.satisfyAmong ingress data) (fw, [])).map
      (Prod.map v.forwarder id) =
        tokens.foldlM (Forwarder.satisfyAmong ingress data) (v.forwarder fw, []) :=
    map_foldlM (P := fun s => v.AcceptsAll s.1)
      (fun s token hs => h.satisfyAmong hs ingress data s.2 token)
      (fun _ _ _ hstep hs => acceptsAll_satisfyAmong hstep hs) tokens haccepts
  refine map_bind hfold ?_
  rintro ⟨last, peers⟩ _
  refine congrArg Except.ok (forwarder_onNode (fun n => ?_) last)
  exact (List.foldl_hom v.node fun n p => (h.sendData n p data).symm).symm

theorem onUnsolicited (fw : Forwarder) (ingress : FaceEndpoint) (info : FaceInfo) (data : Data) :
    v.forwarder (fw.onUnsolicited ingress info data) =
      (v.forwarder fw).onUnsolicited ingress info data := by
  let counted := fw.onNode fun n => n.count fun c => { c with unsolicited := c.unsolicited + 1 }
  have hsaid := h.forwarder_say counted
    (x := .unsolicited ingress.face data.name (fw.policy.decide info)) rfl
  have hpolicy : (v.forwarder fw).policy = fw.policy := rfl
  rw [Forwarder.onUnsolicited, Forwarder.onUnsolicited, hpolicy]
  cases hdecision : fw.policy.decide info with
  | cache =>
      rw [hdecision] at hsaid
      exact congrArg (fun k : Forwarder => { k with
        store := fw.store.insert data (data.implicitDigest fw.hash) true fw.node.now }) hsaid
  | drop =>
      rw [hdecision] at hsaid
      exact hsaid

theorem noteData (now : Timestamp) (ingress : FaceEndpoint) (data : Data) (n : Node) :
    v.node (Forwarder.noteData now ingress data n) =
      Forwarder.noteData now ingress data (v.node n) :=
  congrArg (fun m : Node => m.count fun c => { c with inData := c.inData + 1 })
    (h.say { n with now } rfl)

theorem receiveData (haccepts : v.AcceptsAll fw) (now : Timestamp) (ingress : FaceEndpoint)
    (data : Data) : (fw.receiveData now ingress data).map v.forwarder =
      (v.forwarder fw).receiveData now ingress data := by
  have hsame := h.forwarder_info? (fw.tick now) ingress.face
  have htick : (v.forwarder fw).tick now = v.forwarder (fw.tick now) := rfl
  rw [Forwarder.receiveData, Forwarder.receiveData, htick]
  dsimp only
  rw [hsame]
  cases (fw.tick now).node.faces.info? ingress.face with
  | none => exact congrArg Except.ok (h.forwarder_say (fw.tick now) rfl)
  | some info =>
      let noted := fw.onNode (Forwarder.noteData now ingress data)
      have hnoted : v.forwarder noted =
          (v.forwarder fw).onNode (Forwarder.noteData now ingress data) :=
        forwarder_onNode (h.noteData now ingress data) fw
      have hkept : v.forwarder (fw.kept now ingress data) =
          (v.forwarder fw).kept now ingress data := by
        rw [Forwarder.kept, Forwarder.kept, ← hnoted]
        rfl
      have hall : v.AcceptsAll (fw.kept now ingress data) := haccepts
      dsimp only
      split
      · refine congrArg Except.ok ((h.forwarder_say noted rfl).trans ?_)
        rw [hnoted]
        rfl
      · refine map_bind_same ?_
        rintro ⟨_ | ⟨token, _ | ⟨second, rest⟩⟩, compared⟩ _
        · refine congrArg Except.ok ((h.onUnsolicited noted ingress info _).trans ?_)
          rw [hnoted]
          rfl
        · exact (h.satisfyOne hall ingress _ token).trans
            (congrArg (fun k : Forwarder => k.satisfyOne ingress _ token) hkept)
        · exact (h.satisfyAll hall ingress info _ _).trans
            (congrArg (fun k : Forwarder => k.satisfyAll ingress info _ _) hkept)

/-! ### Nacks -/

theorem receiveNack (haccepts : v.AcceptsAll fw) (now : Timestamp) (ingress : FaceEndpoint)
    (nack : Nack) : (fw.receiveNack now ingress nack).map v.forwarder =
      (v.forwarder fw).receiveNack now ingress nack := by
  have hsame := h.forwarder_info? (fw.tick now) ingress.face
  have htick : (v.forwarder fw).tick now = v.forwarder (fw.tick now) := rfl
  rw [Forwarder.receiveNack, Forwarder.receiveNack, htick]
  dsimp only
  rw [hsame]
  cases (fw.tick now).node.faces.info? ingress.face with
  | none => exact congrArg Except.ok (h.forwarder_say (fw.tick now) rfl)
  | some info =>
      let noted := fw.onNode (Forwarder.noteNack now)
      have hall : v.AcceptsAll noted := haccepts
      dsimp only
      split
      · refine map_bind_same fun found _ => ?_
        cases found with
        | none => exact congrArg Except.ok (h.forwarder_say noted rfl)
        | some token =>
            refine map_atEntry fun f => ?_
            have hentry : (v.focus f).entry = f.entry := rfl
            rw [← h.focus_say f rfl, hentry]
            split
            · rw [← v.focus_recordNack]
              exact map_consult hall fun s hs => hs.afterNack _ ingress _
            · rfl
      · exact congrArg Except.ok (h.forwarder_say noted rfl)

/-! ### Routes, strategies and timers -/

theorem addRoute (haccepts : v.AcceptsAll fw) (now : Timestamp) (stem : Name) (face : FaceId)
    (cost : Nat) : (fw.addRoute now stem face cost).map (Prod.map id v.forwarder) =
      (v.forwarder fw).addRoute now stem face cost := by
  have hcontains : (v.forwarder fw).node.faces.contains face = fw.node.faces.contains face :=
    h.contains fw.node face
  have htick : (fw.tick now).node.tables = fw.node.tables := rfl
  have htick' : ((v.forwarder fw).tick now).node.tables = fw.node.tables := rfl
  rw [Forwarder.addRoute, Forwarder.addRoute, hcontains]
  simp only [htick, htick']
  split
  · generalize fw.node.tables.addNextHop stem face cost = added
    obtain ⟨isNew, tables⟩ := added
    let routed : Forwarder := (fw.tick now).onNode fun n => { n with tables }
    have hsaid := h.forwarder_say routed (x := .routeAdded stem face cost isNew) rfl
    cases isNew with
    | false => exact congrArg (fun k => Except.ok (true, k)) hsaid
    | true =>
        have hall : v.AcceptsAll (routed.say (.routeAdded stem face cost true)) := haccepts
        have hoffered := map_offerEach hall { cost, face }
          ((routed.say (.routeAdded stem face cost true)).offered stem)
        rw [hsaid] at hoffered
        exact map_bind hoffered fun _ _ => rfl
  · exact congrArg (fun k => Except.ok (false, k)) (h.forwarder_say fw rfl)

theorem parting (f : Focus) :
    v.focus (Forwarder.parting f) = Forwarder.parting (v.focus f) := by
  let said := f.say (.finalized f.entry.name f.entry.satisfied)
  have hsaid : v.focus said = (v.focus f).say (.finalized f.entry.name f.entry.satisfied) :=
    h.focus_say f rfl
  have hreported : v.focus (if f.entry.satisfied then said else said.report (.expire said.entry)) =
      if f.entry.satisfied then v.focus said else (v.focus said).report (.expire said.entry) := by
    split <;> rfl
  rw [hsaid] at hreported
  rw [Forwarder.parting, Forwarder.parting]
  exact congrArg (fun g : Focus => g.onNode fun n => n.count fun c =>
      if f.entry.satisfied then { c with satisfied := c.satisfied + 1 }
      else { c with unsatisfied := c.unsatisfied + 1 })
    ((v.focus_rememberNonces _ _).trans
      (congrArg (fun g : Focus => g.rememberNonces g.entry.outRecords) hreported))

theorem finalize (f : Focus) : v.node (Forwarder.finalize f) = Forwarder.finalize (v.focus f) := by
  cases herase : f.node.tables.erase f.token with
  | some erased =>
      obtain ⟨e, tables⟩ := erased
      have herase' : (v.focus f).node.tables.erase (v.focus f).token = some (e, tables) := herase
      rw [Forwarder.finalize_eq herase, Forwarder.finalize_eq herase', ← h.parting]
      rfl
  | none =>
      have herase' : (v.focus f).node.tables.erase (v.focus f).token = none := herase
      rw [Forwarder.finalize_of_erase_none herase, Forwarder.finalize_of_erase_none herase',
        ← h.parting]
      rfl

theorem fire (fw : Forwarder) (timer : Timer PitToken) :
    (fw.fire timer).map id v.forwarder = (v.forwarder fw).fire timer := by
  have hfocus := v.map_focus fw.node timer.entry
  have hnode : (v.forwarder fw).node = v.node fw.node := rfl
  rw [Forwarder.fire, Forwarder.fire, hnode, ← hfocus]
  cases fw.node.focus timer.entry with
  | error fault => rfl
  | ok f =>
    have hentry : (v.focus f).entry = f.entry := rfl
    simp only [Except.map, hentry]
    split
    · exact congrArg (fun n => (true, { fw with node := n })) (h.finalize _)
    · rfl

theorem runTimers (fw : Forwarder) (now : Timestamp) :
    (fw.runTimers now).map id v.forwarder = (v.forwarder fw).runTimers now := by
  refine (List.foldl_hom (Prod.map id v.forwarder) fun ⟨count, fw⟩ timer => ?_).symm
  change (if ((v.forwarder fw).fire timer).1 then count + 1 else count,
      ((v.forwarder fw).fire timer).2) =
    (if (fw.fire timer).1 then count + 1 else count, v.forwarder (fw.fire timer).2)
  rw [← h.fire]
  rfl

theorem setStrategy (fw : Forwarder) (stem : Name) (id : Nat) :
    v.forwarder (fw.setStrategy stem id).2 = ((v.forwarder fw).setStrategy stem id).2 := by
  have hstrategies : (v.forwarder fw).strategies = fw.strategies := rfl
  rw [Forwarder.setStrategy, Forwarder.setStrategy, hstrategies]
  cases fw.strategies[id]? with
  | none => exact h.forwarder_say fw rfl
  | some s =>
      exact congrArg
        (fun k : Forwarder => k.onNode fun n => { n with tables := n.tables.setStrategy stem id })
        (h.forwarder_say fw rfl)

end Lawful

end LinkView

/-- Whether an operation is about faces and their links as such. -/
def Operation.concernsFaces : Operation → Bool
  | addFace .. => true
  | removeFace .. => true
  | hangUp _ => true
  | takeDisconnected => true
  | _ => false

/-- A view commutes with every operation that is not about faces as such. -/
theorem LinkView.Lawful.perform {v : LinkView} (h : v.Lawful) {fw : Forwarder}
    (haccepts : v.AcceptsAll fw) {operation : Operation}
    (hother : operation.concernsFaces = false) :
    (fw.perform operation).map v.forwarder = (v.forwarder fw).perform operation := by
  cases operation with
  | addFace takes scope link => cases hother
  | removeFace now face => cases hother
  | hangUp face => cases hother
  | takeDisconnected => cases hother
  | addRoute now stem face cost =>
      have hadd := h.addRoute haccepts now stem face cost
      change ((fw.addRoute now stem face cost).map Prod.snd).map v.forwarder =
        ((v.forwarder fw).addRoute now stem face cost).map Prod.snd
      rw [← hadd]
      cases fw.addRoute now stem face cost <;> rfl
  | removeRoute stem face =>
      exact congrArg (fun k : Forwarder => Except.ok
        (k.onNode fun n => { n with tables := (n.tables.removeNextHop stem face).2 }))
        (h.forwarder_say fw rfl)
  | addStrategy b =>
      have hsaid := h.forwarder_say fw
        (x := .strategyAdded b.strategy.name fw.strategies.length) rfl
      exact congrArg (fun k : Forwarder => Except.ok
        { k with strategies := fw.strategies ++ [b.strategy] }) hsaid
  | setStrategy stem id => exact congrArg Except.ok (h.setStrategy fw stem id)
  | receive now ingress packet =>
      cases packet with
      | interest i => exact h.receiveInterest haccepts now ingress i
      | data d => exact h.receiveData haccepts now ingress d
      | nack k => exact h.receiveNack haccepts now ingress k
  | dropInterest now egress interest => exact onDroppedInterest haccepts now egress interest
  | runTimers now => exact congrArg (fun r => Except.ok r.2) (h.runTimers fw now)
  | _ => rfl

end NamedData
