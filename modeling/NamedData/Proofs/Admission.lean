import NamedData.Forwarder.IncomingInterest
import NamedData.Proofs.Answers
import NamedData.Proofs.Index

/-!
What the pipeline of incoming Interests can do, said once. An Interest from a known face is counted;
unless it is dropped it then has an entry, in which it loops, is answered from the content store or
waits. The strategies take part by moves only.
-/

namespace NamedData

namespace Forwarder

variable {fw fw' : Forwarder} {now : Timestamp} {ingress : FaceEndpoint} {token : PitToken}

/-- Every strategy is a built-in one. -/
def BuiltInOnly (fw : Forwarder) : Prop :=
  ∀ s ∈ fw.strategies, ∃ b : BuiltIn, s = b.strategy

theorem atEntry_eq_ok {work : Focus → Except Fault Focus} :
    fw.atEntry token work = .ok fw' ↔ ∃ e f, fw.node.tables.pit.get? token = some e ∧
      work ⟨fw.node, token, e⟩ = .ok f ∧ fw' = { fw with node := f.release } := by
  rw [atEntry]
  constructor
  · intro h
    obtain ⟨f, hfocus, hrest⟩ := bind_eq_ok.mp h
    obtain ⟨e, hget, rfl⟩ := Node.focus_eq_ok.mp hfocus
    obtain ⟨f', hwork, hresult⟩ := bind_eq_ok.mp hrest
    cases hresult
    exact ⟨e, f', hget, hwork, rfl⟩
  · rintro ⟨e, f, hget, hwork, rfl⟩
    apply bind_eq_ok.mpr
    refine ⟨_, Node.focus_eq_ok.mpr ⟨e, hget, rfl⟩, ?_⟩
    exact bind_eq_ok.mpr ⟨f, hwork, rfl⟩

theorem strategy_eq_ok {id : Nat} {s : Strategy} :
    fw.strategy id = .ok s ↔ fw.strategies[id]? = some s := by
  rw [strategy]
  cases fw.strategies[id]? <;> simp

theorem consult_eq_ok {f f' : Focus} {ask : Strategy → Focus → Focus} :
    fw.consult f ask = .ok f' ↔
      ∃ s, fw.strategies[f.node.tables.effectiveStrategy f.entry.name]? = some s ∧
        f' = ask s f := by
  constructor
  · intro h
    obtain ⟨s, hs, hresult⟩ := bind_eq_ok.mp h
    cases hresult
    exact ⟨s, strategy_eq_ok.mp hs, rfl⟩
  · rintro ⟨s, hs, rfl⟩
    exact bind_eq_ok.mpr ⟨s, strategy_eq_ok.mpr hs, rfl⟩

theorem consult_builtIn (hbuiltIn : fw.BuiltInOnly) {f f' : Focus} {ask : Strategy → Focus → Focus}
    (h : fw.consult f ask = .ok f') : ∃ b : BuiltIn, f' = ask b.strategy f := by
  obtain ⟨s, hs, rfl⟩ := consult_eq_ok.mp h
  obtain ⟨b, rfl⟩ := hbuiltIn s (List.mem_of_getElem? hs)
  exact ⟨b, rfl⟩

/-! ### Interests -/

/-- At most one Nack went out, and it went to the given peer. -/
def NackedAtMost (n n' : Node) (peer : FaceEndpoint) : Prop :=
  n'.journal.sent = n.journal.sent ∨ ∃ nack isTaken,
    n'.journal.sent = n.journal.sent ++ [Transmission.mk peer (.nack nack) isTaken]

/-- A face with a single peer is told that its Interest loops. -/
def tellLoop (ingress : FaceEndpoint) (info : FaceInfo) (interest : Interest) (n : Node) : Node :=
  let said := n.say (.interestLoop ingress.face interest.name info.isPointToPoint)
  if info.isPointToPoint then
    said.transmit ingress (.nack { interest := interest.untagged, reason := .duplicate })
  else said

theorem rejectLoop_eq (fw : Forwarder) (ingress : FaceEndpoint) (info : FaceInfo)
    (interest : Interest) :
    fw.rejectLoop ingress info interest = fw.onNode (tellLoop ingress info interest) := by
  rw [rejectLoop]
  unfold tellLoop
  cases info.isPointToPoint <;> rfl

theorem unmoved_tellLoop (ingress : FaceEndpoint) (info : FaceInfo) (interest : Interest)
    (n : Node) : n.Unmoved (tellLoop ingress info interest n) := by
  have hsay := n.unmoved_say (.interestLoop ingress.face interest.name info.isPointToPoint)
  rw [tellLoop]
  split
  · exact hsay.trans (Node.unmoved_transmit _ ingress _)
  · exact hsay

theorem counters_tellLoop (ingress : FaceEndpoint) (info : FaceInfo) (interest : Interest)
    (n : Node) : (tellLoop ingress info interest n).counters = n.counters := by
  rw [tellLoop]
  split
  · exact Node.counters_transmit _ ingress _
  · rfl

theorem nackedAtMost_tellLoop (ingress : FaceEndpoint) (info : FaceInfo) (interest : Interest)
    (n : Node) : NackedAtMost n (tellLoop ingress info interest n) ingress := by
  rw [tellLoop]
  split
  · cases hinfo : n.faces.info? ingress.face with
    | none =>
        left
        have hsaid : (n.say (.interestLoop ingress.face interest.name
            info.isPointToPoint)).faces.info? ingress.face = none := hinfo
        exact congrArg (fun n => n.journal.sent) (Node.transmit_of_unknown hsaid _)
    | some known =>
        right
        have hsaid : (n.say (.interestLoop ingress.face interest.name
            info.isPointToPoint)).faces.info? ingress.face = some known := hinfo
        obtain ⟨isTaken, hsent⟩ := Node.sent_transmit hsaid
          (.nack { interest := interest.untagged, reason := .duplicate })
        exact ⟨_, isTaken, hsent⟩
  · exact .inl rfl

/-- The node has noted that the content store did not answer. -/
def noteMiss (interest : Interest) (n : Node) : Node :=
  ((n.say (.storeMiss interest.name)).count
    fun c => { c with storeMisses := c.storeMisses + 1 }).report (.storeMiss interest)

/-- The node has noted that the content store answered. -/
def noteHit (interest : Interest) (data : Data) (n : Node) : Node :=
  ((n.say (.storeHit interest.name)).count
    fun c => { c with storeHits := c.storeHits + 1 }).report (.storeHit interest data)

theorem quiet_noteMiss (interest : Interest) (n : Node) : n.Quiet (noteMiss interest n) :=
  ((Node.quiet_say _ _).trans (Node.quiet_count _ (by intro; exact ⟨rfl, Nat.le_succ _⟩))).trans
    (Node.quiet_report _ _)

theorem quiet_noteHit (interest : Interest) (data : Data) (n : Node) :
    n.Quiet (noteHit interest data n) :=
  ((Node.quiet_say _ _).trans (Node.quiet_count _ (by intro; exact ⟨rfl, Nat.le_refl _⟩))).trans
    (Node.quiet_report _ _)

theorem sendsOn_followTag {interest : Interest} {hop : FaceId}
    (htag : interest.nextHopFace = some hop) (f : Focus) :
    f.SendsOn (followTag interest hop f) := by
  rw [followTag]
  split
  next hknown =>
    rw [FaceTable.contains_eq] at hknown
    obtain ⟨info, hinfo⟩ := Option.isSome_iff_exists.mp hknown
    apply (f.sendsOn_say _).trans
    exact Focus.sendsOn_forward hinfo (.inl htag)
  next => exact f.sendsOn_say _

/-- What comes of an Interest that waits in its entry: it follows its tag, or the strategy that is
in effect decides. -/
def GoesOn (ingress : FaceEndpoint) (interest : Interest) (f f' : Focus) : Prop :=
  (∃ hop, interest.nextHopFace = some hop ∧ f' = followTag interest hop f) ∨
    interest.nextHopFace = none ∧
      ∃ b : BuiltIn, f' = b.strategy.afterInterest interest ingress f

theorem GoesOn.sendsOnOrEnds {interest : Interest} {f f' : Focus}
    (h : GoesOn ingress interest f f') : f.SendsOnOrEnds f' := by
  rcases h with ⟨hop, htag, rfl⟩ | ⟨_, b, rfl⟩
  · exact .inl (sendsOn_followTag htag f)
  · exact b.afterInterest_sendsOnOrEnds interest ingress f

/-- An Interest that was not answered from the content store waits and goes on. -/
theorem onStoreMiss_cases (hbuiltIn : fw.BuiltInOnly) {interest : Interest}
    (h : fw.onStoreMiss ingress token interest = .ok fw') :
    ∃ e f, fw.node.tables.pit.get? token = some e ∧
      GoesOn ingress interest (awaitData ingress interest ⟨noteMiss interest fw.node, token, e⟩) f ∧
      fw' = { fw with node := f.release } := by
  rw [onStoreMiss] at h
  obtain ⟨e, f, hget, hwork, rfl⟩ := atEntry_eq_ok.mp h
  refine ⟨e, f, hget, ?_, rfl⟩
  split at hwork
  next hop htag =>
    cases hwork
    exact .inl ⟨hop, htag, rfl⟩
  next htag =>
    have hlisted : BuiltInOnly (fw.onNode (noteMiss interest)) := hbuiltIn
    obtain ⟨b, rfl⟩ := consult_builtIn hlisted hwork
    exact .inr ⟨htag, b, rfl⟩

/-- The entry at hand is satisfied by some Data. -/
def settle (data : Data) (f : Focus) : Focus :=
  f.onEntry fun e => { e with satisfied := true, dataFreshness := data.freshness }

/-- An Interest that was answered from the content store satisfies its entry, and the Data goes to
the face that it came from. -/
theorem onStoreHit_cases (hbuiltIn : fw.BuiltInOnly) {interest : Interest} {data : Data}
    (h : fw.onStoreHit ingress token interest data = .ok fw') :
    ∃ e g, fw.node.tables.pit.get? token = some e ∧
      ((settle data ⟨noteHit interest data fw.node, token, e⟩).setExpiry 0).Quiet g ∧
      g.node.counters.storeMisses = fw.node.counters.storeMisses ∧
      fw' = { fw with
        node :=
          (g.sendData ingress { data with incomingFace := some .contentStore }).release } := by
  let sent : Data := { data with incomingFace := some .contentStore }
  let source : FaceEndpoint := { face := .contentStore }
  have hentry : (fw.onNode (noteHit interest data)).atEntry token (fun f =>
      (fw.onNode (noteHit interest data)).consult
        (((settle data f).setExpiry 0).report
          (.satisfy ((settle data f).setExpiry 0).entry source.face sent))
        fun s f => s.afterStoreHit sent ingress (s.beforeSatisfy sent source f)) = .ok fw' := h
  obtain ⟨e, f, hget, hwork, rfl⟩ := atEntry_eq_ok.mp hentry
  have hlisted : BuiltInOnly (fw.onNode (noteHit interest data)) := hbuiltIn
  obtain ⟨b, rfl⟩ := consult_builtIn hlisted hwork
  rw [b.afterStoreHit_eq, b.beforeSatisfy_eq]
  refine ⟨e, _, hget, ?_, rfl, rfl⟩
  exact ((Focus.quiet_report _ _).trans (Focus.quiet_say _ _)).trans (Focus.quiet_say _ _)

/-- What an Interest that is not known to have been resolved before does to its entry. -/
inductive Admission (ingress : FaceEndpoint) (info : FaceInfo) (interest : Interest) (n : Node)
    (token : PitToken) (e : PitEntry) : Node → Prop where
  /-- It loops: nothing is recorded. -/
  | looped (m : Node) (hloop : isLoop info (e.findNonce interest.nonce ingress.face) = true)
      (hmoved : n.Unmoved m) (hsent : NackedAtMost n m ingress)
      (htold : ∃ notice, m = (tellLoop ingress info interest n).say notice) :
      Admission ingress info interest n token e (Focus.release ⟨m, token, e⟩)
  /-- It is answered from the content store: the entry is satisfied and ends at once. -/
  | hit (g : Focus) (data : Data)
      (hloop : isLoop info (e.findNonce interest.nonce ingress.face) = false)
      (hempty : e.inRecords = [])
      (hquiet : ((settle data ⟨noteHit interest data n, token, e⟩).setExpiry 0).Quiet g)
      (hmisses : g.node.counters.storeMisses = n.counters.storeMisses) :
      Admission ingress info interest n token e
        (g.sendData ingress { data with incomingFace := some .contentStore }).release
  /-- It waits in the entry and is sent on, or the entry is given up. -/
  | missed (f : Focus)
      (hloop : isLoop info (e.findNonce interest.nonce ingress.face) = false)
      (hanswer : (awaitData ingress interest ⟨noteMiss interest n, token, e⟩).SendsOnOrEnds f)
      (hgoesOn : GoesOn ingress interest
        (awaitData ingress interest ⟨noteMiss interest n, token, e⟩) f) :
      Admission ingress info interest n token e f.release

/-- All work on an entry whose Interest is answered from the content store. -/
theorem keeps_of_hit {interest : Interest} {data : Data} {n : Node} {e : PitEntry} {g : Focus}
    (hquiet : ((settle data ⟨noteHit interest data n, token, e⟩).setExpiry 0).Quiet g)
    (ingress : FaceEndpoint) (sent : Data) :
    Focus.Keeps ⟨n, token, e⟩ (g.sendData ingress sent) := by
  let noted : Focus := ⟨noteHit interest data n, token, e⟩
  have hnoted : Focus.Keeps ⟨n, token, e⟩ noted :=
    Focus.keeps_of_unmoved (quiet_noteHit interest data n).toUnmoved rfl
  have hsettled : noted.Keeps ((settle data noted).setExpiry 0) :=
    (Focus.keeps_onEntry rfl).trans (Focus.keeps_setExpiry _ 0)
  exact ((hnoted.trans hsettled).trans hquiet.keeps).trans (g.keeps_sendData ingress sent)

/-- All work on an entry in which an Interest waits. -/
theorem keeps_of_missed {interest : Interest} {n : Node} {e : PitEntry} {f : Focus}
    (hmoves : (awaitData ingress interest ⟨noteMiss interest n, token, e⟩).Moves f) :
    Focus.Keeps ⟨n, token, e⟩ f := by
  let noted : Focus := ⟨noteMiss interest n, token, e⟩
  have hnoted : Focus.Keeps ⟨n, token, e⟩ noted :=
    Focus.keeps_of_unmoved (quiet_noteMiss interest n).toUnmoved rfl
  have hwaits : noted.Keeps (awaitData ingress interest noted) :=
    (Focus.keeps_onEntry rfl).trans (Focus.keeps_setExpiry _ _)
  exact (hnoted.trans hwaits).trans hmoves.keeps

theorem findStored_cases {interest : Interest} {found : Option Data}
    (h : fw.findStored interest = (found, fw')) : ∃ store, fw' = { fw with store } := by
  rw [findStored, Prod.mk.injEq] at h
  exact ⟨_, h.2.symm⟩

theorem BuiltInOnly.withStore (h : fw.BuiltInOnly) (store : ContentStore) :
    BuiltInOnly { fw with store } :=
  h

/-- The part of the pipeline that has its entry at hand. -/
theorem admission_of_entry (hbuiltIn : fw.BuiltInOnly) {info : FaceInfo} {interest : Interest}
    {e : PitEntry} (hget : fw.node.tables.pit.get? token = some e)
    (h : (if isLoop info (e.findNonce interest.nonce ingress.face) then
        (fw.rejectLoop ingress info interest).atEntry token fun f =>
          (fw.rejectLoop ingress info interest).consult f fun s f =>
            s.afterLoop interest ingress f
      else if e.hasInRecords then fw.onStoreMiss ingress token interest
      else match fw.findStored interest with
        | (some data, fw) => fw.onStoreHit ingress token interest data
        | (none, fw) => fw.onStoreMiss ingress token interest) = .ok fw') :
    ∃ n store, Admission ingress info interest fw.node token e n ∧
      fw' = { fw with node := n, store } := by
  split at h
  next hloop =>
    have hmoved := unmoved_tellLoop ingress info interest fw.node
    rw [rejectLoop_eq] at h
    obtain ⟨e', f, hget', hwork, rfl⟩ := atEntry_eq_ok.mp h
    have hkept : (tellLoop ingress info interest fw.node).tables.pit.get? token = some e' := hget'
    have hsame : e' = e := by
      rw [hmoved.tables, hget] at hkept
      exact (Option.some.inj hkept).symm
    subst hsame
    have hlisted : BuiltInOnly (fw.onNode (tellLoop ingress info interest)) := hbuiltIn
    obtain ⟨b, rfl⟩ := consult_builtIn hlisted hwork
    rw [b.afterLoop_eq]
    exact ⟨_, fw.store, .looped _ hloop (hmoved.trans (Node.unmoved_say _ _))
      (nackedAtMost_tellLoop ingress info interest fw.node) ⟨_, rfl⟩, rfl⟩
  next hloop =>
    have hnew : isLoop info (e.findNonce interest.nonce ingress.face) = false := by
      simpa using hloop
    have hmiss (store : ContentStore)
        (h : Forwarder.onStoreMiss { fw with store } ingress token interest = .ok fw') :
        ∃ n store, Admission ingress info interest fw.node token e n ∧
          fw' = { fw with node := n, store } := by
      obtain ⟨e', f, hget', hgoesOn, rfl⟩ := onStoreMiss_cases (hbuiltIn.withStore store) h
      have hsame : e' = e := Option.some.inj (hget'.symm.trans hget)
      subst hsame
      exact ⟨_, store, .missed f hnew hgoesOn.sendsOnOrEnds hgoesOn, rfl⟩
    split at h
    next => exact hmiss fw.store h
    next hwaiting =>
      have hempty : e.inRecords = [] := by simpa [PitEntry.hasInRecords] using hwaiting
      split at h
      next data stored hstored =>
        obtain ⟨store, rfl⟩ := findStored_cases hstored
        obtain ⟨e', g, hget', hg, hmisses, rfl⟩ := onStoreHit_cases (hbuiltIn.withStore store) h
        have hsame : e' = e := Option.some.inj (hget'.symm.trans hget)
        subst hsame
        exact ⟨_, store, .hit g data hnew hempty hg hmisses, rfl⟩
      next stored hstored =>
        obtain ⟨store, rfl⟩ := findStored_cases hstored
        exact hmiss store h

theorem admitInterest_cases (hbuiltIn : fw.BuiltInOnly) {info : FaceInfo} {interest : Interest}
    (h : fw.admitInterest ingress info interest = .ok fw') :
    ∃ token isNew tables e n store,
      fw.node.tables.findOrInsert interest = .ok ((token, isNew), tables) ∧
      tables.pit.get? token = some e ∧
      Admission ingress info interest { fw.node with tables } token e n ∧
      fw' = { fw with node := n, store } := by
  rw [admitInterest] at h
  obtain ⟨⟨⟨token, isNew⟩, tables⟩, hfound, hrest⟩ := bind_eq_ok.mp h
  obtain ⟨f, hfocus, hentry⟩ := bind_eq_ok.mp hrest
  obtain ⟨e, hget, rfl⟩ := Node.focus_eq_ok.mp hfocus
  have hlisted : BuiltInOnly (fw.onNode fun n => { n with tables }) := hbuiltIn
  obtain ⟨n, store, hadmission, rfl⟩ := admission_of_entry hlisted hget hentry
  exact ⟨token, isNew, tables, e, n, store, hfound, hget, hadmission, rfl⟩

/-- The node has read the clock and has counted an Interest. -/
def noteInterest (now : Timestamp) (ingress : FaceEndpoint) (interest : Interest) (n : Node) :
    Node :=
  (Node.say { n with now } (.incomingInterest ingress.face interest.name .seen)).count
    fun c => { c with inInterests := c.inInterests + 1 }

/-- The forwarding hint that an Interest goes on with: none if its hint has led it here. -/
def hintLeft (regions : RegionTable) (interest : Interest) : List Name :=
  if regions.reaches interest.forwardingHint then [] else interest.forwardingHint

/-- The node has noted an Interest that it admits, and has said if the hint has led it here. -/
def noteAdmitted (now : Timestamp) (ingress : FaceEndpoint) (interest : Interest) (n : Node) :
    Node :=
  if n.regions.reaches interest.forwardingHint then
    (noteInterest now ingress interest n).say
      (.incomingInterest ingress.face interest.name .reachingProducerRegion)
  else noteInterest now ingress interest n

theorem quiet_noteAdmitted (now : Timestamp) (ingress : FaceEndpoint) (interest : Interest)
    (n : Node) :
    (noteInterest now ingress interest n).Quiet (noteAdmitted now ingress interest n) := by
  rw [noteAdmitted]
  split
  · exact Node.quiet_say _ _
  · exact .refl _

/-- The clock, one count and what was said change when an Interest is admitted, and nothing else. -/
theorem noteAdmitted_eq (now : Timestamp) (ingress : FaceEndpoint) (interest : Interest)
    (n : Node) : ∃ notices, noteAdmitted now ingress interest n =
      { n with
        now
        counters := { n.counters with inInterests := n.counters.inInterests + 1 }
        journal := { n.journal with notices := n.journal.notices ++ notices } } := by
  rw [noteAdmitted]
  split
  · refine ⟨[.incomingInterest ingress.face interest.name .seen,
      .incomingInterest ingress.face interest.name .reachingProducerRegion], ?_⟩
    simp [noteInterest, Node.say, Node.count]
  · exact ⟨[.incomingInterest ingress.face interest.name .seen], rfl⟩

theorem arrive_noteInterest (fw : Forwarder) (now : Timestamp) (ingress : FaceEndpoint)
    (interest : Interest) :
    arrive (fw.onNode (noteInterest now ingress interest)) ingress
        { interest with incomingFace := some ingress.face } =
      ({ fw with node := noteAdmitted now ingress interest fw.node },
        { interest with
          incomingFace := some ingress.face
          forwardingHint := hintLeft fw.node.regions interest }) := by
  have hregions : (fw.onNode (noteInterest now ingress interest)).node.regions =
    fw.node.regions := rfl
  rw [arrive, hregions, hintLeft, noteAdmitted]
  cases fw.node.regions.reaches interest.forwardingHint <;> rfl

/-- On arrival an Interest loses its hint or keeps it, and nothing else happens but talk. -/
theorem arrive_cases (fw : Forwarder) (now : Timestamp) (ingress : FaceEndpoint)
    (interest : Interest) : ∃ m hint,
      arrive (fw.onNode (noteInterest now ingress interest)) ingress
          { interest with incomingFace := some ingress.face } =
        ({ fw with node := m }, { interest with
          incomingFace := some ingress.face, forwardingHint := hint }) ∧
      (noteInterest now ingress interest fw.node).Quiet m ∧
      m.counters.storeMisses = fw.node.counters.storeMisses ∧
      hint = hintLeft fw.node.regions interest := by
  refine ⟨_, _, arrive_noteInterest fw now ingress interest,
    quiet_noteAdmitted now ingress interest fw.node, ?_, rfl⟩
  obtain ⟨notices, hnoted⟩ := noteAdmitted_eq now ingress interest fw.node
  rw [hnoted]

/-- What an Interest from a face does. -/
inductive InterestOutcome (fw : Forwarder) (now : Timestamp) (ingress : FaceEndpoint)
    (interest : Interest) : Forwarder → Prop where
  | unknownFace (n : Node) (hinfo : fw.node.faces.info? ingress.face = none)
      (hquiet : Node.Quiet { fw.node with now } n)
      (hmisses : n.counters.storeMisses = fw.node.counters.storeMisses) :
      InterestOutcome fw now ingress interest { fw with node := n }
  /-- It is dropped, and perhaps handed back, without having an entry. -/
  | dropped (n : Node) (info : FaceInfo) (hinfo : fw.node.faces.info? ingress.face = some info)
      (hmoved : (noteInterest now ingress interest fw.node).Unmoved n)
      (hsent : NackedAtMost (noteInterest now ingress interest fw.node) n ingress)
      (hcause : (noteInterest now ingress interest fw.node).Quiet n ∨
        (!info.isLocal && interest.name.isLocalhost) = false ∧
          n = tellLoop ingress info { interest with incomingFace := some ingress.face }
            (noteInterest now ingress interest fw.node))
      (hmisses : n.counters.storeMisses = fw.node.counters.storeMisses) :
      InterestOutcome fw now ingress interest { fw with node := n }
  | admitted (m n : Node) (info : FaceInfo) (hint : List Name) (token : PitToken) (isNew : Bool)
      (tables : Tables) (e : PitEntry) (store : ContentStore)
      (hinfo : fw.node.faces.info? ingress.face = some info)
      (hquiet : (noteInterest now ingress interest fw.node).Quiet m)
      (hmisses : m.counters.storeMisses = fw.node.counters.storeMisses)
      (hfound : m.tables.findOrInsert { interest with
        incomingFace := some ingress.face, forwardingHint := hint } =
          .ok ((token, isNew), tables))
      (hget : tables.pit.get? token = some e)
      (hadmission : Admission ingress info { interest with
        incomingFace := some ingress.face, forwardingHint := hint } { m with tables } token e n)
      (hscope : (!info.isLocal && interest.name.isLocalhost) = false)
      (hhint : hint = hintLeft fw.node.regions interest) :
      InterestOutcome fw now ingress interest { fw with node := n, store }

theorem receiveInterest_cases (hbuiltIn : fw.BuiltInOnly) {interest : Interest}
    (h : fw.receiveInterest now ingress interest = .ok fw') :
    InterestOutcome fw now ingress interest fw' := by
  have htick : (fw.tick now).node.faces.info? ingress.face = fw.node.faces.info? ingress.face := rfl
  simp only [receiveInterest] at h
  cases hinfo : fw.node.faces.info? ingress.face with
  | none =>
      rw [htick, hinfo] at h
      cases h
      exact .unknownFace _ hinfo (Node.quiet_say _ _) rfl
  | some info =>
      rw [htick, hinfo] at h
      dsimp only at h
      split at h
      · cases h
        have hsay := Node.quiet_say (noteInterest now ingress interest fw.node)
          (.incomingInterest ingress.face interest.name .violatesLocalhost)
        exact .dropped _ info hinfo hsay.toUnmoved (.inl rfl) (.inl hsay) rfl
      next hscope =>
        have hlawful : (!info.isLocal && interest.name.isLocalhost) = false := by
          simpa using hscope
        split at h
        · have hresult : (Except.ok (Forwarder.rejectLoop
              (fw.onNode (noteInterest now ingress interest)) ingress info
              { interest with incomingFace := some ingress.face }) : Except Fault Forwarder) =
                .ok fw' := h
          rw [rejectLoop_eq] at hresult
          cases hresult
          refine .dropped _ info hinfo (unmoved_tellLoop _ _ _ _) (nackedAtMost_tellLoop _ _ _ _)
            (.inr ⟨hlawful, rfl⟩) ?_
          rw [Forwarder.onNode, counters_tellLoop]
          rfl
        · obtain ⟨m, hint, harrive, hquiet, hmisses, hhint⟩ :=
            arrive_cases fw now ingress interest
          let arrived := arrive (fw.onNode (noteInterest now ingress interest)) ingress
            { interest with incomingFace := some ingress.face }
          have hresult : arrived.1.admitInterest ingress info arrived.2 = .ok fw' := h
          dsimp only [arrived] at hresult
          rw [harrive] at hresult
          have hlisted : BuiltInOnly { fw with node := m } := hbuiltIn
          obtain ⟨token, isNew, tables, e, n, store, hfound, hget, hadmission, rfl⟩ :=
            admitInterest_cases hlisted hresult
          exact .admitted m n info hint token isNew tables e store hinfo hquiet hmisses hfound hget
            hadmission hlawful hhint

/-- An Interest that a face gave up on is only noted. -/
theorem onDroppedInterest_cases (hbuiltIn : fw.BuiltInOnly) {egress : FaceEndpoint}
    {interest : Interest} (h : fw.onDroppedInterest now egress interest = .ok fw') :
    ∃ n, Node.Quiet { fw.node with now } n ∧ fw' = { fw with node := n } := by
  obtain ⟨s, hs, hresult⟩ := bind_eq_ok.mp h
  cases hresult
  have hlisted : s ∈ fw.strategies := List.mem_of_getElem? (strategy_eq_ok.mp hs)
  obtain ⟨b, rfl⟩ := hbuiltIn s hlisted
  rw [b.afterDrop_eq]
  exact ⟨_, Node.quiet_say _ _, rfl⟩

end Forwarder

end NamedData
