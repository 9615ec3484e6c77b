import NamedData.Forwarder.Packets
import NamedData.Proofs.Admission

/-!
What the other pipelines can do, said once each: incoming Data and Nacks, new routes, removed faces
and the end of entries. Together with the pipeline of Interests these are all ways in which an entry
changes; every property of whole runs is derived from them.
-/

namespace NamedData.Forwarder

variable {fw fw' : Forwarder} {now : Timestamp} {ingress : FaceEndpoint} {token : PitToken}

/-! ### Data -/

/-- The Data is announced to observers and the entry ends when timers are run next. -/
theorem quiet_announce (ingress : FaceEndpoint) (data : Data) (f : Focus) :
    (f.setExpiry 0).Quiet (announce ingress data (sayMatching ingress data f)) := by
  have hsay : (f.setExpiry 0).Quiet ((sayMatching ingress data f).setExpiry 0) :=
    Focus.quiet_say (f.setExpiry 0) (.incomingData ingress.face data.name (.matching f.entry.name))
  exact hsay.trans (Focus.quiet_report _ _)

theorem rememberNonces_eq (f : Focus) (records : List OutRecord) :
    ∃ deadNonces, f.rememberNonces records = f.onNode fun n => { n with deadNonces } := by
  rw [Focus.rememberNonces]
  split
  · exact ⟨_, rfl⟩
  · exact ⟨f.node.deadNonces, rfl⟩

theorem closeEntry_eq (ingress : FaceEndpoint) (data : Data) (f : Focus) :
    closeEntry ingress data f =
      ((settle data f).rememberNonces
        ((settle data f).entry.outRecord? ingress.face).toList).onEntry
          fun e => e.deleteOut ingress.face := rfl

theorem expiryTimer_closeEntry (ingress : FaceEndpoint) (data : Data) (f : Focus) :
    (closeEntry ingress data f).entry.expiryTimer = f.entry.expiryTimer := by
  obtain ⟨deadNonces, hremember⟩ := rememberNonces_eq (settle data f)
    ((settle data f).entry.outRecord? ingress.face).toList
  rw [closeEntry_eq, hremember]
  rfl

theorem keeps_closeEntry (ingress : FaceEndpoint) (data : Data) (f : Focus) :
    f.Keeps (closeEntry ingress data f) := by
  rw [closeEntry_eq]
  exact (Focus.Keeps.trans (Focus.keeps_onEntry rfl) (Focus.keeps_rememberNonces _ _)).trans
    (Focus.keeps_onEntry rfl)

theorem keeps_of_announced {f g : Focus} (hquiet : (f.setExpiry 0).Quiet g) : f.Keeps g :=
  (f.keeps_setExpiry 0).trans hquiet.keeps

/-- Data for a single entry is work on this entry. -/
theorem keeps_one {f g : Focus} (hquiet : (f.setExpiry 0).Quiet g) (ingress : FaceEndpoint)
    (data sent : Data) : f.Keeps (closeEntry ingress data (g.sendDataToAll ingress sent)) :=
  ((keeps_of_announced hquiet).trans (g.keeps_sendDataToAll ingress sent)).trans
    (keeps_closeEntry ingress data _)

/-- Data for one of several entries is work on this entry. -/
theorem keeps_among {f g : Focus} (hquiet : (f.setExpiry 0).Quiet g) (ingress : FaceEndpoint)
    (data : Data) : f.Keeps ((closeEntry ingress data g).onEntry PitEntry.clearIn) :=
  ((keeps_of_announced hquiet).trans (keeps_closeEntry ingress data g)).trans
    (Focus.keeps_onEntry rfl)

theorem sent_closeEntry (ingress : FaceEndpoint) (data : Data) (f : Focus) :
    (closeEntry ingress data f).node.journal.sent = f.node.journal.sent := by
  obtain ⟨deadNonces, hremember⟩ := rememberNonces_eq (settle data f)
    ((settle data f).entry.outRecord? ingress.face).toList
  rw [closeEntry_eq, hremember]
  rfl

/-- Data for a single entry goes to all who wait in it. -/
theorem satisfyOne_cases (hbuiltIn : fw.BuiltInOnly) {data : Data}
    (h : fw.satisfyOne ingress data token = .ok fw') :
    ∃ e g, fw.node.tables.pit.get? token = some e ∧
      (Focus.setExpiry ⟨fw.node, token, e⟩ 0).Quiet g ∧
      fw' = { fw with
        node := (closeEntry ingress data (g.sendDataToAll ingress data)).release } := by
  obtain ⟨e, f, hget, hwork, rfl⟩ := atEntry_eq_ok.mp h
  obtain ⟨f', hconsult, hclose⟩ := bind_eq_ok.mp hwork
  cases hclose
  obtain ⟨b, rfl⟩ := consult_builtIn hbuiltIn hconsult
  rw [b.afterData_eq, b.beforeSatisfy_eq]
  refine ⟨e, _, hget, ?_, rfl⟩
  exact ((quiet_announce ingress data _).trans (Focus.quiet_say _ _)).trans (Focus.quiet_say _ _)

def livePeers (e : PitEntry) (now : Timestamp) : List FaceEndpoint :=
  (e.inRecords.filter fun r => r.isLive now).map InRecord.peer

/-- Data for one of several entries leaves nobody waiting in it. -/
theorem satisfyAmong_cases (hbuiltIn : fw.BuiltInOnly) {data : Data}
    {peers peers' : List FaceEndpoint}
    (h : satisfyAmong ingress data (fw, peers) token = .ok (fw', peers')) :
    ∃ e g, fw.node.tables.pit.get? token = some e ∧
      (Focus.setExpiry ⟨fw.node, token, e⟩ 0).Quiet g ∧
      peers' = peers ++ livePeers e fw.node.now ∧
      fw' = { fw with
        node := ((closeEntry ingress data g).onEntry PitEntry.clearIn).release } := by
  obtain ⟨f, hfocus, hrest⟩ := bind_eq_ok.mp h
  obtain ⟨e, hget, rfl⟩ := Node.focus_eq_ok.mp hfocus
  obtain ⟨f', hconsult, hresult⟩ := bind_eq_ok.mp hrest
  cases hresult
  obtain ⟨b, rfl⟩ := consult_builtIn hbuiltIn hconsult
  rw [b.beforeSatisfy_eq]
  refine ⟨e, _, hget, ?_, rfl, rfl⟩
  exact (quiet_announce ingress data _).trans (Focus.quiet_say _ _)

/-- The node has read the clock and has counted Data. -/
def noteData (now : Timestamp) (ingress : FaceEndpoint) (data : Data) (n : Node) : Node :=
  (Node.say { n with now } (.incomingData ingress.face data.name .seen)).count
    fun c => { c with inData := c.inData + 1 }

/-- What Data from a face does. The store is offered the Data where somebody asked for it. -/
inductive DataOutcome (fw : Forwarder) (now : Timestamp) (ingress : FaceEndpoint) (data : Data) :
    Forwarder → Prop where
  | unknownFace (n : Node) (hinfo : fw.node.faces.info? ingress.face = none)
      (hquiet : Node.Quiet { fw.node with now } n) :
      DataOutcome fw now ingress data { fw with node := n }
  | violation (n : Node) (info : FaceInfo) (hinfo : fw.node.faces.info? ingress.face = some info)
      (hscope : (!info.isLocal && data.name.isLocalhost) = true)
      (hquiet : (noteData now ingress data fw.node).Quiet n) :
      DataOutcome fw now ingress data { fw with node := n }
  | unsolicited (n : Node) (store : ContentStore) (info : FaceInfo) (compared : Nat)
      (hinfo : fw.node.faces.info? ingress.face = some info)
      (hanswered : fw.node.tables.answeredBy data.name (data.implicitDigest fw.hash) =
        .ok ([], compared))
      (hquiet : (noteData now ingress data fw.node).Quiet n)
      (hscope : (!info.isLocal && data.name.isLocalhost) = false) :
      DataOutcome fw now ingress data { fw with node := n, store }
  | one (store : ContentStore) (info : FaceInfo) (token : PitToken) (compared : Nat) (e : PitEntry)
      (g : Focus) (hinfo : fw.node.faces.info? ingress.face = some info)
      (hanswered : fw.node.tables.answeredBy data.name (data.implicitDigest fw.hash) =
        .ok ([token], compared))
      (hget : fw.node.tables.pit.get? token = some e)
      (hquiet : (Focus.setExpiry ⟨noteData now ingress data fw.node, token, e⟩ 0).Quiet g)
      (hscope : (!info.isLocal && data.name.isLocalhost) = false) :
      DataOutcome fw now ingress data { fw with
        node := (closeEntry ingress data (g.sendDataToAll ingress
          { data with incomingFace := some ingress.face })).release
        store }
  | several (store : ContentStore) (info : FaceInfo) (tokens : List PitToken) (compared : Nat)
      (last : Forwarder) (peers : List FaceEndpoint)
      (hinfo : fw.node.faces.info? ingress.face = some info)
      (hanswered : fw.node.tables.answeredBy data.name (data.implicitDigest fw.hash) =
        .ok (tokens, compared))
      (htokens : tokens.foldlM
        (satisfyAmong ingress { data with incomingFace := some ingress.face })
        ({ fw with node := noteData now ingress data fw.node, store }, []) = .ok (last, peers))
      (hscope : (!info.isLocal && data.name.isLocalhost) = false) :
      DataOutcome fw now ingress data (last.onNode fun n =>
        ((FaceEndpoint.ordered peers).filter fun p => p.face ≠ ingress.face || info.isAdHoc).foldl
          (fun n egress => n.sendData egress { data with incomingFace := some ingress.face }) n)

theorem onUnsolicited_cases (fw : Forwarder) (ingress : FaceEndpoint) (info : FaceInfo)
    (data : Data) : ∃ n store, fw.onUnsolicited ingress info data = { fw with node := n, store } ∧
      fw.node.Quiet n := by
  have hquiet : fw.node.Quiet ((fw.node.count fun c =>
      { c with unsolicited := c.unsolicited + 1 }).say
        (.unsolicited ingress.face data.name (fw.policy.decide info))) :=
    (Node.quiet_count _ (by intro; exact ⟨rfl, Nat.le_refl _⟩)).trans (Node.quiet_say _ _)
  rw [onUnsolicited]
  split
  · exact ⟨_, _, rfl, hquiet⟩
  · exact ⟨_, fw.store, rfl, hquiet⟩

theorem unmoved_sendDataEach (data : Data) (peers : List FaceEndpoint) (n : Node) :
    n.Unmoved (peers.foldl (fun n egress => n.sendData egress data) n) := by
  induction peers generalizing n with
  | nil => exact .refl n
  | cons p rest ih => exact (n.unmoved_sendData p data).trans (ih _)

theorem receiveData_cases (hbuiltIn : fw.BuiltInOnly) {data : Data}
    (h : fw.receiveData now ingress data = .ok fw') : DataOutcome fw now ingress data fw' := by
  have htick : (fw.tick now).node.faces.info? ingress.face = fw.node.faces.info? ingress.face := rfl
  simp only [receiveData] at h
  cases hinfo : fw.node.faces.info? ingress.face with
  | none =>
      rw [htick, hinfo] at h
      cases h
      exact .unknownFace _ hinfo (Node.quiet_say _ _)
  | some info =>
      rw [htick, hinfo] at h
      dsimp only at h
      split at h
      next hscope =>
        cases h
        exact .violation _ info hinfo hscope (Node.quiet_say _ _)
      next hscope =>
        rw [Bool.not_eq_true] at hscope
        obtain ⟨⟨tokens, compared⟩, hanswered, hrest⟩ := bind_eq_ok.mp h
        match tokens, hrest with
        | [], hrest =>
          cases hrest
          obtain ⟨n, store, hresult, hquiet⟩ := onUnsolicited_cases
            (fw.onNode (noteData now ingress data)) ingress info
            { data with incomingFace := some ingress.face }
          have hsame : Forwarder.onUnsolicited (fw.onNode (noteData now ingress data)) ingress info
            { data with incomingFace := some ingress.face } = { fw with node := n, store } :=
              hresult
          exact hsame ▸ .unsolicited n store info compared hinfo hanswered hquiet hscope
        | [token], hrest =>
          have hlisted : BuiltInOnly ((fw.onNode (noteData now ingress data)).keep
            { data with incomingFace := some ingress.face } (data.implicitDigest fw.hash)) :=
              hbuiltIn
          obtain ⟨e, g, hget, hquiet, rfl⟩ := satisfyOne_cases hlisted hrest
          exact .one _ info token compared e g hinfo hanswered hget hquiet hscope
        | first :: second :: rest, hrest =>
          obtain ⟨⟨last, peers⟩, htokens, hresult⟩ := bind_eq_ok.mp hrest
          cases hresult
          exact .several _ info _ compared last peers hinfo hanswered htokens hscope

/-! ### Nacks -/

/-- The node has read the clock and has counted a Nack. -/
def noteNack (now : Timestamp) (n : Node) : Node :=
  Node.count { n with now } fun c => { c with inNacks := c.inNacks + 1 }

/-- What a Nack from a face does. -/
inductive NackOutcome (fw : Forwarder) (now : Timestamp) (ingress : FaceEndpoint) (nack : Nack) :
    Forwarder → Prop where
  | ignored (n : Node) (hquiet : Node.Quiet { fw.node with now } n) :
      NackOutcome fw now ingress nack { fw with node := n }
  | refused (token : PitToken) (e : PitEntry) (g : Focus)
      (hget : fw.node.tables.pit.get? token = some e)
      (hquiet : Focus.Quiet ⟨noteNack now fw.node, token, e⟩ g) :
      NackOutcome fw now ingress nack { fw with node := g.release }
  | accepted (token : PitToken) (e : PitEntry) (g f : Focus)
      (hget : fw.node.tables.pit.get? token = some e)
      (harrival : nackArrival e ingress.face
        { nack with incomingFace := some ingress.face } = .accepted)
      (hquiet : Focus.Quiet ⟨noteNack now fw.node, token, e⟩ g)
      (hmoves : (recordNack ingress.face nack.reason g).Moves f)
      (hpassed : ∃ tagged, f = Focus.passNackOn tagged ingress
        (recordNack ingress.face nack.reason g)) :
      NackOutcome fw now ingress nack { fw with node := f.release }

theorem quiet_noteNack (now : Timestamp) (n : Node) :
    Node.Quiet { n with now } (noteNack now n) :=
  Node.quiet_count _ (by intro; exact ⟨rfl, Nat.le_refl _⟩)

theorem keeps_recordNack (face : FaceId) (reason : NackReason) (f : Focus) :
    f.Keeps (recordNack face reason f) := by
  rw [recordNack]
  split
  · exact Focus.keeps_onEntry rfl
  · exact Focus.Keeps.trans (Focus.keeps_onEntry rfl) (Focus.keeps_setExpiry _ 0)

theorem hasTimer_recordNack {f : Focus} (h : f.entry.expiryTimer.isSome) (face : FaceId)
    (reason : NackReason) : (recordNack face reason f).entry.expiryTimer.isSome := by
  rw [recordNack]
  split
  · exact h
  · exact Option.isSome_iff_exists.mpr ⟨_, Focus.expiryTimer_setExpiry _ 0⟩

theorem receiveNack_cases (hbuiltIn : fw.BuiltInOnly) {nack : Nack}
    (h : fw.receiveNack now ingress nack = .ok fw') : NackOutcome fw now ingress nack fw' := by
  simp only [receiveNack] at h
  split at h
  next =>
    cases h
    exact .ignored _ (Node.quiet_say _ _)
  next info hinfo =>
    split at h
    next hlink =>
      obtain ⟨found, hfound, hrest⟩ := bind_eq_ok.mp h
      cases found with
      | none =>
          cases hrest
          exact .ignored _ ((quiet_noteNack now fw.node).trans (Node.quiet_say _ _))
      | some token =>
          obtain ⟨e, f, hget, hwork, rfl⟩ := atEntry_eq_ok.mp hrest
          split at hwork
          next harrival =>
            have hlisted : BuiltInOnly (fw.onNode (noteNack now)) := hbuiltIn
            obtain ⟨b, rfl⟩ := consult_builtIn hlisted hwork
            rw [b.afterNack_eq]
            exact .accepted token e _ _ hget harrival (Focus.quiet_say _ _)
              (Focus.moves_passNackOn _ ingress _) ⟨_, rfl⟩
          next =>
            cases hwork
            exact .refused token e _ hget (Focus.quiet_say _ _)
    next =>
      cases h
      exact .ignored _ ((quiet_noteNack now fw.node).trans (Node.quiet_say _ _))

/-! ### Routes and faces -/

/-- An entry that is offered a new next hop is left to its strategy. -/
theorem offer_eq (hbuiltIn : fw.BuiltInOnly) {hop : NextHop}
    (h : (fw.atEntry token fun f =>
      fw.consult f fun s f => s.afterNewNextHop hop f) = .ok fw') :
    ∃ e, ∃ b : BuiltIn, fw.node.tables.pit.get? token = some e ∧
      fw' = { fw with
        node := (b.strategy.afterNewNextHop hop ⟨fw.node, token, e⟩).release } := by
  obtain ⟨e, f, hget, hwork, rfl⟩ := atEntry_eq_ok.mp h
  obtain ⟨b, rfl⟩ := consult_builtIn hbuiltIn hwork
  exact ⟨e, b, hget, rfl⟩

theorem offer_cases (hbuiltIn : fw.BuiltInOnly) {hop : NextHop}
    (h : (fw.atEntry token fun f =>
      fw.consult f fun s f => s.afterNewNextHop hop f) = .ok fw') :
    ∃ e f, fw.node.tables.pit.get? token = some e ∧ Focus.Moves ⟨fw.node, token, e⟩ f ∧
      fw' = { fw with node := f.release } := by
  obtain ⟨e, b, hget, rfl⟩ := offer_eq hbuiltIn h
  exact ⟨e, _, hget, b.moves_afterNewNextHop hop _, rfl⟩

/-- A route to a known face is put into the tables, and then some entries may be offered it. -/
theorem addRoute_cases {stem : Name} {face : FaceId} {cost : Nat} {isAdded : Bool}
    (h : fw.addRoute now stem face cost = .ok (isAdded, fw')) :
    fw' = fw.say (.routeToUnknownFace stem face) ∨
      ∃ (n : Node) (tokens : List PitToken), fw.node.faces.contains face = true ∧
        Node.Quiet
          { fw.node with now, tables := (fw.node.tables.addNextHop stem face cost).2 } n ∧
        tokens.foldlM (fun fw token => fw.atEntry token fun f =>
          fw.consult f fun s f => s.afterNewNextHop { cost, face } f)
            { fw with node := n } = Except.ok fw' := by
  rw [addRoute] at h
  split at h
  next hknown =>
    right
    dsimp only at h
    split at h
    · obtain ⟨last, hfold, hresult⟩ := bind_eq_ok.mp h
      cases hresult
      exact ⟨_, _, hknown, Node.quiet_say _ _, hfold⟩
    · cases h
      exact ⟨_, [], hknown, Node.quiet_say _ _, rfl⟩
  next hunknown =>
    left
    cases h
    rfl

/-- A face that is removed is forgotten by every entry. -/
theorem removeFace_cases {face : FaceId} {isRemoved : Bool}
    (h : fw.removeFace now face = .ok (isRemoved, fw')) :
    fw' = fw.tick now ∨
      ∃ (faces : FaceTable) (n : Node) (last : Forwarder),
        fw.node.faces.remove face = (true, faces) ∧
        Node.Quiet { fw.node with now, faces, tables := fw.node.tables.forgetNextHop face } n ∧
        n.tables.pit.tokens.foldlM (fun fw token => fw.atEntry token fun f =>
          .ok (forgetFace face f)) { fw with node := n } = Except.ok last ∧
        fw' = last.onNode fun n =>
          { n with disconnected := n.disconnected.filter (· ≠ face) } := by
  simp only [removeFace] at h
  split at h
  next faces hremove =>
    cases h
    exact .inl rfl
  next faces hremove =>
    obtain ⟨last, hfold, hresult⟩ := bind_eq_ok.mp h
    cases hresult
    right
    refine ⟨faces, _, last, hremove, ?_, hfold, rfl⟩
    exact Node.quiet_say { fw.node with
      now, faces, tables := fw.node.tables.forgetNextHop face } (.faceRemoved face)

/-- An entry that names a removed face loses its records of it, and ends when timers are run next if
it has no other. -/
theorem forgetFace_eq (face : FaceId) (f : Focus) :
    (f.entry.mentions face = false ∧ forgetFace face f = f) ∨
    (f.entry.mentions face = true ∧ (f.entry.forgetFace face).hasRecords = true ∧
      forgetFace face f = f.onEntry fun e => e.forgetFace face) ∨
    (f.entry.mentions face = true ∧ (f.entry.forgetFace face).hasRecords = false ∧
      forgetFace face f = (f.onEntry fun e => e.forgetFace face).reject) := by
  rw [forgetFace]
  cases hmentions : f.entry.mentions face with
  | false => exact .inl ⟨rfl, if_neg Bool.false_ne_true⟩
  | true =>
      right
      cases hrecords : (f.entry.forgetFace face).hasRecords with
      | true => exact .inl ⟨rfl, rfl, by simp [Focus.onEntry, hrecords]⟩
      | false => exact .inr ⟨rfl, rfl, by simp [Focus.onEntry, hrecords]⟩

theorem forgetFace_cases (face : FaceId) (f : Focus) :
    (f.entry.mentions face = false ∧ forgetFace face f = f) ∨
      f.entry.mentions face = true ∧
        (forgetFace face f = f.onEntry (fun e => e.forgetFace face) ∨
          forgetFace face f = (f.onEntry fun e => e.forgetFace face).reject) := by
  rcases forgetFace_eq face f with hidle | ⟨hmentions, -, hsame⟩ | ⟨hmentions, -, hsame⟩
  · exact .inl hidle
  · exact .inr ⟨hmentions, .inl hsame⟩
  · exact .inr ⟨hmentions, .inr hsame⟩

/-- Which faces there are does not matter for what is forgotten. -/
theorem forgetFace_withFaces (face : FaceId) (faces : FaceTable) (f : Focus) :
    forgetFace face (f.onNode fun n => { n with faces }) =
      (forgetFace face f).onNode fun n => { n with faces } := by
  have hentry : (f.onNode fun n => { n with faces }).entry = f.entry := rfl
  cases hmentions : f.entry.mentions face with
  | false => simp [forgetFace, hentry, hmentions]
  | true =>
      cases hrecords : (f.entry.forgetFace face).hasRecords with
      | true => simp [forgetFace, hentry, hmentions, Focus.onEntry, hrecords]; rfl
      | false => simp [forgetFace, hentry, hmentions, Focus.onEntry, hrecords]; rfl

theorem keeps_forgetFace (face : FaceId) (f : Focus) : f.Keeps (forgetFace face f) := by
  have hforgets : f.Keeps (f.onEntry fun e => e.forgetFace face) := Focus.keeps_onEntry rfl
  rcases forgetFace_cases face f with ⟨_, hsame⟩ | ⟨_, hsame | hsame⟩
  · rw [hsame]
    exact .refl f
  · rw [hsame]
    exact hforgets
  · rw [hsame]
    exact hforgets.trans (Focus.keeps_setExpiry _ 0)

theorem faces_forgetFace (face : FaceId) (f : Focus) :
    (forgetFace face f).node.faces = f.node.faces := by
  rcases forgetFace_cases face f with ⟨_, hsame⟩ | ⟨_, hsame | hsame⟩ <;> rw [hsame] <;> rfl

theorem records_forgetFace (face : FaceId) (f : Focus) :
    (forgetFace face f).entry.inRecords = (f.entry.forgetFace face).inRecords ∧
      (forgetFace face f).entry.outRecords = (f.entry.forgetFace face).outRecords := by
  rcases forgetFace_cases face f with ⟨hmentions, hsame⟩ | ⟨_, hsame | hsame⟩
  · rw [hsame]
    simp only [PitEntry.mentions, Bool.or_eq_false_iff, List.any_eq_false,
      decide_eq_true_eq] at hmentions
    constructor
    · exact (List.filter_eq_self.mpr fun r hr => decide_eq_true (hmentions.1 r hr)).symm
    · exact (List.filter_eq_self.mpr fun r hr => decide_eq_true (hmentions.2 r hr)).symm
  · rw [hsame]
    exact ⟨rfl, rfl⟩
  · rw [hsame]
    exact ⟨rfl, rfl⟩

theorem hasTimer_forgetFace {f : Focus} (h : f.entry.expiryTimer.isSome) (face : FaceId) :
    (forgetFace face f).entry.expiryTimer.isSome := by
  rcases forgetFace_cases face f with ⟨_, hsame⟩ | ⟨_, hsame | hsame⟩
  · rwa [hsame]
  · rwa [hsame]
  · rw [hsame]
    exact Option.isSome_iff_exists.mpr ⟨_, Focus.expiryTimer_setExpiry _ 0⟩

/-! ### Timers -/

/-- The second node is the first one after the entry of a token ended. -/
structure Ended (n n' : Node) (token : PitToken) : Prop where
  tables : ∃ e, n.tables.erase token = some (e, n'.tables)
  timers : n'.timers = n.timers
  now : n'.now = n.now
  info? : n'.faces.info? = n.faces.info?
  sent : n'.journal.sent = n.journal.sent
  inInterests : n'.counters.inInterests = n.counters.inInterests

/-- The entry at hand ends: it is announced and counted, and its nonces are remembered. -/
def parting (f : Focus) : Focus :=
  let said := f.say (.finalized f.entry.name f.entry.satisfied)
  let reported := if f.entry.satisfied then said else said.report (.expire said.entry)
  let remembered := reported.rememberNonces reported.entry.outRecords
  remembered.onNode fun n => n.count fun c =>
    if f.entry.satisfied then { c with satisfied := c.satisfied + 1 }
    else { c with unsatisfied := c.unsatisfied + 1 }

theorem parting_cases (f : Focus) : ∃ deadNonces counters journal,
    parting f = { f with node := { f.node with deadNonces, counters, journal } } ∧
      journal.sent = f.node.journal.sent ∧
      counters.inInterests = f.node.counters.inInterests := by
  rw [parting]
  cases hsatisfied : f.entry.satisfied with
  | true =>
      obtain ⟨deadNonces, hremember⟩ := rememberNonces_eq (f.say (.finalized f.entry.name true))
        (f.say (.finalized f.entry.name true)).entry.outRecords
      simp only [↓reduceIte, hremember]
      exact ⟨_, _, _, rfl, rfl, rfl⟩
  | false =>
      obtain ⟨deadNonces, hremember⟩ := rememberNonces_eq
        ((f.say (.finalized f.entry.name false)).report
          (.expire (f.say (.finalized f.entry.name false)).entry))
        ((f.say (.finalized f.entry.name false)).report
          (.expire (f.say (.finalized f.entry.name false)).entry)).entry.outRecords
      simp only [Bool.false_eq_true, ↓reduceIte, hremember]
      exact ⟨_, _, _, rfl, rfl, rfl⟩

theorem finalize_eq {f : Focus} {e : PitEntry} {tables : Tables}
    (herase : f.node.tables.erase f.token = some (e, tables)) :
    finalize f = { (parting f).node with tables } := by
  obtain ⟨deadNonces, counters, journal, hparting, _⟩ := parting_cases f
  have hparted : (parting f).node.tables.erase (parting f).token = some (e, tables) := by
    rw [hparting]
    exact herase
  simp only [parting] at hparted ⊢
  simp only [finalize, hparted]

theorem finalize_of_erase_none {f : Focus} (herase : f.node.tables.erase f.token = none) :
    finalize f = (parting f).node := by
  obtain ⟨deadNonces, counters, journal, hparting, _⟩ := parting_cases f
  have hparted : (parting f).node.tables.erase (parting f).token = none := by
    rw [hparting]
    exact herase
  simp only [parting] at hparted ⊢
  simp only [finalize, hparted]

theorem ended_finalize {f : Focus} {e : PitEntry}
    (hget : f.node.tables.pit.get? f.token = some e) : Ended f.node (finalize f) f.token := by
  obtain ⟨pit, hremove⟩ := Arena.remove_of_get? hget
  have herase := Tables.erase_eq_some.mpr ⟨pit, hremove, rfl⟩
  obtain ⟨deadNonces, counters, journal, hparting, hsent, hinInterests⟩ := parting_cases f
  rw [finalize_eq herase, hparting]
  exact ⟨⟨e, herase⟩, rfl, rfl, rfl, hsent, hinInterests⟩

/-- A timer that fires ends the entry that it belongs to. -/
theorem fire_cases {timer : Timer PitToken} {e : PitEntry}
    (hget : fw.node.tables.pit.get? timer.entry = some e)
    (hid : e.expiryTimer = some timer.id) :
    ∃ n, fw.fire timer = (true, { fw with node := n }) ∧ Ended fw.node n timer.entry := by
  have hfocus := Node.focus_eq_ok.mpr ⟨e, hget, rfl⟩
  have hended := ended_finalize (f := Focus.onEntry ⟨fw.node, timer.entry, e⟩
    fun e => { e with expiryTimer := none }) hget
  refine ⟨_, ?_, hended⟩
  simp only [fire, hfocus, hid, ↓reduceIte]

/-- Entries end one after another, each by its own timer. -/
inductive Endings : List (Timer PitToken) → Node → Node → Prop where
  | nil (n : Node) : Endings [] n n
  | cons {timer : Timer PitToken} {rest : List (Timer PitToken)} {n m n' : Node}
      (hend : Ended n m timer.entry) (hrest : Endings rest m n') : Endings (timer :: rest) n n'

end NamedData.Forwarder
