import NamedData.Proofs.Doings
import NamedData.Proofs.Satisfaction

/-!
The operations in full: after the clock was read, if it was, every operation is a sequence of deeds.
What holds of a node at the start of a run and is kept by every deed, at whatever time, holds at
every moment of the run.
-/

namespace NamedData

open Node

namespace Forwarder

variable {fw fw' : Forwarder} {now : Timestamp} {ingress : FaceEndpoint} {token : PitToken}
  {hash : HashFunction} {operation : Operation}

/-! ### Interests -/

theorem alike_noteInterest (now : Timestamp) (ingress : FaceEndpoint) (interest : Interest)
    (n : Node) : Node.Alike { n with now } (noteInterest now ingress interest n) :=
  ⟨rfl, rfl, rfl, rfl, rfl⟩

theorem alike_noteMiss (interest : Interest) (n : Node) : n.Alike (noteMiss interest n) :=
  ⟨rfl, rfl, rfl, rfl, rfl⟩

theorem alike_noteHit (interest : Interest) (data : Data) (n : Node) :
    n.Alike (noteHit interest data n) :=
  ⟨rfl, rfl, rfl, rfl, rfl⟩

/-- The entry for an Interest was there or is opened. -/
theorem deeds_findOrInsert (hash : HashFunction) {n : Node} (hindexed : n.tables.Indexed)
    {i : Interest} {hint : List Name} {isNew : Bool} {tables : Tables} {e : PitEntry}
    (hcall : operation = .receive now ingress (.interest i))
    (hfound : n.tables.findOrInsert (i.arrived ingress.face hint) = .ok ((token, isNew), tables))
    (hget : tables.pit.get? token = some e) :
    Deeds hash operation n { n with tables } ∧ e.interest.sameSelectors i = true := by
  rcases Tables.findOrInsert_eq_ok hfound with ⟨-, rfl, hfind⟩ | ⟨pit, -, hfind, hinsert, rfl⟩
  · obtain ⟨e', hget', hsame⟩ := Tables.findPending_eq_some hfind
    have hentry : e' = e := Option.some.inj (hget'.symm.trans hget)
    exact ⟨.refl n, hentry ▸ hsame⟩
  · rw [Interest.arrived, findPending_hinted] at hfind
    have hself := Arena.get?_insert hinsert token
    rw [if_pos rfl] at hself
    have hnew := Option.some.inj (Eq.trans (Eq.symm hself) hget)
    refine ⟨(Deed.openEntry hint hcall (hindexed.none_of_findPending hfind) hinsert).deeds, ?_⟩
    rw [← hnew]
    simp [Interest.sameSelectors, Interest.untagged, Interest.arrived]

theorem deeds_admission {n m : Node} {i : Interest} {hint : List Name} {info : FaceInfo}
    {e : PitEntry} (hcall : operation = .receive now ingress (.interest i)) (hn : n.Sound)
    (hinfo : n.faces.info? ingress.face = some info)
    (hscope : (!info.isLocal && i.name.isLocalhost) = false)
    (hget : n.tables.pit.get? token = some e) (hsame : e.interest.sameSelectors i = true)
    (h : Admission ingress info (i.arrived ingress.face hint) n token e m) :
    Deeds hash operation n m := by
  cases h with
  | looped k hloop hmoved hsent htold =>
      obtain ⟨notice, rfl⟩ := htold
      have hkept : (Node.say (tellLoop ingress info (i.arrived ingress.face hint) n)
          notice).tables.pit.get? token = some e := by
        rw [hmoved.tables]
        exact hget
      rw [release_focus hkept]
      exact (Deed.tellLoop n hint hcall hinfo hscope).deeds.trans (deeds_of_quiet (quiet_say _ _))
  | hit g data hloop hempty hquiet =>
      let noted := noteHit (i.arrived ingress.face hint) data n
      have halike := alike_noteHit (i.arrived ingress.face hint) data n
      have hhit : Focus.Deed hash operation ⟨noted, token, e⟩
          ((settle data ⟨noted, token, e⟩).setExpiry 0) := .hit _ data hcall hempty
      have hanswer : Focus.Deed hash operation g
          (g.sendData ingress { data with incomingFace := some .contentStore }) :=
        .answer g _ hcall (by rw [hquiet.entry]; exact hempty)
      have hworks := (hhit.deeds.trans (Focus.Deed.talk hquiet).deeds).trans hanswer.deeds
      have hnoted : noted.Sound := hn.congr halike.pit halike.timers
      exact (Deed.aside halike rfl).deeds.trans (Deeds.onEntry hnoted hget hworks)
  | missed f hloop hanswer hgoesOn =>
      let noted := noteMiss (i.arrived ingress.face hint) n
      have halike := alike_noteMiss (i.arrived ingress.face hint) n
      have hnoted : noted.Sound := hn.congr halike.pit halike.timers
      have hwait : Focus.Deed hash operation ⟨noted, token, e⟩
          (awaitData ingress (i.arrived ingress.face hint) ⟨noted, token, e⟩) :=
        .wait _ hint hcall hinfo hscope hsame hloop
      have hholds : (awaitData ingress (i.arrived ingress.face hint) ⟨noted, token, e⟩).Holds
          ingress i hint := Focus.holds_awaitData (hnoted.focus hget) hsame
      have hworks := hwait.deeds.trans (hgoesOn.deeds hcall hholds)
      exact (Deed.aside halike rfl).deeds.trans (Deeds.onEntry hnoted hget hworks)

theorem deeds_receiveInterest (h : fw.Valid) {i : Interest}
    (hcall : operation = .receive now ingress (.interest i))
    (hreceive : fw.receiveInterest now ingress i = .ok fw') :
    Deeds hash operation { fw.node with now } fw'.node := by
  have hnoted : Deeds hash operation { fw.node with now } (noteInterest now ingress i fw.node) :=
    (Deed.aside (alike_noteInterest now ingress i fw.node) rfl).deeds
  cases receiveInterest_cases h.builtIn hreceive with
  | unknownFace n hinfo hquiet => exact deeds_of_quiet hquiet
  | dropped n info hinfo hmoved hsent hcause =>
      rcases hcause with hquiet | ⟨hscope, rfl⟩
      · exact hnoted.trans (deeds_of_quiet hquiet)
      · let noted := noteInterest now ingress i fw.node
        have htold : Deed hash operation noted
            (tellLoop ingress info (i.arrived ingress.face i.forwardingHint) noted) :=
          .tellLoop noted i.forwardingHint hcall hinfo hscope
        exact hnoted.trans htold.deeds
  | admitted m n info hint token isNew tables e store hinfo hquiet hmisses hfound hget hadmission
      hscope =>
      have hstart : Deeds hash operation { fw.node with now } m :=
        hnoted.trans (deeds_of_quiet hquiet)
      have hindexed : m.tables.Indexed := hquiet.tables ▸ h.node.indexed
      obtain ⟨hopened, hsame⟩ := deeds_findOrInsert hash hindexed hcall hfound hget
      have hsound := hopened.sound (hstart.sound (h.tick now).node.sound)
      have hinfo' : m.faces.info? ingress.face = some info := by
        rw [hquiet.info?]
        exact hinfo
      exact (hstart.trans hopened).trans
        (deeds_admission hcall hsound hinfo' hscope hget hsame hadmission)

/-! ### Data -/

theorem remembers_rememberNonces (f : Focus) (records : List OutRecord) :
    f.Remembers (f.rememberNonces records) := by
  rw [Focus.rememberNonces]
  split
  · refine ⟨records.map fun r => NonceHash.hash f.entry.name r.nonce, ?_⟩
    rw [List.foldl_map]
    rfl
  · exact ⟨[], rfl⟩

/-- The first focus is made due, and then work is done that leaves its timer alone. -/
structure Due (f k : Focus) : Prop extends (f.setExpiry 0).Keeps k where
  timers : k.node.timers = (f.setExpiry 0).node.timers
  timer : k.entry.expiryTimer = (f.setExpiry 0).entry.expiryTimer

/-- Closing an entry that is due serves it. -/
theorem served_closeEntry {f k : Focus} {data : Data} (hf : f.Sound) (hdue : Due f k)
    (hdistinct : k.entry.Distinct) (hin : k.entry.inRecords.Sublist f.entry.inRecords)
    (hout : k.entry.outRecords = f.entry.outRecords)
    (hdead : k.node.deadNonces = f.node.deadNonces)
    (hsent : ∃ new, k.node.journal.sent = f.node.journal.sent ++ new ∧
      ∀ t ∈ new, t.packet = .data data ∧ f.node.lets data t.peer.face = true) :
    f.Served (closeEntry ingress data k) ingress.face data := by
  have hid : k.entry.expiryTimer = some f.node.timers.nextId := by
    rw [hdue.timer, Focus.expiryTimer_setExpiry]
  have hentry := Focus.entry_closeEntry hdistinct ingress data hid
  have hclose := keeps_closeEntry ingress data k
  have hkeeps : f.Keeps k := (f.keeps_setExpiry 0).trans hdue.toKeeps
  have htimed : k.Timed :=
    Focus.timed_of_keeps (Focus.timed_setExpiry hf.timed 0) hdue.toKeeps hdue.timers hdue.timer
  refine ⟨hkeeps.trans hclose, ?_, ?_, ?_, ?_, ?_, ?_, ?_⟩
  · exact Focus.timed_of_keeps htimed hclose (Focus.timers_closeEntry ingress data k)
      (expiryTimer_closeEntry ingress data k)
  · intro t hne
    rw [Focus.timers_closeEntry, hdue.timers, Focus.mem_timers_setExpiry hf.timed]
    constructor
    · rintro (rfl | ⟨hold, _⟩)
      · exact absurd rfl hne
      · exact hold
    · exact fun hold => .inr ⟨hold, hne⟩
  · rw [hentry]
    rfl
  · rw [hentry]
    exact hin
  · rw [hentry, ← hout]
    rfl
  · obtain ⟨hashes, hadded⟩ := remembers_rememberNonces (settle data k)
      ((settle data k).entry.outRecord? ingress.face).toList
    refine ⟨hashes, ?_⟩
    rw [closeEntry_eq, ← hdead, ← hkeeps.now]
    exact hadded
  · rw [sent_closeEntry]
    exact hsent

/-- Data for a single entry. -/
theorem served_one {f g : Focus} {data : Data} (hf : f.Sound) (hquiet : (f.setExpiry 0).Quiet g) :
    f.Served (closeEntry ingress data (g.sendDataToAll ingress data)) ingress.face data := by
  have hdistinct : g.entry.Distinct := by
    rw [hquiet.entry]
    exact (hf.setExpiry 0).distinct
  have hmoves := Focus.moves_sendDataToAll hdistinct ingress data
  have hall := Focus.sendDataToAll_eq hdistinct ingress data
  have hmoved := unmoved_sendDataEach data (g.waiting ingress.face) g.node
  apply served_closeEntry hf
  · refine ⟨hquiet.keeps.trans hmoves.keeps, ?_, ?_⟩
    · rw [hall]
      exact hmoved.timers.trans hquiet.node.timers
    · rw [hall, ← hquiet.entry]
  · exact hmoves.distinct hdistinct
  · rw [hall, hquiet.entry]
    exact List.filter_sublist
  · rw [hall, hquiet.entry]
    rfl
  · rw [hall]
    exact hmoved.deadNonces.trans hquiet.node.deadNonces
  · obtain ⟨new, hsent, hpeers, hpackets⟩ :=
      Node.sent_sendDataEach data (g.waiting ingress.face) g.node
    have hlets : g.node.lets = f.node.lets := hquiet.node.toUnmoved.lets
    refine ⟨new, ?_, ?_⟩
    · rw [hall, hsent, hquiet.node.sent]
      rfl
    · intro t ht
      have hpeer : t.peer ∈ new.map Transmission.peer := List.mem_map_of_mem ht
      rw [hpeers, List.mem_filter, hlets] at hpeer
      exact ⟨hpackets t ht, hpeer.2⟩

/-- Data for one of several entries. -/
theorem served_among {f g : Focus} {data : Data} (hf : f.Sound)
    (hquiet : (f.setExpiry 0).Quiet g) :
    f.Served ((closeEntry ingress data g).onEntry PitEntry.clearIn) ingress.face data := by
  have hserved : f.Served (closeEntry ingress data g) ingress.face data := by
    apply served_closeEntry hf
    · exact ⟨hquiet.keeps, hquiet.node.timers, by rw [hquiet.entry]⟩
    · rw [hquiet.entry]
      exact (hf.setExpiry 0).distinct
    · rw [hquiet.entry]
      exact List.Sublist.refl _
    · rw [hquiet.entry]
      rfl
    · exact hquiet.node.deadNonces
    · refine ⟨[], ?_, by simp⟩
      rw [hquiet.node.sent, List.append_nil]
      rfl
  have hclears : (closeEntry ingress data g).Keeps
      ((closeEntry ingress data g).onEntry PitEntry.clearIn) := Focus.keeps_onEntry rfl
  exact ⟨hserved.toKeeps.trans hclears, Focus.timed_of_keeps hserved.timed hclears rfl rfl,
    hserved.others, hserved.satisfied, List.nil_sublist _, hserved.outRecords, hserved.remembers,
    hserved.sent⟩

/-- Work on an entry leaves every entry with its Interest. -/
theorem interest_release {n : Node} {e : PitEntry} {f : Focus}
    (hget : n.tables.pit.get? token = some e) (hkeeps : Focus.Keeps ⟨n, token, e⟩ f) {u : PitToken}
    {e' : PitEntry} (hget' : f.release.tables.pit.get? u = some e') :
    ∃ old, n.tables.pit.get? u = some old ∧ old.interest = e'.interest := by
  revert hget'
  revert u e'
  rw [Focus.forall_release_iff (hkeeps.live ⟨e, hget, rfl⟩)]
  constructor
  · refine ⟨e, ?_, hkeeps.interest.symm⟩
    rw [hkeeps.token]
    exact hget
  · intro u e' _ hget'
    rw [hkeeps.tables] at hget'
    exact ⟨e', hget', rfl⟩

/-- Data comes in for several entries, one after another. -/
theorem deeds_satisfyEach (h : fw.BuiltInOnly) (hn : fw.node.Sound) {data : Data}
    (hcall : operation = .receive now ingress (.data data)) {tokens : List PitToken}
    (hanswers : ∀ token ∈ tokens, ∀ e, fw.node.tables.pit.get? token = some e →
      e.interest.isAnsweredBy data.name (data.implicitDigest hash) = true)
    {peers peers' : List FaceEndpoint}
    (hfold : tokens.foldlM (satisfyAmong ingress (data.arrived ingress.face)) (fw, peers) =
      .ok (fw', peers')) : Deeds hash operation fw.node fw'.node := by
  have hend := foldlM_consume
    (P := fun rest s => s.1.BuiltInOnly ∧ Deeds hash operation fw.node s.1.node ∧
      ∀ token ∈ rest, ∀ e, s.1.node.tables.pit.get? token = some e →
        e.interest.isAnsweredBy data.name (data.implicitDigest hash) = true)
    (fun s token rest s' hstep hs => by
      obtain ⟨hbuiltIn, hdeeds, hleft⟩ := hs
      obtain ⟨e, g, hget, hquiet, _, hresult⟩ := satisfyAmong_cases hbuiltIn hstep
      have hsound := hdeeds.sound hn
      have hserve : Focus.Deed hash operation ⟨s.1.node, token, e⟩
          ((closeEntry ingress (data.arrived ingress.face) g).onEntry PitEntry.clearIn) :=
        .serve hcall (hleft token List.mem_cons_self e hget)
          (served_among (hsound.focus hget) hquiet)
      rw [hresult]
      refine ⟨hbuiltIn, hdeeds.trans (Deeds.onEntry hsound hget hserve.deeds), ?_⟩
      intro u member e' hget'
      obtain ⟨old, hold, hinterest⟩ := interest_release hget hserve.keeps hget'
      rw [← hinterest]
      exact hleft u (List.mem_cons_of_mem _ member) old hold)
    hfold ⟨h, .refl _, hanswers⟩
  exact hend.2.1

theorem deeds_sendDataEach {data : Data} (hcall : operation = .receive now ingress (.data data))
    (peers : List FaceEndpoint) (n : Node) : Deeds hash operation n
      (peers.foldl (fun n egress => n.sendData egress (data.arrived ingress.face)) n) := by
  induction peers generalizing n with
  | nil => exact .refl n
  | cons p rest ih =>
      have hsend : Deed hash operation n (n.sendData p (data.arrived ingress.face)) :=
        .sendData n p hcall
      exact hsend.deeds.trans (ih _)

theorem deeds_receiveData (h : fw.Valid) {data : Data}
    (hcall : operation = .receive now ingress (.data data))
    (hreceive : fw.receiveData now ingress data = .ok fw') :
    Deeds fw.hash operation { fw.node with now } fw'.node := by
  let noted := noteData now ingress data fw.node
  have halike : Node.Alike { fw.node with now } noted := ⟨rfl, rfl, rfl, rfl, rfl⟩
  have hnoted : Deeds fw.hash operation { fw.node with now } noted := (Deed.aside halike rfl).deeds
  have hsound : noted.Sound := hnoted.sound (h.tick now).node.sound
  have hanswers {tokens : List PitToken} {compared : Nat}
      (hanswered : fw.node.tables.answeredBy data.name (data.implicitDigest fw.hash) =
        .ok (tokens, compared)) : ∀ token ∈ tokens, ∀ e, noted.tables.pit.get? token = some e →
          e.interest.isAnsweredBy data.name (data.implicitDigest fw.hash) = true := by
    obtain ⟨found, _, hfound, _, hmem⟩ :=
      Tables.answeredBy_ok h.node.indexed data.name (data.implicitDigest fw.hash)
    rw [hanswered] at hfound
    cases hfound
    intro token member e hget
    obtain ⟨e', hget', hanswer⟩ := (hmem token).mp member
    have hsame : e' = e := Option.some.inj (hget'.symm.trans hget)
    exact hsame ▸ hanswer
  cases receiveData_cases h.builtIn hreceive with
  | unknownFace n hinfo hquiet => exact deeds_of_quiet hquiet
  | violation n info hinfo hscope hquiet => exact hnoted.trans (deeds_of_quiet hquiet)
  | unsolicited n store info compared hinfo hanswered hquiet =>
      exact hnoted.trans (deeds_of_quiet hquiet)
  | one store info token compared e g hinfo hanswered hget hquiet =>
      have hserve : Focus.Deed fw.hash operation ⟨noted, token, e⟩
          (closeEntry ingress data (g.sendDataToAll ingress (data.arrived ingress.face))) :=
        .serve hcall (hanswers hanswered token List.mem_cons_self e hget)
          (served_one (hsound.focus hget) hquiet)
      exact hnoted.trans (Deeds.onEntry hsound hget hserve.deeds)
  | several store info tokens compared last peers hinfo hanswered htokens =>
      have hlisted : BuiltInOnly { fw with node := noted, store } := h.builtIn
      have heach : Deeds fw.hash operation noted last.node :=
        deeds_satisfyEach hlisted hsound hcall (hanswers hanswered) htokens
      exact (hnoted.trans heach).trans (deeds_sendDataEach hcall _ last.node)

/-! ### Nacks -/

theorem deeds_receiveNack (h : fw.Valid) {nack : Nack}
    (hcall : operation = .receive now ingress (.nack nack))
    (hreceive : fw.receiveNack now ingress nack = .ok fw') :
    Deeds hash operation { fw.node with now } fw'.node := by
  have hnoted : Deeds hash operation { fw.node with now } (noteNack now fw.node) :=
    deeds_of_quiet (quiet_noteNack now fw.node)
  have hsound := hnoted.sound (h.tick now).node.sound
  cases receiveNack_cases h.builtIn hreceive with
  | ignored n hquiet => exact deeds_of_quiet hquiet
  | refused token e g hget hquiet =>
      exact hnoted.trans (Deeds.onEntry hsound hget (Focus.Deed.talk hquiet).deeds)
  | accepted token e g f hget harrival hquiet hmoves hpassed =>
      obtain ⟨tagged, rfl⟩ := hpassed
      have hnack : Focus.Deed hash operation g (recordNack ingress.face nack.reason g) :=
        .nacked g hcall
      have htalk : Focus.Deed hash operation _ g := .talk hquiet
      have hfocus := htalk.sound (hsound.focus hget)
      have hworks := (htalk.deeds.trans hnack.deeds).trans
        (Focus.deeds_passNackOn tagged ingress (hnack.sound hfocus).distinct)
      exact hnoted.trans (Deeds.onEntry hsound hget hworks)

/-! ### Routes and faces -/

/-- A route that is not added leaves the clock unread. -/
theorem deeds_addRoute (h : fw.Valid) {stem : Name} {face : FaceId} {cost : Nat} {isAdded : Bool}
    (hcall : operation = .addRoute now stem face cost)
    (hadd : fw.addRoute now stem face cost = .ok (isAdded, fw')) :
    Deeds hash operation fw.node fw'.node ∨
      Deeds hash operation { fw.node with now } fw'.node := by
  rcases addRoute_cases hadd with rfl | ⟨n, tokens, _, hquiet, hfold⟩
  · exact .inl (deeds_of_quiet (quiet_say _ _))
  · right
    have hadded : Node.Alike { fw.node with now }
        { fw.node with now, tables := (fw.node.tables.addNextHop stem face cost).2 } :=
      ⟨rfl, rfl, rfl, rfl, rfl⟩
    have hstart : Deeds hash operation { fw.node with now } n :=
      (Deed.aside hadded rfl).deeds.trans (deeds_of_quiet hquiet)
    have hend := foldlM_preserve
      (P := fun s => s.BuiltInOnly ∧ Deeds hash operation { fw.node with now } s.node)
      (fun s token s' hstep hs => by
        obtain ⟨e, b, hget, rfl⟩ := offer_eq hs.1 hstep
        have hsound := hs.2.sound (h.tick now).node.sound
        have hworks : Focus.Deeds hash operation ⟨s.node, token, e⟩
            (b.strategy.afterNewNextHop { cost, face } ⟨s.node, token, e⟩) :=
          b.deeds_afterNewNextHop hcall _
        exact ⟨hs.1, hs.2.trans (Deeds.onEntry hsound hget hworks)⟩)
      hfold ⟨h.builtIn, hstart⟩
    exact hend.2

theorem info?_remove {t t' : FaceTable} {face : FaceId} (h : t.remove face = (true, t'))
    {g : FaceId} {info : FaceInfo} (hinfo : t'.info? g = some info) : t.info? g = some info := by
  have hkept := (FaceTable.contains_remove h g).mp (FaceTable.contains_of_info? hinfo)
  rw [FaceTable.remove] at h
  split at h
  · cases h
  · split at h
    · cases h
      rw [← hinfo, FaceTable.info?, FaceTable.info?, FaceTable.find?, FaceTable.find?,
        List.find?_filter]
      congr 2
      funext f
      by_cases hsame : f.info.face = g
      · simp [hsame, hkept.2]
      · simp [hsame]
    · cases h

theorem deeds_removeFace (h : fw.Valid) {face : FaceId} {isRemoved : Bool}
    (hcall : operation = .removeFace now face)
    (hremove : fw.removeFace now face = .ok (isRemoved, fw')) :
    Deeds hash operation { fw.node with now } fw'.node := by
  rcases removeFace_cases hremove with rfl | ⟨faces, n, last, htable, hquiet, hfold, rfl⟩
  · exact .refl _
  · have hcut : Node.Alike { fw.node with now }
        { fw.node with now, faces, tables := fw.node.tables.forgetNextHop face } :=
      ⟨rfl, rfl, rfl, rfl, rfl⟩
    have hstart : Deeds hash operation { fw.node with now } n :=
      (Deed.dropFace hcut fun _ _ => info?_remove htable).deeds.trans (deeds_of_quiet hquiet)
    have hend := foldlM_preserve
      (P := fun s => Deeds hash operation { fw.node with now } s.node)
      (fun s token s' hstep hs => by
        obtain ⟨e, f, hget, hwork, rfl⟩ := atEntry_eq_ok.mp hstep
        cases hwork
        have hsound := hs.sound (h.tick now).node.sound
        have hforget : Focus.Deed hash operation ⟨s.node, token, e⟩
            (forgetFace face ⟨s.node, token, e⟩) := .forget _ hcall
        exact hs.trans (Deeds.onEntry hsound hget hforget.deeds))
      hfold hstart
    have hlast : last.node.Alike { last.node with
        disconnected := last.node.disconnected.filter (· ≠ face) } := ⟨rfl, rfl, rfl, rfl, rfl⟩
    exact hend.trans (Deed.aside hlast rfl).deeds

theorem deeds_addFace (h : fw.Valid) (hcall : operation.reading? = none) (takes : Nat → Bool)
    (scope : FaceScope) (link : LinkType) :
    Deeds hash operation fw.node (((fw.addFace takes scope link).map Prod.snd).getD fw).node := by
  rw [Forwarder.addFace]
  cases hadd : fw.node.faces.add takes scope link with
  | none => exact .refl _
  | some added =>
      obtain ⟨face, faces⟩ := added
      have halike : fw.node.Alike ((fw.onNode fun n => { n with faces }).say
          (.faceAdded { face, scope, link })).node := ⟨rfl, rfl, rfl, rfl, rfl⟩
      have hknown (token : PitToken) (e : PitEntry)
          (hget : fw.node.tables.pit.get? token = some e) := (h.node.wellKept token e hget).known
      refine (Deed.addFace hcall halike hknown ?_).deeds
      intro g hg
      obtain ⟨f, hfind⟩ := Option.isSome_iff_exists.mp hg
      have hkept : faces.find? g = some f := FaceTable.find?_add hadd hfind
      have hfaces : ((fw.onNode fun n => { n with faces }).say
          (.faceAdded { face, scope, link })).node.faces = faces := rfl
      rw [hfaces, FaceTable.info?, FaceTable.info?, hkept, hfind]

/-! ### Timers -/

/-- A timer that fires leaves the node as it is after its entry has ended. -/
theorem fire_eq {timer : Timer PitToken} {e : PitEntry}
    (hget : fw.node.tables.pit.get? timer.entry = some e) (hid : e.expiryTimer = some timer.id) :
    fw.fire timer = (true, { fw with node := fw.node.ending timer.entry e }) := by
  have hfocus := Node.focus_eq_ok.mpr ⟨e, hget, rfl⟩
  simp only [fire, hfocus, hid, ↓reduceIte]
  rfl

/-- The node after the entries of some timers have ended, one after another. -/
def endingEach (n : Node) : List (Timer PitToken) → Node
  | [] => n
  | timer :: rest =>
    match n.tables.pit.get? timer.entry with
    | some e => endingEach (n.ending timer.entry e) rest
    | none => endingEach n rest

theorem endingEach_cons {n : Node} {timer : Timer PitToken} {e : PitEntry}
    (hget : n.tables.pit.get? timer.entry = some e) (rest : List (Timer PitToken)) :
    endingEach n (timer :: rest) = endingEach (n.ending timer.entry e) rest := by
  rw [endingEach, hget]

theorem fires_of_due (fw : Forwarder) {due : List (Timer PitToken)} {count : Nat}
    (h : (rearm due fw.node).Valid count) (ended : Nat) :
    (due.foldl (fun (count, fw) timer =>
      let (ended, fw) := Forwarder.fire fw timer
      (if ended then count + 1 else count, fw)) (ended, fw)).2 =
        { fw with node := endingEach fw.node due } := by
  induction due generalizing fw ended with
  | nil => rfl
  | cons timer rest ih =>
      obtain ⟨e, hget, hid⟩ := h.timed.owned timer List.mem_cons_self
      have hlive : fw.node.tables.pit.get? timer.entry = some e := hget
      let parted : Forwarder := { fw with node := fw.node.ending timer.entry e }
      have hvalid : (rearm rest parted.node).Valid count := valid_of_ended h (ended_ending hlive)
      have hrest := ih parted hvalid (ended + 1)
      simp only [List.foldl_cons, fire_eq hlive hid, ↓reduceIte]
      rw [endingEach_cons hlive]
      exact hrest

/-- The node when the timers are run, before any of them has fired. -/
def disarmed (fw : Forwarder) (now : Timestamp) : Node :=
  { fw.node with now, timers := (fw.node.timers.takeDue now).2 }

theorem rearm_disarmed (fw : Forwarder) (now : Timestamp) :
    rearm (fw.node.timers.takeDue now).1 (fw.disarmed now) = { fw.node with now } := by
  rw [rearm, disarmed]
  simp only [TimerQueue.takeDue_append]
  rfl

theorem valid_disarmed {count : Nat} (h : fw.node.Valid count) (now : Timestamp) :
    (rearm (fw.node.timers.takeDue now).1 (fw.disarmed now)).Valid count := by
  rw [rearm_disarmed]
  exact h.congr rfl rfl rfl

/-- Running the timers ends the entries of all timers that are due, in the order they fire. -/
theorem runTimers_eq {count : Nat} (h : fw.node.Valid count) (now : Timestamp) :
    (fw.runTimers now).2 = { fw with
      node := endingEach (fw.disarmed now) (fw.node.timers.takeDue now).1 } :=
  fires_of_due { fw with node := fw.disarmed now } (valid_disarmed h now) 0

theorem deeds_endingEach (hcall : operation = .runTimers now) {n : Node} {count : Nat}
    {due : List (Timer PitToken)} (h : (rearm due n).Valid count)
    (hdue : ∀ t ∈ due, t.deadline ≤ n.now) :
    Deeds hash operation (rearm due n) (endingEach n due) := by
  induction due generalizing n with
  | nil => exact .refl _
  | cons timer rest ih =>
      obtain ⟨e, hget, hid⟩ := h.timed.owned timer List.mem_cons_self
      have hlive : n.tables.pit.get? timer.entry = some e := hget
      have hended : Ended n (n.ending timer.entry e) timer.entry := ended_ending hget
      have hfinish : Deed hash operation (rearm (timer :: rest) n)
          (rearm rest (n.ending timer.entry e)) :=
        .finish hcall h.timed hget hid (hdue timer List.mem_cons_self)
      have hlater : ∀ t ∈ rest, t.deadline ≤ (n.ending timer.entry e).now := by
        intro t ht
        rw [hended.now]
        exact hdue t (List.mem_cons_of_mem timer ht)
      rw [endingEach_cons hlive]
      exact hfinish.deeds.trans (ih (valid_of_ended h hended) hlater)

theorem deeds_runTimers (h : fw.Valid) (hcall : operation = .runTimers now) :
    Deeds hash operation { fw.node with now } (fw.runTimers now).2.node := by
  have hdue : ∀ t ∈ (fw.node.timers.takeDue now).1, t.deadline ≤ (fw.disarmed now).now := by
    intro t ht
    exact of_decide_eq_true (List.all_eq_true.mp List.all_takeWhile t ht)
  have hdeeds : Deeds hash operation _ _ := deeds_endingEach hcall (valid_disarmed h.node now) hdue
  rw [rearm_disarmed] at hdeeds
  rw [runTimers_eq h.node now]
  exact hdeeds

/-! ### Every operation -/

/-- The node at the start of an operation, when the clock may have been read. -/
def begun (fw : Forwarder) (operation : Operation) (n : Node) : Prop :=
  n = fw.node ∨ ∃ now, operation.reading? = some now ∧ n = { fw.node with now }

theorem info?_hangUp (fw : Forwarder) (face : FaceId) :
    (fw.hangUp face).node.faces.info? = fw.node.faces.info? :=
  FaceTable.info?_modify fw.node.faces face fun _ => rfl

/-- Every operation is a sequence of deeds. -/
theorem deeds_perform (h : fw.Valid) (hperform : fw.perform operation = .ok fw') :
    ∃ n, fw.begun operation n ∧ Deeds fw.hash operation n fw'.node := by
  have hread {now : Timestamp} (hreading : operation.reading? = some now)
      (hdeeds : Deeds fw.hash operation { fw.node with now } fw'.node) :
      ∃ n, fw.begun operation n ∧ Deeds fw.hash operation n fw'.node :=
    ⟨_, .inr ⟨now, hreading, rfl⟩, hdeeds⟩
  have haside (halike : fw.node.Alike fw'.node)
      (hinfo : fw'.node.faces.info? = fw.node.faces.info?) :
      ∃ n, fw.begun operation n ∧ Deeds fw.hash operation n fw'.node :=
    ⟨_, .inl rfl, (Deed.aside halike hinfo).deeds⟩
  cases operation with
  | receive now ingress packet =>
      cases packet with
      | interest i => exact hread rfl (deeds_receiveInterest h rfl hperform)
      | data d => exact hread rfl (deeds_receiveData h rfl hperform)
      | nack k => exact hread rfl (deeds_receiveNack h rfl hperform)
  | addRoute now stem face cost =>
      obtain ⟨⟨isAdded, last⟩, hadd, rfl⟩ := map_eq_ok.mp hperform
      rcases deeds_addRoute h rfl hadd with hdeeds | hdeeds
      · exact ⟨_, .inl rfl, hdeeds⟩
      · exact hread rfl hdeeds
  | removeFace now face =>
      obtain ⟨⟨isRemoved, last⟩, hremove, rfl⟩ := map_eq_ok.mp hperform
      exact hread rfl (deeds_removeFace h rfl hremove)
  | dropInterest now egress interest =>
      obtain ⟨n, hquiet, rfl⟩ := onDroppedInterest_cases h.builtIn hperform
      exact hread rfl (deeds_of_quiet hquiet)
  | runTimers now =>
      cases hperform
      exact hread rfl (deeds_runTimers h rfl)
  | addFace takes scope link =>
      cases hperform
      exact ⟨_, .inl rfl, deeds_addFace h rfl takes scope link⟩
  | hangUp face =>
      cases hperform
      exact haside ⟨rfl, rfl, rfl, rfl, rfl⟩ (info?_hangUp fw face)
  | setStrategy stem id =>
      cases hperform
      refine haside ?_ ?_
      · rw [Forwarder.setStrategy]
        split <;> exact ⟨rfl, rfl, rfl, rfl, rfl⟩
      · rw [Forwarder.setStrategy]
        split <;> rfl
  | unsetStrategy stem =>
      cases hperform
      refine haside ?_ rfl
      rw [Forwarder.unsetStrategy, Tables.unsetStrategy]
      cases stem.isEmpty <;> exact ⟨rfl, rfl, rfl, rfl, rfl⟩
  | _ =>
      cases hperform
      exact haside ⟨rfl, rfl, rfl, rfl, rfl⟩ rfl

end Forwarder

end NamedData
