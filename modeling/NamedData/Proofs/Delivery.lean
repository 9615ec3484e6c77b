import NamedData.Proofs.Closing
import NamedData.Proofs.Runs

/-!
Delivery of incoming Data. The strategy sends Data for a single entry on; the forwarder itself sends
Data for several entries, once to each peer that waits in any of them. Both ways serve the same
peers in the same order, and both close every entry that the Data answers and touch no other.
-/

namespace NamedData

/-- The peer waits for the Data in one of the entries that the Data answers. -/
def Node.Awaits (n : Node) (ingress : FaceId) (isAdHoc : Bool) (data : Data) (digest : Digest)
    (p : FaceEndpoint) : Prop :=
  ∃ token e r, n.tables.pit.get? token = some e ∧
    e.interest.isAnsweredBy data.name digest = true ∧ r ∈ e.inRecords ∧
    r.isServed n.now ingress isAdHoc = true ∧ r.peer = p

/-- Data may go out of the face: it is not under `/localhost`, or the face is local. -/
def Node.LetsOut (n : Node) (data : Data) (face : FaceId) : Prop :=
  ∀ info, n.faces.info? face = some info → info.isLocal = true ∨ data.name.isLocalhost = false

theorem Node.lets_iff {n : Node} {data : Data} {face : FaceId}
    (hknown : n.faces.contains face = true) : n.lets data face = true ↔ n.LetsOut data face := by
  rw [FaceTable.contains_eq] at hknown
  obtain ⟨info, hinfo⟩ := Option.isSome_iff_exists.mp hknown
  simp [lets, LetsOut, hinfo]

/-- Of the peers that wait, those are served whose face lets the Data out. -/
theorem Node.Valid.mem_served {n : Node} {count : Nat} (h : n.Valid count) {ingress : FaceId}
    {isAdHoc : Bool} {data : Data} {digest : Digest} {peers : List FaceEndpoint}
    (hpeers : ∀ p, p ∈ peers ↔ n.Awaits ingress isAdHoc data digest p) (p : FaceEndpoint) :
    p ∈ peers.filter (fun p => n.lets data p.face) ↔
      n.Awaits ingress isAdHoc data digest p ∧ n.LetsOut data p.face := by
  rw [List.mem_filter, hpeers]
  apply and_congr_right
  rintro ⟨token, e, r, hget, _, hr, _, rfl⟩
  have hknown := (h.wellKept token e hget).known.inFaces r.face
    (PitEntry.mem_inFaces.mpr ⟨r, hr, rfl⟩)
  exact Node.lets_iff hknown

namespace Forwarder

variable {fw fw' : Forwarder} {now : Timestamp} {ingress : FaceEndpoint} {token : PitToken}
  {data : Data} {e : PitEntry}

/-! ### The pipeline does not fail -/

theorem consults (fw : Forwarder) (hpos : 0 < fw.strategies.length) {f : Focus}
    (hregistered : f.node.tables.Registered fw.strategies.length) (ask : Strategy → Focus → Focus) :
    ∃ f', fw.consult f ask = .ok f' := by
  have hlt := Tables.effectiveStrategy_lt hregistered hpos f.entry.name
  exact ⟨_, consult_eq_ok.mpr ⟨_, List.getElem?_eq_getElem hlt, rfl⟩⟩

theorem Valid.consult_ok (h : fw.Valid) {f : Focus}
    (hregistered : f.node.tables.Registered fw.strategies.length) (ask : Strategy → Focus → Focus) :
    ∃ f', fw.consult f ask = .ok f' :=
  consults fw h.hasStrategy hregistered ask

theorem Valid.satisfyOne_ok (h : fw.Valid) (hget : fw.node.tables.pit.get? token = some e)
    (ingress : FaceEndpoint) (data : Data) :
    ∃ fw', fw.satisfyOne ingress data token = .ok fw' := by
  let f := announce ingress data (sayMatching ingress data ⟨fw.node, token, e⟩)
  obtain ⟨f', hconsult⟩ := h.consult_ok (f := f) h.node.registered
    fun s f => s.afterData data ingress (s.beforeSatisfy data ingress f)
  exact ⟨_, atEntry_eq_ok.mpr
    ⟨e, closeEntry ingress data f', hget, bind_eq_ok.mpr ⟨f', hconsult, rfl⟩, rfl⟩⟩

theorem Valid.satisfyAmong_ok (h : fw.Valid) (hget : fw.node.tables.pit.get? token = some e)
    (ingress : FaceEndpoint) (data : Data) (peers : List FaceEndpoint) :
    ∃ s, Forwarder.satisfyAmong ingress data (fw, peers) token = .ok s := by
  let f := announce ingress data (sayMatching ingress data ⟨fw.node, token, e⟩)
  obtain ⟨f', hconsult⟩ := h.consult_ok (f := f) h.node.registered
    fun s f => s.beforeSatisfy data ingress f
  exact ⟨_, bind_eq_ok.mpr
    ⟨_, Node.focus_eq_ok.mpr ⟨e, hget, rfl⟩, bind_eq_ok.mpr ⟨f', hconsult, rfl⟩⟩⟩

/-! ### One entry after another -/

theorem mem_livePeers {p : FaceEndpoint} :
    p ∈ livePeers e now ↔ ∃ r ∈ e.inRecords, r.isLive now = true ∧ r.peer = p := by
  simp [livePeers, and_assoc]

theorem satisfyAmong_answers (h : fw.Valid) (hget : fw.node.tables.pit.get? token = some e)
    (ingress : FaceEndpoint) (data : Data) (peers : List FaceEndpoint) :
    ∃ fw', satisfyAmong ingress data (fw, peers) token =
        .ok (fw', peers ++ livePeers e fw.node.now) ∧ fw'.Valid ∧
      fw.node.Answered fw'.node [token] ingress.face data.freshness (fun _ => []) ∧
      fw'.node.journal.sent = fw.node.journal.sent := by
  obtain ⟨⟨fw', peers'⟩, hok⟩ := h.satisfyAmong_ok hget ingress data peers
  have hvalid := h.satisfyAmong hok
  obtain ⟨e', g, hget', hquiet, rfl, rfl⟩ := satisfyAmong_cases h.builtIn hok
  rw [hget, Option.some.injEq] at hget'
  subst hget'
  refine ⟨_, hok, hvalid, answered_among h.node hget hquiet, ?_⟩
  exact (sent_closeEntry ingress data g).trans hquiet.node.sent

/-- Data for several entries closes all of them and collects those who wait. -/
theorem satisfyEach_answers {tokens : List PitToken} (h : fw.Valid) (hnodup : tokens.Nodup)
    (hlive : ∀ token ∈ tokens, ∃ e, fw.node.tables.pit.get? token = some e)
    (ingress : FaceEndpoint) (data : Data) (peers : List FaceEndpoint) :
    ∃ last collected, tokens.foldlM (satisfyAmong ingress data) (fw, peers) =
        .ok (last, collected) ∧
      fw.node.Answered last.node tokens ingress.face data.freshness (fun _ => []) ∧
      last.node.journal.sent = fw.node.journal.sent ∧
      ∀ p, p ∈ collected ↔ p ∈ peers ∨ ∃ token ∈ tokens, ∃ e,
        fw.node.tables.pit.get? token = some e ∧ p ∈ livePeers e fw.node.now := by
  induction tokens generalizing fw peers with
  | nil => exact ⟨fw, peers, rfl, .refl _ _ _ _, rfl, by simp⟩
  | cons token rest ih =>
      obtain ⟨hnew, hrest⟩ := List.nodup_cons.mp hnodup
      obtain ⟨e, hget⟩ := hlive token List.mem_cons_self
      obtain ⟨fw₁, hfirst, hvalid, hanswered, hsent⟩ :=
        satisfyAmong_answers h hget ingress data peers
      -- The tokens differ, so that the entries to come are still as they were at the start.
      have hsame (u : PitToken) (hu : u ∈ rest) :
          fw₁.node.tables.pit.get? u = fw.node.tables.pit.get? u := by
        apply hanswered.others
        intro member
        exact hnew (List.mem_singleton.mp member ▸ hu)
      have hlive₁ : ∀ u ∈ rest, ∃ e, fw₁.node.tables.pit.get? u = some e := by
        intro u hu
        rw [hsame u hu]
        exact hlive u (List.mem_cons_of_mem token hu)
      obtain ⟨last, collected, hlast, hanswered', hsent', hcollected⟩ :=
        ih hvalid hrest hlive₁ (peers ++ livePeers e fw.node.now)
      refine ⟨last, collected, ?_, hanswered.cons hnew hanswered', hsent'.trans hsent, ?_⟩
      · rw [List.foldlM_cons]
        exact bind_eq_ok.mpr ⟨_, hfirst, hlast⟩
      · intro p
        rw [hcollected, List.mem_append, hanswered.now, or_assoc]
        apply or_congr_right
        constructor
        · rintro (hp | ⟨u, hu, e', hget', hp⟩)
          · exact ⟨token, List.mem_cons_self, e, hget, hp⟩
          · exact ⟨u, List.mem_cons_of_mem token hu, e', (hsame u hu).symm.trans hget', hp⟩
        · rintro ⟨u, hu, e', hget', hp⟩
          rcases List.mem_cons.mp hu with rfl | later
          · rw [hget, Option.some.injEq] at hget'
            exact .inl (hget' ▸ hp)
          · exact .inr ⟨u, later, e', (hsame u later).trans hget', hp⟩

/-! ### The pipeline -/

/-- The forwarder has counted the Data and has offered it to the content store. -/
def kept (fw : Forwarder) (now : Timestamp) (ingress : FaceEndpoint) (data : Data) : Forwarder :=
  (fw.onNode (noteData now ingress data)).keep { data with incomingFace := some ingress.face }
    (data.implicitDigest fw.hash)

theorem receiveData_one {info : FaceInfo} (hinfo : fw.node.faces.info? ingress.face = some info)
    (hscope : (!info.isLocal && data.name.isLocalhost) = false) {compared : Nat}
    (hanswered : fw.node.tables.answeredBy data.name (data.implicitDigest fw.hash) =
      .ok ([token], compared)) :
    fw.receiveData now ingress data = (fw.kept now ingress data).satisfyOne ingress
      { data with incomingFace := some ingress.face } token := by
  have htick : (fw.tick now).node.faces.info? ingress.face = some info := hinfo
  simp only [receiveData, htick, hscope, Bool.false_eq_true, ↓reduceIte]
  change fw.node.tables.answeredBy data.name (data.implicitDigest fw.hash) >>= _ = _
  rw [hanswered]
  rfl

theorem receiveData_several {info : FaceInfo}
    (hinfo : fw.node.faces.info? ingress.face = some info)
    (hscope : (!info.isLocal && data.name.isLocalhost) = false) {first second : PitToken}
    {rest : List PitToken} {compared : Nat}
    (hanswered : fw.node.tables.answeredBy data.name (data.implicitDigest fw.hash) =
      .ok (first :: second :: rest, compared)) :
    fw.receiveData now ingress data = (fw.kept now ingress data).satisfyAll ingress info
      { data with incomingFace := some ingress.face } (first :: second :: rest) := by
  have htick : (fw.tick now).node.faces.info? ingress.face = some info := hinfo
  simp only [receiveData, htick, hscope, Bool.false_eq_true, ↓reduceIte]
  change fw.node.tables.answeredBy data.name (data.implicitDigest fw.hash) >>= _ = _
  rw [hanswered]
  rfl

theorem Valid.kept (h : fw.Valid) (now : Timestamp) (ingress : FaceEndpoint) (data : Data) :
    (fw.kept now ingress data).Valid :=
  h.of_node rfl (h.node.congr rfl rfl rfl)

end Forwarder

/-- The second node is the first one after it took in Data that answers some of its entries. Every
peer that waits in one of them gets the Data once, in ascending order, unless the Data may not go
out of its face; nothing else is sent. The entries are closed and no other is touched. Those who
wait without being served stay in a single entry, while several entries are left with nobody. -/
structure Node.Delivered (n m : Node) (ingress : FaceEndpoint) (info : FaceInfo) (data : Data)
    (digest : Digest) : Prop where
  served : ∃ peers, n.SentTo m { data with incomingFace := some ingress.face } peers ∧
    peers.Pairwise (fun p q => p.before q = true) ∧
    ∀ p, p ∈ peers ↔
      n.Awaits ingress.face info.isAdHoc data digest p ∧ n.LetsOut data p.face
  closed : ∃ tokens, tokens.Nodup ∧
    (∀ token, token ∈ tokens ↔ ∃ e, n.tables.pit.get? token = some e ∧
      e.interest.isAnsweredBy data.name digest = true) ∧
    n.Answered m tokens ingress.face data.freshness fun e =>
      if tokens.length = 1 then
        e.inRecords.filter fun r => !r.isServed n.now ingress.face info.isAdHoc
      else []

namespace Forwarder

variable {fw : Forwarder} {ingress : FaceEndpoint} {info : FaceInfo} {data : Data}

/-- Counting the Data changes nothing that delivery depends on. -/
theorem delivered_of_noted {n m : Node} {now : Timestamp} {digest : Digest}
    (h : (noteData now ingress data n).Delivered m ingress info data digest) :
    Node.Delivered { n with now } m ingress info data digest where
  served := h.served
  closed := by
    obtain ⟨tokens, hnodup, hmem, hanswered⟩ := h.closed
    exact ⟨tokens, hnodup, hmem, hanswered.entries, hanswered.others, hanswered.timers,
      hanswered.now, hanswered.info?⟩

theorem satisfyOne_delivers (h : fw.Valid)
    (hinfo : fw.node.faces.info? ingress.face = some info) {digest : Digest} {token : PitToken}
    (hmem : ∀ u, u ∈ [token] ↔ ∃ e, fw.node.tables.pit.get? u = some e ∧
      e.interest.isAnsweredBy data.name digest = true) :
    ∃ fw', fw.satisfyOne ingress { data with incomingFace := some ingress.face } token = .ok fw' ∧
      fw.node.Delivered fw'.node ingress info data digest := by
  obtain ⟨e, hget, hanswer⟩ := (hmem token).mp (List.mem_singleton_self token)
  obtain ⟨fw', hok⟩ :=
    h.satisfyOne_ok hget ingress { data with incomingFace := some ingress.face }
  obtain ⟨e', g, hget', hquiet, rfl⟩ := satisfyOne_cases h.builtIn hok
  rw [hget, Option.some.injEq] at hget'
  subst hget'
  have hawaits (p : FaceEndpoint) : p ∈ g.waiting ingress.face ↔
      fw.node.Awaits ingress.face info.isAdHoc data digest p := by
    rw [mem_waiting_one hinfo hquiet]
    constructor
    · rintro ⟨r, hr, hserved, hpeer⟩
      exact ⟨token, e, r, hget, hanswer, hr, hserved, hpeer⟩
    · rintro ⟨u, e', r, hget', hanswer', hr, hserved, hpeer⟩
      have same := List.mem_singleton.mp ((hmem u).mpr ⟨e', hget', hanswer'⟩)
      rw [same, hget, Option.some.injEq] at hget'
      exact ⟨r, hget' ▸ hr, hserved, hpeer⟩
  refine ⟨_, hok, ?_, ?_⟩
  · refine ⟨_, sent_one hquiet, ?_, h.node.mem_served hawaits⟩
    exact (FaceEndpoint.pairwise_ordered _).sublist List.filter_sublist
  · exact ⟨[token], List.nodup_singleton token, hmem, answered_one h.node hget hinfo hquiet⟩

/-- Of the peers collected from all entries that the Data answers, those are kept that wait for
it. -/
theorem mem_collected_iff {n : Node} {digest : Digest} {tokens : List PitToken}
    {collected : List FaceEndpoint}
    (hmem : ∀ u, u ∈ tokens ↔ ∃ e, n.tables.pit.get? u = some e ∧
      e.interest.isAnsweredBy data.name digest = true)
    (hcollected : ∀ p, p ∈ collected ↔ ∃ u ∈ tokens, ∃ e, n.tables.pit.get? u = some e ∧
      p ∈ livePeers e n.now) (p : FaceEndpoint) :
    p ∈ (FaceEndpoint.ordered collected).filter
        (fun p => p.face ≠ ingress.face || info.isAdHoc) ↔
      n.Awaits ingress.face info.isAdHoc data digest p := by
  rw [List.mem_filter, FaceEndpoint.mem_ordered, hcollected, Bool.or_eq_true, decide_eq_true_iff]
  constructor
  · rintro ⟨⟨u, hu, e, hget, hp⟩, hother⟩
    obtain ⟨e', hget', hanswer⟩ := (hmem u).mp hu
    obtain ⟨r, hr, hlive, rfl⟩ := mem_livePeers.mp hp
    rw [hget, Option.some.injEq] at hget'
    exact ⟨u, e, r, hget, hget' ▸ hanswer, hr, Focus.isServed_iff.mpr ⟨hlive, hother⟩, rfl⟩
  · rintro ⟨u, e, r, hget, hanswer, hr, hserved, rfl⟩
    obtain ⟨hlive, hother⟩ := Focus.isServed_iff.mp hserved
    have hu := (hmem u).mpr ⟨e, hget, hanswer⟩
    exact ⟨⟨u, hu, e, hget, mem_livePeers.mpr ⟨r, hr, hlive, rfl⟩⟩, hother⟩

theorem satisfyAll_delivers (h : fw.Valid) {digest : Digest} {tokens : List PitToken}
    (hnodup : tokens.Nodup) (hseveral : tokens.length ≠ 1)
    (hmem : ∀ u, u ∈ tokens ↔ ∃ e, fw.node.tables.pit.get? u = some e ∧
      e.interest.isAnsweredBy data.name digest = true) :
    ∃ fw', fw.satisfyAll ingress info { data with incomingFace := some ingress.face } tokens =
        .ok fw' ∧ fw.node.Delivered fw'.node ingress info data digest := by
  have hlive (token : PitToken) (member : token ∈ tokens) :
      ∃ e, fw.node.tables.pit.get? token = some e := by
    obtain ⟨e, hget, _⟩ := (hmem token).mp member
    exact ⟨e, hget⟩
  let sent : Data := { data with incomingFace := some ingress.face }
  obtain ⟨last, collected, hfold, hanswered, hsent, hcollected⟩ :=
    satisfyEach_answers h hnodup hlive ingress sent []
  let peers := (FaceEndpoint.ordered collected).filter fun p =>
    p.face ≠ ingress.face || info.isAdHoc
  have hawaits : ∀ p, p ∈ peers ↔ fw.node.Awaits ingress.face info.isAdHoc data digest p :=
    mem_collected_iff hmem (by simpa using hcollected)
  have hmoved := unmoved_sendDataEach sent peers last.node
  obtain ⟨out, hout, hpeers, hpackets⟩ := Node.sent_sendDataEach sent peers last.node
  have hlets : last.node.lets = fw.node.lets := by
    funext data face
    rw [Node.lets, Node.lets, hanswered.info?]
  refine ⟨_, bind_eq_ok.mpr ⟨_, hfold, rfl⟩, ?_, ?_⟩
  · refine ⟨_, ⟨out, ?_, rfl, hpackets⟩, ?_, ?_⟩
    · rw [← hsent]
      exact hout
    · rw [hpeers]
      exact ((FaceEndpoint.pairwise_ordered _).sublist List.filter_sublist).sublist
        List.filter_sublist
    · rw [hpeers, hlets]
      exact h.node.mem_served hawaits
  · refine ⟨tokens, hnodup, hmem, ?_⟩
    simp only [hseveral, ↓reduceIte]
    exact hanswered.unmoved hmoved

/-- Data from a known face that answers pending entries and is not held back at the face is
delivered. -/
theorem Valid.delivers (h : fw.Valid) (now : Timestamp)
    (hinfo : fw.node.faces.info? ingress.face = some info)
    (hscope : info.isLocal = true ∨ data.name.isLocalhost = false)
    (hanswers : ∃ token e, fw.node.tables.pit.get? token = some e ∧
      e.interest.isAnsweredBy data.name (data.implicitDigest fw.hash) = true) :
    ∃ fw', fw.receiveData now ingress data = .ok fw' ∧
      Node.Delivered { fw.node with now } fw'.node ingress info data
        (data.implicitDigest fw.hash) := by
  have hkept := h.kept now ingress data
  have hin : (!info.isLocal && data.name.isLocalhost) = false := by
    rcases hscope with hlocal | hname
    · rw [hlocal]
      rfl
    · rw [hname, Bool.and_false]
  obtain ⟨tokens, compared, hanswered, hnodup, hmem⟩ :=
    Tables.answeredBy_ok h.node.indexed data.name (data.implicitDigest fw.hash)
  cases tokens with
  | nil =>
      obtain ⟨token, hanswer⟩ := hanswers
      exact absurd ((hmem token).mpr hanswer) List.not_mem_nil
  | cons first others =>
      cases others with
      | nil =>
          obtain ⟨fw', hok, hdelivered⟩ := satisfyOne_delivers hkept hinfo hmem
          rw [receiveData_one hinfo hin hanswered]
          exact ⟨fw', hok, delivered_of_noted hdelivered⟩
      | cons second rest =>
          have hseveral : (first :: second :: rest).length ≠ 1 := by simp
          obtain ⟨fw', hok, hdelivered⟩ := satisfyAll_delivers hkept hnodup hseveral hmem
          rw [receiveData_several hinfo hin hanswered]
          exact ⟨fw', hok, delivered_of_noted hdelivered⟩

end Forwarder

/-- In every run, Data from a known face that answers pending entries and is not held back at the
face is delivered, whatever the clock reads. -/
theorem delivered_once {settings : Settings} {store : ContentStore} {hash : HashFunction}
    {history : List Step} {fw : Forwarder}
    (run : Run (Forwarder.new settings store hash) history fw) (now : Timestamp)
    (ingress : FaceEndpoint) (data : Data) {info : FaceInfo}
    (hinfo : fw.node.faces.info? ingress.face = some info)
    (hscope : info.isLocal = true ∨ data.name.isLocalhost = false)
    (hanswers : ∃ token e, fw.node.tables.pit.get? token = some e ∧
      e.interest.isAnsweredBy data.name (data.implicitDigest fw.hash) = true) :
    ∃ fw', fw.receiveData now ingress data = .ok fw' ∧
      Node.Delivered { fw.node with now } fw'.node ingress info data
        (data.implicitDigest fw.hash) :=
  run.valid.delivers now hinfo hscope hanswers

/-- One face waits in two entries for the Data of another. -/
theorem delivered_once_for_two : ∃ history fw fw', Run Sample.start history fw ∧
    fw.node.tables.pit.size = 2 ∧ fw.receiveData ⟨4⟩ ⟨⟨257⟩, 0⟩ Sample.data = .ok fw' ∧
    Node.Delivered { fw.node with now := ⟨4⟩ } fw'.node ⟨⟨257⟩, 0⟩
      { face := ⟨257⟩, scope := .offHost, link := .pointToPoint } Sample.data
      (Sample.data.implicitDigest fw.hash) := by
  let calls : List Operation := Sample.askWide ⟨3⟩ ⟨2⟩ :: Sample.ask ⟨2⟩ ⟨1⟩ :: Sample.setup
  let fw := reached Sample.start calls
  have hrun : Run Sample.start (historyOf Sample.start calls) fw :=
    Run.reached _ calls (by decide +kernel)
  have hsize : fw.node.tables.pit.size = 2 := by decide +kernel
  have hinfo : fw.node.faces.info? ⟨257⟩ =
      some { face := ⟨257⟩, scope := .offHost, link := .pointToPoint } := by decide +kernel
  have hanswers : (fw.node.tables.pit.get? ⟨0, 0⟩).any (fun e => e.interest.isAnsweredBy
      Sample.data.name (Sample.data.implicitDigest fw.hash)) = true := by decide +kernel
  have hscope : Sample.data.name.isLocalhost = false := by decide
  obtain ⟨e, hget, hanswer⟩ := (Option.any_eq_true _ _).mp hanswers
  obtain ⟨fw', hok, hdelivered⟩ := delivered_once hrun ⟨4⟩ ⟨⟨257⟩, 0⟩ Sample.data hinfo
    (.inr hscope) ⟨_, e, hget, hanswer⟩
  exact ⟨_, fw, fw', hrun, hsize, hok, hdelivered⟩

end NamedData
