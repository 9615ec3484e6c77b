import NamedData.Proofs.Tending
import NamedData.Proofs.TreeOrder

/-!
States that a forwarder reaches with any strategies. Whoever runs it may register strategies of his
own, as long as they do nothing but what a strategy may do. Every operation then ends without a
fault and keeps the invariant; a run with built-in strategies only is a special case.
-/

namespace NamedData

/-- Every token that is listed at a name or below it is alive. -/
theorem Tables.Indexed.pending_live {t : Tables} (h : t.Indexed) (stem : Name)
    {s : NameTree NameRecord} (hsub : t.tree.subtree? stem = some s) :
    ∀ r ∈ s.values, ∀ token ∈ r.pending, t.pit.contains token = true := by
  refine NameTree.forall_values (NameTree.ordered_of_subtree? h.ordered hsub) nofun
    fun n token member => ?_
  have hat : t.recordAt (stem ++ n) = s.get n := by
    rw [recordAt, NameTree.get_append, hsub]
    rfl
  obtain ⟨e, hget, _⟩ := (h.listed (stem ++ n) token).mp (hat ▸ member)
  exact Arena.contains_of_get? hget

namespace Forwarder

variable {fw fw' : Forwarder} {now : Timestamp} {ingress : FaceEndpoint} {token : PitToken}
  {e : PitEntry} {info : FaceInfo}

/-! ### Nacks -/

/-- The node has read the clock, counted a Nack and told what became of it. -/
def noteArrival (now : Timestamp) (ingress : FaceEndpoint) (nack : Nack) (arrival : NackArrival)
    (n : Node) : Node :=
  (noteNack now n).say (.incomingNack ingress.face nack.interest.name nack.reason arrival)

/-- How a Nack from a known face is judged, and what the forwarder is then. -/
inductive NackVerdict (fw : Forwarder) (now : Timestamp) (ingress : FaceEndpoint) (info : FaceInfo)
    (nack : Nack) : NackArrival → Forwarder → Prop where
  | wrongLink (hlink : info.isPointToPoint = false) :
      NackVerdict fw now ingress info nack (.wrongLink info.link)
        (fw.onNode (noteArrival now ingress nack (.wrongLink info.link)))
  | noEntry (hlink : info.isPointToPoint = true)
      (hnone : ∀ token e, fw.node.tables.pit.get? token = some e →
        e.interest.sameSelectors nack.interest = false) :
      NackVerdict fw now ingress info nack .noEntry
        (fw.onNode (noteArrival now ingress nack .noEntry))
  | refused (token : PitToken) (e : PitEntry) (hlink : info.isPointToPoint = true)
      (hget : fw.node.tables.pit.get? token = some e)
      (hsame : e.interest.sameSelectors nack.interest = true)
      (hrefused : nackArrival e ingress.face nack ≠ .accepted) :
      NackVerdict fw now ingress info nack (nackArrival e ingress.face nack)
        (fw.onNode (noteArrival now ingress nack (nackArrival e ingress.face nack)))
  | accepted (token : PitToken) (e : PitEntry) (s : Strategy)
      (hlink : info.isPointToPoint = true) (hget : fw.node.tables.pit.get? token = some e)
      (hsame : e.interest.sameSelectors nack.interest = true)
      (haccepted : nackArrival e ingress.face nack = .accepted)
      (hs : fw.strategies[fw.node.tables.effectiveStrategy e.name]? = some s) (hlawful : s.Lawful) :
      NackVerdict fw now ingress info nack .accepted { fw with
        node := (s.afterNack { nack with incomingFace := some ingress.face } ingress
          (recordNack ingress.face nack.reason
            ⟨noteArrival now ingress nack .accepted fw.node, token, e⟩)).release }

/-- A Nack from a face that there is not is only told. -/
theorem receiveNack_of_unknown (fw : Forwarder) (now : Timestamp) {ingress : FaceEndpoint}
    (h : fw.node.faces.info? ingress.face = none) (nack : Nack) :
    fw.receiveNack now ingress nack = .ok ((fw.tick now).say
      (.incomingNack ingress.face nack.interest.name nack.reason .unknownFace)) := by
  have htick : (fw.tick now).node.faces.info? ingress.face = none := h
  simp only [receiveNack, htick]

/-- A Nack from a known face is judged, and its pipeline ends without a fault. -/
theorem Orderly.receiveNack_verdict (h : fw.Orderly)
    (hinfo : fw.node.faces.info? ingress.face = some info) (now : Timestamp) (nack : Nack) :
    ∃ arrival fw', fw.receiveNack now ingress nack = .ok fw' ∧
      NackVerdict fw now ingress info nack arrival fw' := by
  have htick : (fw.tick now).node.faces.info? ingress.face = some info := hinfo
  simp only [receiveNack, htick]
  cases hlink : info.isPointToPoint with
  | false => exact ⟨_, _, rfl, .wrongLink hlink⟩
  | true =>
      obtain ⟨found, hfind, hawaits⟩ :=
        h.node.valid.indexed.findPending_iff h.node.distinguished nack.interest
      cases found with
      | none =>
          refine ⟨_, _, bind_eq_ok.mpr ⟨none, hfind, rfl⟩, .noEntry hlink fun token e hget => ?_⟩
          exact Bool.eq_false_iff.mpr fun hsame => by
            cases (hawaits token).mpr ⟨e, hget, hsame⟩
      | some token =>
          obtain ⟨e, hget, hsame⟩ := (hawaits token).mp rfl
          refine Exists.imp (fun _ => Exists.imp fun _ => And.imp_left fun hrest =>
            bind_eq_ok.mpr ⟨some token, hfind, hrest⟩) ?_
          by_cases haccepted : nackArrival e ingress.face nack = .accepted
          · let noted : Focus := ⟨noteArrival now ingress nack .accepted fw.node, token, e⟩
            have hkeeps := keeps_recordNack ingress.face nack.reason noted
            have hstaffed : Staffed (fw.onNode (noteNack now)) := ⟨h.lawful, h.hasStrategy⟩
            obtain ⟨s, hlawful, hs, hconsult⟩ := hstaffed.consults
              (f := recordNack ingress.face nack.reason noted)
              (hkeeps.tables ▸ h.node.valid.registered)
            rw [hkeeps.tables, PitEntry.name, hkeeps.interest] at hs
            refine ⟨.accepted, _, ?_, .accepted token e s hlink hget hsame haccepted hs hlawful⟩
            refine atEntry_eq_ok.mpr ⟨e, _, hget, ?_, rfl⟩
            have htagged : nackArrival e ingress.face
              { nack with incomingFace := some ingress.face } = .accepted := haccepted
            dsimp only
            rw [htagged]
            exact hconsult _
          · refine ⟨_, _, atEntry_eq_ok.mpr ⟨e,
              ⟨noteArrival now ingress nack (nackArrival e ingress.face nack) fw.node, token, e⟩,
              hget, ?_, ?_⟩, .refused token e hlink hget hsame haccepted⟩
            · dsimp only
              split
              next heq => exact absurd heq haccepted
              next => rfl
            · have hkept := Node.release_focus
                (n := noteArrival now ingress nack (nackArrival e ingress.face nack) fw.node) hget
              rw [hkept]
              rfl

theorem Orderly.receiveNack_orderly (h : fw.Orderly) (now : Timestamp) (ingress : FaceEndpoint)
    (nack : Nack) : ∃ n, fw.receiveNack now ingress nack = .ok { fw with node := n } ∧
      n.Orderly fw.strategies.length := by
  cases hinfo : fw.node.faces.info? ingress.face with
  | none =>
      exact ⟨_, fw.receiveNack_of_unknown now hinfo nack, (h.node.tick now).unmoved
        (Node.unmoved_say _
          (.incomingNack ingress.face nack.interest.name nack.reason .unknownFace))⟩
  | some info =>
      have hnoted (arrival : NackArrival) :
          (noteArrival now ingress nack arrival fw.node).Orderly fw.strategies.length :=
        ⟨h.node.valid.congr rfl rfl rfl, h.node.distinguished, h.node.hasRoom⟩
      obtain ⟨arrival, fw', hreceive, hverdict⟩ := h.receiveNack_verdict hinfo now nack
      cases hverdict with
      | wrongLink hlink => exact ⟨_, hreceive, hnoted _⟩
      | noEntry hlink hnone => exact ⟨_, hreceive, hnoted _⟩
      | refused token e hlink hget hsame hrefused => exact ⟨_, hreceive, hnoted _⟩
      | accepted token e s hlink hget hsame haccepted hs hlawful =>
          obtain ⟨hfocus, htimer⟩ := (hnoted .accepted).focus hget
          have hrecorded := Focus.tended_recordNack hfocus htimer ingress.face nack.reason
          have htended := hrecorded.handled (hlawful.answers
            (.afterNack { nack with incomingFace := some ingress.face } ingress) _
            hrecorded.orderly.valid.live)
          exact ⟨_, hreceive, htended.orderly.release htended.hasTimer⟩

/-! ### Data -/

/-- Data for a single entry is left to the strategy, and then the entry is closed. -/
theorem Orderly.satisfyOne_orderly (h : fw.Orderly) (hget : fw.node.tables.pit.get? token = some e)
    (ingress : FaceEndpoint) (data : Data) :
    ∃ n, fw.satisfyOne ingress data token = .ok { fw with node := n } ∧
      n.Orderly fw.strategies.length := by
  obtain ⟨hfocus, -⟩ := h.node.focus hget
  have hdue := Focus.tended_setExpiry hfocus 0
  have hannounced := hdue.handled (Focus.handled_announce hfocus.valid.live ingress data)
  obtain ⟨s, hlawful, -, hconsult⟩ := h.toStaffed.consults hannounced.orderly.valid.registered
  have htold := hannounced.handled
    (hlawful.answers (.beforeSatisfy data ingress) _ hannounced.orderly.valid.live)
  have hanswered := htold.handled
    (hlawful.answers (.afterData data ingress) _ htold.orderly.valid.live)
  obtain ⟨n, hok, horderly, -, -⟩ := fw.atEntry_tended fw.strategies.length
    (fun f => do
      let f := announce ingress data (sayMatching ingress data f)
      let f ← fw.consult f fun s f => s.afterData data ingress (s.beforeSatisfy data ingress f)
      .ok (closeEntry ingress data f)) hget
    ⟨_, bind_eq_ok.mpr ⟨_, hconsult _, rfl⟩, hanswered.closeEntry ingress data⟩
  exact ⟨n, hok, horderly⟩

/-- Data for one of several entries leaves it closed. -/
theorem Orderly.satisfyAmong_orderly (h : fw.Orderly)
    (hget : fw.node.tables.pit.get? token = some e) (ingress : FaceEndpoint) (data : Data)
    (peers : List FaceEndpoint) :
    ∃ n peers', satisfyAmong ingress data (fw, peers) token = .ok ({ fw with node := n }, peers') ∧
      n.Orderly fw.strategies.length ∧
      ∀ u, n.tables.pit.contains u = fw.node.tables.pit.contains u := by
  obtain ⟨hfocus, -⟩ := h.node.focus hget
  have hdue := Focus.tended_setExpiry hfocus 0
  have hannounced := hdue.handled (Focus.handled_announce hfocus.valid.live ingress data)
  obtain ⟨s, hlawful, -, hconsult⟩ := h.toStaffed.consults hannounced.orderly.valid.registered
  have htold := hannounced.handled
    (hlawful.answers (.beforeSatisfy data ingress) _ hannounced.orderly.valid.live)
  have hclosed := (htold.closeEntry ingress data).clearIn
  refine ⟨_, _, bind_eq_ok.mpr ⟨⟨fw.node, token, e⟩, Node.focus_eq_ok.mpr ⟨e, hget, rfl⟩,
    bind_eq_ok.mpr ⟨_, hconsult _, rfl⟩⟩, hclosed.orderly.release hclosed.hasTimer, fun u => ?_⟩
  exact (hclosed.contains u).trans
    (congrArg (fun n : Node => n.tables.pit.contains u) (Node.release_focus hget))

theorem Orderly.receiveData_orderly (h : fw.Orderly) (now : Timestamp) (ingress : FaceEndpoint)
    (data : Data) : ∃ n store,
      fw.receiveData now ingress data = .ok { fw with node := n, store } ∧
      n.Orderly fw.strategies.length := by
  have hnoted : (noteData now ingress data fw.node).Orderly fw.strategies.length :=
    ⟨h.node.valid.congr rfl rfl rfl, h.node.distinguished, h.node.hasRoom⟩
  have htick : (fw.tick now).node.faces.info? ingress.face = fw.node.faces.info? ingress.face := rfl
  obtain ⟨tokens, compared, hanswered, hnodup, hmem⟩ :=
    Tables.answeredBy_ok h.node.valid.indexed data.name (data.implicitDigest fw.hash)
  cases hinfo : fw.node.faces.info? ingress.face with
  | none =>
      refine ⟨_, fw.store, ?_, (h.node.tick now).unmoved (Node.unmoved_say _
        (.incomingData ingress.face data.name .unknownFace))⟩
      simp only [receiveData, htick, hinfo]
      rfl
  | some info =>
      cases hscope : !info.isLocal && data.name.isLocalhost with
      | true =>
          refine ⟨_, fw.store, ?_, hnoted.unmoved (Node.unmoved_say _
            (.incomingData ingress.face data.name .violatesLocalhost))⟩
          simp only [receiveData, htick, hinfo, hscope]
          rfl
      | false =>
          rcases tokens with _ | ⟨first, _ | ⟨second, rest⟩⟩
          · obtain ⟨n, store, hresult, hquiet⟩ := onUnsolicited_cases
              (fw.onNode (noteData now ingress data)) ingress info
              { data with incomingFace := some ingress.face }
            refine ⟨n, store, ?_, hnoted.unmoved hquiet.toUnmoved⟩
            simp only [receiveData, htick, hinfo, hscope]
            exact bind_eq_ok.mpr ⟨_, hanswered, congrArg Except.ok hresult⟩
          · obtain ⟨e, hget, -⟩ := (hmem first).mp (List.mem_singleton_self first)
            rw [receiveData_one hinfo hscope hanswered]
            have hkept : (fw.kept now ingress data).Orderly := h.of_node rfl hnoted
            obtain ⟨n, hok, horderly⟩ := hkept.satisfyOne_orderly hget ingress
              { data with incomingFace := some ingress.face }
            exact ⟨n, (fw.kept now ingress data).store, hok, horderly⟩
          · let start := fw.kept now ingress data
            let Served (s : Forwarder × List FaceEndpoint) : Prop :=
              ∃ n, s.1 = { start with node := n } ∧ n.Orderly fw.strategies.length ∧
                ∀ token ∈ first :: second :: rest, n.tables.pit.contains token = true
            have hstart : Served (start, []) :=
              ⟨start.node, rfl, hnoted, fun token member =>
                Arena.contains_iff.mpr (((hmem token).mp member).imp fun _ => And.left)⟩
            let tagged : Data := { data with incomingFace := some ingress.face }
            obtain ⟨⟨last, peers⟩, hfold, n, hlast, horderly, -⟩ :
                ∃ s, (first :: second :: rest).foldlM (satisfyAmong ingress tagged) (start, []) =
                  .ok s ∧ Served s := by
              refine foldlM_ok (fun s hs token member => ?_) hstart
              obtain ⟨fw', peers⟩ := s
              obtain ⟨n, rfl, horderly, hlive⟩ := hs
              obtain ⟨e, hget⟩ := Arena.contains_iff.mp (hlive token member)
              have hreached : Orderly { start with node := n } := h.of_node rfl horderly
              obtain ⟨m, peers', hok, hnext, hsame⟩ :=
                hreached.satisfyAmong_orderly hget ingress tagged peers
              exact ⟨_, hok, m, rfl, hnext, fun u hu => (hsame u).trans (hlive u hu)⟩
            obtain rfl : last = { start with node := n } := hlast
            rw [receiveData_several hinfo hscope hanswered]
            exact ⟨_, start.store, bind_eq_ok.mpr ⟨_, hfold, rfl⟩,
              horderly.unmoved (unmoved_sendDataEach _ _ n)⟩

/-! ### Routes and faces -/

/-- Entries that are offered a new next hop are left to their strategies, one after another. -/
theorem Orderly.offerEach_orderly (h : fw.Orderly) (hop : NextHop) {tokens : List PitToken}
    (hlive : ∀ token ∈ tokens, fw.node.tables.pit.contains token = true) :
    ∃ n, tokens.foldlM (fun fw token => fw.atEntry token fun f =>
        fw.consult f fun s f => s.afterNewNextHop hop f) fw = Except.ok { fw with node := n } ∧
      n.Orderly fw.strategies.length := by
  let Offered (s : Forwarder) : Prop := ∃ n, s = { fw with node := n } ∧
    n.Orderly fw.strategies.length ∧ ∀ token ∈ tokens, n.tables.pit.contains token = true
  have hstart : Offered fw := ⟨fw.node, rfl, h.node, hlive⟩
  obtain ⟨last, hfold, n, rfl, horderly, -⟩ : ∃ s, tokens.foldlM (fun fw token =>
      fw.atEntry token fun f => fw.consult f fun s f => s.afterNewNextHop hop f) fw = .ok s ∧
        Offered s := by
    refine foldlM_ok (fun s hs token member => ?_) hstart
    obtain ⟨n, rfl, horderly, hall⟩ := hs
    let worked : Forwarder := { fw with node := n }
    obtain ⟨e, hget⟩ := Arena.contains_iff.mp (hall token member)
    have hhere : worked.node.tables.pit.get? token = some e := hget
    obtain ⟨hfocus, htimer⟩ := horderly.focus hget
    have hstaffed : worked.Staffed := ⟨h.lawful, h.hasStrategy⟩
    obtain ⟨s, hlawful, -, hconsult⟩ :=
      hstaffed.consults (f := ⟨n, token, e⟩) hfocus.valid.registered
    have hfirst : Focus.Tended fw.strategies.length ⟨n, token, e⟩ ⟨n, token, e⟩ :=
      ⟨hfocus, htimer, fun _ => rfl, rfl⟩
    have htended := hfirst.handled
      (hlawful.answers (.afterNewNextHop hop) _ hfocus.valid.live)
    obtain ⟨m, hok, hnext, hsame, -⟩ := worked.atEntry_tended fw.strategies.length
      (fun f => worked.consult f fun s f => s.afterNewNextHop hop f) hhere
      ⟨_, hconsult _, htended⟩
    exact ⟨_, hok, m, rfl, hnext, fun u hu => (hsame u).trans (hall u hu)⟩
  exact ⟨n, hfold, horderly⟩

/-- The entries that are offered a new next hop are alive. -/
theorem offered_live (hindexed : fw.node.tables.Indexed) (stem : Name) :
    ∀ token ∈ fw.offered stem, fw.node.tables.pit.contains token = true := by
  intro token member
  obtain ⟨v, hv, hlisted⟩ := List.mem_flatMap.mp member
  obtain ⟨hvisit, _⟩ := List.mem_filter.mp hv
  rw [Tables.walk] at hvisit
  split at hvisit
  next s hsub =>
    have hvalue := NameTree.value_mem_of_mem_walk hvisit
    exact hindexed.pending_live stem hsub v.value hvalue token hlisted
  next => cases hvisit

theorem Orderly.addRoute_orderly (h : fw.Orderly) (now : Timestamp) (stem : Name) (face : FaceId)
    (cost : Nat) : ∃ isAdded n, fw.addRoute now stem face cost =
      .ok (isAdded, { fw with node := n }) ∧ n.Orderly fw.strategies.length := by
  rw [addRoute]
  split
  · let added := (((fw.tick now).onNode fun n =>
      { n with tables := (fw.node.tables.addNextHop stem face cost).2 }).say
        (.routeAdded stem face cost (fw.node.tables.addNextHop stem face cost).1))
    have hadded : added.Orderly := by
      have hchanged := h.node.valid.changeAt stem (f := fun r => { r with
        nextHops := insertOrdered NextHop.before { cost, face }
          (r.nextHops.filter fun h => h.face ≠ face) }) (fun _ => rfl)
        (fun _ hlisted => hlisted.add face cost) fun _ _ hid => .inl hid
      exact h.of_node rfl ⟨hchanged.congr rfl rfl rfl, h.node.distinguished, h.node.hasRoom⟩
    dsimp only
    split
    · obtain ⟨n, hfold, horderly⟩ := hadded.offerEach_orderly { cost, face }
        (offered_live hadded.node.valid.indexed stem)
      exact ⟨true, n, bind_eq_ok.mpr ⟨_, hfold, rfl⟩, horderly⟩
    · exact ⟨true, _, rfl, hadded.node⟩
  · exact ⟨false, _, rfl, h.node.unmoved (Node.unmoved_say _ _)⟩

/-- One entry after another forgets a face. -/
theorem forgetEach_ok (face : FaceId) {tokens : List PitToken}
    (hlive : ∀ token ∈ tokens, fw.node.tables.pit.contains token = true) :
    ∃ last, tokens.foldlM (fun fw token => fw.atEntry token fun f => .ok (forgetFace face f)) fw =
      Except.ok last := by
  let Live (s : Forwarder) : Prop := ∀ token ∈ tokens, s.node.tables.pit.contains token = true
  obtain ⟨last, hfold, -⟩ : ∃ s, tokens.foldlM (fun fw token => fw.atEntry token fun f =>
      .ok (forgetFace face f)) fw = .ok s ∧ Live s := by
    refine foldlM_ok (fun s hs token member => ?_) hlive
    obtain ⟨e, hget⟩ := Arena.contains_iff.mp (hs token member)
    have hkeeps := keeps_forgetFace face ⟨s.node, token, e⟩
    refine ⟨_, atEntry_eq_ok.mpr ⟨e, _, hget, rfl, rfl⟩, fun u hu => ?_⟩
    exact (hkeeps.contains_release u).trans (hs u hu)
  exact ⟨last, hfold⟩

theorem removeFace_ok (fw : Forwarder) (now : Timestamp) (face : FaceId) :
    ∃ result, fw.removeFace now face = .ok result := by
  simp only [removeFace]
  split
  · exact ⟨_, rfl⟩
  · obtain ⟨last, hfold⟩ := forgetEach_ok face fun token member =>
      Arena.contains_iff.mpr (Arena.mem_tokens.mp member)
    exact ⟨_, bind_eq_ok.mpr ⟨last, hfold, rfl⟩⟩

theorem Orderly.removeFace_orderly (h : fw.Orderly) (now : Timestamp) (face : FaceId) :
    ∃ isRemoved fw', fw.removeFace now face = .ok (isRemoved, fw') ∧ fw'.Orderly := by
  obtain ⟨⟨isRemoved, fw'⟩, hremove⟩ := removeFace_ok fw now face
  obtain ⟨hvalid, hstrategies⟩ := Valid.node_removeFace h.node.valid hremove
  refine ⟨isRemoved, fw', hremove, h.of_node hstrategies ?_⟩
  rcases removeFace_cases hremove with rfl | ⟨faces, n, last, -, hquiet, hfold, rfl⟩
  · exact h.node.tick now
  · have htables : n.tables = fw.node.tables.forgetNextHop face := hquiet.tables
    have hstart : n.Distinguished ∧ n.HasRoom := by
      rw [Node.Distinguished, Node.HasRoom, htables]
      exact ⟨h.node.distinguished, h.node.hasRoom⟩
    have hend : last.node.Distinguished ∧ last.node.HasRoom :=
      foldlM_preserve (P := fun s => s.node.Distinguished ∧ s.node.HasRoom)
        (fun s token s' hstep hs => by
          obtain ⟨e, f, hget, hwork, rfl⟩ := atEntry_eq_ok.mp hstep
          cases hwork
          have hlive : Focus.Live ⟨s.node, token, e⟩ := ⟨e, hget, rfl⟩
          rw [← Node.release_focus hget] at hs
          have hkeeps := keeps_forgetFace face ⟨s.node, token, e⟩
          exact ⟨hs.1.work hlive hkeeps, hs.2.work hlive hkeeps⟩)
        hfold hstart
    exact ⟨hvalid, hend.1, hend.2⟩

/-! ### Timers and other calls -/

theorem Orderly.runTimers_orderly (h : fw.Orderly) (now : Timestamp) :
    (fw.runTimers now).2.Orderly := by
  obtain ⟨n, hendings, hvalid, hrun⟩ := runTimers_ends h.node.valid now
  rw [hrun]
  refine h.of_node rfl ?_
  -- taking an entry away makes no others alike, and leaves room for a new one
  have hend (due : List (Timer PitToken)) (n m : Node) (hendings : Endings due n m)
      (hn : n.Distinguished ∧ n.HasRoom) : m.Distinguished ∧ m.HasRoom := by
    induction hendings with
    | nil => exact hn
    | @cons timer rest n m n' hend hrest ih =>
        obtain ⟨e, herase⟩ := hend.tables
        obtain ⟨pit, hremove, htables⟩ := Tables.erase_eq_some.mp herase
        have hbefore : n.tables.Distinguished := hn.1
        obtain ⟨count, hsound⟩ := hn.2
        refine ih ⟨hbefore.of_gone (Tables.get?_of_erase herase), count, ?_⟩
        rw [htables]
        exact hsound.remove hremove
  obtain ⟨hdistinguished, hroom⟩ := hend _ _ _ hendings ⟨h.node.distinguished, h.node.hasRoom⟩
  exact ⟨hvalid, hdistinguished, hroom⟩

theorem Orderly.onDroppedInterest_orderly (h : fw.Orderly) (now : Timestamp)
    (egress : FaceEndpoint) (i : Interest) : ∃ n,
      fw.onDroppedInterest now egress i = .ok { fw with node := n } ∧
      n.Orderly fw.strategies.length := by
  have hlt := Tables.effectiveStrategy_lt h.node.valid.registered h.hasStrategy i.name
  have hs := List.getElem?_eq_getElem hlt
  refine ⟨_, bind_eq_ok.mpr ⟨_, strategy_eq_ok.mpr hs, rfl⟩, ?_⟩
  exact (h.node.tick now).acts ((h.lawful _ (List.getElem_mem hlt)).drops i egress _)

/-- A forwarder that registers a lawful strategy keeps its invariant. -/
theorem Orderly.addStrategy_orderly (h : fw.Orderly) {s : Strategy} (hlawful : s.Lawful) :
    (fw.addStrategy s).2.Orderly where
  lawful := by
    intro s' hs'
    rcases List.mem_append.mp hs' with hold | hnew
    · exact h.lawful s' hold
    · exact List.mem_singleton.mp hnew ▸ hlawful
  hasStrategy := by
    rw [addStrategy, List.length_append]
    exact Nat.lt_add_right _ h.hasStrategy
  node := by
    rw [addStrategy, List.length_append]
    have hsaid := h.node.unmoved (Node.unmoved_say _ (.strategyAdded s.name fw.strategies.length))
    exact ⟨hsaid.valid.mono (Nat.le_add_right _ _), hsaid.distinguished, hsaid.hasRoom⟩

/-- A call that reads no clock leaves the entries as they are. -/
theorem Orderly.perform_untimed (h : fw.Orderly) {operation : Operation}
    (hperform : fw.perform operation = .ok fw') (huntimed : operation.reading? = none) :
    fw'.Orderly := by
  obtain ⟨hvalid, hstrategies⟩ := valid_of_untimed h.node.valid hperform huntimed
  have hpit := (idle_of_untimed hperform huntimed).pit
  have hnode : fw'.node.Orderly fw.strategies.length := by
    refine ⟨hvalid, ?_, h.node.hasRoom.congr hpit⟩
    rw [Node.Distinguished, hpit]
    exact h.node.distinguished
  rcases hstrategies with hsame | ⟨b, hmore⟩
  · exact h.of_node hsame hnode
  · refine ⟨⟨fun s hs => ?_, ?_⟩, ?_⟩
    · rw [hmore] at hs
      rcases List.mem_append.mp hs with hold | hnew
      · exact h.lawful s hold
      · exact List.mem_singleton.mp hnew ▸ b.lawful
    · rw [hmore, List.length_append]
      exact Nat.lt_add_right _ h.hasStrategy
    · rw [hmore, List.length_append]
      exact ⟨hnode.valid.mono (Nat.le_add_right _ _), hnode.distinguished, hnode.hasRoom⟩

theorem perform_ok_of_untimed (fw : Forwarder) {operation : Operation}
    (huntimed : operation.reading? = none) : ∃ fw', fw.perform operation = .ok fw' := by
  cases operation with
  | removeFace now face => cases huntimed
  | addRoute now stem face cost => cases huntimed
  | receive now ingress packet => cases huntimed
  | dropInterest now egress i => cases huntimed
  | _ => exact ⟨_, rfl⟩

/-- Every operation ends without a fault and keeps the invariant, whatever lawful strategies there
are. -/
theorem Orderly.perform_orderly (h : fw.Orderly) (operation : Operation) :
    ∃ fw', fw.perform operation = .ok fw' ∧ fw'.Orderly := by
  by_cases huntimed : operation.reading? = none
  · obtain ⟨fw', hperform⟩ := fw.perform_ok_of_untimed huntimed
    exact ⟨fw', hperform, h.perform_untimed hperform huntimed⟩
  cases operation with
  | removeFace now face =>
      obtain ⟨isRemoved, fw', hremove, horderly⟩ := h.removeFace_orderly now face
      exact ⟨fw', map_eq_ok.mpr ⟨_, hremove, rfl⟩, horderly⟩
  | addRoute now stem face cost =>
      obtain ⟨isAdded, n, hadd, horderly⟩ := h.addRoute_orderly now stem face cost
      exact ⟨_, map_eq_ok.mpr ⟨_, hadd, rfl⟩, h.of_node rfl horderly⟩
  | receive now ingress packet =>
      cases packet with
      | interest i =>
          obtain ⟨n, store, hreceive, horderly, -⟩ := h.receiveInterest_orderly now ingress i
          exact ⟨_, hreceive, h.of_node rfl horderly⟩
      | data d =>
          obtain ⟨n, store, hreceive, horderly⟩ := h.receiveData_orderly now ingress d
          exact ⟨_, hreceive, h.of_node rfl horderly⟩
      | nack k =>
          obtain ⟨n, hreceive, horderly⟩ := h.receiveNack_orderly now ingress k
          exact ⟨_, hreceive, h.of_node rfl horderly⟩
  | dropInterest now egress i =>
      obtain ⟨n, hdrop, horderly⟩ := h.onDroppedInterest_orderly now egress i
      exact ⟨_, hdrop, h.of_node rfl horderly⟩
  | runTimers now => exact ⟨_, rfl, h.runTimers_orderly now⟩
  | _ => exact absurd rfl huntimed

end Forwarder

/-! ### Reachable states -/

section Reachable

variable {settings : Settings} {store : ContentStore} {hash : HashFunction}

/-- A state that a forwarder reaches by any calls in any order, among them the registration of any
lawful strategies. -/
inductive Reachable (settings : Settings) (store : ContentStore) (hash : HashFunction) :
    Forwarder → Prop where
  | start : Reachable settings store hash (Forwarder.new settings store hash)
  | perform {fw fw' : Forwarder} (reached : Reachable settings store hash fw)
      (operation : Operation) (hperform : fw.perform operation = .ok fw') :
      Reachable settings store hash fw'
  | addStrategy {fw : Forwarder} (reached : Reachable settings store hash fw) (s : Strategy)
      (hlawful : s.Lawful) : Reachable settings store hash (fw.addStrategy s).2

/-- A forwarder has its invariant in every state that it reaches. -/
theorem Reachable.orderly {fw : Forwarder} (reached : Reachable settings store hash fw) :
    fw.Orderly := by
  induction reached with
  | start => exact Forwarder.orderly_new settings store hash
  | perform _ operation hperform ih =>
      obtain ⟨fw', hperform', horderly⟩ := ih.perform_orderly operation
      obtain rfl := Except.ok.inj (hperform.symm.trans hperform')
      exact horderly
  | addStrategy _ s hlawful ih => exact ih.addStrategy_orderly hlawful

/-- Runs with built-in strategies only reach no other states. -/
theorem Run.reachable {fw : Forwarder} {history : List Step}
    (run : Run (Forwarder.new settings store hash) history fw) :
    Reachable settings store hash fw := by
  induction run with
  | start => exact .start
  | step _ operation hperform ih => exact ih.perform operation hperform

end Reachable

end NamedData
