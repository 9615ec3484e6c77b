import NamedData.Proofs.Flow
import NamedData.Proofs.Runs

/-!
Flow balance: in every run, no face is answered more often than it asked. Each Interest that is
counted pays for one answer at most, be it Data from the content store, Data for one entry or for
several, or a Nack for a loop, for want of a route or from upstream, and an Interest that still
waits has not been answered.
-/

namespace NamedData

variable {face : FaceId}

/-- Whether the step is an Interest from the face that was counted. -/
def Step.brings (s : Step) (face : FaceId) : Bool :=
  match s.operation with
  | .receive _ ingress (.interest _) =>
    ingress.face = face &&
      s.before.node.counters.inInterests < s.after.node.counters.inInterests
  | _ => false

def interestsFrom (face : FaceId) (history : List Step) : Nat :=
  history.countP fun s => s.brings face

namespace Forwarder

variable {fw fw' : Forwarder} {now : Timestamp} {ingress : FaceEndpoint} {token : PitToken}

/-! ### Interests -/

theorem flow_findOrInsert {n : Node} {i : Interest} {isNew : Bool} {tables : Tables}
    (h : n.tables.findOrInsert i = .ok ((token, isNew), tables)) :
    Node.flow { n with tables } face = n.flow face := by
  rcases Tables.findOrInsert_cases h with ⟨rfl, _⟩ | ⟨pit, hinsert, rfl⟩
  · rfl
  · have htotal := Arena.total_insert (fun e : PitEntry => e.inFaces.count face) hinsert
    have hempty : ({ interest := i.untagged } : PitEntry).inFaces.count face = 0 := rfl
    rw [hempty, Nat.add_zero] at htotal
    exact congrArg (answersTo face n.journal.sent + ·) htotal

/-- An Interest that has its entry at hand adds one for its face at most. -/
theorem Admission.flow (face : FaceId) {info : FaceInfo} {interest : Interest} {n n' : Node}
    {e : PitEntry} (h : Admission ingress info interest n token e n')
    (hget : n.tables.pit.get? token = some e) :
    n'.flow face ≤ n.flow face + share face ingress.face ∧
      n'.counters.inInterests = n.counters.inInterests := by
  cases h with
  | looped m hloop hmoved hsent =>
      have hkeeps : Focus.Keeps ⟨n, token, e⟩ ⟨m, token, e⟩ := Focus.keeps_of_unmoved hmoved rfl
      have hanswers := answersTo_nackedAtMost face hsent
      refine ⟨Node.flow_release_le _ hget hkeeps ?_, hkeeps.inInterests⟩
      have hflow : Focus.flow ⟨m, token, e⟩ face =
        answersTo face m.journal.sent + e.inFaces.count face := rfl
      have hold : Focus.flow ⟨n, token, e⟩ face =
        answersTo face n.journal.sent + e.inFaces.count face := rfl
      rw [hflow, hold]
      omega
  | hit g data hloop hempty hquiet =>
      have hkeeps := keeps_of_hit hquiet ingress { data with incomingFace := some .contentStore }
      refine ⟨Node.flow_release_le _ hget hkeeps ?_, hkeeps.inInterests⟩
      have hsent := Focus.flow_sendData face ingress
        { data with incomingFace := some .contentStore } g
      rw [Focus.flow_of_quiet hquiet] at hsent
      exact hsent
  | missed f hloop hanswer =>
      have hkeeps := keeps_of_missed hanswer.moves
      refine ⟨Node.flow_release_le _ hget hkeeps ?_, hkeeps.inInterests⟩
      exact Nat.le_trans hanswer.moves.flow
        (Focus.flow_awaitData ingress interest ⟨noteMiss interest n, token, e⟩)

theorem flow_receiveInterest (face : FaceId) (h : fw.Valid) {interest : Interest}
    (hreceive : fw.receiveInterest now ingress interest = .ok fw') :
    fw'.node.flow face = fw.node.flow face ∨
      fw'.node.flow face ≤ fw.node.flow face + share face ingress.face ∧
        fw'.node.counters.inInterests = fw.node.counters.inInterests + 1 := by
  have hnoted : (noteInterest now ingress interest fw.node).flow face = fw.node.flow face :=
    Node.flow_congr rfl rfl
  cases receiveInterest_cases h.builtIn hreceive with
  | unknownFace n hinfo hquiet =>
      left
      exact (Node.flow_quiet hquiet).trans (Node.flow_congr rfl rfl)
  | dropped n info hinfo hmoved hsent =>
      right
      have hanswers := answersTo_nackedAtMost face hsent
      have hwaits : n.waitsOf face = (noteInterest now ingress interest fw.node).waitsOf face := by
        rw [Node.waitsOf, Node.waitsOf, hmoved.tables]
      refine ⟨?_, hmoved.inInterests⟩
      rw [← hnoted, Node.flow, Node.flow, hwaits]
      dsimp only
      omega
  | admitted m n info hint token isNew tables e store hinfo hquiet hmisses hfound hget hadmission =>
      right
      obtain ⟨hflow, hcount⟩ := hadmission.flow face hget
      rw [flow_findOrInsert hfound, Node.flow_quiet hquiet, hnoted] at hflow
      exact ⟨hflow, hcount.trans hquiet.inInterests⟩

/-! ### Data and Nacks -/

theorem countP_insertDistinct_le (p : FaceEndpoint) (l : List FaceEndpoint)
    (test : FaceEndpoint → Bool) :
    (insertDistinct FaceEndpoint.before p l).countP test ≤ (p :: l).countP test := by
  induction l with
  | nil => exact Nat.le_refl _
  | cons q rest ih =>
      rw [insertDistinct]
      simp only [List.countP_cons] at ih ⊢
      split
      · rw [List.countP_cons]
        omega
      · split
        · rw [List.countP_cons]
          omega
        · exact Nat.le_of_eq (by rw [List.countP_cons, List.countP_cons])

/-- Putting peers in order repeats none of them. -/
theorem countP_ordered_le (peers : List FaceEndpoint) (test : FaceEndpoint → Bool) :
    (FaceEndpoint.ordered peers).countP test ≤ peers.countP test := by
  induction peers with
  | nil => exact Nat.le_refl _
  | cons p rest ih =>
      have hinsert := countP_insertDistinct_le p (FaceEndpoint.ordered rest) test
      have hordered : FaceEndpoint.ordered (p :: rest) =
        insertDistinct FaceEndpoint.before p (FaceEndpoint.ordered rest) := rfl
      rw [hordered]
      simp only [List.countP_cons] at hinsert ⊢
      omega

theorem countP_livePeers_le (face : FaceId) (e : PitEntry) (now : Timestamp) :
    (livePeers e now).countP (fun p => p.face = face) ≤ e.inFaces.count face := by
  have hcount : e.inFaces.count face = e.inRecords.countP fun r => r.face = face := by
    rw [PitEntry.inFaces, List.count, List.countP_map]
    apply List.countP_congr
    intro r _
    simp
  rw [hcount, livePeers, List.countP_map]
  exact List.filter_sublist.countP_le

/-- The peers collected from an entry take the place of its records. -/
theorem flow_satisfyAmong (h : fw.Valid) {data : Data} {peers peers' : List FaceEndpoint}
    (hsatisfy : satisfyAmong ingress data (fw, peers) token = .ok (fw', peers')) :
    fw'.node.flow face + peers'.countP (fun p => p.face = face) ≤
      fw.node.flow face + peers.countP fun p => p.face = face := by
  obtain ⟨e, g, hget, hquiet, rfl, rfl⟩ := satisfyAmong_cases h.builtIn hsatisfy
  have hkeeps := keeps_among hquiet ingress data
  -- Nobody waits in the entry any more and nothing was sent yet: all it held is in the peers.
  have hcleared : Focus.flow ((closeEntry ingress data g).onEntry PitEntry.clearIn) face =
      answersTo face fw.node.journal.sent := by
    have hsent := hquiet.node.sent
    have hclosed := sent_closeEntry ingress data g
    have hnone : ((closeEntry ingress data g).onEntry PitEntry.clearIn).entry.inFaces = [] := rfl
    rw [Focus.flow, hnone, List.count_nil, Nat.add_zero]
    exact congrArg (answersTo face) (hclosed.trans hsent)
  have hlive := countP_livePeers_le face e fw.node.now
  have hnode := Node.flow_release face hget hkeeps
  rw [hcleared] at hnode
  have hbefore : fw.node.flow face =
      answersTo face fw.node.journal.sent + fw.node.waitsOf face := rfl
  rw [List.countP_append, hbefore]
  dsimp only
  omega

/-- Each peer to which Data is sent costs one answer at most. -/
theorem flow_sendDataEach (face : FaceId) (data : Data) (peers : List FaceEndpoint) (n : Node) :
    (peers.foldl (fun n egress => n.sendData egress data) n).flow face ≤
      n.flow face + peers.countP fun p => p.face = face := by
  have hsent := answersTo_sendDataEach face data peers n
  have hmoved := unmoved_sendDataEach data peers n
  have hwaits : (peers.foldl (fun n egress => n.sendData egress data) n).waitsOf face =
      n.waitsOf face := by
    rw [Node.waitsOf, Node.waitsOf, hmoved.tables]
  rw [Node.flow, Node.flow, hwaits]
  omega

/-- The only entry that Data answers pays for what is sent. -/
theorem flow_closeOne {n : Node} {count : Nat} (h : n.Valid count) {e : PitEntry}
    (hget : n.tables.pit.get? token = some e) {g : Focus}
    (hquiet : (Focus.setExpiry ⟨n, token, e⟩ 0).Quiet g) (face : FaceId) (data : Data) :
    (closeEntry ingress data (g.sendDataToAll ingress data)).release.flow face ≤ n.flow face := by
  have hannounced := ((h.focus hget).setExpiry 0).quiet hquiet
  have hmoves := Focus.moves_sendDataToAll hannounced.wellKept.distinct ingress data
  apply Node.flow_release_le 0 hget (keeps_one hquiet ingress data data)
  rw [Focus.flow_closeEntry]
  apply Nat.le_trans hmoves.flow
  rw [Focus.flow_of_quiet hquiet]
  exact Nat.le_refl _

/-- Several entries that Data answers pay for the peers that are collected from them. -/
theorem flow_satisfyEach (face : FaceId) (h : fw.Valid) {data : Data} {tokens : List PitToken}
    {peers : List FaceEndpoint}
    (hsatisfy : tokens.foldlM (satisfyAmong ingress data) (fw, []) = .ok (fw', peers)) :
    fw'.node.flow face + peers.countP (fun p => p.face = face) ≤ fw.node.flow face := by
  have hend := foldlM_preserve
    (P := fun s => s.1.Valid ∧ s.1.node.flow face + s.2.countP (fun p => p.face = face) ≤
      fw.node.flow face)
    (fun s token s' hstep hs => ⟨hs.1.satisfyAmong hstep,
      Nat.le_trans (flow_satisfyAmong hs.1 hstep) hs.2⟩) hsatisfy
    ⟨h, Nat.le_refl _⟩
  exact hend.2

theorem flow_receiveData (face : FaceId) (h : fw.Valid) {data : Data}
    (hreceive : fw.receiveData now ingress data = .ok fw') :
    fw'.node.flow face ≤ fw.node.flow face := by
  have hnoted : (noteData now ingress data fw.node).flow face = fw.node.flow face :=
    Node.flow_congr rfl rfl
  have hvalid : (noteData now ingress data fw.node).Valid fw.strategies.length :=
    h.node.congr rfl rfl rfl
  cases receiveData_cases h.builtIn hreceive with
  | unknownFace n hinfo hquiet =>
      exact Nat.le_of_eq ((Node.flow_quiet hquiet).trans (Node.flow_congr rfl rfl))
  | violation n info hinfo hscope hquiet =>
      exact Nat.le_of_eq ((Node.flow_quiet hquiet).trans hnoted)
  | unsolicited n store info compared hinfo hanswered hquiet =>
      exact Nat.le_of_eq ((Node.flow_quiet hquiet).trans hnoted)
  | one store info token compared e g hinfo hanswered hget hquiet =>
      rw [← hnoted]
      exact flow_closeOne hvalid hget hquiet face _
  | several store info tokens compared last peers hinfo hanswered htokens =>
      let others := (FaceEndpoint.ordered peers).filter fun p =>
        p.face ≠ ingress.face || info.isAdHoc
      have hstart : Valid { fw with node := noteData now ingress data fw.node, store } :=
        h.of_node rfl hvalid
      have hcollected := flow_satisfyEach face hstart htokens
      have hothers : others.countP (fun p => p.face = face) ≤
          peers.countP fun p => p.face = face :=
        Nat.le_trans List.filter_sublist.countP_le (countP_ordered_le peers _)
      have hsent := flow_sendDataEach face { data with incomingFace := some ingress.face } others
        last.node
      rw [← hnoted]
      exact Nat.le_trans hsent (Nat.le_trans (Nat.add_le_add_left hothers _) hcollected)

theorem flow_receiveNack (face : FaceId) (h : fw.Valid) {nack : Nack}
    (hreceive : fw.receiveNack now ingress nack = .ok fw') :
    fw'.node.flow face ≤ fw.node.flow face := by
  let noted : Node := noteNack now fw.node
  have hnoted : noted.flow face = fw.node.flow face := Node.flow_congr rfl rfl
  cases receiveNack_cases h.builtIn hreceive with
  | ignored n hquiet =>
      exact Nat.le_of_eq ((Node.flow_quiet hquiet).trans (Node.flow_congr rfl rfl))
  | refused token e g hget hquiet =>
      have hstored : noted.tables.pit.get? token = some e := hget
      rw [← hnoted]
      apply Node.flow_release_le 0 hstored hquiet.keeps
      exact Nat.le_of_eq (Focus.flow_of_quiet hquiet)
  | accepted token e g f hget harrival hquiet hmoves =>
      have hkeeps := (hquiet.keeps.trans (keeps_recordNack ingress.face nack.reason g)).trans
        hmoves.keeps
      have hstored : noted.tables.pit.get? token = some e := hget
      rw [← hnoted]
      apply Node.flow_release_le 0 hstored hkeeps
      apply Nat.le_trans hmoves.flow
      rw [Focus.flow_recordNack, Focus.flow_of_quiet hquiet]
      exact Nat.le_refl _

/-! ### Routes, faces and timers -/

theorem flow_addRoute (face : FaceId) (h : fw.Valid) {stem : Name} {other : FaceId} {cost : Nat}
    {isAdded : Bool} (hadd : fw.addRoute now stem other cost = .ok (isAdded, fw')) :
    fw'.node.flow face ≤ fw.node.flow face := by
  rcases addRoute_cases hadd with rfl | ⟨n, tokens, _, hquiet, hfold⟩
  · exact Nat.le_refl _
  · have hstart : n.flow face = fw.node.flow face :=
      (Node.flow_quiet hquiet).trans (Node.flow_congr rfl rfl)
    have hend := foldlM_preserve
      (P := fun s => s.BuiltInOnly ∧ s.node.flow face ≤ fw.node.flow face)
      (fun s token s' hstep hs => by
        obtain ⟨e, f, hget, hmoves, rfl⟩ := offer_cases hs.1 hstep
        refine ⟨hs.1, Nat.le_trans ?_ hs.2⟩
        exact Node.flow_release_le 0 hget hmoves.keeps hmoves.flow)
      hfold ⟨h.builtIn, Nat.le_of_eq hstart⟩
    exact hend.2

theorem flow_removeFace (face : FaceId) {other : FaceId} {isRemoved : Bool}
    (hremove : fw.removeFace now other = .ok (isRemoved, fw')) :
    fw'.node.flow face ≤ fw.node.flow face := by
  rcases removeFace_cases hremove with rfl | ⟨faces, n, last, htable, hquiet, hfold, rfl⟩
  · exact Nat.le_refl _
  · have hstart : n.flow face = fw.node.flow face :=
      (Node.flow_quiet hquiet).trans (Node.flow_congr rfl rfl)
    exact foldlM_preserve (P := fun s => s.node.flow face ≤ fw.node.flow face)
      (fun s token s' hstep hs => by
        obtain ⟨e, f, hget, hwork, rfl⟩ := atEntry_eq_ok.mp hstep
        cases hwork
        refine Nat.le_trans ?_ hs
        exact Node.flow_release_le 0 hget (keeps_forgetFace other _)
          (Focus.flow_forgetFace other _))
      hfold (Nat.le_of_eq hstart)

theorem flow_ended (face : FaceId) {n m : Node} (h : Ended n m token) :
    m.flow face ≤ n.flow face := by
  obtain ⟨e, herase⟩ := h.tables
  obtain ⟨pit, hremove, htables⟩ := Tables.erase_eq_some.mp herase
  have htotal := Arena.total_remove (fun e : PitEntry => e.inFaces.count face) hremove
  have hpit : m.tables.pit = pit := by
    rw [htables]
    rfl
  rw [Node.flow, Node.flow, Node.waitsOf, Node.waitsOf, h.sent, hpit]
  omega

theorem flow_endings (face : FaceId) {due : List (Timer PitToken)} {n m : Node}
    (h : Endings due n m) : m.flow face ≤ n.flow face := by
  induction h with
  | nil n => exact Nat.le_refl _
  | cons hend _ ih => exact Nat.le_trans ih (flow_ended face hend)

theorem flow_runTimers (face : FaceId) (h : fw.Valid) (now : Timestamp) :
    (fw.runTimers now).2.node.flow face ≤ fw.node.flow face := by
  obtain ⟨n, hendings, _, hrun⟩ := runTimers_cases h now
  have hstart : Node.flow { fw.node with now, timers := (fw.node.timers.takeDue now).2 } face =
      fw.node.flow face := Node.flow_congr rfl rfl
  rw [hrun, ← hstart]
  exact flow_endings face hendings

/-! ### Every operation -/

/-- Only a counted Interest adds to the flow of a face, and it adds one for its own face. -/
theorem flow_perform (face : FaceId) (h : fw.Valid) {operation : Operation}
    (hperform : fw.perform operation = .ok fw') :
    fw'.node.flow face ≤
      fw.node.flow face + if (Step.mk fw operation fw').brings face then 1 else 0 := by
  cases operation with
  | receive now ingress packet =>
      cases packet with
      | interest i =>
          rcases flow_receiveInterest face h hperform with hsame | ⟨hflow, hcount⟩
          · rw [hsame]
            exact Nat.le_add_right _ _
          · have hbrings : (Step.mk fw (.receive now ingress (.interest i)) fw').brings face =
                decide (ingress.face = face) := by
              simp [Step.brings, hcount]
            rw [hbrings]
            simpa [share] using hflow
      | data d => exact Nat.le_add_right_of_le (flow_receiveData face h hperform)
      | nack k => exact Nat.le_add_right_of_le (flow_receiveNack face h hperform)
  | addRoute now stem other cost =>
      obtain ⟨⟨isAdded, last⟩, hadd, rfl⟩ := map_eq_ok.mp hperform
      exact Nat.le_add_right_of_le (flow_addRoute face h hadd)
  | removeFace now other =>
      obtain ⟨⟨isRemoved, last⟩, hremove, rfl⟩ := map_eq_ok.mp hperform
      exact Nat.le_add_right_of_le (flow_removeFace face hremove)
  | dropInterest now egress interest =>
      obtain ⟨n, hquiet, rfl⟩ := onDroppedInterest_cases h.builtIn hperform
      apply Nat.le_add_right_of_le
      exact Nat.le_of_eq ((Node.flow_quiet hquiet).trans (Node.flow_congr rfl rfl))
  | runTimers now =>
      cases hperform
      exact Nat.le_add_right_of_le (flow_runTimers face h now)
  | _ =>
      have hidle := idle_of_untimed hperform rfl
      exact Nat.le_add_right_of_le (Nat.le_of_eq (Node.flow_congr hidle.sent hidle.pit))

end Forwarder

theorem flow_new (settings : Settings) (store : ContentStore) (hash : HashFunction) :
    (Forwarder.new settings store hash).node.flow face = 0 :=
  rfl

/-- Flow balance. At every moment of every run, the Data and Nacks that were sent to a face and the
Interests of the face that still wait are together no more than the Interests that came from it. -/
theorem flow_balance {settings : Settings} {store : ContentStore} {hash : HashFunction}
    {history : List Step} {fw : Forwarder}
    (run : Run (Forwarder.new settings store hash) history fw) (face : FaceId) :
    answersTo face fw.node.journal.sent + fw.node.waitsOf face ≤ interestsFrom face history := by
  induction run with
  | start => exact Nat.le_of_eq (flow_new settings store hash)
  | @step history fw fw' run operation hperform ih =>
      have hstep := Forwarder.flow_perform face run.valid hperform
      have hcount : interestsFrom face (⟨fw, operation, fw'⟩ :: history) =
          interestsFrom face history + if (Step.mk fw operation fw').brings face then 1 else 0 :=
        List.countP_cons ..
      rw [hcount]
      exact Nat.le_trans hstep (Nat.add_le_add_right ih _)

/-- Of two Interests from one face, the first was answered and the second still waits. -/
theorem flow_balance_of_two : ∃ history fw, Run Sample.start history fw ∧
    answersTo ⟨256⟩ fw.node.journal.sent = 1 ∧ fw.node.waitsOf ⟨256⟩ = 1 ∧
    1 + 1 ≤ interestsFrom ⟨256⟩ history := by
  have hrun := Run.reached Sample.start (Sample.ask ⟨5⟩ ⟨2⟩ :: .runTimers ⟨4⟩ ::
    Sample.reply ⟨3⟩ :: Sample.ask ⟨2⟩ ⟨1⟩ :: Sample.setup) rfl
  exact ⟨_, _, hrun, rfl, rfl, flow_balance hrun ⟨256⟩⟩

end NamedData
