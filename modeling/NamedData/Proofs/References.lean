import NamedData.Proofs.LoopSuppression
import NamedData.Proofs.TreeOrder

/-!
What the parts of a node refer to. Next hops, the records of pending entries and the list of broken
faces name faces that exist: whatever adds such a name looks for the face first, and the removal of
a face goes through all of them. Within an entry the records are told apart by their faces, and
those who wait also by their nonces, because an Interest with a nonce of somebody else is a loop.
-/

namespace NamedData

open Forwarder

/-! ### Next hops -/

namespace Tables

/-- Every next hop leads to one of the given faces. -/
def HopsWithin (t : Tables) (known : FaceId → Prop) : Prop :=
  ∀ n, ∀ hop ∈ (t.recordAt n).nextHops, known hop.face

variable {t t' : Tables} {known : FaceId → Prop}

theorem hopsWithin_new (strategy : Nat) (known : FaceId → Prop) :
    (new strategy).HopsWithin known := by
  intro n hop member
  cases n with
  | nil => cases member
  | cons _ _ => cases member

theorem HopsWithin.mono (h : t.HopsWithin known) {more : FaceId → Prop}
    (hmore : ∀ face, known face → more face) : t.HopsWithin more :=
  fun n hop member => hmore hop.face (h n hop member)

theorem HopsWithin.congr (h : t.HopsWithin known)
    (hsame : ∀ n, (t'.recordAt n).nextHops = (t.recordAt n).nextHops) : t'.HopsWithin known :=
  fun n hop member => h n hop (hsame n ▸ member)

/-- A change at one name that brings only known faces in. -/
theorem HopsWithin.change (h : t.HopsWithin known) (hordered : t.tree.Ordered) (stem : Name)
    {f : NameRecord → NameRecord}
    (hf : ∀ r, ∀ hop ∈ (f r).nextHops, hop ∈ r.nextHops ∨ known hop.face) :
    (t.change stem f).HopsWithin known := by
  intro n hop member
  rw [recordAt_change hordered] at member
  split at member
  · rcases hf _ hop member with hold | hknown
    · exact h stem hop hold
    · exact hknown
  · exact h n hop member

theorem HopsWithin.forgetNextHop (h : t.HopsWithin known) (hordered : t.tree.Ordered)
    (face : FaceId) : (t.forgetNextHop face).HopsWithin fun g => known g ∧ g ≠ face := by
  intro n hop member
  rw [recordAt_forgetNextHop hordered] at member
  obtain ⟨hold, hother⟩ := List.mem_filter.mp member
  exact ⟨h n hop hold, of_decide_eq_true hother⟩

theorem HopsWithin.findOrInsert (h : t.HopsWithin known) (hindexed : t.Indexed) {i : Interest}
    {token : PitToken} {isNew : Bool} (hfound : t.findOrInsert i = .ok ((token, isNew), t')) :
    t'.HopsWithin known := by
  rcases findOrInsert_cases hfound with ⟨rfl, _⟩ | ⟨pit, _, rfl⟩
  · exact h
  · exact h.congr (nextHops_change (t := { t with pit }) hindexed.ordered i.name fun _ => rfl)

theorem HopsWithin.erase (h : t.HopsWithin known) (hindexed : t.Indexed) {token : PitToken}
    {e : PitEntry} (herase : t.erase token = some (e, t')) : t'.HopsWithin known := by
  obtain ⟨pit, _, rfl⟩ := erase_eq_some.mp herase
  exact h.congr (nextHops_change (t := { t with pit }) hindexed.ordered e.name fun _ => rfl)

theorem HopsWithin.values (h : t.HopsWithin known) (hordered : t.tree.Ordered) :
    ∀ r ∈ t.tree.values, ∀ hop ∈ r.nextHops, known hop.face :=
  NameTree.forall_values hordered (P := fun r => ∀ hop ∈ r.nextHops, known hop.face) nofun h

end Tables

/-! ### Nodes -/

/-- Next hops lead to faces that exist, and only faces that exist count as broken. -/
structure Node.Grounded (n : Node) : Prop where
  nextHops : n.tables.HopsWithin fun face => n.faces.contains face = true
  disconnected : ∀ face ∈ n.disconnected, n.faces.contains face = true

namespace Node

variable {n m : Node}

theorem Grounded.of_same (h : n.Grounded) (hinfo : m.faces.info? = n.faces.info?)
    (hreports : n.ReportsKnown m)
    (hsame : ∀ name, (m.tables.recordAt name).nextHops = (n.tables.recordAt name).nextHops) :
    m.Grounded := by
  have hcontains := FaceTable.contains_congr hinfo
  constructor
  · rw [hcontains]
    exact h.nextHops.congr hsame
  · intro face member
    rw [hcontains]
    exact (hreports face member).elim (h.disconnected face) id

theorem Grounded.unmoved (h : n.Grounded) (hmoved : n.Unmoved m) : m.Grounded :=
  h.of_same hmoved.info? hmoved.reports fun _ => by rw [hmoved.tables]

/-- Work on one entry. -/
theorem Grounded.work {f f' : Focus} (h : f.node.Grounded) (hkeeps : f.Keeps f') :
    f'.release.Grounded :=
  h.of_same hkeeps.info? hkeeps.reports fun _ => by
    rw [Focus.release, Tables.recordAt_withPit, hkeeps.tables]

theorem Grounded.withTables (h : n.Grounded) {tables : Tables}
    (hops : tables.HopsWithin fun face => n.faces.contains face = true) :
    Node.Grounded { n with tables } :=
  ⟨hops, h.disconnected⟩

theorem Grounded.ending (h : n.Grounded) (hindexed : n.tables.Indexed) {token : PitToken}
    {e : PitEntry} (hget : n.tables.pit.get? token = some e) : (n.ending token e).Grounded := by
  obtain ⟨pit, hremove⟩ := Arena.remove_of_get? hget
  have herase := Tables.erase_eq_some.mpr ⟨pit, hremove, rfl⟩
  let parted : Focus := ⟨n, token, { e with expiryTimer := none }⟩
  obtain ⟨deadNonces, counters, journal, hparting, _⟩ := parting_cases parted
  rw [Node.ending, finalize_eq (f := parted) herase, hparting]
  exact ⟨h.nextHops.erase hindexed herase, h.disconnected⟩

end Node

/-! ### Operations -/

namespace Forwarder

variable {fw fw' : Forwarder} {now : Timestamp} {ingress : FaceEndpoint}

/-- An Interest that has its entry at hand does nothing but work on this entry. -/
theorem Admission.keeps {info : FaceInfo} {interest : Interest} {n m : Node} {token : PitToken}
    {e : PitEntry} (h : Admission ingress info interest n token e m) :
    ∃ f, Focus.Keeps ⟨n, token, e⟩ f ∧ m = f.release := by
  cases h with
  | looped m _ hmoved => exact ⟨_, Focus.keeps_of_unmoved hmoved rfl, rfl⟩
  | hit g data _ _ hquiet => exact ⟨_, keeps_of_hit hquiet ingress _, rfl⟩
  | missed f _ hanswer => exact ⟨_, keeps_of_missed hanswer.moves, rfl⟩

theorem grounded_receiveInterest (h : fw.Valid) (hg : fw.node.Grounded) {i : Interest}
    (hreceive : fw.receiveInterest now ingress i = .ok fw') : fw'.node.Grounded := by
  have hticked : Node.Grounded { fw.node with now } := ⟨hg.nextHops, hg.disconnected⟩
  have hnoted : (noteInterest now ingress i fw.node).Grounded := ⟨hg.nextHops, hg.disconnected⟩
  cases receiveInterest_cases h.builtIn hreceive with
  | unknownFace n _ hquiet => exact hticked.unmoved hquiet.toUnmoved
  | dropped n _ _ hmoved => exact hnoted.unmoved hmoved
  | admitted m n info hint token isNew tables e store hinfo hquiet _ hfound hget hadmission =>
      have hm := hnoted.unmoved hquiet.toUnmoved
      have hindexed : m.tables.Indexed := hquiet.tables ▸ h.node.indexed
      obtain ⟨f, hkeeps, rfl⟩ := hadmission.keeps
      exact (hm.withTables (hm.nextHops.findOrInsert hindexed hfound)).work hkeeps

theorem grounded_satisfyAmong (h : fw.Valid) (hg : fw.node.Grounded) {data : Data}
    {token : PitToken} {peers peers' : List FaceEndpoint}
    (hsatisfy : satisfyAmong ingress data (fw, peers) token = .ok (fw', peers')) :
    fw'.node.Grounded := by
  obtain ⟨e, g, _, hquiet, _, rfl⟩ := satisfyAmong_cases h.builtIn hsatisfy
  exact hg.work (f := ⟨fw.node, token, e⟩) (keeps_among hquiet ingress data)

theorem grounded_receiveData (h : fw.Valid) (hg : fw.node.Grounded) {data : Data}
    (hreceive : fw.receiveData now ingress data = .ok fw') : fw'.node.Grounded := by
  have hticked : Node.Grounded { fw.node with now } := ⟨hg.nextHops, hg.disconnected⟩
  have hnoted : (noteData now ingress data fw.node).Grounded := ⟨hg.nextHops, hg.disconnected⟩
  cases receiveData_cases h.builtIn hreceive with
  | unknownFace n _ hquiet => exact hticked.unmoved hquiet.toUnmoved
  | violation n _ _ _ hquiet => exact hnoted.unmoved hquiet.toUnmoved
  | unsolicited n _ _ _ _ _ hquiet => exact hnoted.unmoved hquiet.toUnmoved
  | one store info token compared e g _ _ _ hquiet =>
      exact hnoted.work (f := ⟨noteData now ingress data fw.node, token, e⟩)
        (keeps_one hquiet ingress data _)
  | several store info tokens compared last peers _ _ htokens =>
      have hstart : Valid { fw with node := noteData now ingress data fw.node, store } :=
        h.of_node rfl (h.node.congr rfl rfl rfl)
      have hlast : last.Valid ∧ last.node.Grounded :=
        foldlM_preserve (P := fun s => s.1.Valid ∧ s.1.node.Grounded)
          (fun s token s' hstep hs =>
            ⟨hs.1.satisfyAmong hstep, grounded_satisfyAmong hs.1 hs.2 hstep⟩)
          htokens ⟨hstart, hnoted⟩
      exact hlast.2.unmoved (unmoved_sendDataEach _ _ _)

theorem grounded_receiveNack (h : fw.Valid) (hg : fw.node.Grounded) {nack : Nack}
    (hreceive : fw.receiveNack now ingress nack = .ok fw') : fw'.node.Grounded := by
  have hticked : Node.Grounded { fw.node with now } := ⟨hg.nextHops, hg.disconnected⟩
  have hnoted : (noteNack now fw.node).Grounded := ⟨hg.nextHops, hg.disconnected⟩
  cases receiveNack_cases h.builtIn hreceive with
  | ignored n hquiet => exact hticked.unmoved hquiet.toUnmoved
  | refused token e g _ hquiet =>
      exact hnoted.work (f := ⟨noteNack now fw.node, token, e⟩) hquiet.keeps
  | accepted token e g f _ _ hquiet hmoves =>
      exact hnoted.work (f := ⟨noteNack now fw.node, token, e⟩)
        ((hquiet.keeps.trans (keeps_recordNack ingress.face nack.reason g)).trans hmoves.keeps)

/-- A route leads to a face that exists. -/
theorem grounded_addRoute (h : fw.Valid) (hg : fw.node.Grounded) {stem : Name} {face : FaceId}
    {cost : Nat} {isAdded : Bool} (hadd : fw.addRoute now stem face cost = .ok (isAdded, fw')) :
    fw'.node.Grounded := by
  rcases addRoute_cases hadd with rfl | ⟨n, tokens, hknown, hquiet, hfold⟩
  · exact hg.unmoved (fw.node.unmoved_say _)
  · have hops : (fw.node.tables.addNextHop stem face cost).2.HopsWithin fun face =>
        fw.node.faces.contains face = true := by
      refine hg.nextHops.change h.node.indexed.ordered stem fun r hop member => ?_
      rcases mem_insertOrdered.mp member with rfl | hold
      · exact .inr hknown
      · exact .inl (List.mem_filter.mp hold).1
    have hstart : n.Grounded := by
      refine Node.Grounded.unmoved ?_ hquiet.toUnmoved
      exact ⟨hops, hg.disconnected⟩
    have hend : fw'.BuiltInOnly ∧ fw'.node.Grounded :=
      foldlM_preserve (P := fun s => s.BuiltInOnly ∧ s.node.Grounded)
        (fun s token s' hstep hs => by
          obtain ⟨e, f, _, hmoves, rfl⟩ := offer_cases hs.1 hstep
          exact ⟨hs.1, hs.2.work (f := ⟨s.node, token, e⟩) hmoves.keeps⟩)
        hfold ⟨h.builtIn, hstart⟩
    exact hend.2

/-- The node without a report that the face is broken. Until the end of its removal, the list of
broken faces may still name the face. -/
def withoutReport (face : FaceId) (n : Node) : Node :=
  { n with disconnected := n.disconnected.filter (· ≠ face) }

theorem grounded_removeFace (h : fw.Valid) (hg : fw.node.Grounded) {face : FaceId}
    {isRemoved : Bool} (hremove : fw.removeFace now face = .ok (isRemoved, fw')) :
    fw'.node.Grounded := by
  rcases removeFace_cases hremove with rfl | ⟨faces, n, last, htable, hquiet, hfold, rfl⟩
  · exact ⟨hg.nextHops, hg.disconnected⟩
  · have hcontains := FaceTable.contains_remove htable
    have hsame : n.faces.contains = faces.contains := FaceTable.contains_congr hquiet.info?
    have hstart : (withoutReport face n).Grounded := by
      constructor
      · change n.tables.HopsWithin fun g => n.faces.contains g = true
        rw [hquiet.tables, hsame]
        exact (hg.nextHops.forgetNextHop h.node.indexed.ordered face).mono
          fun g hknown => (hcontains g).mpr hknown
      · intro g member
        obtain ⟨hlisted, hother⟩ := List.mem_filter.mp member
        change n.faces.contains g = true
        rw [hsame]
        rcases hquiet.reports g hlisted with hold | hknown
        · exact (hcontains g).mpr ⟨hg.disconnected g hold, of_decide_eq_true hother⟩
        · exact hknown
    exact foldlM_preserve (P := fun s => (withoutReport face s.node).Grounded)
      (fun s token s' hstep hs => by
        obtain ⟨e, f, hget, hwork, rfl⟩ := atEntry_eq_ok.mp hstep
        cases hwork
        have hkeeps := keeps_forgetFace face ⟨s.node, token, e⟩
        refine hs.of_same hkeeps.info? ?_ fun _ => ?_
        · intro g member
          obtain ⟨hlisted, hother⟩ := List.mem_filter.mp member
          exact (hkeeps.reports g hlisted).imp_left fun hold => List.mem_filter.mpr ⟨hold, hother⟩
        · change (Tables.recordAt (Focus.release _).tables _).nextHops = _
          rw [Focus.release, Tables.recordAt_withPit, hkeeps.tables]
          rfl) hfold hstart

/-- Entries that end change neither next hops nor the list of broken faces. -/
theorem grounded_endingEach {n : Node} {due : List (Timer PitToken)} {count : Nat}
    (h : (rearm due n).Valid count) (hg : n.Grounded) : (endingEach n due).Grounded := by
  induction due generalizing n with
  | nil => exact hg
  | cons timer rest ih =>
      obtain ⟨e, hget, _⟩ := h.timed.owned timer List.mem_cons_self
      have hlive : n.tables.pit.get? timer.entry = some e := hget
      rw [endingEach_cons hlive]
      exact ih (valid_of_ended h (Node.ended_ending hlive)) (hg.ending h.indexed hlive)

theorem grounded_runTimers (h : fw.Valid) (hg : fw.node.Grounded) (now : Timestamp) :
    (fw.runTimers now).2.node.Grounded := by
  rw [runTimers_eq h.node now]
  exact grounded_endingEach (valid_disarmed h.node now) ⟨hg.nextHops, hg.disconnected⟩

/-! ### Every operation -/

/-- A new face is known besides the old ones. -/
theorem grounded_addFace (hg : fw.node.Grounded) (takes : Nat → Bool) (scope : FaceScope)
    (link : LinkType) : (((fw.addFace takes scope link).map Prod.snd).getD fw).node.Grounded := by
  rw [addFace]
  cases hadd : fw.node.faces.add takes scope link with
  | none => exact hg
  | some added =>
      obtain ⟨face, faces⟩ := added
      have hfaces (g : FaceId) (hknown : fw.node.faces.contains g = true) :
          faces.contains g = true := by
        obtain ⟨f, hfind⟩ := Option.isSome_iff_exists.mp hknown
        exact Option.isSome_iff_exists.mpr ⟨f, FaceTable.find?_add hadd hfind⟩
      exact ⟨hg.nextHops.mono hfaces, fun g member => hfaces g (hg.disconnected g member)⟩

/-- A change of the tables at one name that brings no next hop in. -/
theorem grounded_changeAt (h : fw.Valid) (hg : fw.node.Grounded) (stem : Name)
    {f : NameRecord → NameRecord} (hf : ∀ r, ∀ hop ∈ (f r).nextHops, hop ∈ r.nextHops) :
    (fw.onNode fun n => { n with tables := n.tables.change stem f }).node.Grounded :=
  hg.withTables (hg.nextHops.change h.node.indexed.ordered stem fun r hop member =>
    .inl (hf r hop member))

theorem grounded_setStrategy (h : fw.Valid) (hg : fw.node.Grounded) (stem : Name) (id : Nat) :
    (fw.setStrategy stem id).2.node.Grounded := by
  rw [setStrategy]
  split
  next s _ =>
    have hsaid : (fw.say (.strategyChosen stem s.name)).Valid :=
      h.of_node rfl (h.node.congr rfl rfl rfl)
    exact grounded_changeAt hsaid (hg.unmoved (fw.node.unmoved_say _)) stem
      fun _ _ member => member
  next => exact hg.unmoved (fw.node.unmoved_say _)

theorem grounded_unsetStrategy (h : fw.Valid) (hg : fw.node.Grounded) (stem : Name) :
    (fw.unsetStrategy stem).2.node.Grounded := by
  have hops : (fw.node.tables.unsetStrategy stem).2.HopsWithin fun face =>
      fw.node.faces.contains face = true := by
    rcases fw.node.tables.unsetStrategy_cases stem with hsame | hchanged
    · rw [hsame]
      exact hg.nextHops
    · rw [hchanged]
      exact hg.nextHops.change h.node.indexed.ordered stem fun _ _ => .inl
  exact hg.withTables hops

theorem grounded_perform (h : fw.Valid) (hg : fw.node.Grounded) {operation : Operation}
    (hperform : fw.perform operation = .ok fw') : fw'.node.Grounded := by
  cases operation with
  | addFace takes scope link =>
      cases hperform
      exact grounded_addFace hg takes scope link
  | removeFace now face =>
      obtain ⟨⟨isRemoved, last⟩, hremove, rfl⟩ := map_eq_ok.mp hperform
      exact grounded_removeFace h hg hremove
  | hangUp face =>
      cases hperform
      exact hg.of_same (info?_hangUp fw face) (.refl fw.node) fun _ => rfl
  | takeDisconnected =>
      cases hperform
      exact ⟨hg.nextHops, nofun⟩
  | addRoute now stem face cost =>
      obtain ⟨⟨isAdded, last⟩, hadd, rfl⟩ := map_eq_ok.mp hperform
      exact grounded_addRoute h hg hadd
  | removeRoute stem face =>
      cases hperform
      have hsaid : (fw.say (.routeRemoved stem face)).Valid :=
        h.of_node rfl (h.node.congr rfl rfl rfl)
      exact grounded_changeAt hsaid (hg.unmoved (fw.node.unmoved_say _)) stem
        fun _ _ member => (List.mem_filter.mp member).1
  | addStrategy b =>
      cases hperform
      exact hg.unmoved (fw.node.unmoved_say _)
  | setStrategy stem id =>
      cases hperform
      exact grounded_setStrategy h hg stem id
  | unsetStrategy stem =>
      cases hperform
      exact grounded_unsetStrategy h hg stem
  | setPolicy policy =>
      cases hperform
      exact hg
  | addRegion region =>
      cases hperform
      exact ⟨hg.nextHops, hg.disconnected⟩
  | removeRegion region =>
      cases hperform
      exact ⟨hg.nextHops, hg.disconnected⟩
  | useStore store =>
      cases hperform
      exact hg
  | receive now ingress packet =>
      cases packet with
      | interest i => exact grounded_receiveInterest h hg hperform
      | data d => exact grounded_receiveData h hg hperform
      | nack k => exact grounded_receiveNack h hg hperform
  | dropInterest now egress interest =>
      obtain ⟨n, hquiet, rfl⟩ := onDroppedInterest_cases h.builtIn hperform
      have hticked : Node.Grounded { fw.node with now } := ⟨hg.nextHops, hg.disconnected⟩
      exact hticked.unmoved hquiet.toUnmoved
  | runTimers now =>
      cases hperform
      exact grounded_runTimers h hg now

end Forwarder

/-! ### Runs -/

/-- Every face that a node refers to exists: the faces of next hops, those with a record in a
pending entry, and those that are listed as broken. -/
structure Node.NamesKnownFaces (n : Node) : Prop where
  nextHops : ∀ r ∈ n.tables.tree.values, ∀ hop ∈ r.nextHops, n.faces.contains hop.face = true
  inRecords : ∀ token e, n.tables.pit.get? token = some e →
    ∀ r ∈ e.inRecords, n.faces.contains r.face = true
  outRecords : ∀ token e, n.tables.pit.get? token = some e →
    ∀ r ∈ e.outRecords, n.faces.contains r.face = true
  disconnected : ∀ face ∈ n.disconnected, n.faces.contains face = true

namespace Run

variable {settings : Settings} {store : ContentStore} {hash : HashFunction} {fw : Forwarder}
  {history : List Step}

theorem grounded (run : Run (Forwarder.new settings store hash) history fw) :
    fw.node.Grounded := by
  have hstart : (Forwarder.new settings store hash).node.Grounded :=
    ⟨Tables.hopsWithin_new 0 _, nofun⟩
  have hall := run.invariant (P := fun fw => fw.Valid ∧ fw.node.Grounded)
    ⟨Forwarder.valid_new settings store hash, hstart⟩
    fun _ _ _ hperform h => ⟨h.1.perform hperform, grounded_perform h.1 h.2 hperform⟩
  exact hall.2

/-- Between operations, no next hop, no record of a pending entry and no report of a broken link is
left of a face that does not exist. -/
theorem names_known_faces (run : Run (Forwarder.new settings store hash) history fw) :
    fw.node.NamesKnownFaces where
  nextHops := run.grounded.nextHops.values run.valid.node.indexed.ordered
  inRecords token e hget r hr := (run.valid.node.wellKept token e hget).known.inFaces r.face
    (PitEntry.mem_inFaces.mpr ⟨r, hr, rfl⟩)
  outRecords token e hget r hr := (run.valid.node.wellKept token e hget).known.outFaces r.face
    (PitEntry.mem_outFaces.mpr ⟨r, hr, rfl⟩)
  disconnected := run.grounded.disconnected

end Run

namespace Sample

/-- An Interest is sent to a face whose link refuses it. -/
def refused : List Operation :=
  [ask ⟨2⟩ ⟨1⟩, .addRoute ⟨1⟩ name ⟨257⟩ 0, .addFace (fun _ => false) .offHost .pointToPoint,
    .addFace (fun _ => true) .offHost .pointToPoint]

end Sample

/-- The face that refused the Interest still has its next hop, its record and its report. -/
theorem names_known_faces_refused : ∃ history fw e, Run Sample.start history fw ∧
    fw.node.tables.pit.get? ⟨0, 0⟩ = some e ∧ e.inFaces = [⟨256⟩] ∧ e.outFaces = [⟨257⟩] ∧
    fw.node.tables.nextHops Sample.name = [{ cost := 0, face := ⟨257⟩ }] ∧
    fw.node.disconnected = [⟨257⟩] ∧ fw.node.NamesKnownFaces := by
  have run := Run.reached Sample.start Sample.refused (by decide +kernel)
  let fw := reached Sample.start Sample.refused
  have hentry : (fw.node.tables.pit.get? ⟨0, 0⟩).any (fun e =>
      e.inFaces = [⟨256⟩] && e.outFaces = [⟨257⟩]) = true := by decide +kernel
  obtain ⟨e, hget, he⟩ := (Option.any_eq_true _ _).mp hentry
  obtain ⟨hin, hout⟩ := (Bool.and_eq_true _ _).mp he
  exact ⟨_, fw, e, run, hget, of_decide_eq_true hin, of_decide_eq_true hout, by decide +kernel,
    by decide +kernel, run.names_known_faces⟩

/-! ### Keys of records -/

/-- In a pending entry no two records of a side belong to one face, and no two faces wait with one
nonce. -/
theorem Run.records_keyed {settings : Settings} {store : ContentStore} {hash : HashFunction}
    {history : List Step} {fw : Forwarder}
    (run : Run (Forwarder.new settings store hash) history fw) {token : PitToken} {e : PitEntry}
    (hget : fw.node.tables.pit.get? token = some e) :
    (e.inRecords.map InRecord.face).Nodup ∧ (e.inRecords.map InRecord.nonce).Nodup ∧
      (e.outRecords.map OutRecord.face).Nodup := by
  have hdistinct := (run.valid.node.wellKept token e hget).distinct
  have hattributed := run.distinguished.2 token e hget
  refine ⟨hdistinct.inFaces, ?_, hdistinct.outFaces⟩
  -- Two records with one nonce belong to one face, and a face has one record.
  refine List.Nodup.map_on ?_ (List.Nodup.of_map InRecord.face hdistinct.inFaces)
  intro r hr r' hr' hnonce
  have hface : r.face = r'.face := hattributed.sole r' hr' r hr hnonce
  exact List.inj_on_of_nodup_map hdistinct.inFaces hr hr' hface

namespace Sample

/-- Both faces ask, each with a nonce of its own. -/
def askedTwice : List Operation :=
  [.receive ⟨3⟩ ⟨⟨257⟩, 0⟩ (.interest { name, nonce := ⟨2⟩ }), ask ⟨2⟩ ⟨1⟩] ++ setup

end Sample

theorem records_keyed_for_two : ∃ history fw e, Run Sample.start history fw ∧
    fw.node.tables.pit.get? ⟨0, 0⟩ = some e ∧ e.inRecords.length = 2 ∧ e.outRecords.length = 1 ∧
    (e.inRecords.map InRecord.face).Nodup ∧ (e.inRecords.map InRecord.nonce).Nodup ∧
    (e.outRecords.map OutRecord.face).Nodup := by
  have run := Run.reached Sample.start Sample.askedTwice (by decide +kernel)
  let fw := reached Sample.start Sample.askedTwice
  have hentry : (fw.node.tables.pit.get? ⟨0, 0⟩).any (fun e =>
      e.inRecords.length = 2 && e.outRecords.length = 1) = true := by decide +kernel
  obtain ⟨e, hget, he⟩ := (Option.any_eq_true _ _).mp hentry
  obtain ⟨hin, hout⟩ := (Bool.and_eq_true _ _).mp he
  exact ⟨_, fw, e, run, hget, of_decide_eq_true hin, of_decide_eq_true hout,
    run.records_keyed hget⟩

end NamedData
