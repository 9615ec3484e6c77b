import NamedData.Proofs.Arrivals
import NamedData.Proofs.Delivery

/-!
Who is served. An entry keeps one record for each face, so of several peers behind a face the one
waits whose Interest came last. It waits until Data satisfies the entry, its Interest is handed back
or its face goes, whatever other Interests come in; the next Data for the entry is sent to it.
-/

namespace NamedData

open Forwarder

/-- In the step, the Interest is handed back to the peer. -/
def Step.HandsBack (s : Step) (peer : FaceEndpoint) (i : Interest) : Prop :=
  ∃ t ∈ s.sent, t.peer = peer ∧ ∃ reason, t.packet = .nack { interest := i.untagged, reason }

/-! ### Satisfied entries -/

namespace Focus

variable {f f' : Focus} {hash : HashFunction} {operation : Operation}

/-- Nothing takes satisfaction back. -/
theorem Deed.satisfied (h : Deed hash operation f f') (hsatisfied : f.entry.satisfied = true) :
    f'.entry.satisfied = true := by
  cases h with
  | talk hquiet => exact hquiet.entry ▸ hsatisfied
  | hit data => rfl
  | answer data => exact hsatisfied
  | wait hint => exact hsatisfied
  | mark decision => exact hsatisfied
  | forward hint _ _ _ _ hinfo _ => exact (keepsTime_sendInterest _ hinfo).satisfied.trans hsatisfied
  | offer _ _ _ _ hinfo _ => exact (keepsTime_sendInterest _ hinfo).satisfied.trans hsatisfied
  | handBack egress reason _ =>
      exact (f.keepsTime_sendNack egress reason).satisfied.trans hsatisfied
  | giveUp => exact hsatisfied
  | nacked =>
      rw [recordNack]
      split <;> exact hsatisfied
  | serve _ _ hserved => exact hserved.satisfied
  | @forget _ face _ =>
      rcases forgetFace_cases face f with ⟨_, hforget⟩ | ⟨_, hforget | hforget⟩ <;> rw [hforget] <;>
        exact hsatisfied

end Focus

/-! ### One operation -/

/-- The entry is satisfied, or the record is among those who wait in it. -/
def PitEntry.Retains (e : PitEntry) (r : InRecord) : Prop :=
  e.satisfied = true ∨ r ∈ e.inRecords

namespace Forwarder

variable {fw fw' : Forwarder} {operation : Operation} {token : PitToken} {e e' : PitEntry}
  {r : InRecord}

theorem satisfied_perform (h : fw.Valid) (hperform : fw.perform operation = .ok fw')
    (hget : fw.node.tables.pit.get? token = some e) (hsatisfied : e.satisfied = true)
    (hget' : fw'.node.tables.pit.get? token = some e') : e'.satisfied = true := by
  have hresult := entry_perform (P := fun e => e.satisfied = true) (L := fun _ => False)
    (fun _ _ _ => id) (fun _ _ _ hdeed he => .inl (hdeed.satisfied he)) h hperform hget hsatisfied
  rcases hresult with ⟨last, hlast, hkept⟩ | hfalse | hgone
  · exact Option.some.inj (hget'.symm.trans hlast) ▸ hkept
  · exact hfalse.elim
  · cases hget'.symm.trans hgone

/-- A record stays when an Interest comes in, unless its own face sends one. -/
theorem retains_receiveInterest (h : fw.Valid) {now : Timestamp} {ingress : FaceEndpoint}
    {i : Interest} (hreceive : fw.receiveInterest now ingress i = .ok fw')
    (hget : fw.node.tables.pit.get? token = some e) (hr : r ∈ e.inRecords)
    (hget' : fw'.node.tables.pit.get? token = some e')
    (hother : ∀ e₀ e₁, TakesIn fw fw' ingress (fw.node.arrival ingress i) now token e₀ e₁ →
      r.face ≠ ingress.face) : r ∈ e'.inRecords := by
  cases receiveInterest_reception h hreceive with
  | turnedAway _ _ hwaiting _ =>
      have hsame := hwaiting token
      rw [Node.waitingIn_of_get? hget, Node.waitingIn_of_get? hget'] at hsame
      exact hsame ▸ hr
  | @takenIn own e₀ e₁ htaken =>
      by_cases hown : own = token
      · subst hown
        have hold : e₀ = e := by
          cases htaken.finds with
          | old hget₀ => exact Option.some.inj (hget₀.symm.trans hget)
          | new hfree _ _ => cases hfree.symm.trans hget
        have hnew : e₁ = e' := Option.some.inj (htaken.after.symm.trans hget')
        subst hold hnew
        exact htaken.keeps_others h hr (hother _ _ htaken)
      · have hsame := htaken.others token (Ne.symm hown)
        rw [hget, hget', Option.some.injEq] at hsame
        exact hsame ▸ hr

/-- A face that there still is was not removed, and nothing else was. -/
theorem tables_removeFace {now : Timestamp} {face : FaceId}
    (hperform : fw.perform (.removeFace now face) = .ok fw')
    (hstays : fw'.node.faces.contains face = true) : fw'.node.tables = fw.node.tables := by
  obtain ⟨⟨isRemoved, last⟩, hremove, rfl⟩ := map_eq_ok.mp hperform
  rcases removeFace_cases hremove with rfl | ⟨faces, n, last, htable, hquiet, hfold, rfl⟩
  · rfl
  · have hgone : n.faces.contains face = false := by
      rw [FaceTable.contains_congr hquiet.info?, Bool.eq_false_iff]
      exact fun hkept => ((FaceTable.contains_remove htable face).mp hkept).2 rfl
    have hend := foldlM_preserve (P := fun s : Forwarder => s.node.faces.contains face = false)
      (fun s token s' hstep hs => by
        obtain ⟨e, f, _, hwork, rfl⟩ := atEntry_eq_ok.mp hstep
        cases hwork
        have hkeeps := keeps_forgetFace face ⟨s.node, token, e⟩
        exact (congrFun (FaceTable.contains_congr hkeeps.info?) face).trans hs)
      hfold hgone
    cases hend.symm.trans hstays

/-- A record stays unless the entry is satisfied, the Interest is handed back or the face goes. -/
theorem retains_perform (h : fw.Valid) (hperform : fw.perform operation = .ok fw')
    (hother : ∀ now ingress i, operation ≠ .receive now ingress (.interest i))
    (hget : fw.node.tables.pit.get? token = some e) (he : e.Retains r)
    (hget' : fw'.node.tables.pit.get? token = some e')
    (hback : ¬ (Step.mk fw operation fw').HandsBack r.peer r.interest)
    (hstays : fw'.node.faces.contains r.face = true) : e'.Retains r := by
  by_cases hremoved : ∃ now, operation = .removeFace now r.face
  · obtain ⟨now, rfl⟩ := hremoved
    rw [tables_removeFace hperform hstays, hget, Option.some.injEq] at hget'
    exact hget' ▸ he
  · have hresult := entry_perform (P := fun e => e.Retains r)
      (L := fun sent => ∃ t ∈ sent, t.peer = r.peer ∧
        ∃ reason, t.packet = .nack { interest := r.interest.untagged, reason })
      (fun _ _ hsub ⟨t, ht, hlost⟩ => ⟨t, hsub t ht, hlost⟩) ?_ h hperform hget he
    · rcases hresult with ⟨last, hlast, hkept⟩ | hlost | hgone
      · exact Option.some.inj (hget'.symm.trans hlast) ▸ hkept
      · exact (hback hlost).elim
      · cases hget'.symm.trans hgone
    · rintro f f' hsound hdeed (hsatisfied | hr)
      · exact .inl (.inl (hdeed.satisfied hsatisfied))
      · cases hdeed.recordEffect hsound hr with
        | stays hr => exact .inl (.inr hr)
        | replaced hcall _ _ _ => exact (hother _ _ _ hcall).elim
        | handedBack hsent =>
            right
            rw [hsent, List.drop_left]
            exact ⟨_, List.mem_singleton.mpr rfl, rfl, _, rfl⟩
        | answered _ _ hsatisfied => exact .inl (.inl hsatisfied)
        | removed hcall => exact (hremoved ⟨_, hcall⟩).elim

end Forwarder

/-- Data from another face is sent to whoever waits for it behind a face that lets it out. -/
theorem Forwarder.Valid.serves {fw : Forwarder} (h : fw.Valid) {token : PitToken} {e : PitEntry}
    {r : InRecord} (hget : fw.node.tables.pit.get? token = some e) (hr : r ∈ e.inRecords)
    {now : Timestamp} (hlive : now < r.expiry) {ingress : FaceEndpoint} {info : FaceInfo}
    {data : Data} (hother : r.face ≠ ingress.face)
    (hinfo : fw.node.faces.info? ingress.face = some info)
    (hscope : info.isLocal = true ∨ data.name.isLocalhost = false)
    (hanswers : e.interest.isAnsweredBy data.name (data.implicitDigest fw.hash) = true)
    (hlets : fw.node.LetsOut data r.face) :
    ∃ fw', fw.receiveData now ingress data = .ok fw' ∧
      ∃ t ∈ (Step.mk fw (.receive now ingress (.data data)) fw').sent,
        t.peer = r.peer ∧ t.packet = .data (data.arrived ingress.face) := by
  obtain ⟨fw', hreceive, hdelivered⟩ := h.delivers now hinfo hscope ⟨token, e, hget, hanswers⟩
  obtain ⟨peers, ⟨new, hsent, hpeers, hpackets⟩, -, hserved⟩ := hdelivered.served
  have hawaits : Node.Awaits { fw.node with now } ingress.face info.isAdHoc data
      (data.implicitDigest fw.hash) r.peer :=
    ⟨token, e, r, hget, hanswers, hr, Focus.isServed_iff.mpr ⟨decide_eq_true hlive, .inl hother⟩,
      rfl⟩
  have hmem : r.peer ∈ new.map Transmission.peer := by
    rw [hpeers]
    exact (hserved r.peer).mpr ⟨hawaits, hlets⟩
  obtain ⟨t, ht, hpeer⟩ := List.mem_map.mp hmem
  refine ⟨fw', hreceive, t, ?_, hpeer, hpackets t ht⟩
  have hstep : (Step.mk fw (.receive now ingress (.data data)) fw').sent = new := by
    rw [Step.sent, hsent, List.drop_left]
  exact hstep ▸ ht

/-! ### Runs -/

variable {settings : Settings} {store : ContentStore} {hash : HashFunction} {fw : Forwarder}
  {later earlier : List Step} {s : Step} {token : PitToken} {peer : FaceEndpoint} {i : Interest}
  {now : Timestamp} {e : PitEntry}

/-- The record that the last step of a run leaves for the Interest that it accepts. -/
theorem Run.records (run : Run (Forwarder.new settings store hash) (s :: earlier) fw)
    (haccepts : s.Accepts token peer i now)
    (hback : ¬ s.HandsBack peer (s.before.node.arrival peer i)) :
    ∃ e, fw.node.tables.pit.get? token = some e ∧
      PitEntry.inRecordOf peer (s.before.node.arrival peer i) now ∈ e.inRecords := by
  obtain ⟨e, e', htaken⟩ := run.takesIn haccepts
  obtain ⟨hbefore, hperform, rfl⟩ := run.last
  refine ⟨e', htaken.after, ?_⟩
  rcases htaken.goesOn with ⟨hin, _⟩ | ⟨_, reason, isTaken, hsent⟩
  · rw [hin]
    exact (htaken.mem_recordIn hbefore.valid).mpr (.inl rfl)
  · refine (hback ?_).elim
    have hstep : s.sent = [⟨peer, .nack
        { interest := (s.before.node.arrival peer i).untagged, reason }, isTaken⟩] := by
      rw [Step.sent, hsent, List.drop_left]
    exact ⟨_, hstep ▸ List.mem_singleton_self _, rfl, reason, rfl⟩

/-- A record stays through the later steps of a run. -/
theorem Run.retains (run : Run (Forwarder.new settings store hash) (later ++ s :: earlier) fw)
    (haccepts : s.Accepts token peer i now)
    (hlast : ∀ t ∈ later, ¬ t.AcceptsFrom token peer.face) (hholds : ∀ t ∈ later, t.Holds token)
    (hstays : ∀ t ∈ later, t.after.node.faces.contains peer.face = true)
    (hback : ∀ t ∈ s :: later, ¬ t.HandsBack peer (s.before.node.arrival peer i)) :
    ∃ e, fw.node.tables.pit.get? token = some e ∧
      e.Retains (PitEntry.inRecordOf peer (s.before.node.arrival peer i) now) := by
  obtain ⟨first, hfirst⟩ := run.suffix
  obtain ⟨_, _, rfl⟩ := hfirst.last
  obtain ⟨e, hget, hr⟩ := hfirst.records haccepts (hback s List.mem_cons_self)
  refine run.along (P := fun fw => ∃ e, fw.node.tables.pit.get? token = some e ∧
    e.Retains (PitEntry.inRecordOf peer (s.before.node.arrival peer i) now)) ⟨e, hget, .inr hr⟩ ?_
  rintro t ht passed hrun ⟨e, hget, he⟩
  obtain ⟨e', hget'⟩ := hholds t ht
  obtain ⟨hbefore, hperform, _⟩ := hrun.last
  refine ⟨e', hget', ?_⟩
  by_cases hcall : ∃ time ingress j, t.operation = .receive time ingress (.interest j)
  · obtain ⟨time, ingress, j, hcall⟩ := hcall
    rcases he with hsatisfied | hr
    · exact .inl (satisfied_perform hbefore.valid hperform hget hsatisfied hget')
    · right
      rw [hcall] at hperform
      refine retains_receiveInterest hbefore.valid hperform hget hr hget' ?_
      intro e₀ e₁ htaken hface
      exact hlast t ht ⟨ingress, j, time, Step.accepts_of_takesIn hcall htaken, hface.symm⟩
  · push Not at hcall
    exact retains_perform hbefore.valid hperform hcall hget he hget'
      (hback t (List.mem_cons_of_mem s ht)) (hstays t ht)

/-- Of the peers behind a face, the one whose Interest came to an entry last has a record there for
as long as the entry is there unsatisfied, the face stays and the Interest is not handed back,
whatever else comes in. Until the Interest expires, the next Data for the entry that comes from
another face and is not held back at a face is sent to this peer. -/
theorem last_peer_waits
    (run : Run (Forwarder.new settings store hash) (later ++ s :: earlier) fw)
    (haccepts : s.Accepts token peer i now)
    (hlast : ∀ t ∈ later, ¬ t.AcceptsFrom token peer.face) (hholds : ∀ t ∈ later, t.Holds token)
    (hstays : ∀ t ∈ later, t.after.node.faces.contains peer.face = true)
    (hback : ∀ t ∈ s :: later, ¬ t.HandsBack peer (s.before.node.arrival peer i))
    (hget : fw.node.tables.pit.get? token = some e) (hopen : e.satisfied = false) :
    ∃ r ∈ e.inRecords, r.peer = peer ∧ r.interest = s.before.node.arrival peer i ∧
      r.expiry = now.adding i.lifetime ∧
      ∀ time ingress info data, time < r.expiry → peer.face ≠ ingress.face →
        fw.node.faces.info? ingress.face = some info →
        (info.isLocal = true ∨ data.name.isLocalhost = false) →
        e.interest.isAnsweredBy data.name (data.implicitDigest fw.hash) = true →
        fw.node.LetsOut data peer.face →
        ∃ fw', fw.receiveData time ingress data = .ok fw' ∧
          ∃ t ∈ (Step.mk fw (.receive time ingress (.data data)) fw').sent,
            t.peer = peer ∧ t.packet = .data (data.arrived ingress.face) := by
  obtain ⟨e', hget', hretains⟩ := run.retains haccepts hlast hholds hstays hback
  have hsame : e' = e := Option.some.inj (hget'.symm.trans hget)
  subst hsame
  rcases hretains with hsatisfied | hr
  · cases hopen.symm.trans hsatisfied
  · refine ⟨_, hr, rfl, rfl, rfl, ?_⟩
    intro time ingress info data hlive hother hinfo hscope hanswers hlets
    exact run.valid.serves hget hr hlive hother hinfo hscope hanswers hlets

/-! ### Two peers behind one face -/

namespace Sample

/-- A face with several peers, two with one, and a route to the second face. -/
def sharedFace : List Operation :=
  [.addRoute ⟨1⟩ name ⟨257⟩ 0, .addFace (fun _ => true) .offHost .pointToPoint,
    .addFace (fun _ => true) .offHost .pointToPoint, .addFace (fun _ => true) .offHost .multiAccess]

def askBehind (endpoint : Nat) (now : Timestamp) (nonce : Nonce) : Operation :=
  .receive now ⟨⟨256⟩, endpoint⟩ (.interest { name, nonce })

def askBeside (now : Timestamp) (nonce : Nonce) : Operation :=
  .receive now ⟨⟨258⟩, 0⟩ (.interest { name, nonce })

/-- Both peers ask, and then somebody behind another face. -/
def bothAsk : List Operation :=
  askBeside ⟨3⟩ ⟨3⟩ :: askBehind 2 ⟨2⟩ ⟨2⟩ :: askBehind 1 ⟨1⟩ ⟨1⟩ :: sharedFace

def askedBeside : Step :=
  ⟨reached start bothAsk.tail, askBeside ⟨3⟩ ⟨3⟩, reached start bothAsk⟩

def secondAsks : Step :=
  ⟨reached start bothAsk.tail.tail, askBehind 2 ⟨2⟩ ⟨2⟩, reached start bothAsk.tail⟩

def firstAsks : Step :=
  ⟨reached start sharedFace, askBehind 1 ⟨1⟩ ⟨1⟩, reached start bothAsk.tail.tail⟩

theorem run_bothAsk : Run start ([askedBeside] ++ secondAsks :: firstAsks ::
    historyOf start sharedFace) (reached start bothAsk) := by
  have hrun := Run.reached start bothAsk (by decide +kernel)
  rwa [bothAsk, historyOf_cons _ _ _ (by decide +kernel), historyOf_cons _ _ _ (by decide +kernel),
    historyOf_cons _ _ _ (by decide +kernel)] at hrun

theorem firstAsks_accepts :
    firstAsks.Accepts ⟨0, 0⟩ ⟨⟨256⟩, 1⟩ { name, nonce := ⟨1⟩ } ⟨1⟩ :=
  Step.accepts_of_any rfl (by decide +kernel) (by decide +kernel)

theorem secondAsks_accepts :
    secondAsks.Accepts ⟨0, 0⟩ ⟨⟨256⟩, 2⟩ { name, nonce := ⟨2⟩ } ⟨2⟩ :=
  Step.accepts_of_any rfl (by decide +kernel) (by decide +kernel)

end Sample

/-- Two peers behind a face wait for the same; once the second has asked, the first one has no record
any more, although nobody has answered it and its Interest has not expired. -/
theorem first_peer_forgotten : ∃ second first earlier fw e,
    Run Sample.start (second :: first :: earlier) fw ∧
      first.Accepts ⟨0, 0⟩ ⟨⟨256⟩, 1⟩ { name := Sample.name, nonce := ⟨1⟩ } ⟨1⟩ ∧
      (∀ i now, ¬ second.Accepts ⟨0, 0⟩ ⟨⟨256⟩, 1⟩ i now) ∧
      fw.node.tables.pit.get? ⟨0, 0⟩ = some e ∧ e.satisfied = false ∧
      fw.node.now < Timestamp.adding ⟨1⟩ 4000 ∧ fw.node.faces.contains ⟨256⟩ = true ∧
      (∀ t ∈ fw.node.journal.sent, t.packet.isAnswer = false) ∧
      ¬ ∃ r ∈ e.inRecords, r.peer = ⟨⟨256⟩, 1⟩ := by
  have hrun := Sample.run_bothAsk.last.1
  have hentry : (Sample.secondAsks.after.node.tables.pit.get? ⟨0, 0⟩).any (fun e =>
      !e.satisfied && e.inRecords.all fun r => r.peer ≠ ⟨⟨256⟩, 1⟩) = true := by decide +kernel
  obtain ⟨e, hget, he⟩ := (Option.any_eq_true _ _).mp hentry
  obtain ⟨hopen, hnone⟩ := (Bool.and_eq_true _ _).mp he
  have hsilent : Sample.secondAsks.after.node.journal.sent.all
      (fun t => !t.packet.isAnswer) = true := by decide +kernel
  refine ⟨_, _, _, _, e, hrun, Sample.firstAsks_accepts, ?_, hget, (Bool.not_eq_true' _).mp hopen,
    by decide +kernel, by decide +kernel, ?_, ?_⟩
  · rintro i now ⟨hcall, -, -⟩
    cases hcall
  · exact fun t ht => (Bool.not_eq_true' _).mp (List.all_eq_true.mp hsilent t ht)
  · rintro ⟨r, hr, hpeer⟩
    exact of_decide_eq_true (List.all_eq_true.mp hnone r hr) hpeer

/-- The second peer waits on after somebody behind another face has asked, and is sent the Data. -/
theorem last_peer_waits_second : ∃ later s earlier fw e,
    Run Sample.start (later ++ s :: earlier) fw ∧
      s.Accepts ⟨0, 0⟩ ⟨⟨256⟩, 2⟩ { name := Sample.name, nonce := ⟨2⟩ } ⟨2⟩ ∧
      fw.node.tables.pit.get? ⟨0, 0⟩ = some e ∧
      (∃ r ∈ e.inRecords, r.peer = ⟨⟨256⟩, 2⟩) ∧
      ∃ fw', fw.receiveData ⟨4⟩ ⟨⟨257⟩, 0⟩ Sample.data = .ok fw' ∧
        ∃ t ∈ (Step.mk fw (.receive ⟨4⟩ ⟨⟨257⟩, 0⟩ (.data Sample.data)) fw').sent,
          t.peer = ⟨⟨256⟩, 2⟩ := by
  let fw := reached Sample.start Sample.bothAsk
  have hentry : (fw.node.tables.pit.get? ⟨0, 0⟩).any (fun e => !e.satisfied &&
      e.interest.isAnsweredBy Sample.data.name (Sample.data.implicitDigest fw.hash)) = true := by
    decide +kernel
  have hsilent : (Sample.secondAsks :: [Sample.askedBeside]).all (fun t =>
      t.sent.all fun u => !u.packet.isAnswer) = true := by decide +kernel
  have hface : fw.node.faces.contains ⟨256⟩ = true := by decide +kernel
  have hinfo : fw.node.faces.info? ⟨257⟩ =
      some { face := ⟨257⟩, scope := .offHost, link := .pointToPoint } := by decide +kernel
  obtain ⟨e, hget, he⟩ := (Option.any_eq_true _ _).mp hentry
  obtain ⟨hopen, hanswers⟩ := (Bool.and_eq_true _ _).mp he
  have hlast : ∀ t ∈ [Sample.askedBeside], ¬ t.AcceptsFrom ⟨0, 0⟩ ⟨256⟩ := by
    rintro t ht ⟨peer, i, now, haccepts, hbehind⟩
    rw [List.mem_singleton.mp ht] at haccepts
    cases haccepts.call
    cases hbehind
  have hholds : ∀ t ∈ [Sample.askedBeside], t.Holds ⟨0, 0⟩ := by
    intro t ht
    rw [List.mem_singleton.mp ht]
    exact ⟨e, hget⟩
  have hstays : ∀ t ∈ [Sample.askedBeside], t.after.node.faces.contains ⟨256⟩ = true := by
    intro t ht
    rw [List.mem_singleton.mp ht]
    exact hface
  have hback (i : Interest) : ∀ t ∈ Sample.secondAsks :: [Sample.askedBeside],
      ¬ t.HandsBack ⟨⟨256⟩, 2⟩ i := by
    rintro t ht ⟨u, hu, -, reason, hnack⟩
    have hsent := List.all_eq_true.mp (List.all_eq_true.mp hsilent t ht) u hu
    rw [hnack] at hsent
    cases hsent
  obtain ⟨r, hr, hpeer, -, hexpiry, hserved⟩ := last_peer_waits Sample.run_bothAsk
    Sample.secondAsks_accepts hlast hholds hstays (hback _) hget ((Bool.not_eq_true' _).mp hopen)
  obtain ⟨fw', hreceive, t, ht, hto, -⟩ := hserved ⟨4⟩ ⟨⟨257⟩, 0⟩ _ Sample.data
    (by rw [hexpiry]; decide +kernel) (by decide) hinfo (.inr (by decide)) hanswers
    fun _ _ => .inr (by decide)
  exact ⟨_, _, _, fw, e, Sample.run_bothAsk, Sample.secondAsks_accepts, hget, ⟨r, hr, hpeer⟩, fw',
    hreceive, t, ht, hto⟩

end NamedData
