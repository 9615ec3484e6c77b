import NamedData.Proofs.Due
import NamedData.Proofs.FlowBalance

/-!
Satisfied entries. Data that comes in or is found in the content store satisfies an entry and makes
it due. Nothing takes that back but an Interest that arrives before timers are run, is not answered
from the content store and then waits in the satisfied entry: the timer is set anew, while the entry
stays satisfied. Without such Interests every satisfied entry is due at every moment.
-/

namespace NamedData

/-- In the step, an Interest for a satisfied entry is not answered from the content store and waits
in the entry afterwards. -/
def Step.Reawaits (s : Step) (token : PitToken) : Prop :=
  ∃ now ingress i e e', s.operation = .receive now ingress (.interest i) ∧
    s.before.node.tables.findPending i = .ok (some token) ∧
    s.before.node.tables.pit.get? token = some e ∧ e.satisfied = true ∧
    s.before.node.counters.storeMisses < s.after.node.counters.storeMisses ∧
    s.after.node.tables.pit.get? token = some e' ∧ ingress.face ∈ e'.inFaces

/-- After the step every satisfied entry is due, and no Interest waits in one because of it. -/
structure Step.KeepsSatisfied (s : Step) : Prop where
  due : s.after.node.DueExcept fun _ => False
  waits : ∀ token, s.Reawaits token → ∀ e, s.after.node.tables.pit.get? token = some e →
    e.satisfied = false

variable {spared : PitToken → Prop}

namespace Forwarder

variable {fw fw' : Forwarder} {now : Timestamp} {ingress : FaceEndpoint} {token : PitToken}

/-! ### Which entry an Interest is for -/

theorem firstAsking_hinted (t : Tables) (i : Interest) (origin : Option FaceId) (hint : List Name)
    (tokens : List PitToken) :
    t.firstAsking { i with incomingFace := origin, forwardingHint := hint } tokens =
      t.firstAsking i tokens := by
  induction tokens with
  | nil => rfl
  | cons token rest ih =>
      simp only [Tables.firstAsking, ih]
      rfl

/-- Where an Interest comes from and its hint do not matter for finding its entry. -/
theorem findPending_hinted (t : Tables) (i : Interest) (origin : Option FaceId) (hint : List Name) :
    t.findPending { i with incomingFace := origin, forwardingHint := hint } = t.findPending i :=
  firstAsking_hinted t i origin hint _

/-! ### An Interest with its entry at hand -/

/-- The Interest was not answered, and its face waits in an entry that was satisfied. -/
def WaitsAgain (n n' : Node) (token : PitToken) (e : PitEntry) (face : FaceId) : Prop :=
  e.satisfied = true ∧ n.counters.storeMisses < n'.counters.storeMisses ∧
    ∃ e', n'.tables.pit.get? token = some e' ∧ face ∈ e'.inFaces

theorem mem_inFaces_awaitData (ingress : FaceEndpoint) (interest : Interest) (f : Focus) :
    ingress.face ∈ (awaitData ingress interest f).entry.inFaces := by
  have hrecord : (awaitData ingress interest f).entry.inFaces =
      (f.entry.recordIn ingress interest f.node.now).inFaces := rfl
  rw [hrecord, PitEntry.inFaces_recordIn]
  split
  · assumption
  · exact List.mem_append_right _ (List.mem_singleton_self _)

/-- An Interest that waits leaves its entry due if the entry was given up. -/
theorem punctual_missed {interest : Interest} {n : Node} {e : PitEntry} {f : Focus}
    (h : n.Punctual spared) (hget : n.tables.pit.get? token = some e)
    (hanswer : (awaitData ingress interest ⟨noteMiss interest n, token, e⟩).SendsOnOrEnds f) :
    f.release.Punctual fun u =>
      spared u ∨ u = token ∧ WaitsAgain n f.release token e ingress.face := by
  let noted : Focus := ⟨noteMiss interest n, token, e⟩
  have hnoted : noted.Punctual spared :=
    (h.unmoved (quiet_noteMiss interest n).toUnmoved).focus hget
  have hwaits : (awaitData ingress interest noted).OthersPunctual spared :=
    (hnoted.toOthersPunctual.of_timers (Focus.keeps_onEntry rfl) rfl rfl).setExpiry _
  rcases hanswer with hsends | ⟨g, hmoves, rfl⟩
  · have hothers := hwaits.moves hsends.moves
    have hkeeps := hsends.moves.keeps
    have htoken : f.token = token := hkeeps.token
    refine ⟨hothers.timed_release, ?_⟩
    intro u e' hget' hsatisfied
    rcases hothers.due_release hget' hsatisfied with ⟨rfl, rfl⟩ | hdue
    · right
      right
      have hold : e.satisfied = true := by
        rw [hsends.moves.satisfied] at hsatisfied
        exact hsatisfied
      have hcount : n.counters.storeMisses + 1 ≤ f.release.counters.storeMisses :=
        hkeeps.storeMisses
      refine ⟨htoken, hold, hcount, f.entry, htoken ▸ hget', ?_⟩
      rw [hsends.inFaces]
      exact mem_inFaces_awaitData ingress interest noted
    · exact hdue.imp_right .inl
  · exact (hwaits.moves hmoves).reject.release.mono fun _ => .inl

/-- An Interest with its entry at hand leaves every satisfied entry due in which it does not
wait. -/
theorem punctual_admission {info : FaceInfo} {interest : Interest} {n n' : Node} {e : PitEntry}
    (hadmission : Admission ingress info interest n token e n') (h : n.Punctual spared)
    (hget : n.tables.pit.get? token = some e) :
    n'.Punctual fun u => spared u ∨ u = token ∧ WaitsAgain n n' token e ingress.face := by
  cases hadmission with
  | looped m hloop hmoved hsent =>
      have hget' : m.tables.pit.get? token = some e := by rwa [hmoved.tables]
      exact ((h.unmoved hmoved).focus hget').release.mono fun _ => .inl
  | hit g data hloop hempty hquiet =>
      let noted : Focus := ⟨noteHit interest data n, token, e⟩
      have hnoted : noted.Punctual spared :=
        (h.unmoved (quiet_noteHit interest data n).toUnmoved).focus hget
      have hsettled : (settle data noted).OthersPunctual spared :=
        hnoted.toOthersPunctual.of_timers (Focus.keeps_onEntry rfl) rfl rfl
      have hended := hsettled.reject.quiet hquiet
      have hsent := hended.of_timers
        (g.keeps_sendData ingress { data with incomingFace := some .contentStore })
        (g.node.unmoved_sendData ingress _).timers rfl rfl
      exact hsent.release.mono fun _ => .inl
  | missed f hloop hanswer => exact punctual_missed h hget hanswer

theorem punctual_insert {n : Node} (h : n.Punctual spared) {i : Interest} {tables : Tables}
    (hinsert : n.tables.pit.insert { interest := i } = .ok (token, tables.pit)) :
    Node.Punctual { n with tables } spared := by
  have hpit : ∀ u, tables.pit.get? u = if u = token then some { interest := i }
      else n.tables.pit.get? u := Arena.get?_insert hinsert
  refine ⟨h.timed.insert (Arena.get?_of_insert hinsert) rfl hpit, ?_⟩
  intro u e hget hsatisfied
  rw [hpit] at hget
  split at hget
  · cases hget
    cases hsatisfied
  · exact h.due u e hget hsatisfied

theorem punctual_receiveInterest (h : fw.Valid) (hpunctual : fw.node.Punctual spared)
    (hclock : fw.node.now ≤ now) {interest : Interest}
    (hreceive : fw.receiveInterest now ingress interest = .ok fw') :
    fw'.node.Punctual fun token => spared token ∨
      (Step.mk fw (.receive now ingress (.interest interest)) fw').Reawaits token := by
  have hticked : Node.Punctual { fw.node with now } spared := hpunctual.later rfl rfl hclock
  have hnoted : (noteInterest now ingress interest fw.node).Punctual spared :=
    hpunctual.later rfl rfl hclock
  cases receiveInterest_cases h.builtIn hreceive with
  | unknownFace n hinfo hquiet =>
      exact (hticked.unmoved hquiet.toUnmoved).mono fun _ => .inl
  | dropped n info hinfo hmoved hsent => exact (hnoted.unmoved hmoved).mono fun _ => .inl
  | admitted m n info hint token isNew tables e store hinfo hquiet hmisses hfound hget hadmission =>
      have hm := hnoted.unmoved hquiet.toUnmoved
      -- Only an entry that was there before can have been satisfied already.
      rcases Tables.findOrInsert_cases hfound with ⟨rfl, hfind⟩ | ⟨pit, hinsert, rfl⟩
      · have hend := punctual_admission hadmission hm hget
        refine hend.mono ?_
        rintro u (hspared | ⟨rfl, hsatisfied, hcount, e', hget', hwaits⟩)
        · exact .inl hspared
        · right
          have htables : m.tables = fw.node.tables := hquiet.tables
          rw [findPending_hinted, htables] at hfind
          rw [htables] at hget
          have hcounted : fw.node.counters.storeMisses < n.counters.storeMisses := by
            rw [← hmisses]
            exact hcount
          exact ⟨now, ingress, interest, e, e', rfl, hfind, hget, hsatisfied, hcounted, hget',
            hwaits⟩
      · have hnew : e.satisfied = false := by
          have hself := Arena.get?_insert hinsert token
          rw [if_pos rfl] at hself
          have hsame := Option.some.inj (Eq.trans (Eq.symm hself) hget)
          rw [← hsame]
        have hend := punctual_admission hadmission (punctual_insert hm hinsert) hget
        refine hend.mono ?_
        rintro u (hspared | ⟨_, hsatisfied, _⟩)
        · exact .inl hspared
        · rw [hnew] at hsatisfied
          cases hsatisfied

/-! ### Satisfied entries stay satisfied -/

theorem satisfied_release {n : Node} {e old : PitEntry} {f : Focus} {u : PitToken}
    (hget : n.tables.pit.get? token = some e) (hkeeps : Focus.Keeps ⟨n, token, e⟩ f)
    (hown : e.satisfied = true → f.entry.satisfied = true)
    (hold : n.tables.pit.get? u = some old) (hsatisfied : old.satisfied = true) {e' : PitEntry}
    (hget' : f.release.tables.pit.get? u = some e') : e'.satisfied = true := by
  rw [Focus.get?_release (hkeeps.live ⟨e, hget, rfl⟩)] at hget'
  by_cases same : u = token
  · subst same
    rw [hget, Option.some.injEq] at hold
    have htoken : f.token = u := hkeeps.token
    rw [← htoken, Focus.entryOf?_self, Option.some.injEq] at hget'
    rw [← hget']
    exact hown (hold ▸ hsatisfied)
  · rw [hkeeps.entryOf?_of_ne same, Focus.entryOf?_of_ne _ same, hold, Option.some.injEq] at hget'
    rw [← hget']
    exact hsatisfied

theorem satisfied_admission {info : FaceInfo} {interest : Interest} {n n' : Node} {e : PitEntry}
    (hadmission : Admission ingress info interest n token e n')
    (hget : n.tables.pit.get? token = some e) {u : PitToken} {old e' : PitEntry}
    (hold : n.tables.pit.get? u = some old) (hsatisfied : old.satisfied = true)
    (hget' : n'.tables.pit.get? u = some e') : e'.satisfied = true := by
  cases hadmission with
  | looped m hloop hmoved hsent =>
      have hkeeps : Focus.Keeps ⟨n, token, e⟩ ⟨m, token, e⟩ := Focus.keeps_of_unmoved hmoved rfl
      exact satisfied_release hget hkeeps id hold hsatisfied hget'
  | hit g data hloop hempty hquiet =>
      have hkeeps := keeps_of_hit hquiet ingress { data with incomingFace := some .contentStore }
      apply satisfied_release hget hkeeps _ hold hsatisfied hget'
      intro _
      have hentry : g.entry.satisfied = true := by
        rw [hquiet.entry]
        rfl
      exact hentry
  | missed f hloop hanswer =>
      apply satisfied_release hget (keeps_of_missed hanswer.moves) _ hold hsatisfied hget'
      intro he
      rw [hanswer.moves.satisfied]
      exact he

theorem satisfied_receiveInterest (hbuiltIn : fw.BuiltInOnly) {interest : Interest}
    (hreceive : fw.receiveInterest now ingress interest = .ok fw') {u : PitToken}
    {old e' : PitEntry} (hold : fw.node.tables.pit.get? u = some old)
    (hsatisfied : old.satisfied = true) (hget' : fw'.node.tables.pit.get? u = some e') :
    e'.satisfied = true := by
  have hsame {n : Node} (htables : n.tables = fw.node.tables)
      (hget : n.tables.pit.get? u = some e') : e'.satisfied = true := by
    rw [htables, hold, Option.some.injEq] at hget
    rw [← hget]
    exact hsatisfied
  cases receiveInterest_cases hbuiltIn hreceive with
  | unknownFace n hinfo hquiet => exact hsame hquiet.tables hget'
  | dropped n info hinfo hmoved hsent => exact hsame hmoved.tables hget'
  | admitted m n info hint token isNew tables e store hinfo hquiet hmisses hfound hget hadmission =>
      have htables : m.tables = fw.node.tables := hquiet.tables
      apply satisfied_admission hadmission hget _ hsatisfied hget'
      rw [← htables] at hold
      rcases Tables.findOrInsert_cases hfound with ⟨rfl, _⟩ | ⟨pit, hinsert, rfl⟩
      · exact hold
      · have hne : u ≠ token := by
          intro same
          rw [same, Arena.get?_of_insert hinsert] at hold
          cases hold
        have hkept := Arena.get?_insert hinsert u
        rw [if_neg hne] at hkept
        exact Eq.trans hkept hold

/-! ### Every operation -/

/-- No operation leaves a satisfied entry late, apart from an Interest that waits in it again. -/
theorem punctual_perform (h : fw.Valid) (hpunctual : fw.node.Punctual spared)
    {operation : Operation}
    (hclock : ∀ now, operation.reading? = some now → fw.node.now ≤ now)
    (hperform : fw.perform operation = .ok fw') :
    fw'.node.Punctual fun token => spared token ∨ (Step.mk fw operation fw').Reawaits token := by
  cases operation with
  | receive now ingress packet =>
      have hle := hclock now rfl
      cases packet with
      | interest i => exact punctual_receiveInterest h hpunctual hle hperform
      | data d => exact (punctual_receiveData h hpunctual hle hperform).mono fun _ => .inl
      | nack k => exact (punctual_receiveNack h hpunctual hle hperform).mono fun _ => .inl
  | addRoute now stem face cost =>
      obtain ⟨⟨isAdded, last⟩, hadd, rfl⟩ := map_eq_ok.mp hperform
      exact (punctual_addRoute h hpunctual (hclock now rfl) hadd).mono fun _ => .inl
  | removeFace now face =>
      obtain ⟨⟨isRemoved, last⟩, hremove, rfl⟩ := map_eq_ok.mp hperform
      exact (punctual_removeFace hpunctual (hclock now rfl) hremove).mono fun _ => .inl
  | dropInterest now egress interest =>
      obtain ⟨n, hquiet, rfl⟩ := onDroppedInterest_cases h.builtIn hperform
      have hticked : Node.Punctual { fw.node with now } spared :=
        hpunctual.later rfl rfl (hclock now rfl)
      exact (hticked.unmoved hquiet.toUnmoved).mono fun _ => .inl
  | runTimers now =>
      cases hperform
      exact (punctual_runTimers h hpunctual (hclock now rfl)).mono fun _ => .inl
  | _ =>
      have hidle := idle_of_untimed hperform rfl
      have hlater := hpunctual.later hidle.pit hidle.timers (Nat.le_of_eq (by rw [hidle.now]))
      exact hlater.mono fun _ => .inl

end Forwarder

/-- At every moment of a run, a satisfied entry is due unless an Interest waited in it again. -/
theorem Run.punctual {settings : Settings} {store : ContentStore} {hash : HashFunction}
    {history : List Step} {fw : Forwarder}
    (run : Run (Forwarder.new settings store hash) history fw) (hclock : ClockNeverBack history) :
    fw.node.Punctual fun token => ∃ s ∈ history, s.Reawaits token := by
  induction run with
  | start =>
      have hvalid := Forwarder.valid_new settings store hash
      refine ⟨hvalid.node.timed, ?_⟩
      intro token e hget
      cases hget
  | step run operation hperform ih =>
      have hearlier := ih fun s hs => hclock s (List.mem_cons_of_mem _ hs)
      have hnow := hclock _ List.mem_cons_self
      refine (Forwarder.punctual_perform run.valid hearlier hnow hperform).mono ?_
      rintro token (⟨s, hs, hreawaits⟩ | hreawaits)
      · exact ⟨s, List.mem_cons_of_mem _ hs, hreawaits⟩
      · exact ⟨_, List.mem_cons_self, hreawaits⟩

/-- Without Interests that wait in satisfied entries, satisfied entries are due after every step. -/
theorem Run.due {settings : Settings} {store : ContentStore} {hash : HashFunction}
    {history : List Step} {fw : Forwarder}
    (run : Run (Forwarder.new settings store hash) history fw) (hclock : ClockNeverBack history)
    (hnever : ∀ s ∈ history, ∀ token, ¬ s.Reawaits token) :
    ∀ s ∈ history, s.after.node.DueExcept fun _ => False := by
  induction run with
  | start =>
      intro s hs
      cases hs
  | step run operation hperform ih =>
      intro s hs
      rcases List.mem_cons.mp hs with rfl | earlier
      · have hpunctual := (Run.step run operation hperform).punctual hclock
        refine (hpunctual.mono ?_).due
        rintro token ⟨s, hs, hreawaits⟩
        exact hnever s hs token hreawaits
      · exact ih (fun s hs => hclock s (List.mem_cons_of_mem _ hs))
          (fun s hs => hnever s (List.mem_cons_of_mem _ hs)) s earlier

/-- While the clock does not go back, a satisfied entry that is not due is one in which an Interest
waited again; and a run keeps its satisfied entries due and free of Interests that wait again
exactly if no Interest in it ever waits in a satisfied entry. -/
theorem satisfied_due_iff_never_reawaited {settings : Settings} {store : ContentStore}
    {hash : HashFunction} {history : List Step} {fw : Forwarder}
    (run : Run (Forwarder.new settings store hash) history fw) (hclock : ClockNeverBack history) :
    (∀ token e, fw.node.tables.pit.get? token = some e → e.satisfied = true →
      fw.node.IsDueAt token e ∨ ∃ s ∈ history, s.Reawaits token) ∧
    ((∀ s ∈ history, s.KeepsSatisfied) ↔ ∀ s ∈ history, ∀ token, ¬ s.Reawaits token) := by
  refine ⟨(run.punctual hclock).due, ?_⟩
  constructor
  · intro hkeeps s hs token hreawaits
    obtain ⟨earlier, hrun, hperform⟩ := run.mem hs
    have hwaits := (hkeeps s hs).waits token hreawaits
    obtain ⟨now, ingress, i, e, e', hoperation, _, hget, hsatisfied, _, hget', _⟩ := hreawaits
    rw [hoperation] at hperform
    have hstays := Forwarder.satisfied_receiveInterest hrun.valid.builtIn hperform hget hsatisfied
      hget'
    rw [hwaits e' hget'] at hstays
    cases hstays
  · intro hnever s hs
    constructor
    · exact run.due hclock hnever s hs
    · intro token hreawaits
      exact absurd hreawaits (hnever s hs token)

/-! ### A second Interest between the Data and the timers -/

namespace Sample

/-- A face asks, is answered and asks again before timers are run. -/
def askedAgain : List Operation :=
  ask ⟨4⟩ ⟨2⟩ :: reply ⟨3⟩ :: ask ⟨2⟩ ⟨1⟩ :: setup

theorem run_askedAgain : Run start (historyOf start askedAgain) (reached start askedAgain) :=
  Run.reached start askedAgain (by decide +kernel)

theorem clock_askedAgain : ClockNeverBack (historyOf start askedAgain) :=
  clockNeverBack_of_all (by decide +kernel)

/-- The entry is satisfied, the face waits in it, and its timer is set for later. -/
theorem entry_askedAgain : ∃ e, (reached start askedAgain).node.tables.pit.get? ⟨0, 0⟩ = some e ∧
    e.satisfied = true ∧ ⟨256⟩ ∈ e.inFaces ∧
    ¬ (reached start askedAgain).node.IsDueAt ⟨0, 0⟩ e := by
  have hentry : ((reached start askedAgain).node.tables.pit.get? ⟨0, 0⟩).any
      (fun e => e.satisfied && decide (⟨256⟩ ∈ e.inFaces)) = true := by decide +kernel
  have hlater : ((reached start askedAgain).node.timers.timers.all fun t =>
      decide ((reached start askedAgain).node.now < t.deadline)) = true := by decide +kernel
  obtain ⟨e, hget, he⟩ := (Option.any_eq_true _ _).mp hentry
  obtain ⟨hsatisfied, hwaits⟩ := Bool.and_eq_true_iff.mp he
  refine ⟨e, hget, hsatisfied, of_decide_eq_true hwaits, ?_⟩
  rintro ⟨deadline, ⟨id, _, harmed⟩, hle⟩
  have hlt := of_decide_eq_true (List.all_eq_true.mp hlater _ harmed)
  exact Nat.lt_irrefl _ (Nat.lt_of_lt_of_le hlt hle)

end Sample

/-- The second Interest waits in an entry that is satisfied and not due. It is never answered, and
yet the entry is counted as satisfied in the end. -/
theorem satisfied_entry_asked_again : ∃ history fw, Run Sample.start history fw ∧
    ClockNeverBack history ∧ ¬ fw.node.DueExcept (fun _ => False) ∧
    interestsFrom ⟨256⟩ history = 2 ∧ answersTo ⟨256⟩ fw.node.journal.sent = 1 ∧
    (fw.runTimers ⟨9000⟩).2.node.counters.satisfied = 1 ∧
    (fw.runTimers ⟨9000⟩).2.node.counters.unsatisfied = 0 := by
  refine ⟨_, _, Sample.run_askedAgain, Sample.clock_askedAgain, ?_, ?_⟩
  · intro hdue
    obtain ⟨e, hget, hsatisfied, _, hlate⟩ := Sample.entry_askedAgain
    rcases hdue _ e hget hsatisfied with hdue | hspared
    · exact hlate hdue
    · exact hspared
  · decide +kernel

/-- The run in which a face asks again has a step in which an Interest waits in a satisfied
entry. -/
theorem satisfied_due_iff_never_reawaited_asked_again : ∃ history fw,
    Run Sample.start history fw ∧ ClockNeverBack history ∧
    (∃ s ∈ history, s.Reawaits ⟨0, 0⟩) ∧ ¬ ∀ s ∈ history, s.KeepsSatisfied := by
  obtain ⟨hdue, hiff⟩ :=
    satisfied_due_iff_never_reawaited Sample.run_askedAgain Sample.clock_askedAgain
  obtain ⟨e, hget, hsatisfied, _, hlate⟩ := Sample.entry_askedAgain
  have hreawaits := (hdue ⟨0, 0⟩ e hget hsatisfied).resolve_left hlate
  refine ⟨_, _, Sample.run_askedAgain, Sample.clock_askedAgain, hreawaits, ?_⟩
  intro hkeeps
  obtain ⟨s, hs, hre⟩ := hreawaits
  exact hiff.mp hkeeps s hs _ hre

end NamedData
