import NamedData.Proofs.Conduct
import NamedData.Proofs.Deadlines

/-!
Pending entries that are cut short. The timer of an entry is set for when the last who waits in it
gives up, or else for now; while the clock does not go back, an entry that is not satisfied has one
of these two timers at every moment. So an entry that ends while somebody waits and an upstream may
still answer was given up before: because no strategy had recorded where its Interest went, or
because a new route brought it an upstream after it was given up.
-/

namespace NamedData

open Forwarder

/-- The entry ends unsatisfied if timers are run at the given time, while somebody waits in it and
an upstream may still answer. -/
structure CutShort (timers : List (Timer PitToken)) (token : PitToken) (e : PitEntry)
    (now : Timestamp) : Prop where
  unsatisfied : e.satisfied = false
  due : ∃ deadline, EndsAt timers token e deadline ∧ deadline ≤ now
  waited : ∃ r ∈ e.inRecords, r.isLive now = true
  pending : e.hasPendingOutRecords now = true

def Node.CutShortAt (n : Node) (now : Timestamp) (token : PitToken) : Prop :=
  ∃ e, n.tables.pit.get? token = some e ∧ CutShort n.timers.timers token e now

/-- The call may cut the entry short. Either an untagged Interest that goes nowhere gives the entry
up, where no strategy has recorded that the entry was sent on; or a new route brings an upstream
that may still answer. -/
def Operation.Hastens (operation : Operation) (now : Timestamp) (e : PitEntry) : Prop :=
  (∃ reading ingress i, operation = .receive reading ingress (.interest i) ∧
    i.nextHopFace = none ∧ e.interest.sameSelectors i = true ∧
    e.retransmission.lastForwarded = none) ∨
  ∃ reading stem face cost, operation = .addRoute reading stem face cost ∧
    ∃ r ∈ e.outRecords, r.face = face ∧ r.isPending now = true

theorem Operation.Hastens.sendsOn {operation : Operation} {now : Timestamp} {e : PitEntry}
    (h : operation.Hastens now e) : operation.sendsOn = true := by
  obtain ⟨_, _, _, rfl, _⟩ | ⟨_, _, _, _, rfl, _⟩ := h <;> rfl

/-- After the step an entry is cut short that was not before, and the step is one of the two kinds
that do this. -/
def Step.Hastens (s : Step) (token : PitToken) : Prop :=
  ¬ s.before.node.CutShortAt s.after.node.now token ∧
    ∃ e, s.after.node.tables.pit.get? token = some e ∧
      CutShort s.after.node.timers.timers token e s.after.node.now ∧
      s.operation.Hastens s.after.node.now e

/-- In the step, timers are run and end an entry unsatisfied while somebody waits in it and an
upstream may still answer. -/
def Step.CutsShort (s : Step) (token : PitToken) : Prop :=
  ∃ now e, s.operation = .runTimers now ∧ s.before.node.tables.pit.get? token = some e ∧
    s.after.node.tables.pit.get? token = none ∧ e.satisfied = false ∧
    (∃ r ∈ e.inRecords, r.isLive now = true) ∧ e.hasPendingOutRecords now = true

/-- Running timers, now or later, cuts no entry short. -/
def Forwarder.Patient (fw : Forwarder) : Prop :=
  ∀ now, fw.node.now ≤ now → ∀ token,
    ¬ (Step.mk fw (.runTimers now) (fw.runTimers now).2).CutsShort token

/-- The entry is satisfied, has come to its end, or lasts as long as anybody waits in it. -/
def OnTime (timers : List (Timer PitToken)) (token : PitToken) (e : PitEntry) (now : Timestamp) :
    Prop :=
  e.satisfied = true ∨ ∀ deadline, EndsAt timers token e deadline →
    deadline ≤ now ∨ ∀ r ∈ e.inRecords, r.expiry ≤ deadline

def Node.OnTime (n : Node) : Prop :=
  ∀ token e, n.tables.pit.get? token = some e → NamedData.OnTime n.timers.timers token e n.now

/-! ### One deed on an entry -/

namespace Focus

variable {f f' : Focus} {hash : HashFunction} {operation : Operation}

def OnTime (f : Focus) : Prop :=
  NamedData.OnTime f.node.timers.timers f.token f.entry f.node.now

def CutShort (f : Focus) : Prop :=
  NamedData.CutShort f.node.timers.timers f.token f.entry f.node.now

theorem Deed.onTime (hdeed : Deed hash operation f f') (hf : f.Sound) (h : f.OnTime) :
    f'.OnTime := by
  have hkeeps := hdeed.keeps
  have htimed := (hdeed.sound hf).timed
  rcases hdeed.timing hf with hkept | ⟨_, hsatisfied | ⟨last, hlast, hlasts⟩ | hnow⟩
  · refine h.imp (fun hsatisfied => hkept.satisfied.trans hsatisfied) ?_
    intro honTime deadline hends
    rw [NamedData.EndsAt, hkept.timers, hkeeps.token, hkept.timer] at hends
    rw [hkeeps.now]
    refine (honTime deadline hends).imp_right ?_
    intro hlasts r hr
    exact hlasts r (hkept.inRecords.subset hr)
  · exact .inl hsatisfied
  · right
    intro deadline hends
    rw [htimed.endsAt_unique hends hlast]
    exact .inr hlasts
  · right
    intro deadline hends
    rw [htimed.endsAt_unique hends hnow]
    exact .inl (Nat.le_refl _)

/-- An entry that lasts is not cut short. -/
theorem not_cutShort_of_lasts (htimed : f.Timed) (hlasts : f.Lasts) : ¬ f.CutShort := by
  rintro ⟨_, ⟨deadline, hends, hdue⟩, ⟨r, hr, hlive⟩, _⟩
  obtain ⟨last, hlast, hlatest⟩ := hlasts
  have hsame : deadline = last := htimed.endsAt_unique hends hlast
  have hexpiry : r.expiry ≤ f.node.now := Nat.le_trans (hlatest r hr) (hsame ▸ hdue)
  have hlater : f.node.now < r.expiry := of_decide_eq_true hlive
  exact absurd hlater (Nat.not_lt.mpr hexpiry)

/-- An entry that is cut short after work that leaves its timer alone and brings no upstream was cut
short before. -/
theorem CutShort.of_keepsTime (h : f'.CutShort) (hkeeps : f.Keeps f') (hkept : f.KeepsTime f')
    (hpending : f'.entry.hasPendingOutRecords f.node.now = true →
      f.entry.hasPendingOutRecords f.node.now = true) : f.CutShort where
  unsatisfied := hkept.satisfied ▸ h.unsatisfied
  due := by
    obtain ⟨deadline, hends, hdue⟩ := h.due
    rw [NamedData.EndsAt, hkept.timers, hkept.timer, hkeeps.token] at hends
    exact ⟨deadline, hends, hkeeps.now ▸ hdue⟩
  waited := by
    obtain ⟨r, hr, hlive⟩ := h.waited
    exact ⟨r, hkept.inRecords.subset hr, hkeeps.now ▸ hlive⟩
  pending := hpending (hkeeps.now ▸ h.pending)

theorem Lasts.of_keepsTime (h : f.Lasts) (hkeeps : f.Keeps f') (hkept : f.KeepsTime f') :
    f'.Lasts := by
  obtain ⟨last, hlast, hlatest⟩ := h
  refine ⟨last, ?_, fun r hr => hlatest r (hkept.inRecords.subset hr)⟩
  rw [EndsAt, NamedData.EndsAt, hkept.timers, hkept.timer, hkeeps.token]
  exact hlast

/-- A Nack brings no upstream, and an entry that it leaves without one is not cut short. -/
theorem CutShort.of_recordNack {face : FaceId} {reason : NackReason}
    (h : CutShort (recordNack face reason f)) : f.CutShort := by
  have hkeeps := keeps_recordNack face reason f
  rw [recordNack] at h hkeeps
  split at h
  next hpending =>
    rw [if_pos hpending] at hkeeps
    refine h.of_keepsTime hkeeps ⟨rfl, rfl, rfl, List.Sublist.refl _⟩ fun hstill => ?_
    simp only [PitEntry.hasPendingOutRecords, onEntry, PitEntry.recordNack, List.any_map,
      List.any_eq_true, Function.comp_apply] at hstill ⊢
    obtain ⟨r, hr, hpending⟩ := hstill
    refine ⟨r, hr, ?_⟩
    split at hpending
    · simp [OutRecord.isPending] at hpending
    · exact hpending
  next hidle => exact absurd h.pending hidle

/-- An entry in which somebody waits is not given up with a face. -/
theorem CutShort.of_forgetFace {face : FaceId} (h : CutShort (forgetFace face f)) :
    f.CutShort := by
  have hkeeps := keeps_forgetFace face f
  have hwaited : (f.entry.forgetFace face).hasRecords = true := by
    obtain ⟨r, hr, _⟩ := h.waited
    rw [(records_forgetFace face f).1] at hr
    simp [PitEntry.hasRecords, List.ne_nil_of_mem hr]
  have hforgot : forgetFace face f = f ∨
      forgetFace face f = f.onEntry fun e => e.forgetFace face := by
    rw [forgetFace]
    split
    · exact .inr (if_pos hwaited)
    · exact .inl rfl
  rcases hforgot with hsame | hsame
  · rwa [hsame] at h
  · rw [hsame] at h hkeeps
    refine h.of_keepsTime hkeeps ⟨rfl, rfl, rfl, List.filter_sublist⟩ fun hpending => ?_
    obtain ⟨r, hr, hpending⟩ := List.any_eq_true.mp hpending
    exact List.any_eq_true.mpr ⟨r, (List.mem_filter.mp hr).1, hpending⟩

/-- A deed cuts no entry short but in the two ways. -/
theorem Deed.cutShort (hdeed : Deed hash operation f f') (hf : f.Sound) (h : f'.CutShort) :
    (f.CutShort ∧
      (operation.Hastens f.node.now f.entry → operation.Hastens f'.node.now f'.entry)) ∨
    operation.Hastens f'.node.now f'.entry := by
  have hkeeps := hdeed.keeps
  have htimed := (hdeed.sound hf).timed
  cases hdeed with
  | talk hquiet =>
      left
      refine ⟨h.of_keepsTime hkeeps (.of_entry hquiet.node.timers hquiet.entry) ?_, ?_⟩
      · rw [hquiet.entry]
        exact id
      · rw [hquiet.entry, hkeeps.now]
        exact id
  | hit data => cases h.unsatisfied
  | @answer _ ingress _ data _ =>
      left
      have hkept : f.KeepsTime (f.sendData ingress data) :=
        ⟨(f.node.unmoved_sendData ingress data).timers, rfl, rfl, List.eraseP_sublist⟩
      refine ⟨h.of_keepsTime hkeeps hkept id, ?_⟩
      rw [hkeeps.now]
      exact id
  | wait hint => exact absurd h (not_cutShort_of_lasts htimed (lasts_awaitData hf _ _))
  | mark decision _ hlasts => exact absurd h (not_cutShort_of_lasts htimed hlasts)
  | forward hint _ hlasts _ _ hinfo _ =>
      have hstill := hlasts.of_keepsTime hkeeps (keepsTime_sendInterest _ hinfo)
      exact absurd h (not_cutShort_of_lasts htimed hstill)
  | @offer _ stem face cost r _ hcall _ _ _ hinfo _ =>
      right
      right
      have hrecord := PitEntry.outRecordOf_mem_recordOut hf.distinct.outFaces ⟨face, 0⟩ r.interest
        f.node.now
      rw [hkeeps.now, sendInterest_of_known (FaceTable.contains_of_info? hinfo)]
      refine ⟨_, _, _, _, hcall, _, hrecord, rfl, ?_⟩
      have hle := Timestamp.le_adding f.node.now r.interest.lifetime
      simp [OutRecord.isPending, PitEntry.outRecordOf, hle]
  | handBack egress reason _ =>
      left
      obtain ⟨hout, hretransmission⟩ := f.records_sendNack egress reason
      have hpending : (f.sendNack egress reason).entry.hasPendingOutRecords f.node.now =
          f.entry.hasPendingOutRecords f.node.now := by
        rw [PitEntry.hasPendingOutRecords, hout]
        rfl
      refine ⟨h.of_keepsTime hkeeps (f.keepsTime_sendNack egress reason) ?_, ?_⟩
      · rw [hpending]
        exact id
      · rw [Operation.Hastens, Operation.Hastens, hout, hretransmission, hkeeps.interest,
          hkeeps.now]
        exact id
  | giveUp hcall htag hsame hcause =>
      right
      left
      have hpending : f.entry.hasPendingOutRecords f.node.now = true := h.pending
      rcases hcause with hidle | hnever
      · rw [hidle] at hpending
        cases hpending
      · exact ⟨_, _, _, hcall, htag, hsame, hnever⟩
  | nacked hcall =>
      exact .inl ⟨h.of_recordNack, fun hhastens => by cases hcall ▸ hhastens.sendsOn⟩
  | serve _ _ hserved => cases hserved.satisfied.symm.trans h.unsatisfied
  | forget hcall =>
      exact .inl ⟨h.of_forgetFace, fun hhastens => by cases hcall ▸ hhastens.sendsOn⟩

end Focus

/-! ### Runs of deeds -/

variable {timers timers' : List (Timer PitToken)} {token : PitToken} {e : PitEntry}
  {now : Timestamp}

theorem EndsAt.of_timers {deadline : Timestamp} (h : EndsAt timers' token e deadline)
    (hsub : ∀ t : Timer PitToken, t.entry = token → t ∈ timers' → t ∈ timers) :
    EndsAt timers token e deadline := by
  obtain ⟨id, hid, harmed⟩ := h
  exact ⟨id, hid, hsub _ rfl harmed⟩

theorem OnTime.of_timers (h : OnTime timers token e now)
    (hsub : ∀ t : Timer PitToken, t.entry = token → t ∈ timers' → t ∈ timers) :
    OnTime timers' token e now :=
  h.imp_right fun hother deadline hends => hother deadline (hends.of_timers hsub)

theorem CutShort.of_timers (h : CutShort timers' token e now)
    (hsub : ∀ t : Timer PitToken, t.entry = token → t ∈ timers' → t ∈ timers) :
    CutShort timers token e now := by
  obtain ⟨deadline, hends, hdue⟩ := h.due
  exact ⟨h.unsatisfied, ⟨deadline, hends.of_timers hsub, hdue⟩, h.waited, h.pending⟩

/-- A new entry has no timer. -/
theorem not_endsAt_new {i : Interest} {deadline : Timestamp} :
    ¬ EndsAt timers token { interest := i } deadline := by
  rintro ⟨id, hid, _⟩
  cases hid

namespace Node

variable {n m : Node} {hash : HashFunction} {operation : Operation}

theorem Deeds.onTime (h : Deeds hash operation n m) (hn : n.OnTime) : m.OnTime := by
  refine h.preserve (fun k k' hdeed hk => ?_) hn
  refine hdeed.forall_entries (P := fun timers now token e => NamedData.OnTime timers token e now)
    ?_ ?_ ?_ hk
  · exact fun _ _ _ _ _ hsub honTime => honTime.of_timers hsub
  · exact fun _ _ _ _ => .inr fun _ hends => absurd hends not_endsAt_new
  · exact fun f f' hsound hwork honTime => hwork.onTime hsound honTime

/-- An entry that is cut short after some deeds was so before, or the call is one of the two kinds
that do this. -/
theorem Deeds.cutShort (h : Deeds hash operation n m) {token : PitToken} {e : PitEntry}
    (hget : m.tables.pit.get? token = some e) (hcut : CutShort m.timers.timers token e m.now) :
    n.CutShortAt m.now token ∨ operation.Hastens m.now e := by
  have hend := h.preserve (P := fun k => ∀ token e, k.tables.pit.get? token = some e →
      CutShort k.timers.timers token e k.now →
        n.CutShortAt n.now token ∨ operation.Hastens k.now e)
    (fun k k' hdeed hk => by
      refine hdeed.forall_entries (P := fun timers now token e =>
        CutShort timers token e now → n.CutShortAt n.now token ∨ operation.Hastens now e)
        ?_ ?_ ?_ hk
      · exact fun _ _ _ _ _ hsub himp hcut => himp (hcut.of_timers hsub)
      · intro _ _ _ _ hcut
        obtain ⟨_, hends, _⟩ := hcut.due
        exact absurd hends not_endsAt_new
      · intro f f' hsound hwork himp hcut
        rcases hwork.cutShort hsound hcut with ⟨hbefore, hstill⟩ | hhastens
        · rw [hwork.keeps.token]
          exact (himp hbefore).imp_right hstill
        · exact .inr hhastens)
    (fun token e hget hcut => .inl ⟨e, hget, hcut⟩)
  rw [← h.now] at hend
  exact hend token e hget hcut

/-- Time alone cuts no entry short that is on time. -/
theorem CutShortAt.earlier {n : Node} {now : Timestamp} {token : PitToken}
    (h : n.CutShortAt now token) (hn : n.OnTime) (hle : n.now ≤ now) :
    n.CutShortAt n.now token := by
  obtain ⟨e, hget, hopen, ⟨deadline, hends, hdue⟩, ⟨r, hr, hlive⟩, hpending⟩ := h
  have hlater : now < r.expiry := of_decide_eq_true hlive
  have hended : deadline ≤ n.now := by
    rcases hn token e hget with hsatisfied | hother
    · rw [hopen] at hsatisfied
      cases hsatisfied
    · refine (hother deadline hends).resolve_right fun hlasts => ?_
      exact Nat.not_lt.mpr (Nat.le_trans (hlasts r hr) hdue) hlater
  refine ⟨e, hget, hopen, ⟨deadline, hends, hended⟩, ⟨r, hr, ?_⟩, ?_⟩
  · exact decide_eq_true (Nat.lt_of_le_of_lt hle hlater)
  · obtain ⟨o, ho, hstill⟩ := List.any_eq_true.mp hpending
    refine List.any_eq_true.mpr ⟨o, ho, ?_⟩
    simp only [OutRecord.isPending, Bool.and_eq_true, decide_eq_true_eq] at hstill ⊢
    exact ⟨Nat.le_trans hle hstill.1, hstill.2⟩

theorem OnTime.tick {n : Node} (h : n.OnTime) {now : Timestamp} (hle : n.now ≤ now) :
    Node.OnTime { n with now } := by
  intro token e hget
  refine (h token e hget).imp_right fun hother deadline hends => ?_
  exact (hother deadline hends).imp_left fun hdue => Nat.le_trans hdue hle

end Node

/-! ### Running timers -/

namespace Forwarder

variable {fw : Forwarder} {now : Timestamp} {token : PitToken}

theorem Endings.get? {due : List (Timer PitToken)} {n m : Node} (h : Endings due n m)
    (token : PitToken) : m.tables.pit.get? token =
      if token ∈ due.map Timer.entry then none else n.tables.pit.get? token := by
  induction h with
  | nil n => rfl
  | cons hend _ ih =>
      obtain ⟨e, herase⟩ := hend.tables
      rw [ih, Tables.get?_of_erase herase]
      simp only [List.map_cons, List.mem_cons]
      grind

/-- The entries that go when timers are run are those of the timers that are due. -/
theorem gone_runTimers_iff (h : fw.Valid) {e : PitEntry}
    (hget : fw.node.tables.pit.get? token = some e) :
    (fw.runTimers now).2.node.tables.pit.get? token = none ↔
      token ∈ (fw.node.timers.takeDue now).1.map Timer.entry := by
  obtain ⟨n, hendings, _, hrun⟩ := runTimers_cases h now
  have hstart : Node.tables { fw.node with now, timers := (fw.node.timers.takeDue now).2 } =
      fw.node.tables := rfl
  rw [hrun, hendings.get? token, hstart, hget, ite_eq_left_iff]
  simp

/-- Timers end an entry exactly if its time has come. -/
theorem runTimers_ends_iff (h : fw.Valid) {e : PitEntry}
    (hget : fw.node.tables.pit.get? token = some e) :
    (fw.runTimers now).2.node.tables.pit.get? token = none ↔
      ∃ deadline, EndsAt fw.node.timers.timers token e deadline ∧ deadline ≤ now := by
  have htimed := h.node.timed
  rw [gone_runTimers_iff h hget, List.mem_map]
  constructor
  · rintro ⟨t, ht, rfl⟩
    obtain ⟨harmed, hdue⟩ := (TimerQueue.mem_takeDue htimed.byDeadline).mp ht
    obtain ⟨e', hget', hid⟩ := htimed.owned t harmed
    have hsame : e' = e := Option.some.inj (hget'.symm.trans hget)
    exact ⟨t.deadline, ⟨t.id, hsame ▸ hid, harmed⟩, hdue⟩
  · rintro ⟨deadline, ⟨id, _, harmed⟩, hdue⟩
    exact ⟨_, (TimerQueue.mem_takeDue htimed.byDeadline).mpr ⟨harmed, hdue⟩, rfl⟩

theorem cutsShort_runTimers_iff (h : fw.Valid) :
    (Step.mk fw (.runTimers now) (fw.runTimers now).2).CutsShort token ↔
      fw.node.CutShortAt now token := by
  constructor
  · rintro ⟨_, e, hcall, hget, hgone, hopen, hwaited, hpending⟩
    cases hcall
    exact ⟨e, hget, hopen, (runTimers_ends_iff h hget).mp hgone, hwaited, hpending⟩
  · rintro ⟨e, hget, hopen, hdue, hwaited, hpending⟩
    exact ⟨now, e, rfl, hget, (runTimers_ends_iff h hget).mpr hdue, hopen, hwaited, hpending⟩

/-- What an operation makes of an entry that is on time. -/
theorem onTime_perform {fw' : Forwarder} {operation : Operation} (h : fw.Valid)
    (honTime : fw.node.OnTime) (hclock : ∀ now, operation.reading? = some now → fw.node.now ≤ now)
    (hperform : fw.perform operation = .ok fw') :
    fw'.node.OnTime ∧ fw.node.now ≤ fw'.node.now ∧
      ∀ token, fw'.node.CutShortAt fw'.node.now token →
        fw.node.CutShortAt fw.node.now token ∨ (Step.mk fw operation fw').Hastens token := by
  obtain ⟨n, hbegun, hdeeds⟩ := deeds_perform h hperform
  have hstart : n.OnTime ∧ fw.node.now ≤ n.now ∧
      ∀ now token, n.CutShortAt now token → fw.node.CutShortAt now token := by
    rcases hbegun with rfl | ⟨now, hreading, rfl⟩
    · exact ⟨honTime, Nat.le_refl _, fun _ _ => id⟩
    · exact ⟨honTime.tick (hclock now hreading), hclock now hreading, fun _ _ => id⟩
  obtain ⟨hn, hle, hsame⟩ := hstart
  rw [← hdeeds.now] at hle
  refine ⟨hdeeds.onTime hn, hle, ?_⟩
  rintro token ⟨e, hget, hcut⟩
  by_cases hbefore : fw.node.CutShortAt fw'.node.now token
  · exact .inl (hbefore.earlier honTime hle)
  · have hhastens := (hdeeds.cutShort hget hcut).resolve_left fun hn => hbefore (hsame _ _ hn)
    exact .inr ⟨hbefore, e, hget, hcut, hhastens⟩

end Forwarder

/-! ### Runs -/

variable {settings : Settings} {store : ContentStore} {hash : HashFunction} {history : List Step}
  {fw : Forwarder}

/-- At every moment of a run, every entry is on time, and one that is cut short became so in a step
that hastened it. -/
theorem Run.onTime (run : Run (Forwarder.new settings store hash) history fw)
    (hclock : ClockNeverBack history) :
    fw.node.OnTime ∧ ∀ token, fw.node.CutShortAt fw.node.now token →
      ∃ s ∈ history, s.Hastens token := by
  induction run with
  | start =>
      constructor
      · intro token e hget
        cases hget
      · rintro token ⟨e, hget, _⟩
        cases hget
  | step run operation hperform ih =>
      obtain ⟨honTime, hearlier⟩ := ih fun s hs => hclock s (List.mem_cons_of_mem _ hs)
      obtain ⟨hend, _, hnew⟩ := Forwarder.onTime_perform run.valid honTime
        (hclock _ List.mem_cons_self) hperform
      refine ⟨hend, ?_⟩
      intro token hcut
      rcases hnew token hcut with hbefore | hhastens
      · obtain ⟨s, hs, hhastens⟩ := hearlier token hbefore
        exact ⟨s, List.mem_cons_of_mem _ hs, hhastens⟩
      · exact ⟨_, List.mem_cons_self, hhastens⟩

/-- While the clock does not go back, timers that are run now or later end an entry too early only
if a step has hastened its end. -/
theorem Run.hastened_of_cutsShort (run : Run (Forwarder.new settings store hash) history fw)
    (hclock : ClockNeverBack history) {now : Timestamp} (hle : fw.node.now ≤ now) {token : PitToken}
    (hcuts : (Step.mk fw (.runTimers now) (fw.runTimers now).2).CutsShort token) :
    ∃ s ∈ history, s.Hastens token := by
  obtain ⟨honTime, hhastened⟩ := run.onTime hclock
  have hcut := (Forwarder.cutsShort_runTimers_iff run.valid).mp hcuts
  exact hhastened token (hcut.earlier honTime hle)

/-- While the clock does not go back, timers end an entry that is not satisfied, in which somebody
waits and to which an upstream may still answer, only if a step of one of two kinds has hastened its
end; and no timers that are run at any moment of a run, or later, would do so exactly if the run has
no such step. -/
theorem patient_iff_never_hastened (run : Run (Forwarder.new settings store hash) history fw)
    (hclock : ClockNeverBack history) :
    (∀ s ∈ history, ∀ token, s.CutsShort token → ∃ s' ∈ history, s'.Hastens token) ∧
    ((∀ s ∈ history, s.after.Patient) ↔ ∀ s ∈ history, ∀ token, ¬ s.Hastens token) := by
  refine ⟨?_, ?_, ?_⟩
  · intro s hs token hcuts
    obtain ⟨earlier, hrun, hsub⟩ := run.upTo hs
    have ⟨now, e, hcall, _⟩ := hcuts
    obtain ⟨before, operation, after⟩ := s
    cases hcall
    cases hrun with
    | step hbefore _ hperform =>
        cases hperform
        obtain ⟨s', hs', hhastens⟩ := hbefore.hastened_of_cutsShort
          (fun t ht => hclock t (hsub t (List.mem_cons_of_mem _ ht))) (hclock _ hs now rfl) hcuts
        exact ⟨s', hsub s' (List.mem_cons_of_mem _ hs'), hhastens⟩
  · intro hpatient s hs token hhastens
    obtain ⟨earlier, hrun, _⟩ := run.upTo hs
    obtain ⟨_, e, hget, hcut, _⟩ := hhastens
    exact hpatient s hs _ (Nat.le_refl _) token
      ((Forwarder.cutsShort_runTimers_iff hrun.valid).mpr ⟨e, hget, hcut⟩)
  · intro hnever s hs now hle token hcuts
    obtain ⟨earlier, hrun, hsub⟩ := run.upTo hs
    obtain ⟨s', hs', hhastens⟩ := hrun.hastened_of_cutsShort
      (fun t ht => hclock t (hsub t ht)) hle hcuts
    exact hnever s' (hsub s' hs') token hhastens

/-! ### An entry that is given up too early -/

namespace Sample

/-- The first face asks by tag, another one asks for the same and has nowhere to be sent, and timers
are run. -/
def givenUp : List Operation :=
  [.receive ⟨3⟩ ⟨⟨257⟩, 0⟩ (.interest { name, nonce := ⟨2⟩ }),
    .receive ⟨2⟩ ⟨⟨256⟩, 0⟩ (.interest { name, nonce := ⟨1⟩, nextHopFace := some ⟨258⟩ }),
    .addFace (fun _ => true) .offHost .pointToPoint,
    .addFace (fun _ => true) .offHost .pointToPoint,
    .addFace (fun _ => true) .offHost .pointToPoint]

def endedEarly : Step :=
  ⟨reached start givenUp, .runTimers ⟨4⟩, reached start (.runTimers ⟨4⟩ :: givenUp)⟩

theorem run_endedEarly : Run start (historyOf start (.runTimers ⟨4⟩ :: givenUp))
    (reached start (.runTimers ⟨4⟩ :: givenUp)) :=
  Run.reached start _ (by decide +kernel)

theorem clock_endedEarly : ClockNeverBack (historyOf start (.runTimers ⟨4⟩ :: givenUp)) :=
  clockNeverBack_of_all (by decide +kernel)

theorem endedEarly_mem : endedEarly ∈ historyOf start (.runTimers ⟨4⟩ :: givenUp) := by
  rw [historyOf_cons start _ _ (by decide +kernel)]
  exact List.mem_cons_self

/-- The first face waits until 4002, and the face of its tag may still answer. -/
theorem cutsShort_endedEarly : endedEarly.CutsShort ⟨0, 0⟩ := by
  have hentry : ((reached start givenUp).node.tables.pit.get? ⟨0, 0⟩).any (fun e =>
      (!e.satisfied && e.inRecords.any fun r => r.isLive ⟨4⟩) && e.hasPendingOutRecords ⟨4⟩) =
        true := by decide +kernel
  obtain ⟨e, hget, he⟩ := (Option.any_eq_true _ _).mp hentry
  obtain ⟨hwaits, hpending⟩ := Bool.and_eq_true_iff.mp he
  obtain ⟨hopen, hwaited⟩ := Bool.and_eq_true_iff.mp hwaits
  refine ⟨⟨4⟩, e, rfl, hget, ?_, (Bool.not_eq_true' _).mp hopen, List.any_eq_true.mp hwaited,
    hpending⟩
  have hgone : (reached start (.runTimers ⟨4⟩ :: givenUp)).node.tables.pit.get? ⟨0, 0⟩ = none := by
    decide +kernel
  exact hgone

end Sample

/-- Timers end an entry in which a face waits and to which another face may still answer. -/
theorem entry_ended_early : ∃ history fw, Run Sample.start history fw ∧ ClockNeverBack history ∧
    ∃ s ∈ history, s.CutsShort ⟨0, 0⟩ :=
  ⟨_, _, Sample.run_endedEarly, Sample.clock_endedEarly, _, Sample.endedEarly_mem,
    Sample.cutsShort_endedEarly⟩

/-- The run in which an entry ends early has a step that hastened its end. -/
theorem patient_iff_never_hastened_given_up : ∃ history fw, Run Sample.start history fw ∧
    ClockNeverBack history ∧ (∃ s ∈ history, s.Hastens ⟨0, 0⟩) ∧
    ¬ ∀ s ∈ history, s.after.Patient := by
  obtain ⟨hcause, hiff⟩ :=
    patient_iff_never_hastened Sample.run_endedEarly Sample.clock_endedEarly
  have hhastened := hcause _ Sample.endedEarly_mem _ Sample.cutsShort_endedEarly
  refine ⟨_, _, Sample.run_endedEarly, Sample.clock_endedEarly, hhastened, ?_⟩
  intro hpatient
  obtain ⟨s, hs, hhastens⟩ := hhastened
  exact hiff.mp hpatient s hs _ hhastens

end NamedData
