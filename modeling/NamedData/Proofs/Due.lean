import NamedData.Proofs.Closing

/-!
Entries that end when timers are run next. The arrival of Data and giving an entry up make it due,
and no work on other entries changes that. So whatever satisfied entry is due stays due while the
clock does not go back, whatever is done, except where an Interest waits in it again.
-/

namespace NamedData

/-- The timer of the entry is armed and its time has come. -/
def Node.IsDueAt (n : Node) (token : PitToken) (e : PitEntry) : Prop :=
  ∃ deadline, EndsAt n.timers.timers token e deadline ∧ deadline ≤ n.now

namespace Focus

def IsDue (f : Focus) : Prop :=
  ∃ deadline, f.EndsAt deadline ∧ deadline ≤ f.node.now

theorem isDue_setExpiry_zero {f : Focus} (h : f.Timed) : (f.setExpiry 0).IsDue := by
  refine ⟨f.node.now, ?_, Nat.le_refl _⟩
  have hends := endsAt_setExpiry h 0
  rwa [Timestamp.adding_zero] at hends

end Focus

/-- Every satisfied entry is due, apart from those that are spared. -/
def Node.DueExcept (n : Node) (spared : PitToken → Prop) : Prop :=
  ∀ token e, n.tables.pit.get? token = some e → e.satisfied = true →
    n.IsDueAt token e ∨ spared token

/-- Timers belong to entries, and every satisfied entry is due that is not spared. -/
structure Node.Punctual (n : Node) (spared : PitToken → Prop) : Prop where
  timed : Timed n.timers.timers n.timers.nextId n.tables.pit.get?
  due : n.DueExcept spared

/-- The same for a node with an entry at hand, where the others count apart from it. -/
structure Focus.OthersPunctual (f : Focus) (spared : PitToken → Prop) : Prop where
  live : f.Live
  timed : f.Timed
  others : ∀ token e, token ≠ f.token → f.node.tables.pit.get? token = some e →
    e.satisfied = true → f.node.IsDueAt token e ∨ spared token

/-- The same for a node with an entry at hand, which counts as it is now. -/
structure Focus.Punctual (f : Focus) (spared : PitToken → Prop) : Prop extends
    f.OthersPunctual spared where
  own : f.entry.satisfied = true → f.IsDue ∨ spared f.token

variable {spared : PitToken → Prop}

namespace Node.Punctual

variable {n m : Node} {token : PitToken} {e : PitEntry}

theorem mono {more : PitToken → Prop} (h : n.Punctual spared)
    (himp : ∀ token, spared token → more token) : n.Punctual more where
  timed := h.timed
  due token e hget hsatisfied := (h.due token e hget hsatisfied).imp_right (himp token)

/-- Only the entries, the timers and the clock count. -/
theorem later (h : n.Punctual spared) (hpit : m.tables.pit = n.tables.pit)
    (htimers : m.timers = n.timers) (hnow : n.now ≤ m.now) : m.Punctual spared where
  timed := by
    rw [hpit, htimers]
    exact h.timed
  due := by
    intro token e hget hsatisfied
    rw [hpit] at hget
    refine (h.due token e hget hsatisfied).imp_left ?_
    rintro ⟨deadline, hends, hle⟩
    rw [← htimers] at hends
    exact ⟨deadline, hends, Nat.le_trans hle hnow⟩

theorem unmoved (h : n.Punctual spared) (hmoved : n.Unmoved m) : m.Punctual spared :=
  h.later (congrArg Tables.pit hmoved.tables) hmoved.timers (Nat.le_of_eq (by rw [hmoved.now]))

theorem focus (h : n.Punctual spared) (hget : n.tables.pit.get? token = some e) :
    Focus.Punctual ⟨n, token, e⟩ spared where
  live := ⟨e, hget, rfl⟩
  timed := by
    rw [Focus.Timed, Focus.entryOf?_focus hget]
    exact h.timed
  others u e' _ hget' hsatisfied := h.due u e' hget' hsatisfied
  own hsatisfied := h.due token e hget hsatisfied

end Node.Punctual

namespace Focus

variable {f f' : Focus}

/-! ### Work on the entry at hand -/

theorem OthersPunctual.of_timers (h : f.OthersPunctual spared) (hkeeps : f.Keeps f')
    (htimers : f'.node.timers = f.node.timers)
    (hid : f'.entry.expiryTimer = f.entry.expiryTimer) : f'.OthersPunctual spared where
  live := hkeeps.live h.live
  timed := timed_of_keeps h.timed hkeeps htimers hid
  others token e hne hget hsatisfied := by
    rw [hkeeps.token] at hne
    rw [hkeeps.tables] at hget
    rw [Node.IsDueAt, htimers, hkeeps.now]
    exact h.others token e hne hget hsatisfied

/-- Setting the timer of the entry at hand moves no timer of another entry. -/
theorem OthersPunctual.setExpiry (h : f.OthersPunctual spared) (after : Millis) :
    (f.setExpiry after).OthersPunctual spared where
  live := (f.keeps_setExpiry after).live h.live
  timed := timed_setExpiry h.timed after
  others token e hne hget hsatisfied := by
    refine (h.others token e hne hget hsatisfied).imp_left ?_
    rintro ⟨deadline, ⟨id, hid, harmed⟩, hle⟩
    have hkept := (mem_timers_setExpiry h.timed after).mpr (.inr ⟨harmed, hne⟩)
    exact ⟨deadline, ⟨id, hid, hkept⟩, hle⟩

theorem OthersPunctual.reject (h : f.OthersPunctual spared) : f.reject.Punctual spared where
  toOthersPunctual := h.setExpiry 0
  own _ := .inl (isDue_setExpiry_zero h.timed)

/-- What leaves the timer alone and satisfies nothing. -/
theorem Punctual.of_timers (h : f.Punctual spared) (hkeeps : f.Keeps f')
    (htimers : f'.node.timers = f.node.timers)
    (hid : f'.entry.expiryTimer = f.entry.expiryTimer)
    (hsatisfied : f'.entry.satisfied = f.entry.satisfied) : f'.Punctual spared where
  toOthersPunctual := h.toOthersPunctual.of_timers hkeeps htimers hid
  own hs := by
    rw [hsatisfied] at hs
    have hown : f.IsDue ∨ spared f.token := h.own hs
    rw [IsDue] at hown ⊢
    simp only [EndsAt, NamedData.EndsAt, htimers, hid, hkeeps.token, hkeeps.now]
    exact hown

theorem Punctual.move (h : f.Punctual spared) (hmove : Move f f') : f'.Punctual spared := by
  rcases hmove.timer with rfl | ⟨htimers, hid⟩
  · exact h.toOthersPunctual.reject
  · exact h.of_timers hmove.keeps htimers hid hmove.satisfied

theorem Punctual.moves (h : f.Punctual spared) (hmoves : f.Moves f') : f'.Punctual spared :=
  Moves.preserve (P := fun g => g.Punctual spared) (fun _ _ step hg => hg.move step) hmoves h

theorem OthersPunctual.moves (h : f.OthersPunctual spared) (hmoves : f.Moves f') :
    f'.OthersPunctual spared := by
  refine Moves.preserve (P := fun g => g.OthersPunctual spared) (fun _ _ step hothers => ?_)
    hmoves h
  rcases step.timer with rfl | ⟨htimers, hid⟩
  · exact hothers.setExpiry 0
  · exact hothers.of_timers step.keeps htimers hid

theorem Punctual.quiet (h : f.Punctual spared) (hquiet : f.Quiet f') : f'.Punctual spared :=
  h.of_timers hquiet.keeps hquiet.node.timers (congrArg PitEntry.expiryTimer hquiet.entry)
    (congrArg PitEntry.satisfied hquiet.entry)

theorem Punctual.recordNack (h : f.Punctual spared) (face : FaceId) (reason : NackReason) :
    (Forwarder.recordNack face reason f).Punctual spared := by
  have hnoted : Punctual (f.onEntry fun e => e.recordNack face reason) spared :=
    h.of_timers (keeps_onEntry rfl) rfl rfl rfl
  unfold Forwarder.recordNack
  dsimp only
  split
  · exact hnoted
  · exact hnoted.toOthersPunctual.reject

theorem Punctual.forgetFace (h : f.Punctual spared) (face : FaceId) :
    (Forwarder.forgetFace face f).Punctual spared := by
  have hforgot : Punctual (f.onEntry fun e => e.forgetFace face) spared :=
    h.of_timers (keeps_onEntry rfl) rfl rfl rfl
  rcases Forwarder.forgetFace_cases face f with ⟨_, hsame⟩ | ⟨_, hsame | hsame⟩
  · rwa [hsame]
  · rwa [hsame]
  · rw [hsame]
    exact hforgot.toOthersPunctual.reject

/-! ### The entry is put back -/

theorem OthersPunctual.timed_release (h : f.OthersPunctual spared) :
    NamedData.Timed f.release.timers.timers f.release.timers.nextId f.release.tables.pit.get? := by
  rw [get?_release h.live]
  exact h.timed

/-- Of the other entries, none is late that is not spared. -/
theorem OthersPunctual.due_release (h : f.OthersPunctual spared) {token : PitToken} {e : PitEntry}
    (hget : f.release.tables.pit.get? token = some e) (hsatisfied : e.satisfied = true) :
    token = f.token ∧ e = f.entry ∨ f.release.IsDueAt token e ∨ spared token := by
  rw [get?_release h.live] at hget
  by_cases same : token = f.token
  · left
    rw [same, entryOf?_self, Option.some.injEq] at hget
    exact ⟨same, hget.symm⟩
  · right
    rw [entryOf?_of_ne f same] at hget
    exact h.others token e same hget hsatisfied

theorem Punctual.release (h : f.Punctual spared) : f.release.Punctual spared where
  timed := h.timed_release
  due token e hget hsatisfied := by
    rcases h.due_release hget hsatisfied with ⟨rfl, rfl⟩ | hdue
    · exact h.own hsatisfied
    · exact hdue

end Focus

namespace Forwarder

variable {fw fw' : Forwarder} {now : Timestamp} {ingress : FaceEndpoint} {token : PitToken}

/-! ### Data and Nacks -/

theorem punctual_answered {n m : Node} (h : n.Punctual spared) {count : Nat}
    (hvalid : m.Valid count) {e : PitEntry} (hget : n.tables.pit.get? token = some e)
    {freshness : Millis} {left : PitEntry → List InRecord}
    (hanswered : n.Answered m [token] ingress.face freshness left) : m.Punctual spared where
  timed := hvalid.timed
  due := by
    intro u e' hget' hsatisfied
    by_cases same : u = token
    · subst same
      left
      obtain ⟨id, hclosed, harmed⟩ := hanswered.entries u (List.mem_singleton_self u) e hget
      rw [hclosed, Option.some.injEq] at hget'
      subst hget'
      exact ⟨n.now, ⟨id, rfl, harmed⟩, Nat.le_of_eq (by rw [hanswered.now])⟩
    · have hother := List.mem_singleton.not.mpr same
      rw [hanswered.others u hother] at hget'
      refine (h.due u e' hget' hsatisfied).imp_left ?_
      rintro ⟨deadline, ⟨id, hid, harmed⟩, hle⟩
      have hkept := (hanswered.timers (Timer.mk deadline id u) hother).mpr harmed
      exact ⟨deadline, ⟨id, hid, hkept⟩, by rwa [hanswered.now]⟩

theorem punctual_satisfyAmong (h : fw.Valid) (hpunctual : fw.node.Punctual spared) {data : Data}
    {peers peers' : List FaceEndpoint}
    (hsatisfy : satisfyAmong ingress data (fw, peers) token = .ok (fw', peers')) :
    fw'.node.Punctual spared := by
  have hvalid := h.satisfyAmong hsatisfy
  obtain ⟨e, g, hget, hquiet, _, rfl⟩ := satisfyAmong_cases h.builtIn hsatisfy
  exact punctual_answered hpunctual hvalid.node hget (answered_among h.node hget hquiet)

theorem punctual_receiveData (h : fw.Valid) (hpunctual : fw.node.Punctual spared)
    (hclock : fw.node.now ≤ now) {data : Data}
    (hreceive : fw.receiveData now ingress data = .ok fw') : fw'.node.Punctual spared := by
  have hticked : Node.Punctual { fw.node with now } spared := hpunctual.later rfl rfl hclock
  have hnoted : (noteData now ingress data fw.node).Punctual spared :=
    hpunctual.later rfl rfl hclock
  have hvalid : (noteData now ingress data fw.node).Valid fw.strategies.length :=
    h.node.congr rfl rfl rfl
  have hlast := h.receiveData hreceive
  cases receiveData_cases h.builtIn hreceive with
  | unknownFace n hinfo hquiet => exact hticked.unmoved hquiet.toUnmoved
  | violation n info hinfo hscope hquiet => exact hnoted.unmoved hquiet.toUnmoved
  | unsolicited n store info compared hinfo hanswered hquiet =>
      exact hnoted.unmoved hquiet.toUnmoved
  | one store info token compared e g hinfo hanswered hget hquiet =>
      exact punctual_answered hnoted hlast.node hget (answered_one hvalid hget hinfo hquiet)
  | several store info tokens compared last peers hinfo hanswered htokens =>
      have hstart : Valid { fw with node := noteData now ingress data fw.node, store } :=
        h.of_node rfl hvalid
      have hend := foldlM_preserve (P := fun s => s.1.Valid ∧ s.1.node.Punctual spared)
        (fun s token s' hstep hs =>
          ⟨hs.1.satisfyAmong hstep, punctual_satisfyAmong hs.1 hs.2 hstep⟩)
        htokens ⟨hstart, hnoted⟩
      exact hend.2.unmoved (unmoved_sendDataEach _ _ last.node)

theorem punctual_receiveNack (h : fw.Valid) (hpunctual : fw.node.Punctual spared)
    (hclock : fw.node.now ≤ now) {nack : Nack}
    (hreceive : fw.receiveNack now ingress nack = .ok fw') : fw'.node.Punctual spared := by
  have hticked : Node.Punctual { fw.node with now } spared := hpunctual.later rfl rfl hclock
  have hnoted : (noteNack now fw.node).Punctual spared := hpunctual.later rfl rfl hclock
  cases receiveNack_cases h.builtIn hreceive with
  | ignored n hquiet => exact hticked.unmoved hquiet.toUnmoved
  | refused token e g hget hquiet => exact ((hnoted.focus hget).quiet hquiet).release
  | accepted token e g f hget harrival hquiet hmoves =>
      have hrecorded := ((hnoted.focus hget).quiet hquiet).recordNack ingress.face nack.reason
      exact (hrecorded.moves hmoves).release

/-! ### Routes, faces and timers -/

theorem punctual_addRoute (h : fw.Valid) (hpunctual : fw.node.Punctual spared)
    (hclock : fw.node.now ≤ now) {stem : Name} {face : FaceId} {cost : Nat} {isAdded : Bool}
    (hadd : fw.addRoute now stem face cost = .ok (isAdded, fw')) : fw'.node.Punctual spared := by
  rcases addRoute_cases hadd with rfl | ⟨n, tokens, _, hquiet, hfold⟩
  · exact hpunctual.later rfl rfl (Nat.le_refl _)
  · have hadded : Node.Punctual
        { fw.node with now, tables := (fw.node.tables.addNextHop stem face cost).2 } spared :=
      hpunctual.later rfl rfl hclock
    have hend := foldlM_preserve (P := fun s => s.BuiltInOnly ∧ s.node.Punctual spared)
      (fun s token s' hstep hs => by
        obtain ⟨e, f, hget, hmoves, rfl⟩ := offer_cases hs.1 hstep
        exact ⟨hs.1, ((hs.2.focus hget).moves hmoves).release⟩)
      hfold ⟨h.builtIn, hadded.unmoved hquiet.toUnmoved⟩
    exact hend.2

theorem punctual_removeFace (hpunctual : fw.node.Punctual spared) (hclock : fw.node.now ≤ now)
    {face : FaceId} {isRemoved : Bool}
    (hremove : fw.removeFace now face = .ok (isRemoved, fw')) : fw'.node.Punctual spared := by
  rcases removeFace_cases hremove with rfl | ⟨faces, n, last, htable, hquiet, hfold, rfl⟩
  · exact hpunctual.later rfl rfl hclock
  · have hcut : Node.Punctual
        { fw.node with now, faces, tables := fw.node.tables.forgetNextHop face } spared :=
      hpunctual.later rfl rfl hclock
    have hend := foldlM_preserve (P := fun s => s.node.Punctual spared)
      (fun s token s' hstep hs => by
        obtain ⟨e, f, hget, hwork, rfl⟩ := atEntry_eq_ok.mp hstep
        cases hwork
        exact ((hs.focus hget).forgetFace face).release)
      hfold (hcut.unmoved hquiet.toUnmoved)
    exact hend.later rfl rfl (Nat.le_refl _)

theorem left_of_endings {due : List (Timer PitToken)} {n m : Node} (h : Endings due n m) :
    m.timers = n.timers ∧ m.now = n.now ∧
      ∀ token e, m.tables.pit.get? token = some e → n.tables.pit.get? token = some e := by
  induction h with
  | nil n => exact ⟨rfl, rfl, fun _ _ hget => hget⟩
  | cons hend _ ih =>
      obtain ⟨htimers, hnow, hleft⟩ := ih
      obtain ⟨e, herase⟩ := hend.tables
      refine ⟨htimers.trans hend.timers, hnow.trans hend.now, ?_⟩
      intro token e' hget
      have hget' := hleft token e' hget
      rw [Tables.get?_of_erase herase] at hget'
      split at hget'
      · cases hget'
      · exact hget'

theorem punctual_runTimers (h : fw.Valid) (hpunctual : fw.node.Punctual spared)
    (hclock : fw.node.now ≤ now) : (fw.runTimers now).2.node.Punctual spared := by
  obtain ⟨n, hendings, hvalid, hrun⟩ := runTimers_cases h now
  obtain ⟨htimers, hnow, hleft⟩ := left_of_endings hendings
  rw [hrun]
  refine ⟨hvalid.timed, ?_⟩
  intro token e hget hsatisfied
  have hold := hleft token e hget
  refine (hpunctual.due token e hold hsatisfied).imp_left ?_
  rintro ⟨deadline, hends, hle⟩
  -- the timer that is left is the one that was armed before
  obtain ⟨id, hid⟩ := Option.isSome_iff_exists.mp (hvalid.hasTimer token e hget)
  obtain ⟨later, harmed⟩ := hvalid.timed.armed token e id hget hid
  have hqueued : Timer.mk later id token ∈ fw.node.timers.timers := by
    have hleft' := harmed
    rw [htimers] at hleft'
    rw [← fw.node.timers.takeDue_append now]
    exact List.mem_append_right _ hleft'
  have hsame : later = deadline :=
    hpunctual.timed.endsAt_unique ⟨id, hid, hqueued⟩ hends
  subst hsame
  refine ⟨later, ⟨id, hid, harmed⟩, ?_⟩
  rw [hnow]
  exact Nat.le_trans hle hclock

end Forwarder

end NamedData
