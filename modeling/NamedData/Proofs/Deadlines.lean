import NamedData.Proofs.Doings

/-!
Deeds and timers. A deed on an entry either leaves its timer alone or sets it anew, for when the
last who waits gives up or for now, and it moves no timer of another entry. So a property of single
entries and their timers takes one argument for new entries and one for each deed on an entry.
-/

namespace NamedData

open Forwarder

namespace Focus

variable {f f' : Focus} {hash : HashFunction} {operation : Operation}

/-- The timer of the entry stays, and nobody new waits in it. -/
structure KeepsTime (f f' : Focus) : Prop where
  timers : f'.node.timers = f.node.timers
  timer : f'.entry.expiryTimer = f.entry.expiryTimer
  satisfied : f'.entry.satisfied = f.entry.satisfied
  inRecords : f'.entry.inRecords.Sublist f.entry.inRecords

/-- The entry is satisfied, or its timer is set anew: for when the last who waits gives up, or for
now. Other timers stay. -/
structure Retimed (f f' : Focus) : Prop where
  others : ∀ t : Timer PitToken, t.entry ≠ f.token →
    (t ∈ f'.node.timers.timers ↔ t ∈ f.node.timers.timers)
  ends : f'.entry.satisfied = true ∨ f'.Lasts ∨ f'.EndsAt f'.node.now

theorem KeepsTime.of_entry (htimers : f'.node.timers = f.node.timers)
    (hentry : f'.entry = f.entry) : f.KeepsTime f' :=
  ⟨htimers, by rw [hentry], by rw [hentry], hentry ▸ List.Sublist.refl _⟩

/-- Setting a timer, after other work, moves no timer of another entry. -/
theorem others_setExpiry {g : Focus} (hg : g.Timed) (htoken : g.token = f.token)
    (htimers : g.node.timers = f.node.timers) (after : Millis) (t : Timer PitToken)
    (hne : t.entry ≠ f.token) :
    t ∈ (g.setExpiry after).node.timers.timers ↔ t ∈ f.node.timers.timers := by
  rw [mem_timers_setExpiry hg, htoken, htimers]
  constructor
  · rintro (rfl | ⟨hold, _⟩)
    · exact absurd rfl hne
    · exact hold
  · exact fun hold => .inr ⟨hold, hne⟩

/-- An entry that is given up after other work. -/
theorem retimed_reject {g : Focus} (hg : g.Timed) (htoken : g.token = f.token)
    (htimers : g.node.timers = f.node.timers) : f.Retimed (g.setExpiry 0) where
  others := others_setExpiry hg htoken htimers 0
  ends := by
    have hends := endsAt_setExpiry hg 0
    rw [Timestamp.adding_zero] at hends
    exact .inr (.inr hends)

theorem keepsTime_sendInterest {egress : FaceEndpoint} {info : FaceInfo} (interest : Interest)
    (hinfo : f.node.faces.info? egress.face = some info) :
    f.KeepsTime (f.sendInterest egress interest) := by
  rw [sendInterest_of_known (FaceTable.contains_of_info? hinfo)]
  exact ⟨(f.node.unmoved_dispatch _ egress _ Counters.Onward.outInterests).timers, rfl, rfl,
    List.Sublist.refl _⟩

theorem keepsTime_sendNack (f : Focus) (egress : FaceEndpoint) (reason : NackReason) :
    f.KeepsTime (f.sendNack egress reason) := by
  have hin := f.inRecords_sendNack egress reason
  rcases f.sendNack_cases egress reason with ⟨notice, hsay⟩ | ⟨_, _, _, _, _, hsent⟩
  · rw [hsay]
    exact .of_entry rfl rfl
  · rw [hsent] at hin ⊢
    exact ⟨(f.node.unmoved_dispatch _ egress _ Counters.Onward.outNacks).timers, rfl, rfl, hin⟩

theorem Deed.timing (hdeed : Deed hash operation f f') (hf : f.Sound) :
    f.KeepsTime f' ∨ f.Retimed f' := by
  have hchanged {change : PitEntry → PitEntry}
      (hinterest : (change f.entry).interest = f.entry.interest)
      (htimer : (change f.entry).expiryTimer = f.entry.expiryTimer) :
      (f.onEntry change).Timed := timed_of_keeps hf.timed (keeps_onEntry hinterest) rfl htimer
  cases hdeed with
  | talk hquiet => exact .inl (.of_entry hquiet.node.timers hquiet.entry)
  | hit data => exact .inr ⟨others_setExpiry (hchanged rfl rfl) rfl rfl 0, .inl rfl⟩
  | @answer _ ingress _ data _ =>
      exact .inl ⟨(f.node.unmoved_sendData ingress data).timers, rfl, rfl, List.eraseP_sublist⟩
  | wait hint =>
      exact .inr ⟨others_setExpiry (hchanged rfl rfl) rfl rfl _,
        .inr (.inl (lasts_awaitData hf _ _))⟩
  | mark decision => exact .inl ⟨rfl, rfl, rfl, List.Sublist.refl _⟩
  | forward hint _ _ _ _ hinfo _ => exact .inl (keepsTime_sendInterest _ hinfo)
  | offer _ _ _ _ hinfo _ => exact .inl (keepsTime_sendInterest _ hinfo)
  | handBack egress reason _ => exact .inl (f.keepsTime_sendNack egress reason)
  | giveUp => exact .inr (retimed_reject hf.timed rfl rfl)
  | nacked =>
      rw [recordNack]
      split
      · exact .inl ⟨rfl, rfl, rfl, List.Sublist.refl _⟩
      · exact .inr (retimed_reject (hchanged rfl rfl) rfl rfl)
  | serve _ _ hserved => exact .inr ⟨hserved.others, .inl hserved.satisfied⟩
  | @forget _ face _ =>
      rcases forgetFace_cases face f with ⟨_, hforget⟩ | ⟨_, hforget | hforget⟩
      · rw [hforget]
        exact .inl (.of_entry rfl rfl)
      · rw [hforget]
        exact .inl ⟨rfl, rfl, rfl, List.filter_sublist⟩
      · rw [hforget]
        exact .inr (retimed_reject (hchanged rfl rfl) rfl rfl)

theorem Deed.otherTimers (hdeed : Deed hash operation f f') (hf : f.Sound) {t : Timer PitToken}
    (hne : t.entry ≠ f.token) : t ∈ f'.node.timers.timers ↔ t ∈ f.node.timers.timers := by
  rcases hdeed.timing hf with hkeeps | hretimed
  · rw [hkeeps.timers]
  · exact hretimed.others t hne

end Focus

/-- A property that an entry has together with its timers is kept by every deed if a new entry has
it, deeds on the entry keep it, and taking timers away does no harm. -/
theorem Node.Deed.forall_entries {hash : HashFunction} {operation : Operation}
    {P : List (Timer PitToken) → Timestamp → PitToken → PitEntry → Prop}
    (htimers : ∀ timers timers' now token e,
      (∀ t : Timer PitToken, t.entry = token → t ∈ timers' → t ∈ timers) →
      P timers now token e → P timers' now token e)
    (hnew : ∀ timers now token i, P timers now token { interest := i })
    (hdeed : ∀ f f' : Focus, f.Sound → Focus.Deed hash operation f f' →
      P f.node.timers.timers f.node.now f.token f.entry →
      P f'.node.timers.timers f'.node.now f'.token f'.entry)
    {n m : Node} (h : Deed hash operation n m)
    (hn : ∀ token e, n.tables.pit.get? token = some e → P n.timers.timers n.now token e) :
    ∀ token e, m.tables.pit.get? token = some e → P m.timers.timers m.now token e := by
  have hsame {k : Node} (hpit : k.tables.pit = n.tables.pit) (htimers : k.timers = n.timers)
      (hnow : k.now = n.now) :
      ∀ token e, k.tables.pit.get? token = some e → P k.timers.timers k.now token e := by
    rw [hpit, htimers, hnow]
    exact hn
  have hmoved {k : Node} (h : n.Unmoved k) :=
    hsame (congrArg Tables.pit h.tables) h.timers h.now
  cases h with
  | aside halike _ => exact hsame halike.pit halike.timers halike.now
  | addFace _ halike _ _ => exact hsame halike.pit halike.timers halike.now
  | dropFace halike _ => exact hsame halike.pit halike.timers halike.now
  | openEntry hint _ _ hinsert =>
      intro u e hget
      rw [Arena.get?_insert hinsert] at hget
      split at hget
      · cases hget
        exact hnew _ _ u _
      · exact hn u e hget
  | tellLoop => exact hmoved (unmoved_tellLoop _ _ _ n)
  | sendData => exact hmoved (n.unmoved_sendData _ _)
  | @work f f' hsound hwork =>
      have hkeeps := hwork.keeps
      obtain ⟨hown, hothers⟩ := (Focus.forall_release_iff hsound.live).mp hn
      refine (Focus.forall_release_iff (hkeeps.live hsound.live)).mpr
        ⟨hdeed f f' hsound hwork hown, ?_⟩
      intro u e hne hget
      rw [hkeeps.tables] at hget
      rw [hkeeps.token] at hne
      have hnow : f'.release.now = f.release.now := hkeeps.now
      rw [hnow]
      refine htimers _ _ _ u e ?_ (hothers u e hne hget)
      rintro t rfl ht
      exact (hwork.otherTimers hsound hne).mp ht
  | @finish k _ timer rest e _ _ hget _ _ =>
      have hended := ended_ending hget
      obtain ⟨old, herase⟩ := hended.tables
      intro u e' hget'
      have hkept : (k.ending timer.entry e).tables.pit.get? u = some e' := hget'
      rw [Tables.get?_of_erase herase] at hkept
      split at hkept
      · cases hkept
      · have hnow : (rearm rest (k.ending timer.entry e)).now = k.now := hended.now
        rw [hnow]
        refine htimers _ _ _ u e' ?_ (hn u e' hkept)
        intro t _ ht
        have hleft : t ∈ rest ++ (k.ending timer.entry e).timers.timers := ht
        rw [hended.timers] at hleft
        exact List.mem_cons_of_mem timer hleft

end NamedData
