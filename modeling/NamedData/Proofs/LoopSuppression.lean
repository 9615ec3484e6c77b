import NamedData.Proofs.LoopRejection
import NamedData.Proofs.NonceRecords

/-!
Interests that loop back. After an Interest of one face was sent to another, its nonce is on record
with both, and once the entry has ended unsatisfied, in the memory of nonces; so a copy that comes
back from a third face is a loop. Since a record keeps the latest nonce only, this lasts until both
records were written anew or deleted.
-/

namespace NamedData

open Forwarder

/-! ### Steps -/

/-- In the step, the Interest with which one face waits in the entry is sent to another face. -/
structure Step.SendsOn (s : Step) (token : PitToken) (downstream upstream : FaceId) (i : Interest) :
    Prop where
  waits : ∃ e, s.after.node.tables.pit.get? token = some e ∧
    ∃ r ∈ e.inRecords, r.face = downstream ∧ r.interest = i
  sent : ∃ t ∈ s.sent, t.peer.face = upstream ∧ t.packet = .interest i.untagged

/-- After the step the entry is there. -/
def Step.Holds (s : Step) (token : PitToken) : Prop :=
  ∃ e, s.after.node.tables.pit.get? token = some e

/-- In the step, the record of the face that the Interest was sent to is written anew or deleted. -/
def Step.ForgetsUpstream (s : Step) (upstream : FaceId) (i : Interest) : Prop :=
  LosesSent s.before.hash s.operation s.sent upstream i

/-- In the step, the record of the face that the Interest came from is written anew or deleted. -/
def Step.ForgetsDownstream (s : Step) (token : PitToken) (downstream : FaceId) (i : Interest) :
    Prop :=
  (∀ e, s.after.node.tables.pit.get? token = some e → ¬ e.WaitsWith downstream i.nonce) ∧
    LosesAwaited s.before.hash s.operation s.sent downstream i

/-- In the step, timers are run and end the entry unsatisfied. -/
def Step.EndsUnsatisfied (s : Step) (token : PitToken) : Prop :=
  ∃ now e, s.operation = .runTimers now ∧ s.before.node.tables.pit.get? token = some e ∧
    e.satisfied = false ∧ s.after.node.tables.pit.get? token = none

/-- Through all these steps the entry is there, and one of the two records of the Interest stays. -/
def KeptPending (steps : List Step) (token : PitToken) (downstream upstream : FaceId)
    (i : Interest) : Prop :=
  (∀ s ∈ steps, s.Holds token) ∧
    ((∀ s ∈ steps, ¬ s.ForgetsUpstream upstream i) ∨
      ∀ s ∈ steps, ¬ s.ForgetsDownstream token downstream i)

/-- In these steps, the latest first, the entry ends unsatisfied less than the given time ago, and
until then the record of the face that the Interest was sent to stays. -/
def EndedRecently (steps : List Step) (token : PitToken) (upstream : FaceId) (i : Interest)
    (lifetime : Millis) (now : Timestamp) : Prop :=
  ∃ later ending earlier, steps = later ++ ending :: earlier ∧
    (∀ s ∈ earlier, s.Holds token ∧ ¬ s.ForgetsUpstream upstream i) ∧
    ending.EndsUnsatisfied token ∧ now < ending.after.node.now.adding lifetime

/-! ### Records that stay -/

/-- The Interest was sent to a face from the entry, and nobody but the given face waits with it. -/
structure PitEntry.SentOn (e : PitEntry) (downstream upstream : FaceId) (i : Interest) : Prop where
  attributed : e.Attributed
  same : e.interest.sameSelectors i = true
  onlyFrom : e.OnlyFrom downstream i.nonce
  sentWith : e.SentWith upstream i.nonce

/-- The face waits with the Interest in the entry. -/
structure PitEntry.AwaitedBy (e : PitEntry) (downstream : FaceId) (i : Interest) : Prop where
  attributed : e.Attributed
  same : e.interest.sameSelectors i = true
  waitsWith : e.WaitsWith downstream i.nonce

namespace Focus

variable {f f' : Focus} {hash : HashFunction} {operation : Operation}
  {downstream upstream : FaceId} {i : Interest}

/-- A nonce that is noted with an upstream is not taken over by another face. -/
theorem Deed.onlyFrom (h : Deed hash operation f f') (hf : f.Sound)
    (honly : f.entry.OnlyFrom downstream i.nonce) (hsent : f.entry.SentWith upstream i.nonce) :
    f'.entry.OnlyFrom downstream i.nonce := by
  rcases h.inRecords with hin | ⟨_, ingress, j, info, hint, _, _, _, _, hloop, rfl⟩
  · exact honly.of_sublist hin
  · have hnew : j.nonce = i.nonce → ingress.face = downstream := by
      intro hnonce
      by_contra hother
      rw [hnonce, PitEntry.isLoop_of_onRecord honly hother (.inl ⟨upstream, hsent⟩)] at hloop
      cases hloop
    have hrecorded : (f.entry.recordIn ingress (j.arrived ingress.face hint) f.node.now).OnlyFrom
        downstream i.nonce := honly.recordIn hf.distinct.inFaces f.node.now hnew
    exact hrecorded.of_sublist (List.Sublist.refl _)

theorem Deed.sentOn (h : Deed hash operation f f') (hf : f.Sound)
    (hentry : f.entry.SentOn downstream upstream i) :
    f'.entry.SentOn downstream upstream i ∨ LosesSent hash operation
      (f'.node.journal.sent.drop f.node.journal.sent.length) upstream i := by
  refine (h.sentWith hf hentry.attributed hentry.same hentry.sentWith).imp_left fun hsent => ?_
  exact ⟨h.attributed hf hentry.attributed, h.keeps.interest ▸ hentry.same,
    h.onlyFrom hf hentry.onlyFrom hentry.sentWith, hsent⟩

theorem Deed.awaitedBy (h : Deed hash operation f f') (hf : f.Sound)
    (hentry : f.entry.AwaitedBy downstream i) :
    f'.entry.AwaitedBy downstream i ∨ LosesAwaited hash operation
      (f'.node.journal.sent.drop f.node.journal.sent.length) downstream i := by
  refine (h.waitsWith hf hentry.attributed hentry.same hentry.waitsWith).imp_left fun hwaits => ?_
  exact ⟨h.attributed hf hentry.attributed, h.keeps.interest ▸ hentry.same, hwaits⟩

/-- While timers are run, entries that do not end stay as they are but for Nacks. -/
theorem Deed.idle_of_timers {now : Timestamp} (h : Deed hash (.runTimers now) f f') :
    f'.entry.outRecords = f.entry.outRecords ∧ f'.entry.satisfied = f.entry.satisfied := by
  cases h
  case talk hquiet =>
    rw [hquiet.entry]
    exact ⟨rfl, rfl⟩
  case handBack egress reason _ =>
    exact ⟨(f.records_sendNack egress reason).1, (f.keepsTime_sendNack egress reason).satisfied⟩
  all_goals contradiction

end Focus

namespace Forwarder

variable {fw fw' : Forwarder} {operation : Operation} {token : PitToken} {e : PitEntry}
  {downstream upstream : FaceId} {i : Interest}

theorem drop_subset_of_extends {sent sent' : List Transmission} {P : Transmission → Prop}
    (h : Extends sent sent' P) (count : Nat) : ∀ t ∈ sent.drop count, t ∈ sent'.drop count := by
  obtain ⟨new, rfl, _⟩ := h
  intro t ht
  rw [List.drop_append]
  exact List.mem_append_left _ ht

/-- What becomes of one entry in an operation: it keeps a property that deeds keep, the property is
lost in one of the given ways, or the entry ends. -/
theorem entry_perform {P : PitEntry → Prop} {L : List Transmission → Prop}
    (hmono : ∀ sent sent', (∀ t ∈ sent, t ∈ sent') → L sent → L sent')
    (hwork : ∀ f f' : Focus, f.Sound → Focus.Deed fw.hash operation f f' → P f.entry →
      P f'.entry ∨ L (f'.node.journal.sent.drop f.node.journal.sent.length))
    (h : fw.Valid) (hperform : fw.perform operation = .ok fw')
    (hget : fw.node.tables.pit.get? token = some e) (he : P e) :
    (∃ e', fw'.node.tables.pit.get? token = some e' ∧ P e') ∨
      L (Step.mk fw operation fw').sent ∨ fw'.node.tables.pit.get? token = none := by
  obtain ⟨n, hbegun, hdeeds⟩ := deeds_perform h hperform
  have hstart : n.tables = fw.node.tables ∧ n.journal = fw.node.journal := by
    rcases hbegun with rfl | ⟨now, _, rfl⟩ <;> exact ⟨rfl, rfl⟩
  have hresult := hdeeds.entry (P := P)
    (L := fun k => L (k.journal.sent.drop n.journal.sent.length) ∨
      (∃ now, operation = .runTimers now) ∧ k.tables.pit.get? token = none)
    ?_ ?_ ?_ (by rw [hstart.1]; exact hget) he
  · rw [hstart.2] at hresult
    exact hresult.imp_right fun hlost => hlost.imp_right And.right
  · rintro k k' hdeed (hlost | ⟨⟨now, hcall⟩, hgone⟩)
    · exact .inl (hmono _ _ (drop_subset_of_extends hdeed.sends _) hlost)
    · exact .inr ⟨⟨now, hcall⟩, hdeed.stays_gone (by simp [hcall]) hgone⟩
  · intro f f' hsound hdeed hbefore he
    refine (hwork f f' hsound hdeed he).imp_right fun hlost => .inl ?_
    obtain ⟨new, hsent, _⟩ := hbefore.sends
    have hle : n.journal.sent.length ≤ f.node.journal.sent.length := by
      have hlength := congrArg List.length hsent
      rw [List.length_append] at hlength
      exact Nat.le.intro hlength.symm
    exact hmono _ _ (fun _ ht => List.drop_subset_drop_left _ hle ht) hlost
  · exact fun _ _ _ now _ _ _ hcall hgone _ _ => .inr ⟨⟨now, hcall⟩, hgone⟩

theorem sentOn_perform (h : fw.Valid) (hperform : fw.perform operation = .ok fw')
    (hget : fw.node.tables.pit.get? token = some e) (he : e.SentOn downstream upstream i) :
    (∃ e', fw'.node.tables.pit.get? token = some e' ∧ e'.SentOn downstream upstream i) ∨
      (Step.mk fw operation fw').ForgetsUpstream upstream i ∨
        fw'.node.tables.pit.get? token = none :=
  entry_perform (P := fun e => e.SentOn downstream upstream i)
    (L := fun sent => LosesSent fw.hash operation sent upstream i)
    (fun _ _ hsub hlost => hlost.mono hsub)
    (fun _ _ hsound hdeed he => hdeed.sentOn hsound he) h hperform hget he

theorem awaitedBy_perform (h : fw.Valid) (hperform : fw.perform operation = .ok fw')
    (hget : fw.node.tables.pit.get? token = some e) (he : e.AwaitedBy downstream i) :
    (∃ e', fw'.node.tables.pit.get? token = some e' ∧ e'.AwaitedBy downstream i) ∨
      LosesAwaited fw.hash operation (Step.mk fw operation fw').sent downstream i ∨
        fw'.node.tables.pit.get? token = none :=
  entry_perform (P := fun e => e.AwaitedBy downstream i)
    (L := fun sent => LosesAwaited fw.hash operation sent downstream i)
    (fun _ _ hsub hlost => hlost.mono hsub)
    (fun _ _ hsound hdeed he => hdeed.awaitedBy hsound he) h hperform hget he

/-- An entry stays with its Interest. -/
theorem interest_perform (h : fw.Valid) (hperform : fw.perform operation = .ok fw')
    (hget : fw.node.tables.pit.get? token = some e) {e' : PitEntry}
    (hget' : fw'.node.tables.pit.get? token = some e') : e'.interest = e.interest := by
  have hresult := entry_perform (P := fun e' => e'.interest = e.interest) (L := fun _ => False)
    (fun _ _ _ => id) (fun _ _ _ hdeed he => .inl (hdeed.keeps.interest.trans he)) h hperform hget
    rfl
  rcases hresult with ⟨last, hlast, hinterest⟩ | hfalse | hgone
  · exact Option.some.inj (hget'.symm.trans hlast) ▸ hinterest
  · exact hfalse.elim
  · cases hget'.symm.trans hgone

/-- The nonces that an entry sent last are remembered when it ends unsatisfied. -/
theorem recalls_runTimers (h : fw.Valid) {now : Timestamp} {o : OutRecord}
    (hget : fw.node.tables.pit.get? token = some e) (hopen : e.satisfied = false)
    (ho : o ∈ e.outRecords) (hgone : (fw.runTimers now).2.node.tables.pit.get? token = none) :
    (fw.runTimers now).2.node.deadNonces.Recalls (NonceHash.hash e.name o.nonce)
      (fw.runTimers now).2.node.now (fw.runTimers now).2.node.now := by
  have hdeeds : Node.Deeds fw.hash (.runTimers now) { fw.node with now }
      (fw.runTimers now).2.node := deeds_runTimers h rfl
  have hresult := hdeeds.entry
    (P := fun e' => e'.interest = e.interest ∧ e'.outRecords = e.outRecords ∧ e'.satisfied = false)
    (L := fun k => k.deadNonces.Recalls (NonceHash.hash e.name o.nonce) now k.now)
    (fun _ _ hdeed hk => hdeed.deeds.recalls hk) ?_ ?_ hget ⟨rfl, rfl, hopen⟩
  · have hnow : (fw.runTimers now).2.node.now = now := hdeeds.now
    have hlost := hresult.resolve_left fun ⟨_, hlive, _⟩ => by cases hlive.symm.trans hgone
    rwa [hnow] at hlost ⊢
  · rintro f f' - hdeed - ⟨hinterest, hout, hopen⟩
    obtain ⟨hout', hopen'⟩ := hdeed.idle_of_timers
    exact .inl ⟨hdeed.keeps.interest.trans hinterest, hout'.trans hout, hopen'.trans hopen⟩
  · rintro k k' e' _ hbefore - ⟨hinterest, hout, hopen⟩ - - hremembered hnow
    have hworth : Focus.remembersNonces ⟨k, token, e'⟩ = true := by
      rw [Focus.remembersNonces, hopen]
      rfl
    have hname : e'.name = e.name := congrArg Interest.name hinterest
    have hk : k.now = now := hbefore.now
    rw [hremembered, hnow, Node.rememberedAfter, if_pos hworth, hout, hname, hk]
    exact DeadNonceList.recalls_addAll (List.mem_map_of_mem ho) k.deadNonces now

/-- What is remembered stays remembered. -/
theorem recalls_perform (h : fw.Valid) (hperform : fw.perform operation = .ok fw')
    (hclock : ∀ now, operation.reading? = some now → fw.node.now ≤ now) {pair : UInt64}
    {since : Timestamp} (hrecalls : fw.node.deadNonces.Recalls pair since fw.node.now) :
    fw'.node.deadNonces.Recalls pair since fw'.node.now := by
  obtain ⟨n, hbegun, hdeeds⟩ := deeds_perform h hperform
  apply hdeeds.recalls
  rcases hbegun with rfl | ⟨now, hreading, rfl⟩
  · exact hrecalls
  · exact hrecalls.later (hclock now hreading)

theorem lifetime_perform (h : fw.Valid) (hperform : fw.perform operation = .ok fw') :
    fw'.node.deadNonces.lifetime = fw.node.deadNonces.lifetime := by
  obtain ⟨n, hbegun, hdeeds⟩ := deeds_perform h hperform
  rw [hdeeds.lifetime]
  rcases hbegun with rfl | ⟨now, _, rfl⟩ <;> rfl

end Forwarder

/-! ### Runs -/

namespace Run

variable {settings : Settings} {store : ContentStore} {hash : HashFunction} {fw : Forwarder}
  {later earlier history : List Step} {s : Step} {token : PitToken}
  {downstream upstream : FaceId} {i : Interest}

/-- At every moment of a run, no two entries ask for the same, and no two faces wait with one nonce
in an entry. -/
theorem distinguished (run : Run (Forwarder.new settings store hash) history fw) :
    fw.node.Distinguished ∧ fw.node.Attributed := by
  have hempty : (Forwarder.new settings store hash).node.Distinguished ∧
      (Forwarder.new settings store hash).node.Attributed :=
    ⟨fun _ _ _ _ h => (by cases h), fun _ _ h => (by cases h)⟩
  have hall := run.invariant (P := fun fw => fw.Valid ∧ fw.node.Distinguished ∧ fw.node.Attributed)
    ⟨Forwarder.valid_new settings store hash, hempty⟩
    (fun fw operation fw' hperform h => by
      obtain ⟨hvalid, hdistinguished, hattributed⟩ := h
      obtain ⟨n, hbegun, hdeeds⟩ := deeds_perform hvalid hperform
      have hn : n.Distinguished ∧ n.Attributed := by
        rcases hbegun with rfl | ⟨now, _, rfl⟩ <;> exact ⟨hdistinguished, hattributed⟩
      exact ⟨hvalid.perform hperform, hdeeds.distinguished hn.1, hdeeds.attributed hn.2⟩)
  exact hall.2

theorem lifetime (run : Run (Forwarder.new settings store hash) history fw) :
    fw.node.deadNonces.lifetime = settings.deadNonceLifetime := by
  have hall := run.invariant
    (P := fun fw => fw.Valid ∧ fw.node.deadNonces.lifetime = settings.deadNonceLifetime)
    ⟨Forwarder.valid_new settings store hash, rfl⟩
    (fun fw operation fw' hperform h =>
      ⟨h.1.perform hperform, (lifetime_perform h.1 hperform).trans h.2⟩)
  exact hall.2

/-- An Interest that is sent from an entry is on record there, with both faces. -/
theorem onRecord (run : Run (Forwarder.new settings store hash) (s :: earlier) fw)
    (hsends : s.SendsOn token downstream upstream i) :
    ∃ e, fw.node.tables.pit.get? token = some e ∧ e.SentOn downstream upstream i ∧
      e.AwaitedBy downstream i := by
  obtain ⟨hdistinguished, hattributed⟩ := run.distinguished
  obtain ⟨hbefore, hperform, rfl⟩ := run.last
  obtain ⟨e, hget, r, hr, hface, hinterest⟩ := hsends.waits
  obtain ⟨t, ht, hpeer, hpacket⟩ := hsends.sent
  have he := hattributed token e hget
  have hsame : e.interest.sameSelectors i = true := hinterest ▸ he.same r hr
  have hwaits : e.WaitsWith downstream i.nonce := ⟨r, hr, hface, hinterest ▸ he.nonce r hr⟩
  obtain ⟨n, hbegun, hdeeds⟩ := deeds_perform hbefore.valid hperform
  have hn : n.Attributed ∧ n.journal = s.before.node.journal := by
    rcases hbegun with rfl | ⟨now, _, rfl⟩ <;> exact ⟨hbefore.distinguished.2, rfl⟩
  obtain ⟨new, hsent, hnoted⟩ := hdeeds.sendsNoted hn.1
  rw [Step.sent, hsent, hn.2, List.drop_left] at ht
  obtain ⟨token', e', hget', hsame', o, ho, hto, hnonce, _⟩ := hnoted t ht _ hpacket
  have htoken : token' = token := by
    apply hdistinguished token' token e' e hget' hget
    rw [Interest.sameSelectors_comm] at hsame
    exact Interest.sameSelectors_trans hsame' hsame
  subst htoken
  have hentry : e' = e := Option.some.inj (hget'.symm.trans hget)
  subst hentry
  exact ⟨e', hget, ⟨he, hsame, he.onlyFrom hwaits, o, ho, hto.trans hpeer, hnonce⟩,
    ⟨he, hsame, hwaits⟩⟩

/-- The nonce stays on record with the face that it was sent to. -/
theorem sentOn (run : Run (Forwarder.new settings store hash) (later ++ s :: earlier) fw)
    (hsends : s.SendsOn token downstream upstream i)
    (hkept : ∀ t ∈ later, t.Holds token ∧ ¬ t.ForgetsUpstream upstream i) :
    ∃ e, fw.node.tables.pit.get? token = some e ∧ e.SentOn downstream upstream i := by
  obtain ⟨first, hfirst⟩ := run.suffix
  obtain ⟨_, _, rfl⟩ := hfirst.last
  obtain ⟨e, hget, he, _⟩ := hfirst.onRecord hsends
  refine run.along (P := fun fw => ∃ e, fw.node.tables.pit.get? token = some e ∧
    e.SentOn downstream upstream i) ⟨e, hget, he⟩ ?_
  rintro t ht passed hrun ⟨e, hget, he⟩
  obtain ⟨⟨e', hlive⟩, hkeeps⟩ := hkept t ht
  obtain ⟨hbefore, hperform, _⟩ := hrun.last
  rcases sentOn_perform hbefore.valid hperform hget he with hstill | hlost | hgone
  · exact hstill
  · exact (hkeeps hlost).elim
  · cases hlive.symm.trans hgone

/-- The nonce stays on record with the face that it came from. -/
theorem awaitedBy (run : Run (Forwarder.new settings store hash) (later ++ s :: earlier) fw)
    (hsends : s.SendsOn token downstream upstream i)
    (hkept : ∀ t ∈ later, t.Holds token ∧ ¬ t.ForgetsDownstream token downstream i) :
    ∃ e, fw.node.tables.pit.get? token = some e ∧ e.AwaitedBy downstream i := by
  obtain ⟨first, hfirst⟩ := run.suffix
  obtain ⟨_, _, rfl⟩ := hfirst.last
  obtain ⟨e, hget, _, he⟩ := hfirst.onRecord hsends
  refine run.along (P := fun fw => ∃ e, fw.node.tables.pit.get? token = some e ∧
    e.AwaitedBy downstream i) ⟨e, hget, he⟩ ?_
  rintro t ht passed hrun ⟨e, hget, he⟩
  obtain ⟨⟨e', hlive⟩, hkeeps⟩ := hkept t ht
  obtain ⟨hbefore, hperform, _⟩ := hrun.last
  rcases awaitedBy_perform hbefore.valid hperform hget he with hstill | hlost | hgone
  · exact hstill
  · have hwaits : e'.WaitsWith downstream i.nonce := by
      by_contra hnot
      refine hkeeps ⟨fun k hk => ?_, hlost⟩
      rwa [Option.some.inj (hk.symm.trans hlive)]
    have hinterest := interest_perform hbefore.valid hperform hget hlive
    exact ⟨e', hlive, hrun.distinguished.2 token e' hlive, hinterest ▸ he.same, hwaits⟩
  · cases hlive.symm.trans hgone

/-- After its entry ended unsatisfied, an Interest that was sent is remembered for a lifetime. -/
theorem remembered (run : Run (Forwarder.new settings store hash) (later ++ s :: earlier) fw)
    (hclock : ClockNeverBack (later ++ s :: earlier))
    (hsends : s.SendsOn token downstream upstream i) {now : Timestamp} (hnow : fw.node.now ≤ now)
    (hended : EndedRecently later token upstream i settings.deadNonceLifetime now) :
    fw.node.deadNonces.has i.name i.nonce now = true := by
  obtain ⟨after, ending, before, rfl, hkept, hends, hrecent⟩ := hended
  obtain ⟨time, e, hcall, hget, hopen, hgone⟩ := hends
  rw [List.append_assoc, List.cons_append] at run hclock
  obtain ⟨middle, hmiddle⟩ := run.suffix
  obtain ⟨hbefore, hperform, rfl⟩ := hmiddle.last
  obtain ⟨e', hget', he⟩ := hbefore.sentOn hsends hkept
  have hentry : e' = e := Option.some.inj (hget'.symm.trans hget)
  subst hentry
  obtain ⟨o, ho, hto, hnonce⟩ := he.sentWith
  rw [hcall] at hperform
  have hafter : ending.after = (ending.before.runTimers time).2 := (Except.ok.inj hperform).symm
  have hend : ending.after.node.deadNonces.Recalls (NonceHash.hash e'.name o.nonce)
      ending.after.node.now ending.after.node.now := by
    rw [hafter] at hgone ⊢
    exact recalls_runTimers hbefore.valid hget hopen ho hgone
  have hrecalls := run.along
    (P := fun fw => fw.node.deadNonces.Recalls (NonceHash.hash e'.name o.nonce)
      ending.after.node.now fw.node.now)
    hend fun t ht passed hrun ht' => by
      obtain ⟨hearlier, hstep, _⟩ := hrun.last
      exact recalls_perform hearlier.valid hstep (hclock t (List.mem_append_left _ ht)) ht'
  have hname : i.name = e'.name := (Interest.sameSelectors_iff.mp he.same).1.symm
  have hlater : now < ending.after.node.now.adding fw.node.deadNonces.lifetime := by
    rw [run.lifetime]
    exact hrecent
  have hkeeps := hrecalls.keeps (Nat.lt_of_le_of_lt hnow hlater)
  exact hkeeps.has (by rw [hname, ← hnonce]) hlater

end Run

variable {settings : Settings} {store : ContentStore} {hash : HashFunction}
  {later earlier : List Step} {s : Step} {fw : Forwarder} {token : PitToken}
  {downstream upstream : FaceId} {i j : Interest}

/-- Let an Interest with which one face waits be sent to another. Then an Interest for the same and
with the same nonce that comes from any other face than the one that waits is treated as a loop: as
long as the entry is there and one of the two records stays, and also for the lifetime of the memory
of nonces after the entry ended unsatisfied, if the record of the face that it was sent to stayed
until then. -/
theorem returning_interest_loops
    (run : Run (Forwarder.new settings store hash) (later ++ s :: earlier) fw)
    (hclock : ClockNeverBack (later ++ s :: earlier))
    (hsends : s.SendsOn token downstream upstream i) {now : Timestamp} (hnow : fw.node.now ≤ now)
    {ingress : FaceEndpoint} (hother : ingress.face ≠ downstream)
    (hsame : i.sameSelectors j = true) (hnonce : j.nonce = i.nonce)
    (hkept : KeptPending later token downstream upstream i ∨
      EndedRecently later token upstream i settings.deadNonceLifetime now) :
    ∃ fw', fw.receiveInterest now ingress j = .ok fw' ∧ fw.TreatsAsLoop fw' ingress j := by
  refine run.valid.receiveInterest_loops run.distinguished.1 ?_
  rcases hkept with ⟨hholds, hupstream | hdownstream⟩ | hended
  · right
    obtain ⟨e, hget, he⟩ := run.sentOn hsends fun t ht => ⟨hholds t ht, hupstream t ht⟩
    refine ⟨token, e, hget, Interest.sameSelectors_trans he.same hsame, fun info => ?_⟩
    rw [hnonce]
    exact PitEntry.isLoop_of_onRecord he.onlyFrom hother (.inl ⟨upstream, he.sentWith⟩)
  · right
    obtain ⟨e, hget, he⟩ := run.awaitedBy hsends fun t ht => ⟨hholds t ht, hdownstream t ht⟩
    refine ⟨token, e, hget, Interest.sameSelectors_trans he.same hsame, fun info => ?_⟩
    rw [hnonce]
    exact PitEntry.isLoop_of_onRecord (he.attributed.onlyFrom he.waitsWith) hother
      (.inr he.waitsWith)
  · left
    have hremembered := run.remembered hclock hsends hnow hended
    rwa [(Interest.sameSelectors_iff.mp hsame).1, ← hnonce] at hremembered

/-! ### An Interest that is forgotten, and one that is not -/

namespace Sample

/-- Three faces and a route to the second one. -/
def threeFaces : List Operation :=
  [.addRoute ⟨1⟩ name ⟨257⟩ 0, .addFace (fun _ => true) .offHost .pointToPoint,
    .addFace (fun _ => true) .offHost .pointToPoint,
    .addFace (fun _ => true) .offHost .pointToPoint]

/-- The first face asks, and its Interest is sent to the second one. -/
def sentOn : Step :=
  ⟨reached start threeFaces, ask ⟨1⟩ ⟨1⟩, reached start (ask ⟨1⟩ ⟨1⟩ :: threeFaces)⟩

/-- A call after that. -/
def afterwards (operation : Operation) : Step :=
  ⟨sentOn.after, operation, reached start (operation :: ask ⟨1⟩ ⟨1⟩ :: threeFaces)⟩

def asked : Interest where
  name := name
  nonce := ⟨1⟩
  incomingFace := some ⟨256⟩

/-- The Interest as it comes back from the third face. -/
def back : Interest where
  name := name
  nonce := ⟨1⟩

theorem sendsOn_sentOn : sentOn.SendsOn ⟨0, 0⟩ ⟨256⟩ ⟨257⟩ asked where
  waits := by
    have hwaits : (sentOn.after.node.tables.pit.get? ⟨0, 0⟩).any (fun e =>
        e.inRecords.any fun r => r.face = ⟨256⟩ ∧ r.interest = asked) = true := by decide +kernel
    simpa [Option.any_eq_true] using hwaits
  sent := by
    have hsent : sentOn.sent.any (fun t => t.peer.face = ⟨257⟩ ∧
        t.packet = .interest asked.untagged) = true := by decide +kernel
    simpa using hsent

theorem run_afterwards (operation : Operation)
    (h : (record start (operation :: ask ⟨1⟩ ⟨1⟩ :: threeFaces)).isOk = true) :
    Run start ([afterwards operation] ++ sentOn :: historyOf start threeFaces)
      (afterwards operation).after := by
  have hrun := Run.reached start _ h
  rwa [historyOf_cons start _ _ h, historyOf_cons start _ _ (by decide +kernel)] at hrun

end Sample

/-- The first face asks anew with another nonce, which takes the place of its first one in both
records; when the first Interest comes back from the third face, it is no loop any more. -/
theorem returning_interest_forgotten : ∃ later s earlier fw,
    Run Sample.start (later ++ s :: earlier) fw ∧ ClockNeverBack (later ++ s :: earlier) ∧
      s.SendsOn ⟨0, 0⟩ ⟨256⟩ ⟨257⟩ Sample.asked ∧ (∀ t ∈ later, t.Holds ⟨0, 0⟩) ∧
      fw.node.now ≤ ⟨102⟩ ∧
      ¬ ∃ fw', fw.receiveInterest ⟨102⟩ ⟨⟨258⟩, 0⟩ Sample.back = .ok fw' ∧
        fw.TreatsAsLoop fw' ⟨⟨258⟩, 0⟩ Sample.back := by
  let overtaken := Sample.afterwards (Sample.ask ⟨101⟩ ⟨2⟩)
  have hlive : (overtaken.after.node.tables.pit.get? ⟨0, 0⟩).isSome = true := by decide +kernel
  have hrecorded : (overtaken.after.receiveInterest ⟨102⟩ ⟨⟨258⟩, 0⟩ Sample.back).toOption.all
      (fun fw' => fw'.node.tables ≠ overtaken.after.node.tables) = true := by decide +kernel
  refine ⟨[overtaken], Sample.sentOn, historyOf Sample.start Sample.threeFaces, overtaken.after,
    Sample.run_afterwards _ (by decide +kernel), clockNeverBack_of_all (by decide +kernel),
    Sample.sendsOn_sentOn, ?_, by decide +kernel, ?_⟩
  · intro t ht
    rw [List.mem_singleton.mp ht]
    exact Option.isSome_iff_exists.mp hlive
  · rintro ⟨fw', hreceive, htreated⟩
    rw [hreceive] at hrecorded
    exact of_decide_eq_true hrecorded htreated.tables

/-- Nobody answers the Interest, and after its entry has ended it comes back from the third face. -/
theorem returning_interest_loops_unanswered :
    EndedRecently [Sample.afterwards (.runTimers ⟨4001⟩)] ⟨0, 0⟩ ⟨257⟩ Sample.asked 6000 ⟨9000⟩ ∧
      ∃ fw', (Sample.afterwards (.runTimers ⟨4001⟩)).after.receiveInterest ⟨9000⟩ ⟨⟨258⟩, 0⟩
          Sample.back = .ok fw' ∧
        TreatsAsLoop (Sample.afterwards (.runTimers ⟨4001⟩)).after fw' ⟨⟨258⟩, 0⟩ Sample.back := by
  let ending := Sample.afterwards (.runTimers ⟨4001⟩)
  have hopen : (ending.before.node.tables.pit.get? ⟨0, 0⟩).any (fun e => !e.satisfied) = true := by
    decide +kernel
  obtain ⟨e, hget, he⟩ := (Option.any_eq_true _ _).mp hopen
  have hgone : ending.after.node.tables.pit.get? ⟨0, 0⟩ = none := by decide +kernel
  have hends : ending.EndsUnsatisfied ⟨0, 0⟩ :=
    ⟨⟨4001⟩, e, rfl, hget, (Bool.not_eq_true' _).mp he, hgone⟩
  have hended : EndedRecently [ending] ⟨0, 0⟩ ⟨257⟩ Sample.asked 6000 ⟨9000⟩ :=
    ⟨[], ending, [], rfl, by simp, hends, by decide +kernel⟩
  have hrun := Sample.run_afterwards (.runTimers ⟨4001⟩) (by decide +kernel)
  exact ⟨hended, returning_interest_loops hrun (clockNeverBack_of_all (by decide +kernel))
    Sample.sendsOn_sentOn (by decide +kernel) (by decide) (by decide) rfl (.inr hended)⟩

end NamedData
