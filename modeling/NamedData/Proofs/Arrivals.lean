import NamedData.Proofs.LoopSuppression
import NamedData.Proofs.Receptions

/-!
Where entries and records come from. An entry was made for an Interest that came in when nobody
asked for the same, and goes by its hint as it was then; whoever waits in an entry waits with the
Interest that came in last from the face.
-/

namespace NamedData

open Forwarder

/-- In the step, the Interest of a peer is not answered from the content store, and waits in the
entry or is handed back at once. -/
structure Step.Accepts (s : Step) (token : PitToken) (peer : FaceEndpoint) (i : Interest)
    (now : Timestamp) : Prop where
  call : s.operation = .receive now peer (.interest i)
  missed : s.before.node.counters.storeMisses < s.after.node.counters.storeMisses
  entry : ∃ e, s.after.node.tables.pit.get? token = some e ∧ e.interest.sameSelectors i = true

/-- In the step, an Interest of any peer behind the face comes to the entry. -/
def Step.AcceptsFrom (s : Step) (token : PitToken) (face : FaceId) : Prop :=
  ∃ peer i now, s.Accepts token peer i now ∧ peer.face = face

/-- In the step, the entry is made for the Interest of a peer. -/
structure Step.Opens (s : Step) (token : PitToken) (peer : FaceEndpoint) (i : Interest) :
    Prop where
  call : ∃ now, s.operation = .receive now peer (.interest i)
  free : s.before.node.tables.pit.get? token = none
  made : ∃ e, s.after.node.tables.pit.get? token = some e ∧
    e.interest = (s.before.node.arrival peer i).untagged

/-- The entry was made for the Interest of a peer in the given step, and has been there since. -/
def MadeFor (history : List Step) (token : PitToken) (opening : Step) (peer : FaceEndpoint)
    (i : Interest) : Prop :=
  ∃ later earlier, history = later ++ opening :: earlier ∧ opening.Opens token peer i ∧
    ∀ t ∈ later, t.Holds token

/-- The Interest that somebody waits with in the entry came in in the given step, and none has come
to the entry from the face since. -/
def CameIn (history : List Step) (token : PitToken) (r : InRecord) (arrival : Step) : Prop :=
  ∃ later earlier i now, history = later ++ arrival :: earlier ∧
    arrival.Accepts token r.peer i now ∧
    r = PitEntry.inRecordOf r.peer (arrival.before.node.arrival r.peer i) now ∧
    ∀ t ∈ later, ¬ t.AcceptsFrom token r.face

/-! ### One operation -/

/-- Without an Interest that comes in, nobody comes to wait. -/
theorem Node.Deed.waitingIn_subset {hash : HashFunction} {operation : Operation} {n m : Node}
    (h : Deed hash operation n m)
    (hother : ∀ now ingress i, operation ≠ .receive now ingress (.interest i))
    (token : PitToken) : m.waitingIn token ⊆ n.waitingIn token := by
  have hsame (hget : m.tables.pit.get? token = n.tables.pit.get? token) :
      m.waitingIn token ⊆ n.waitingIn token :=
    waitingIn_congr hget ▸ List.Subset.refl _
  cases h.pitChange with
  | same hpit => exact hsame (by rw [hpit])
  | opened _ hcall _ _ _ => exact (hother _ _ _ hcall).elim
  | @worked f f' hsound hdeed _ _ hold hnew hpit =>
      by_cases hown : token = f.token
      · subst hown
        rw [waitingIn_of_get? hold, waitingIn_of_get? hnew]
        rcases hdeed.inRecords with hin | ⟨_, _, _, _, _, hcall, _⟩
        · exact hin.subset
        · exact (hother _ _ _ hcall).elim
      · exact hsame (hpit token hown)
  | @ended _ ending _ _ _ hpit _ =>
      have hleft := hpit token
      by_cases hown : token = ending
      · rw [if_pos hown] at hleft
        rw [waitingIn_of_none hleft]
        exact List.nil_subset _
      · exact hsame (hleft.trans (if_neg hown))

namespace Forwarder

variable {fw fw' : Forwarder} {operation : Operation} {token : PitToken} {e : PitEntry}

theorem waitingIn_perform (h : fw.Valid) (hperform : fw.perform operation = .ok fw')
    (hother : ∀ now ingress i, operation ≠ .receive now ingress (.interest i))
    (token : PitToken) : fw'.node.waitingIn token ⊆ fw.node.waitingIn token := by
  obtain ⟨n, hbegun, hdeeds⟩ := deeds_perform h hperform
  have hstart : n.waitingIn token = fw.node.waitingIn token := by
    rcases hbegun with rfl | ⟨now, _, rfl⟩ <;> rfl
  rw [← hstart]
  exact hdeeds.preserve (P := fun k => k.waitingIn token ⊆ n.waitingIn token)
    (fun _ _ hdeed hk => List.Subset.trans (hdeed.waitingIn_subset hother token) hk)
    (List.Subset.refl _)

/-- An entry that was not there before is made for the Interest that comes in. -/
theorem made_perform (h : fw.Valid) (hperform : fw.perform operation = .ok fw')
    (hget : fw'.node.tables.pit.get? token = some e)
    (hfree : fw.node.tables.pit.get? token = none) :
    ∃ now peer i, operation = .receive now peer (.interest i) ∧
      e.interest = (fw.node.arrival peer i).untagged := by
  by_cases hcall : ∃ now peer i, operation = .receive now peer (.interest i)
  · obtain ⟨now, peer, i, rfl⟩ := hcall
    refine ⟨now, peer, i, rfl, ?_⟩
    cases receiveInterest_reception h hperform with
    | turnedAway _ _ _ hmade => exact hmade token e hget hfree
    | takenIn htaken =>
        exact htaken.finds.made htaken.after htaken.kept htaken.others hget hfree
  · push Not at hcall
    obtain ⟨n, hbegun, hdeeds⟩ := deeds_perform h hperform
    have hstart : n.tables.pit.get? token = none := by
      rcases hbegun with rfl | ⟨now, _, rfl⟩ <;> exact hfree
    have hgone := hdeeds.preserve (P := fun k => k.tables.pit.get? token = none)
      (fun _ _ hdeed hk => hdeed.stays_gone hcall hk) hstart
    cases hget.symm.trans hgone

end Forwarder

namespace Forwarder.TakesIn

variable {fw fw' : Forwarder} {ingress : FaceEndpoint} {interest : Interest} {now : Timestamp}
  {token : PitToken} {e e' : PitEntry} {r : InRecord}

theorem mem_recordIn (h : TakesIn fw fw' ingress interest now token e e') (hvalid : fw.Valid) :
    r ∈ (e.recordIn ingress interest now).inRecords ↔
      r = PitEntry.inRecordOf ingress interest now ∨ r ∈ e.inRecords ∧ r.face ≠ ingress.face := by
  have hdistinct : e.inFaces.Nodup := by
    cases h.finds with
    | old hget => exact (hvalid.node.wellKept token e hget).distinct.inFaces
    | new _ _ hentry =>
        rw [hentry]
        exact List.nodup_nil
  exact PitEntry.mem_inRecords_recordIn hdistinct

/-- Who waits in an entry after an Interest was taken in is the Interest's peer, or somebody behind
another face who waited before. -/
theorem mem_inRecords (h : TakesIn fw fw' ingress interest now token e e') (hvalid : fw.Valid)
    (hr : r ∈ e'.inRecords) :
    r = PitEntry.inRecordOf ingress interest now ∨ r ∈ e.inRecords ∧ r.face ≠ ingress.face := by
  apply (h.mem_recordIn hvalid).mp
  rcases h.goesOn with ⟨hin, _⟩ | ⟨hin, _⟩
  · exact hin ▸ hr
  · exact List.mem_of_mem_eraseP (hin ▸ hr)

/-- Behind other faces everybody goes on waiting. -/
theorem keeps_others (h : TakesIn fw fw' ingress interest now token e e') (hvalid : fw.Valid)
    (hr : r ∈ e.inRecords) (hother : r.face ≠ ingress.face) : r ∈ e'.inRecords := by
  have hrecorded := (h.mem_recordIn hvalid).mpr (.inr ⟨hr, hother⟩)
  rcases h.goesOn with ⟨hin, _⟩ | ⟨hin, _⟩
  · exact hin ▸ hrecorded
  · rw [hin]
    exact (List.mem_eraseP_of_neg (by simpa using hother)).mpr hrecorded

end Forwarder.TakesIn

/-! ### Runs -/

theorem Step.accepts_of_takesIn {s : Step} {token : PitToken} {peer : FaceEndpoint} {i : Interest}
    {now : Timestamp} {e e' : PitEntry} (hcall : s.operation = .receive now peer (.interest i))
    (h : TakesIn s.before s.after peer (s.before.node.arrival peer i) now token e e') :
    s.Accepts token peer i now :=
  ⟨hcall, h.misses, e', h.after, h.kept ▸ h.same⟩

theorem Step.accepts_of_any {s : Step} {token : PitToken} {peer : FaceEndpoint} {i : Interest}
    {now : Timestamp} (hcall : s.operation = .receive now peer (.interest i))
    (hmissed : s.before.node.counters.storeMisses < s.after.node.counters.storeMisses)
    (hentry : (s.after.node.tables.pit.get? token).any
      (fun e => e.interest.sameSelectors i) = true) : s.Accepts token peer i now :=
  ⟨hcall, hmissed, (Option.any_eq_true _ _).mp hentry⟩

theorem Step.Accepts.not_turnedAway {s : Step} {token : PitToken} {peer : FaceEndpoint}
    {i : Interest} {now : Timestamp} (h : s.Accepts token peer i now)
    (hmisses : s.after.node.counters.storeMisses = s.before.node.counters.storeMisses) : False :=
  absurd h.missed (Nat.not_lt.mpr (Nat.le_of_eq hmisses))

/-- An Interest comes to no other entry than the one that it is taken into. -/
theorem Step.Accepts.token_eq {s : Step} {token own : PitToken} {peer : FaceEndpoint} {i : Interest}
    {now : Timestamp} {e e' : PitEntry} (h : s.Accepts token peer i now)
    (hdistinguished : s.after.node.Distinguished)
    (htaken : TakesIn s.before s.after peer (s.before.node.arrival peer i) now own e e') :
    own = token := by
  obtain ⟨entry, hget, hsame⟩ := h.entry
  have hown : e'.interest.sameSelectors i = true := htaken.kept ▸ htaken.same
  rw [Interest.sameSelectors_comm] at hsame
  exact hdistinguished own token e' entry htaken.after hget
    (Interest.sameSelectors_trans hown hsame)

namespace Run

variable {settings : Settings} {store : ContentStore} {hash : HashFunction} {fw : Forwarder}
  {history : List Step} {s : Step} {token : PitToken} {peer : FaceEndpoint} {i : Interest}
  {now : Timestamp}

/-- The last step of a run takes in what it accepts. -/
theorem takesIn (run : Run (Forwarder.new settings store hash) (s :: history) fw)
    (haccepts : s.Accepts token peer i now) :
    ∃ e e', TakesIn s.before s.after peer (s.before.node.arrival peer i) now token e e' := by
  have hdistinguished := run.distinguished.1
  obtain ⟨hbefore, hperform, rfl⟩ := run.last
  rw [haccepts.call] at hperform
  cases receiveInterest_reception hbefore.valid hperform with
  | turnedAway hmisses _ _ _ => exact (haccepts.not_turnedAway hmisses).elim
  | takenIn htaken => exact ⟨_, _, haccepts.token_eq hdistinguished htaken ▸ htaken⟩

/-- Whoever waits after a step waits with the Interest that came in, or waited before. -/
theorem waitingIn_cases (run : Run (Forwarder.new settings store hash) (s :: history) fw)
    {r : InRecord} (hr : r ∈ fw.node.waitingIn token) :
    (∃ i now, s.Accepts token r.peer i now ∧
      r = PitEntry.inRecordOf r.peer (s.before.node.arrival r.peer i) now) ∨
    r ∈ s.before.node.waitingIn token ∧ ¬ s.AcceptsFrom token r.face := by
  have hdistinguished := run.distinguished.1
  obtain ⟨hbefore, hperform, rfl⟩ := run.last
  by_cases hcall : ∃ now peer i, s.operation = .receive now peer (.interest i)
  · obtain ⟨now, peer, i, hcall⟩ := hcall
    rw [hcall] at hperform
    cases receiveInterest_reception hbefore.valid hperform with
    | turnedAway hmisses _ hwaiting _ =>
        right
        refine ⟨hwaiting token ▸ hr, ?_⟩
        rintro ⟨_, _, _, haccepts, -⟩
        exact haccepts.not_turnedAway hmisses
    | @takenIn own e e' htaken =>
        by_cases hown : own = token
        · subst hown
          rw [Node.waitingIn_of_get? htaken.after] at hr
          rcases htaken.mem_inRecords hbefore.valid hr with rfl | ⟨hold, hface⟩
          · exact .inl ⟨i, now, Step.accepts_of_takesIn hcall htaken, rfl⟩
          · right
            refine ⟨htaken.finds.waitingIn ▸ hold, ?_⟩
            rintro ⟨other, j, _, hlast, hsame⟩
            cases hcall.symm.trans hlast.call
            exact hface hsame.symm
        · right
          refine ⟨Node.waitingIn_congr (htaken.others token (Ne.symm hown)) ▸ hr, ?_⟩
          rintro ⟨other, j, _, hlast, -⟩
          cases hcall.symm.trans hlast.call
          exact hown (hlast.token_eq hdistinguished htaken)
  · push Not at hcall
    right
    refine ⟨waitingIn_perform hbefore.valid hperform hcall token hr, ?_⟩
    rintro ⟨peer, i, now, haccepts, -⟩
    exact hcall now peer i haccepts.call

/-- When an Interest comes in, no other Interest is sent. It goes to the face of its tag or, without
one, to next hops of the entry that it waits in. -/
theorem sent_on_arrival (run : Run (Forwarder.new settings store hash) (s :: history) fw)
    (hcall : s.operation = .receive now peer (.interest i)) {t : Transmission} (ht : t ∈ s.sent)
    {j : Interest} (hpacket : t.packet = .interest j) :
    j = (s.before.node.arrival peer i).untagged ∧
      s.before.node.faces.contains t.peer.face = true ∧
      ∃ token e, fw.node.tables.pit.get? token = some e ∧ e.interest.sameSelectors i = true ∧
        (i.nextHopFace = some t.peer.face ∨ i.nextHopFace = none ∧
          ∃ hop ∈ s.before.node.route e.interest, hop.face = t.peer.face) := by
  obtain ⟨hbefore, hperform, rfl⟩ := run.last
  rw [hcall] at hperform
  have hanswer (h : t.packet.isAnswer = true) : False := by
    rw [hpacket] at h
    cases h
  cases receiveInterest_reception hbefore.valid hperform with
  | turnedAway _ hsent _ _ => exact (hanswer (s.forall_sent hsent t ht)).elim
  | @takenIn token e e' htaken =>
      rcases htaken.goesOn with ⟨_, hsent⟩ | ⟨_, reason, isTaken, hsent⟩
      · obtain ⟨hcopy, hknown, hallowed⟩ := s.forall_sent hsent t ht
        exact ⟨Packet.interest.inj (hpacket.symm.trans hcopy), hknown, token, e', htaken.after,
          htaken.kept ▸ htaken.same, htaken.kept ▸ hallowed⟩
      · have hback : Extends s.before.node.journal.sent s.after.node.journal.sent
            fun t => t.packet.isAnswer = true := .one hsent rfl
        exact (hanswer (s.forall_sent hback t ht)).elim

/-- Whoever waits waits with an Interest that came in. -/
theorem cameIn (run : Run (Forwarder.new settings store hash) history fw) {r : InRecord}
    (hr : r ∈ fw.node.waitingIn token) : ∃ arrival, CameIn history token r arrival := by
  induction history generalizing fw with
  | nil =>
      cases run
      cases hr
  | cons s history ih =>
      obtain ⟨hbefore, _, _⟩ := run.last
      rcases run.waitingIn_cases hr with ⟨i, now, haccepts, hrecord⟩ | ⟨hwaited, hnone⟩
      · exact ⟨s, [], history, i, now, rfl, haccepts, hrecord, by simp⟩
      · obtain ⟨arrival, later, earlier, i, now, rfl, haccepts, hrecord, hlater⟩ :=
          ih hbefore hwaited
        refine ⟨arrival, s :: later, earlier, i, now, rfl, haccepts, hrecord, ?_⟩
        exact List.forall_mem_cons.mpr ⟨hnone, hlater⟩

/-- Every entry was made for an Interest that came in, and has been there since. -/
theorem opened (run : Run (Forwarder.new settings store hash) history fw) {e : PitEntry}
    (hget : fw.node.tables.pit.get? token = some e) :
    ∃ opening peer i, MadeFor history token opening peer i ∧
      e.interest = (opening.before.node.arrival peer i).untagged := by
  induction history generalizing fw e with
  | nil =>
      cases run
      cases hget
  | cons s history ih =>
      obtain ⟨hbefore, hperform, rfl⟩ := run.last
      cases hold : s.before.node.tables.pit.get? token with
      | none =>
          obtain ⟨now, peer, i, hcall, hmade⟩ := made_perform hbefore.valid hperform hget hold
          exact ⟨s, peer, i, ⟨[], history, rfl, ⟨⟨now, hcall⟩, hold, e, hget, hmade⟩, by simp⟩,
            hmade⟩
      | some old =>
          obtain ⟨opening, peer, i, ⟨later, earlier, rfl, hopens, hholds⟩, hmade⟩ := ih hbefore hold
          have hsame := interest_perform hbefore.valid hperform hold hget
          refine ⟨opening, peer, i, ⟨s :: later, earlier, rfl, hopens, ?_⟩, hsame.trans hmade⟩
          exact List.forall_mem_cons.mpr ⟨⟨e, hget⟩, hholds⟩

end Run

end NamedData
