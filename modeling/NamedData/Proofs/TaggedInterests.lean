import NamedData.Proofs.Arrivals
import NamedData.Proofs.NewNextHops

/-!
Interests that name the face they are for. Such an Interest is sent to that face when it comes in,
and nowhere else. But it waits like any other, and when its entry is offered a next hop that has
appeared, a copy of it goes there whatever face it names. No other step sends copies.
-/

namespace NamedData

open Forwarder

/-- In the step no Interest comes in, and a copy of the one that somebody waits with is sent. -/
structure Step.Resends (s : Step) (token : PitToken) (r : InRecord) (t : Transmission) : Prop where
  call : ∀ now ingress i, s.operation ≠ .receive now ingress (.interest i)
  waits : r ∈ s.before.node.waitingIn token
  sent : t ∈ s.sent
  packet : t.packet = .interest r.interest.untagged

/-- The step comes after the earlier ones. What it sends of an Interest with a tag, be it the one
that comes in or one that somebody waits with, goes to the face of the tag, and this face was there
when the Interest came in. -/
structure Step.FollowsTags (s : Step) (earlier : List Step) : Prop where
  arriving : ∀ now ingress i hop t j, s.operation = .receive now ingress (.interest i) →
    i.nextHopFace = some hop → t ∈ s.sent → t.packet = .interest j →
      t.peer.face = hop ∧ s.before.node.faces.contains hop = true
  waiting : ∀ token r t arrival hop, s.Resends token r t → CameIn earlier token r arrival →
    r.interest.nextHopFace = some hop →
      t.peer.face = hop ∧ arrival.before.node.faces.contains hop = true

/-- The step comes after the earlier ones. In it, a next hop that appears is offered an Interest that
is tagged with another face, or with one that was not there when the Interest came in. -/
def Step.Strays (s : Step) (earlier : List Step) : Prop :=
  ∃ token r face arrival hop, s.Offers token r face ∧ CameIn earlier token r arrival ∧
    r.interest.nextHopFace = some hop ∧
      (face ≠ hop ∨ arrival.before.node.faces.contains hop = false)

/-- Every Interest that the step sends is the one that comes in, or the one that somebody has waited
with since it came in. -/
def Step.SendsWhatCameIn (s : Step) (earlier : List Step) : Prop :=
  ∀ t ∈ s.sent, ∀ j, t.packet = .interest j →
    (∃ now ingress i, s.operation = .receive now ingress (.interest i) ∧
      j = (s.before.node.arrival ingress i).untagged) ∨
    ∃ token r arrival, s.Resends token r t ∧ CameIn earlier token r arrival

variable {settings : Settings} {store : ContentStore} {hash : HashFunction} {fw : Forwarder}
  {history earlier : List Step} {s : Step}

/-! ### Calls that send Interests -/

theorem Operation.addRoute_of_sendsOn {operation : Operation} (h : operation.sendsOn = true)
    (hother : ∀ now ingress i, operation ≠ .receive now ingress (.interest i)) :
    ∃ now stem face cost, operation = .addRoute now stem face cost := by
  cases operation with
  | addRoute now stem face cost => exact ⟨now, stem, face, cost, rfl⟩
  | receive now ingress packet =>
      cases packet with
      | interest i => exact (hother now ingress i rfl).elim
      | data d => cases h
      | nack k => cases h
  | _ => cases h

theorem Node.Sends.isAnswer {operation : Operation} {n : Node} {t : Transmission}
    (h : n.Sends operation t) (hsends : operation.sendsOn = false) : t.packet.isAnswer = true := by
  cases h with
  | data hpacket _ =>
      rw [hpacket]
      rfl
  | loop _ hcall _ _ _ _ =>
      rw [hcall] at hsends
      cases hsends
  | ofEntry _ hsends' =>
      cases hsends' with
      | interest _ hcall _ _ _ =>
          rw [hcall] at hsends
          cases hsends
      | offer hcall _ _ _ _ =>
          rw [hcall] at hsends
          cases hsends
      | nack _ _ hpacket _ =>
          rw [hpacket]
          rfl
      | data hpacket _ =>
          rw [hpacket]
          rfl

/-- Calls that may not send Interests on send Data and Nacks only. -/
theorem Forwarder.answers_perform {fw fw' : Forwarder} {operation : Operation} (h : fw.Valid)
    (hperform : fw.perform operation = .ok fw') (hsends : operation.sendsOn = false) :
    Extends fw.node.journal.sent fw'.node.journal.sent fun t => t.packet.isAnswer = true := by
  obtain ⟨n, hbegun, hdeeds⟩ := deeds_perform h hperform
  have hstart : n.journal.sent = fw.node.journal.sent := by
    rcases hbegun with rfl | ⟨now, _, rfl⟩ <;> rfl
  rw [← hstart]
  exact hdeeds.preserve
    (P := fun k => Extends n.journal.sent k.journal.sent fun t => t.packet.isAnswer = true)
    (fun _ _ hdeed hk => hk.trans (hdeed.sends.mono fun _ ht => ht.isAnswer hsends)) (.of_eq rfl)

/-! ### Which record a copy is of -/

/-- Two who wait with the same Interest but for its tags are one. -/
theorem Run.record_unique (run : Run (Forwarder.new settings store hash) history fw)
    {u v : PitToken} {e e' : PitEntry} {r r' : InRecord}
    (hget : fw.node.tables.pit.get? u = some e) (hr : r ∈ e.inRecords)
    (hget' : fw.node.tables.pit.get? v = some e') (hr' : r' ∈ e'.inRecords)
    (hsame : r.interest.untagged = r'.interest.untagged) : u = v ∧ r = r' := by
  obtain ⟨hdistinguished, hattributed⟩ := run.distinguished
  have he := hattributed u e hget
  have he' := hattributed v e' hget'
  have hasks : r.interest.untagged.sameSelectors r'.interest.untagged = true := by
    rw [hsame, Interest.sameSelectors_iff]
    exact ⟨rfl, rfl, rfl⟩
  have hboth : e.interest.sameSelectors e'.interest = true := by
    have hback := he'.same r' hr'
    rw [Interest.sameSelectors_comm] at hback
    exact Interest.sameSelectors_trans (Interest.sameSelectors_trans (he.same r hr) hasks) hback
  have htoken := hdistinguished u v e e' hget hget' hboth
  subst htoken
  have hentry : e' = e := Option.some.inj (hget'.symm.trans hget)
  subst hentry
  have hnonce : r.nonce = r'.nonce := by
    have huntagged := congrArg Interest.nonce hsame
    exact (he.nonce r hr).trans (Eq.trans huntagged (he.nonce r' hr').symm)
  have hface : r.face = r'.face := he.sole r' hr' r hr hnonce
  have hdistinct := (run.valid.node.wellKept u e' hget).distinct
  exact ⟨rfl, List.inj_on_of_nodup_map hdistinct.inFaces hr hr' hface⟩

/-! ### Steps -/

/-- A step in which no Interest comes in sends copies of Interests that it offers to a next hop that
appears, and no other Interest. -/
theorem Run.sent_offered (run : Run (Forwarder.new settings store hash) (s :: earlier) fw)
    (hother : ∀ now ingress i, s.operation ≠ .receive now ingress (.interest i)) {t : Transmission}
    (ht : t ∈ s.sent) {j : Interest} (hpacket : t.packet = .interest j) :
    ∃ token r, s.Offers token r t.peer.face ∧ j = r.interest.untagged := by
  obtain ⟨hbefore, hperform, rfl⟩ := run.last
  obtain ⟨before, operation, after⟩ := s
  cases hsends : operation.sendsOn with
  | false =>
      have hanswer := Step.forall_sent (Forwarder.answers_perform hbefore.valid hperform hsends) t ht
      rw [hpacket] at hanswer
      cases hanswer
  | true =>
      obtain ⟨now, stem, face, cost, rfl⟩ := Operation.addRoute_of_sendsOn hsends hother
      obtain ⟨token, r, hoffers, hface, hcopy⟩ :=
        (Forwarder.sent_addRoute hbefore.valid.builtIn hperform).1 t ht
      exact ⟨token, r, hface ▸ hoffers, Packet.interest.inj (hpacket.symm.trans hcopy)⟩

/-- What a step offers to a next hop that appears is sent there. -/
theorem Run.offered_sent (run : Run (Forwarder.new settings store hash) (s :: earlier) fw)
    {token : PitToken} {r : InRecord} {face : FaceId} (hoffers : s.Offers token r face) :
    ∃ t, s.Resends token r t ∧ t.peer.face = face := by
  obtain ⟨hbefore, hperform, rfl⟩ := run.last
  obtain ⟨before, operation, after⟩ := s
  obtain ⟨e, hget, hr⟩ := hoffers.waits
  have hwaits : r ∈ before.node.waitingIn token := Node.mem_waitingIn.mpr ⟨e, hget, hr⟩
  obtain ⟨now, stem, cost, hcall, _⟩ := id hoffers
  cases hcall
  obtain ⟨t, ht, hface, hcopy⟩ :=
    (Forwarder.sent_addRoute hbefore.valid.builtIn hperform).2 token r hoffers
  exact ⟨t, ⟨fun _ _ _ h => (by cases h), hwaits, ht, hcopy⟩, hface⟩

theorem Run.sends_what_came_in
    (run : Run (Forwarder.new settings store hash) (s :: earlier) fw) :
    s.SendsWhatCameIn earlier := by
  intro t ht j hpacket
  by_cases hcall : ∃ now ingress i, s.operation = .receive now ingress (.interest i)
  · obtain ⟨now, ingress, i, hcall⟩ := hcall
    exact .inl ⟨now, ingress, i, hcall, (run.sent_on_arrival hcall ht hpacket).1⟩
  · push Not at hcall
    right
    obtain ⟨token, r, hoffers, rfl⟩ := run.sent_offered hcall ht hpacket
    obtain ⟨e, hget, hr⟩ := hoffers.waits
    have hwaits : r ∈ s.before.node.waitingIn token := Node.mem_waitingIn.mpr ⟨e, hget, hr⟩
    obtain ⟨arrival, hcame⟩ := run.last.1.cameIn hwaits
    exact ⟨token, r, arrival, ⟨hcall, hwaits, ht, hpacket⟩, hcame⟩

/-- A step goes by the tags exactly if it offers no Interest to a next hop against its tag. -/
theorem Run.followsTags_iff (run : Run (Forwarder.new settings store hash) (s :: earlier) fw) :
    s.FollowsTags earlier ↔ ¬ s.Strays earlier := by
  constructor
  · rintro hfollows ⟨token, r, face, arrival, hop, hoffers, hcame, htag, hagainst⟩
    obtain ⟨t, hresends, rfl⟩ := run.offered_sent hoffers
    obtain ⟨hsame, hknown⟩ := hfollows.waiting token r t arrival hop hresends hcame htag
    rcases hagainst with hother | hunknown
    · exact hother hsame
    · cases hunknown.symm.trans hknown
  · intro hnever
    constructor
    · intro now ingress i hop t j hcall htag ht hpacket
      obtain ⟨_, hknown, _, _, _, _, htagged | ⟨hnone, _⟩⟩ := run.sent_on_arrival hcall ht hpacket
      · have hsame : hop = t.peer.face := Option.some.inj (htag.symm.trans htagged)
        exact ⟨hsame.symm, hsame ▸ hknown⟩
      · cases htag.symm.trans hnone
    · intro token r t arrival hop hresends hcame htag
      obtain ⟨own, r', hoffers, hcopy⟩ :=
        run.sent_offered hresends.call hresends.sent hresends.packet
      obtain ⟨e, hget, hr⟩ := Node.mem_waitingIn.mp hresends.waits
      obtain ⟨e', hget', hr'⟩ := hoffers.waits
      obtain ⟨rfl, rfl⟩ := run.last.1.record_unique hget hr hget' hr' hcopy
      by_contra hstrays
      refine hnever ⟨token, r, t.peer.face, arrival, hop, hoffers, hcame, htag, ?_⟩
      rwa [not_and_or, Bool.not_eq_true] at hstrays

/-- Every Interest that a step of a run sends is the one that comes in, or a copy of the one that
somebody has waited with since it came in. What is sent of an Interest with a tag goes to the face of
the tag, which was there when the Interest came in, exactly as long as no next hop that appears is
offered such an Interest against its tag. -/
theorem tags_followed_iff_never_offered
    (run : Run (Forwarder.new settings store hash) history fw) :
    (∀ later s earlier, history = later ++ s :: earlier →
      s.SendsWhatCameIn earlier ∧ (s.FollowsTags earlier ↔ ¬ s.Strays earlier)) ∧
    ((∀ later s earlier, history = later ++ s :: earlier → s.FollowsTags earlier) ↔
      ∀ later s earlier, history = later ++ s :: earlier → ¬ s.Strays earlier) := by
  have hstep (later : List Step) (s : Step) (earlier : List Step)
      (hhistory : history = later ++ s :: earlier) :
      s.SendsWhatCameIn earlier ∧ (s.FollowsTags earlier ↔ ¬ s.Strays earlier) := by
    subst hhistory
    obtain ⟨_, hrun⟩ := run.suffix
    exact ⟨hrun.sends_what_came_in, hrun.followsTags_iff⟩
  refine ⟨hstep, ?_⟩
  constructor
  · intro hfollows later s earlier hhistory
    exact (hstep later s earlier hhistory).2.mp (hfollows later s earlier hhistory)
  · intro hnever later s earlier hhistory
    exact (hstep later s earlier hhistory).2.mpr (hnever later s earlier hhistory)

/-! ### A tagged Interest that a new next hop is offered -/

namespace Sample

/-- Three faces, and multicast for the name. -/
def multicastFaces : List Operation :=
  [.setStrategy name 1, .addFace (fun _ => true) .offHost .pointToPoint,
    .addFace (fun _ => true) .offHost .pointToPoint,
    .addFace (fun _ => true) .offHost .pointToPoint]

def tagged : Interest where
  name := name
  nonce := ⟨1⟩
  nextHopFace := some ⟨257⟩

def askTagged : Operation :=
  .receive ⟨1⟩ ⟨⟨256⟩, 0⟩ (.interest tagged)

def addThird : Operation :=
  .addRoute ⟨2⟩ name ⟨258⟩ 0

def taggedArrives : Step :=
  ⟨reached start multicastFaces, askTagged, reached start (askTagged :: multicastFaces)⟩

def thirdAppears : Step :=
  ⟨taggedArrives.after, addThird, reached start (addThird :: askTagged :: multicastFaces)⟩

theorem run_thirdAppears : Run start (thirdAppears :: taggedArrives :: historyOf start multicastFaces)
    thirdAppears.after := by
  have hrun := Run.reached start (addThird :: askTagged :: multicastFaces) (by decide +kernel)
  rwa [historyOf_cons _ _ _ (by decide +kernel), historyOf_cons _ _ _ (by decide +kernel)] at hrun

/-- The record of the first face. -/
def taggedRecord : InRecord :=
  PitEntry.inRecordOf ⟨⟨256⟩, 0⟩ (taggedArrives.before.node.arrival ⟨⟨256⟩, 0⟩ tagged) ⟨1⟩

theorem cameIn_taggedRecord (earlier : List Step) :
    CameIn (taggedArrives :: earlier) ⟨0, 0⟩ taggedRecord taggedArrives :=
  ⟨[], earlier, tagged, ⟨1⟩, rfl, Step.accepts_of_any rfl (by decide +kernel) (by decide +kernel),
    rfl, by simp⟩

/-- The copy that goes to the third face. -/
theorem resends_thirdAppears :
    ∃ t, thirdAppears.Resends ⟨0, 0⟩ taggedRecord t ∧ t.peer.face = ⟨258⟩ := by
  have hsent : thirdAppears.sent.any (fun t => t.packet = .interest taggedRecord.interest.untagged ∧
      t.peer.face = ⟨258⟩) = true := by decide +kernel
  obtain ⟨t, ht, hcopy⟩ := List.any_eq_true.mp hsent
  obtain ⟨hpacket, hface⟩ := of_decide_eq_true hcopy
  exact ⟨t, ⟨fun _ _ _ h => (by cases h), by decide +kernel, ht, hpacket⟩, hface⟩

theorem not_followsTags_thirdAppears (earlier : List Step) :
    ¬ thirdAppears.FollowsTags (taggedArrives :: earlier) := by
  intro hfollows
  obtain ⟨t, hresends, hface⟩ := resends_thirdAppears
  obtain ⟨hsame, _⟩ :=
    hfollows.waiting _ _ t _ ⟨257⟩ hresends (cameIn_taggedRecord earlier) rfl
  cases hface.symm.trans hsame

end Sample

/-- An Interest with the tag of the second face is sent to the third. -/
theorem tagged_interest_strays : ∃ history fw, Run Sample.start history fw ∧
    (∃ t ∈ fw.node.journal.sent, t.packet = .interest Sample.tagged.untagged ∧
      t.peer.face = ⟨258⟩) ∧
    ¬ ∀ later s earlier, history = later ++ s :: earlier → s.FollowsTags earlier := by
  have hsent : Sample.thirdAppears.after.node.journal.sent.any (fun t =>
      t.packet = .interest Sample.tagged.untagged ∧ t.peer.face = ⟨258⟩) = true := by
    decide +kernel
  refine ⟨_, _, Sample.run_thirdAppears, by simpa using hsent, ?_⟩
  intro hfollows
  exact Sample.not_followsTags_thirdAppears _ (hfollows [] _ _ rfl)

/-- The run in which a next hop appears for the tagged Interest has a step that offers it. -/
theorem tags_followed_iff_never_offered_third : ∃ s earlier fw, Run Sample.start (s :: earlier) fw ∧
    ¬ s.FollowsTags earlier ∧ s.Strays earlier := by
  obtain ⟨hsteps, -⟩ := tags_followed_iff_never_offered Sample.run_thirdAppears
  have hstep := (hsteps [] _ _ rfl).2
  have hagainst := Sample.not_followsTags_thirdAppears (historyOf Sample.start Sample.multicastFaces)
  exact ⟨_, _, _, Sample.run_thirdAppears, hagainst, not_not.mp (mt hstep.mpr hagainst)⟩

end NamedData
