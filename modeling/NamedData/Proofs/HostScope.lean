import NamedData.Proofs.Conduct
import NamedData.Proofs.Sendings

/-!
Names under `/localhost`. Whoever waits in an entry asked for the entry's name, and is on the host
if that name is; so Data, Nacks and Interests that strategies send stay on the host. An Interest
with the tag of a face is sent there unchecked, and that is the only way off the host.
-/

namespace NamedData

/-- The name that a packet asks for, carries or hands back. -/
def Packet.name : Packet → Name
  | .interest i => i.name
  | .data d => d.name
  | .nack k => k.interest.name

/-- The packet is under `/localhost`, and its face leads off the host. -/
def Node.LeavesHost (n : Node) (t : Transmission) : Prop :=
  t.packet.name.isLocalhost = true ∧
    ∃ info, n.faces.info? t.peer.face = some info ∧ info.isLocal = false

/-- An Interest under `/localhost` comes in with the tag of a face. -/
def Operation.TagsLocalhost (operation : Operation) (hop : FaceId) : Prop :=
  ∃ now ingress i, operation = .receive now ingress (.interest i) ∧ i.nextHopFace = some hop ∧
    i.name.isLocalhost = true

/-- In the step, an Interest under `/localhost` with the tag of a face off the host is neither
dropped nor answered from the content store. -/
def Step.TagsOffHost (s : Step) (hop : FaceId) : Prop :=
  s.operation.TagsLocalhost hop ∧
    (∃ info, s.before.node.faces.info? hop = some info ∧ info.isLocal = false) ∧
    s.before.node.counters.storeMisses < s.after.node.counters.storeMisses

/-- Whoever waits in the entry asked for its name, and is on the host if that name is. -/
def PitEntry.Homebound (info? : FaceId → Option FaceInfo) (e : PitEntry) : Prop :=
  ∀ r ∈ e.inRecords, r.interest.name = e.name ∧
    (e.name.isLocalhost = true → ∀ info, info? r.face = some info → info.isLocal = true)

/-- The packet goes to a face that there is, and stays on the host if it must or is an Interest with
the tag of its face. -/
def Node.Allows (n : Node) (operation : Operation) (t : Transmission) : Prop :=
  ∃ info, n.faces.info? t.peer.face = some info ∧
    (t.packet.name.isLocalhost = true → info.isLocal = false →
      operation.TagsLocalhost t.peer.face ∧ ∃ i, t.packet = .interest i)

/-! ### One deed -/

namespace PitEntry.Homebound

variable {info? info?' : FaceId → Option FaceInfo} {e e' : PitEntry}

theorem of_sublist (h : e.Homebound info?) (hin : e'.inRecords.Sublist e.inRecords)
    (hinterest : e'.interest = e.interest) : e'.Homebound info? := by
  intro r hr
  rw [name, hinterest]
  exact h r (hin.subset hr)

theorem recordIn (h : e.Homebound info?) (hnodup : e.inFaces.Nodup) {ingress : FaceEndpoint}
    {i : Interest} {info : FaceInfo} {hint : List Name} (hinfo : info? ingress.face = some info)
    (hscope : (!info.isLocal && i.name.isLocalhost) = false)
    (hsame : e.interest.sameSelectors i = true) (now : Timestamp) :
    (e.recordIn ingress (i.arrived ingress.face hint) now).Homebound info? := by
  have hname : i.name = e.name := by
    simp only [Interest.sameSelectors, Bool.and_eq_true, decide_eq_true_eq] at hsame
    exact hsame.1.1.symm
  intro r hr
  rcases (mem_inRecords_recordIn hnodup).mp hr with rfl | ⟨hold, _⟩
  · refine ⟨hname, ?_⟩
    intro hlocalhost info' hinfo'
    have hsame : info = info' := Option.some.inj (hinfo.symm.trans hinfo')
    have hlocal : (!info.isLocal && e.name.isLocalhost) = false := hname ▸ hscope
    have hsubject : e.name.isLocalhost = true := hlocalhost
    rw [hsubject, Bool.and_true, Bool.not_eq_false', hsame] at hlocal
    exact hlocal
  · exact h r hold

end PitEntry.Homebound

open Forwarder

namespace Focus

variable {f f' : Focus} {hash : HashFunction} {operation : Operation}

theorem Deed.homebound (hdeed : Deed hash operation f f') (hf : f.Sound)
    (h : f.entry.Homebound f.node.faces.info?) : f'.entry.Homebound f'.node.faces.info? := by
  rw [hdeed.keeps.info?]
  rcases hdeed.inRecords with hin | ⟨now, ingress, i, info, hint, _, hinfo, hscope, hsame, _, rfl⟩
  · exact h.of_sublist hin hdeed.keeps.interest
  · exact h.recordIn hf.distinct.inFaces hinfo hscope hsame f.node.now

end Focus

/-! ### Every operation -/

/-- Whoever waits in any entry asked for its name, and is on the host if that name is. -/
def Node.Homebound (n : Node) : Prop :=
  ∀ token e, n.tables.pit.get? token = some e → e.Homebound n.faces.info?

namespace Node

variable {n m : Node} {hash : HashFunction} {operation : Operation}

theorem Homebound.congr (h : n.Homebound) (hpit : m.tables.pit = n.tables.pit)
    (hinfo : ∀ face info, m.faces.info? face = some info → n.faces.info? face = some info) :
    m.Homebound := by
  intro token e hget r hr
  rw [hpit] at hget
  obtain ⟨hname, hlocal⟩ := h token e hget r hr
  exact ⟨hname, fun hlocalhost info hface => hlocal hlocalhost info (hinfo _ info hface)⟩

/-- Data only goes where it is let out. -/
theorem allows_data {t : Transmission} {data : Data} (hpacket : t.packet = .data data)
    (hlets : n.lets data t.peer.face = true) : n.Allows operation t := by
  rw [lets] at hlets
  obtain ⟨info, hinfo, hlawful⟩ := (Option.any_eq_true _ _).mp hlets
  refine ⟨info, hinfo, ?_⟩
  intro hlocalhost hfar
  have hname : data.name.isLocalhost = true := by
    rw [hpacket] at hlocalhost
    exact hlocalhost
  simp [hname, hfar] at hlawful

/-- What an eligible face is sent stays on the host if it must. -/
theorem allows_eligible {t : Transmission} {source info : FaceInfo} {interest : Interest}
    (hpacket : t.packet = .interest interest.untagged)
    (hinfo : n.faces.info? t.peer.face = some info)
    (h : Scope.isEligible source interest info = true) : n.Allows operation t := by
  refine ⟨info, hinfo, ?_⟩
  intro hlocalhost hfar
  have hname : interest.name.isLocalhost = true := by
    rw [hpacket] at hlocalhost
    exact hlocalhost
  simp [Scope.isEligible, Scope.violates, hname, hfar] at h

theorem Sends.allows {t : Transmission} (h : n.Sends operation t) (hn : n.Homebound) :
    n.Allows operation t := by
  cases h with
  | data hpacket hlets => exact allows_data hpacket hlets
  | @loop _ ingress i info hint _ _ hpacket hinfo hscope =>
      refine ⟨info, hinfo, ?_⟩
      intro hlocalhost hfar
      have hname : i.name.isLocalhost = true := by
        rw [hpacket] at hlocalhost
        exact hlocalhost
      simp [hname, hfar] at hscope
  | @ofEntry token e hget hsends =>
      cases hsends with
      | @interest _ ingress i info hint hcall hpacket hinfo hallowed =>
          rcases hallowed with htag | ⟨source, heligible⟩
          · refine ⟨info, hinfo, ?_⟩
            intro hlocalhost _
            rw [hpacket] at hlocalhost
            exact ⟨⟨_, _, i, hcall, htag, hlocalhost⟩, _, hpacket⟩
          · exact allows_eligible hpacket hinfo heligible
      | offer _ _ hpacket hinfo hallowed =>
          obtain ⟨source, heligible⟩ := hallowed
          exact allows_eligible hpacket hinfo heligible
      | @nack r _ info hwaits hface hpacket hinfo =>
          refine ⟨info, hinfo, ?_⟩
          intro hlocalhost hfar
          obtain ⟨hname, hlocal⟩ := hn token e hget r hwaits
          have hrecord : r.interest.name.isLocalhost = true := by
            rw [hpacket] at hlocalhost
            exact hlocalhost
          have hnear := hlocal (hname ▸ hrecord) info (hface ▸ hinfo)
          rw [hfar] at hnear
          cases hnear
      | data hpacket hlets => exact allows_data hpacket hlets

/-- What is allowed where there are fewer faces is allowed where there are more. -/
theorem Allows.of_info? {t : Transmission} (h : m.Allows operation t)
    (hinfo : ∀ face info, m.faces.info? face = some info → n.faces.info? face = some info) :
    n.Allows operation t := by
  obtain ⟨info, hknown, hallowed⟩ := h
  exact ⟨info, hinfo _ info hknown, hallowed⟩

theorem Deed.homebound (hdeed : Deed hash operation n m) (h : n.Homebound) : m.Homebound := by
  cases hdeed with
  | aside halike hinfo => exact h.congr halike.pit fun _ _ => by rw [hinfo]; exact id
  | addFace _ halike hknown hfaces =>
      intro token e hget r hr
      rw [halike.pit] at hget
      have hface : n.faces.contains r.face = true :=
        (hknown token e hget).inFaces _ (PitEntry.mem_inFaces.mpr ⟨r, hr, rfl⟩)
      rw [hfaces _ hface]
      exact h token e hget r hr
  | dropFace halike hfaces => exact h.congr halike.pit hfaces
  | @openEntry _ _ ingress i token tables hint _ _ hinsert =>
      intro u e hget r hr
      rw [Arena.get?_insert hinsert] at hget
      split at hget
      · cases hget
        cases hr
      · exact h u e hget r hr
  | @tellLoop _ _ ingress i info hint _ _ _ =>
      have hmoved := unmoved_tellLoop ingress info (i.arrived ingress.face hint) n
      exact h.congr (congrArg Tables.pit hmoved.tables) fun _ _ => by rw [hmoved.info?]; exact id
  | @sendData _ _ ingress data egress _ =>
      have hmoved := n.unmoved_sendData egress (data.arrived ingress.face)
      exact h.congr (congrArg Tables.pit hmoved.tables) fun _ _ => by rw [hmoved.info?]; exact id
  | @work f f' hsound hdeed =>
      have hkeeps := hdeed.keeps
      obtain ⟨hown, hothers⟩ := (Focus.forall_release_iff hsound.live).mp h
      refine (Focus.forall_release_iff (hkeeps.live hsound.live)).mpr
        ⟨hdeed.homebound hsound hown, ?_⟩
      intro token e hne hget
      rw [hkeeps.tables] at hget
      have hinfo : f'.release.faces.info? = f.release.faces.info? := hkeeps.info?
      rw [hinfo]
      exact hothers token e (hkeeps.token ▸ hne) hget
  | @finish k _ timer rest e _ _ hget _ _ =>
      have hended := ended_ending hget
      obtain ⟨old, herase⟩ := hended.tables
      intro u e' hget'
      have hkept : (k.ending timer.entry e).tables.pit.get? u = some e' := hget'
      rw [Tables.get?_of_erase herase] at hkept
      have hinfo : (rearm rest (k.ending timer.entry e)).faces.info? = k.faces.info? := hended.info?
      rw [hinfo]
      split at hkept
      · cases hkept
      · exact h u e' hkept

/-- A call that reads the clock brings no face. -/
theorem Deed.info?_of_timed (hdeed : Deed hash operation n m) {now : Timestamp}
    (htimed : operation.reading? = some now) {face : FaceId} {info : FaceInfo}
    (hinfo : m.faces.info? face = some info) : n.faces.info? face = some info := by
  cases hdeed with
  | aside _ hsame => rwa [hsame] at hinfo
  | addFace hcall _ _ _ =>
      rw [htimed] at hcall
      cases hcall
  | dropFace _ hfaces => exact hfaces face info hinfo
  | openEntry => exact hinfo
  | @tellLoop _ _ ingress i told hint _ _ _ =>
      rwa [(unmoved_tellLoop ingress told (i.arrived ingress.face hint) n).info?] at hinfo
  | @sendData _ _ ingress data egress _ =>
      rwa [(n.unmoved_sendData egress (data.arrived ingress.face)).info?] at hinfo
  | work _ hdeed =>
      have hsame := hdeed.keeps.info?
      exact hsame ▸ hinfo
  | finish _ _ hget _ _ =>
      have hsame := (ended_ending hget).info?
      exact hsame ▸ hinfo

theorem Deeds.homebound (h : Deeds hash operation n m) (hn : n.Homebound) : m.Homebound :=
  h.preserve (fun _ _ hdeed => hdeed.homebound) hn

/-- Deeds send nothing off the host that must stay there, but Interests to the faces of their
tags. -/
theorem Deeds.sendsAllowed (h : Deeds hash operation n m) (hn : n.Homebound) {now : Timestamp}
    (htimed : operation.reading? = some now) :
    Extends n.journal.sent m.journal.sent (n.Allows operation) := by
  have hend := h.preserve
    (P := fun k => k.Homebound ∧ Extends n.journal.sent k.journal.sent (n.Allows operation) ∧
      ∀ face info, k.faces.info? face = some info → n.faces.info? face = some info)
    (fun k k' hdeed hk => by
      obtain ⟨hhome, hsends, hinfo⟩ := hk
      have hnew := hdeed.sends.mono fun t ht => (ht.allows hhome).of_info? hinfo
      exact ⟨hdeed.homebound hhome, hsends.trans hnew,
        fun face info hknown => hinfo face info (hdeed.info?_of_timed htimed hknown)⟩)
    ⟨hn, .of_eq rfl, fun _ _ => id⟩
  exact hend.2.1

end Node

namespace Forwarder

variable {fw fw' : Forwarder} {operation : Operation}

theorem homebound_perform (h : fw.Valid) (hhome : fw.node.Homebound)
    (hperform : fw.perform operation = .ok fw') : fw'.node.Homebound := by
  obtain ⟨n, hbegun, hdeeds⟩ := deeds_perform h hperform
  rcases hbegun with rfl | ⟨now, _, rfl⟩
  · exact hdeeds.homebound hhome
  · exact hdeeds.homebound hhome

theorem sendsAllowed_perform (h : fw.Valid) (hhome : fw.node.Homebound)
    (hperform : fw.perform operation = .ok fw') :
    Extends fw.node.journal.sent fw'.node.journal.sent (fw.node.Allows operation) := by
  cases htimed : operation.reading? with
  | none => exact .of_eq (idle_of_untimed hperform htimed).sent
  | some now =>
      obtain ⟨n, hbegun, hdeeds⟩ := deeds_perform h hperform
      rcases hbegun with rfl | ⟨now, _, rfl⟩
      · exact hdeeds.sendsAllowed hhome htimed
      · exact hdeeds.sendsAllowed hhome htimed

theorem sent_followTag {f : Focus} {hop : FaceId} {info : FaceInfo}
    (hinfo : f.node.faces.info? hop = some info) (interest : Interest) :
    ∃ isTaken, (followTag interest hop f).node.journal.sent = f.node.journal.sent ++
      [Transmission.mk { face := hop } (.interest interest.untagged) isTaken] := by
  simp only [followTag, FaceTable.contains_of_info? hinfo, ↓reduceIte]
  exact Focus.sent_sendInterest (f := f.say (.nextHopTag interest.name hop true)) hinfo interest

/-- An Interest with the tag of a face is sent there and nowhere else, unless it is dropped or
answered from the content store; then no Interest is sent. -/
theorem receiveInterest_tagged (hbuiltIn : fw.BuiltInOnly) {now : Timestamp}
    {ingress : FaceEndpoint} {i : Interest} {hop : FaceId} {info : FaceInfo}
    (htag : i.nextHopFace = some hop) (hinfo : fw.node.faces.info? hop = some info)
    (hreceive : fw.receiveInterest now ingress i = .ok fw') :
    (fw'.node.counters.storeMisses = fw.node.counters.storeMisses ∧
      Extends fw.node.journal.sent fw'.node.journal.sent fun t => t.packet.isAnswer = true) ∨
    (fw.node.counters.storeMisses < fw'.node.counters.storeMisses ∧
      ∃ t : Transmission, fw'.node.journal.sent = fw.node.journal.sent ++ [t] ∧
        t.peer.face = hop ∧ t.packet.name = i.name) := by
  cases receiveInterest_cases hbuiltIn hreceive with
  | unknownFace n _ hquiet hmisses =>
      exact .inl ⟨hmisses, .of_eq hquiet.sent⟩
  | dropped n source _ _ hsent _ hmisses => exact .inl ⟨hmisses, answers_nacked hsent⟩
  | admitted m n source hint token isNew tables e store _ hquiet hmisses _ _ hadmission =>
      have hstart : m.journal.sent = fw.node.journal.sent := hquiet.sent
      rw [← hstart, ← hmisses]
      cases hadmission with
      | looped k _ _ hsent htold =>
          obtain ⟨notice, rfl⟩ := htold
          exact .inl ⟨congrArg Counters.storeMisses (counters_tellLoop _ _ _ _),
            answers_nacked hsent⟩
      | hit g data _ _ hquietHit hmissesHit =>
          left
          refine ⟨(Node.storeMisses_sendData g.node ingress _).trans hmissesHit, ?_⟩
          have hsame : g.node.journal.sent = m.journal.sent := hquietHit.node.sent
          rw [← hsame]
          exact answers_sendData g.node ingress { data with incomingFace := some .contentStore }
      | missed f _ hanswer hgoesOn =>
          right
          have hcount : m.counters.storeMisses + 1 ≤ f.node.counters.storeMisses :=
            hanswer.moves.keeps.storeMisses
          refine ⟨hcount, ?_⟩
          rcases hgoesOn with ⟨other, hother, rfl⟩ | ⟨hnone, _⟩
          · have hsame : hop = other := Option.some.inj (htag.symm.trans hother)
            subst hsame
            let waiting := awaitData ingress (i.arrived ingress.face hint)
              ⟨noteMiss (i.arrived ingress.face hint) { m with tables }, token, e⟩
            have hknown : waiting.node.faces.info? hop = some info := by
              rw [← hinfo]
              exact congrFun hquiet.info? hop
            obtain ⟨isTaken, hsent⟩ := sent_followTag hknown (i.arrived ingress.face hint)
            exact ⟨⟨⟨hop, 0⟩, .interest (i.arrived ingress.face hint).untagged, isTaken⟩, hsent,
              rfl, rfl⟩
          · rw [htag] at hnone
            cases hnone

end Forwarder

/-! ### Runs -/

variable {settings : Settings} {store : ContentStore} {hash : HashFunction} {history : List Step}
  {fw : Forwarder}

theorem Run.homebound (run : Run (Forwarder.new settings store hash) history fw) :
    fw.node.Homebound := by
  induction run with
  | start =>
      intro token e hget
      cases hget
  | step run operation hperform ih => exact Forwarder.homebound_perform run.valid ih hperform

/-- Every step adds to what was sent before. -/
theorem Run.sent_eq (run : Run (Forwarder.new settings store hash) history fw) {s : Step}
    (hs : s ∈ history) :
    s.after.node.journal.sent = s.before.node.journal.sent ++ s.sent ∧
      ∀ t ∈ s.sent, s.before.node.Allows s.operation t := by
  obtain ⟨earlier, hrun, hperform⟩ := run.mem hs
  obtain ⟨new, hsent, hnew⟩ :=
    Forwarder.sendsAllowed_perform hrun.valid hrun.homebound hperform
  have hstep : s.sent = new := by rw [Step.sent, hsent, List.drop_left]
  rw [hstep]
  exact ⟨hsent, hnew⟩

/-- In a step of a run, something leaves the host by a face exactly if an Interest under
`/localhost` came in with the tag of this face and was neither dropped nor answered from the content
store. -/
theorem Run.leavesHost_iff (run : Run (Forwarder.new settings store hash) history fw) {s : Step}
    (hs : s ∈ history) (hop : FaceId) :
    (∃ t ∈ s.sent, t.peer.face = hop ∧ s.before.node.LeavesHost t) ↔ s.TagsOffHost hop := by
  obtain ⟨hsent, hallowed⟩ := run.sent_eq hs
  obtain ⟨earlier, hrun, hperform⟩ := run.mem hs
  obtain ⟨before, operation, after⟩ := s
  have hbuiltIn : before.BuiltInOnly := hrun.valid.builtIn
  constructor
  · rintro ⟨t, ht, rfl, hname, info, hinfo, hfar⟩
    obtain ⟨info', hinfo', hcause⟩ := hallowed t ht
    have hsame : info' = info := Option.some.inj (hinfo'.symm.trans hinfo)
    obtain ⟨htags, j, hpacket⟩ := hcause hname (hsame ▸ hfar)
    refine ⟨htags, ⟨info, hinfo, hfar⟩, ?_⟩
    obtain ⟨now, ingress, i, rfl, htag, _⟩ := htags
    rcases Forwarder.receiveInterest_tagged hbuiltIn htag hinfo hperform with
      ⟨_, new, hnew, hanswers⟩ | ⟨hmissed, _⟩
    · have hnow := List.append_cancel_left (hsent.symm.trans hnew)
      have hanswer : t.packet.isAnswer = true := hanswers t (hnow ▸ ht)
      rw [hpacket] at hanswer
      cases hanswer
    · exact hmissed
  · rintro ⟨⟨now, ingress, i, rfl, htag, hlocalhost⟩, ⟨info, hinfo, hfar⟩, hmissed⟩
    rcases Forwarder.receiveInterest_tagged hbuiltIn htag hinfo hperform with
      ⟨hsame, _⟩ | ⟨_, t, hnew, rfl, hname⟩
    · exact absurd hmissed (Nat.lt_irrefl _ ∘ (hsame ▸ ·))
    · have hstep : Step.sent ⟨before, .receive now ingress (.interest i), after⟩ = [t] :=
        List.append_cancel_left (hsent.symm.trans hnew)
      exact ⟨t, hstep ▸ List.mem_singleton_self t, rfl, hname ▸ hlocalhost, info, hinfo, hfar⟩

/-- Every packet of a step is told by what the step adds to the journal; it leaves the host under
`/localhost` only by the tag of its face. So these names stay on the host during a run exactly if no
Interest in it is sent off the host by its tag. -/
theorem localhost_leaves_iff_tagged
    (run : Run (Forwarder.new settings store hash) history fw) :
    (∀ s ∈ history, s.after.node.journal.sent = s.before.node.journal.sent ++ s.sent ∧
      ∀ hop, (∃ t ∈ s.sent, t.peer.face = hop ∧ s.before.node.LeavesHost t) ↔
        s.TagsOffHost hop) ∧
    ((∀ s ∈ history, ∀ t ∈ s.sent, ¬ s.before.node.LeavesHost t) ↔
      ∀ s ∈ history, ∀ hop, ¬ s.TagsOffHost hop) := by
  refine ⟨fun s hs => ⟨(run.sent_eq hs).1, run.leavesHost_iff hs⟩, ?_⟩
  constructor
  · intro hstays s hs hop htags
    obtain ⟨t, ht, _, hleaves⟩ := (run.leavesHost_iff hs hop).mpr htags
    exact hstays s hs t ht hleaves
  · intro hnever s hs t ht hleaves
    exact hnever s hs _ ((run.leavesHost_iff hs _).mp ⟨t, ht, rfl, hleaves⟩)

/-! ### An Interest with a tag -/

namespace Sample

/-- A face on the host and one off it. -/
def atHome : List Operation :=
  [.addFace (fun _ => true) .offHost .pointToPoint, .addFace (fun _ => true) .onHost .pointToPoint]

def askAway : Operation :=
  .receive ⟨1⟩ ⟨⟨256⟩, 0⟩ (.interest
    { name := [Name.localhost, .generic [97]], nonce := ⟨1⟩, nextHopFace := some ⟨257⟩ })

/-- The step in which a program on the host sends an Interest off it. -/
def sentAway : Step :=
  ⟨reached start atHome, askAway, reached start (askAway :: atHome)⟩

theorem tagsOffHost_sentAway : sentAway.TagsOffHost ⟨257⟩ := by
  refine ⟨⟨⟨1⟩, ⟨⟨256⟩, 0⟩, _, rfl, rfl, by decide⟩,
    ⟨⟨⟨257⟩, .offHost, .pointToPoint⟩, ?_, rfl⟩, ?_⟩
  · decide +kernel
  · decide +kernel

end Sample

/-- A name under `/localhost` leaves the host. -/
theorem localhost_sent_away : ∃ history fw, Run Sample.start history fw ∧
    ∃ t ∈ fw.node.journal.sent, fw.node.LeavesHost t := by
  refine ⟨_, _, Run.reached Sample.start (Sample.askAway :: Sample.atHome) (by decide +kernel),
    ⟨⟨⟨257⟩, 0⟩, .interest { name := [Name.localhost, .generic [97]], nonce := ⟨1⟩ }, true⟩, ?_, ?_⟩
  · decide +kernel
  · exact ⟨by decide, ⟨⟨257⟩, .offHost, .pointToPoint⟩, by decide +kernel, rfl⟩

/-- The run with a tagged Interest has a step in which something leaves the host. -/
theorem localhost_leaves_iff_tagged_sent_away : ∃ history fw, Run Sample.start history fw ∧
    ∃ s ∈ history, s.TagsOffHost ⟨257⟩ ∧
      ∃ t ∈ s.sent, t.peer.face = ⟨257⟩ ∧ s.before.node.LeavesHost t := by
  have hrecorded : (record Sample.start (Sample.askAway :: Sample.atHome)).isOk = true := by
    decide +kernel
  have hmem : Sample.sentAway ∈ historyOf Sample.start (Sample.askAway :: Sample.atHome) := by
    rw [historyOf_cons _ _ _ hrecorded]
    exact List.mem_cons_self
  have run := Run.reached Sample.start _ hrecorded
  obtain ⟨hsteps, _⟩ := localhost_leaves_iff_tagged run
  exact ⟨_, _, run, _, hmem, Sample.tagsOffHost_sentAway,
    ((hsteps _ hmem).2 ⟨257⟩).mpr Sample.tagsOffHost_sentAway⟩

end NamedData
