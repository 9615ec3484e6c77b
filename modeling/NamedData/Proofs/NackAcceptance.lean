import NamedData.Proofs.LoopDecision

/-!
Which Nacks count. A Nack is accepted if it comes over a link with a single peer and hands back what
was last sent there; any other is counted and forgotten. An accepted Nack is noted with the one
record of its face, and makes the entry due exactly if no face may still answer. Only then is the
strategy asked, whatever it is.
-/

namespace NamedData

open Forwarder

/-- A Nack from a face hands back what was last sent to it: the link has a single peer, and the
entry for the same was sent to the face with the nonce of the Nack. -/
def Node.HandsBack (n : Node) (info : FaceInfo) (face : FaceId) (nack : Nack) : Prop :=
  info.isPointToPoint = true ∧ ∃ token e, n.tables.pit.get? token = some e ∧
    e.interest.sameSelectors nack.interest = true ∧ e.SentWith face nack.interest.nonce

/-- A Nack is noted with the record of its face and with no other. The entry is made due unless a
face may still answer, and nothing else changes. -/
structure Focus.NotesNack (f f' : Focus) (face : FaceId) (reason : NackReason) : Prop where
  token : f'.token = f.token
  node : f'.node = { f.node with timers := f'.node.timers }
  record : ∃ before record after, f.entry.outRecords = before ++ record :: after ∧
    record.face = face ∧ f'.entry = { f.entry with
      outRecords := before ++ { record with nack? := some reason } :: after
      expiryTimer := f'.entry.expiryTimer }
  waits : f'.entry.hasPendingOutRecords f.node.now = true →
    f'.entry.expiryTimer = f.entry.expiryTimer ∧ f'.node.timers = f.node.timers
  due : f'.entry.hasPendingOutRecords f.node.now = false → f'.EndsAt f.node.now

namespace PitEntry

variable {e : PitEntry} {face : FaceId} {nack : Nack}

/-- The record of a face stands alone among those of other faces. -/
theorem split_outRecords (h : e.outFaces.Nodup) {record : OutRecord}
    (hrecord : e.outRecord? face = some record) :
    ∃ before after, e.outRecords = before ++ record :: after ∧ record.face = face ∧
      (∀ r ∈ before, r.face ≠ face) ∧ ∀ r ∈ after, r.face ≠ face := by
  obtain ⟨hface, before, after, hsplit, hbefore⟩ := List.find?_eq_some_iff_append.mp hrecord
  have hown : record.face = face := of_decide_eq_true hface
  refine ⟨before, after, hsplit, hown, fun r hr hr' => ?_, fun r hr hr' => ?_⟩
  · simpa [hr'] using hbefore r hr
  · rw [outFaces, hsplit, List.map_append, List.map_cons, List.nodup_append] at h
    exact (List.nodup_cons.mp h.2.1).1 (List.mem_map.mpr ⟨r, hr, hr'.trans hown.symm⟩)

theorem outRecords_recordNack {before after : List OutRecord} {record : OutRecord}
    (hsplit : e.outRecords = before ++ record :: after) (hown : record.face = face)
    (hbefore : ∀ r ∈ before, r.face ≠ face) (hafter : ∀ r ∈ after, r.face ≠ face)
    (reason : NackReason) : (e.recordNack face reason).outRecords =
      before ++ { record with nack? := some reason } :: after := by
  have hothers (l : List OutRecord) (hl : ∀ r ∈ l, r.face ≠ face) :
      (l.map fun r => if r.face = face then { r with nack? := some reason } else r) = l :=
    (List.map_congr_left fun r hr => if_neg (hl r hr)).trans (List.map_id' l)
  rw [recordNack]
  simp only [hsplit, List.map_append, List.map_cons, if_pos hown, hothers before hbefore,
    hothers after hafter]

/-- A Nack is accepted for an entry exactly if its nonce was last sent to its face. -/
theorem nackArrival_eq_accepted_iff (h : e.outFaces.Nodup) :
    nackArrival e face nack = .accepted ↔ e.SentWith face nack.interest.nonce := by
  rw [nackArrival]
  cases hrecord : e.outRecord? face with
  | none =>
      have hnone := List.find?_eq_none.mp hrecord
      refine ⟨nofun, fun ⟨o, ho, hface, _⟩ => absurd (decide_eq_true hface) (hnone o ho)⟩
  | some record =>
      obtain ⟨before, after, hsplit, hown, hbefore, hafter⟩ := split_outRecords h hrecord
      have hsole (o : OutRecord) (ho : o ∈ e.outRecords) (hface : o.face = face) : o = record := by
        rw [hsplit] at ho
        rcases List.mem_append.mp ho with hin | hin
        · exact absurd hface (hbefore o hin)
        · exact (List.mem_cons.mp hin).resolve_right fun hin => hafter o hin hface
      dsimp only
      split
      next hnonce =>
        have hmem : record ∈ e.outRecords := hsplit ▸ List.mem_append_right _ List.mem_cons_self
        exact ⟨fun _ => ⟨record, hmem, hown, hnonce⟩, fun _ => rfl⟩
      next hnonce =>
        refine ⟨nofun, fun ⟨o, ho, hface, hsame⟩ => absurd ?_ hnonce⟩
        rw [← hsole o ho hface, hsame]

end PitEntry

namespace Forwarder

variable {face : FaceId} {nack : Nack}

/-- What is done with an accepted Nack before the strategy is asked. -/
theorem notesNack_recordNack {f : Focus} (hf : f.Sound)
    (haccepted : nackArrival f.entry face nack = .accepted) (reason : NackReason) :
    f.NotesNack (recordNack face reason f) face reason := by
  obtain ⟨record, hrecord⟩ : ∃ record, f.entry.outRecord? face = some record := by
    rw [nackArrival] at haccepted
    split at haccepted
    · cases haccepted
    · exact ⟨_, ‹_›⟩
  obtain ⟨before, after, hsplit, hown, hbefore, hafter⟩ :=
    PitEntry.split_outRecords hf.distinct.outFaces hrecord
  have hnoted := PitEntry.outRecords_recordNack hsplit hown hbefore hafter reason
  let noted := f.onEntry fun e => e.recordNack face reason
  have hentry : noted.entry = { f.entry with
      outRecords := before ++ { record with nack? := some reason } :: after } := by
    rw [← hnoted]
    rfl
  have htimed : noted.Timed := Focus.timed_of_keeps hf.timed (Focus.keeps_onEntry rfl) rfl rfl
  cases hpending : noted.entry.hasPendingOutRecords f.node.now with
  | true =>
      have hkept : recordNack face reason f = noted := if_pos hpending
      rw [hkept]
      refine ⟨rfl, rfl, ⟨before, record, after, hsplit, hown, hentry⟩, fun _ => ⟨rfl, rfl⟩, ?_⟩
      intro hnone
      cases hpending.symm.trans hnone
  | false =>
      have hset : recordNack face reason f = noted.setExpiry 0 :=
        if_neg (Bool.eq_false_iff.mp hpending)
      have hends := Focus.endsAt_setExpiry htimed 0
      rw [Timestamp.adding_zero] at hends
      rw [hset]
      refine ⟨rfl, rfl, ⟨before, record, after, hsplit, hown, ?_⟩, ?_, fun _ => hends⟩
      · have hsame : (noted.setExpiry 0).entry =
            { noted.entry with expiryTimer := (noted.setExpiry 0).entry.expiryTimer } := rfl
        rw [hsame, hentry]
      · intro hsome
        cases hpending.symm.trans hsome

/-- A Nack is judged by whether it hands back what was last sent to its face. -/
theorem NackVerdict.accepted_iff {fw fw' : Forwarder} {now : Timestamp} {ingress : FaceEndpoint}
    {info : FaceInfo} {arrival : NackArrival}
    (h : NackVerdict fw now ingress info nack arrival fw') (hfw : fw.Orderly) :
    arrival = .accepted ↔ fw.node.HandsBack info ingress.face nack := by
  have hsent {token : PitToken} {e : PitEntry} (hget : fw.node.tables.pit.get? token = some e) :
      nackArrival e ingress.face nack = .accepted ↔ e.SentWith ingress.face nack.interest.nonce :=
    PitEntry.nackArrival_eq_accepted_iff
      (hfw.node.valid.wellKept token e hget).distinct.outFaces
  cases h with
  | wrongLink hlink =>
      refine ⟨nofun, fun ⟨hother, _⟩ => ?_⟩
      cases hlink.symm.trans hother
  | noEntry hlink hnone =>
      refine ⟨nofun, fun ⟨_, token, e, hget, hsame, _⟩ => ?_⟩
      cases (hnone token e hget).symm.trans hsame
  | refused token e hlink hget hsame hrefused =>
      refine ⟨fun haccepted => absurd haccepted hrefused, ?_⟩
      rintro ⟨_, token', e', hget', hsame', hlast⟩
      obtain rfl : token' = token := by
        apply hfw.node.distinguished token' token e' e hget' hget
        rw [Interest.sameSelectors_comm] at hsame
        exact Interest.sameSelectors_trans hsame' hsame
      obtain rfl := Option.some.inj (hget'.symm.trans hget)
      exact (hsent hget).mpr hlast
  | accepted token e s hlink hget hsame haccepted hs hlawful =>
      exact ⟨fun _ => ⟨hlink, token, e, hget, hsame, (hsent hget).mp haccepted⟩, fun _ => rfl⟩

end Forwarder

section Acceptance

variable {settings : Settings} {store : ContentStore} {hash : HashFunction} {fw : Forwarder}
  {ingress : FaceEndpoint} {info : FaceInfo}

/-- Whatever strategies a forwarder has, a Nack from a known face is accepted exactly if it hands
back what was last sent there. Otherwise nothing changes but the time and the count of Nacks, and
what became of the Nack is told. If it is accepted, it is noted in its entry, and then the strategy
in effect there is asked. -/
theorem nack_accepted_iff (reached : Reachable settings store hash fw) (now : Timestamp)
    (hinfo : fw.node.faces.info? ingress.face = some info) (nack : Nack) :
    ∃ arrival fw', fw.receiveNack now ingress nack = .ok fw' ∧
      (arrival = .accepted ↔ fw.node.HandsBack info ingress.face nack) ∧
      (arrival ≠ .accepted → fw' = { fw with node := { fw.node with
        now
        counters := { fw.node.counters with inNacks := fw.node.counters.inNacks + 1 }
        journal := { fw.node.journal with notices := fw.node.journal.notices ++
          [.incomingNack ingress.face nack.interest.name nack.reason arrival] } } }) ∧
      (arrival = .accepted → ∃ token e s f, fw.node.tables.pit.get? token = some e ∧
        e.interest.sameSelectors nack.interest = true ∧
        fw.strategies[fw.node.tables.effectiveStrategy e.name]? = some s ∧
        Focus.NotesNack ⟨noteArrival now ingress nack .accepted fw.node, token, e⟩ f
          ingress.face nack.reason ∧
        fw' = { fw with node :=
          (s.afterNack { nack with incomingFace := some ingress.face } ingress f).release }) := by
  have h := reached.orderly
  obtain ⟨arrival, fw', hreceive, hverdict⟩ := h.receiveNack_verdict hinfo now nack
  refine ⟨arrival, fw', hreceive, hverdict.accepted_iff h, ?_⟩
  cases hverdict with
  | wrongLink hlink => exact ⟨fun _ => rfl, nofun⟩
  | noEntry hlink hnone => exact ⟨fun _ => rfl, nofun⟩
  | refused token e hlink hget hsame hrefused =>
      exact ⟨fun _ => rfl, fun haccepted => absurd haccepted hrefused⟩
  | accepted token e s hlink hget hsame haccepted hs hlawful =>
      refine ⟨fun hrefused => absurd rfl hrefused, fun _ => ?_⟩
      refine ⟨token, e, s, _, hget, hsame, hs, ?_, rfl⟩
      have hnoted : (noteArrival now ingress nack .accepted fw.node).Orderly
          fw.strategies.length :=
        ⟨h.node.valid.congr rfl rfl rfl, h.node.distinguished, h.node.hasRoom⟩
      exact notesNack_recordNack (hnoted.focus hget).1.valid.sound haccepted nack.reason

end Acceptance

namespace Sample

/-- The second face hands back the Interest that was sent to it. -/
def handedBack : Nack where
  interest := { name, nonce := ⟨1⟩ }
  reason := .noRoute

theorem handsBack_handedBack {n : Node} {info : FaceInfo} (hlink : info.isPointToPoint = true)
    (hsent : (n.tables.pit.get? ⟨0, 0⟩).any (fun e =>
      e.interest.sameSelectors handedBack.interest ∧
        e.outRecords.any fun o => o.face = ⟨257⟩ ∧ o.nonce = ⟨1⟩) = true) :
    n.HandsBack info ⟨257⟩ handedBack := by
  obtain ⟨e, hget, he⟩ := (Option.any_eq_true _ _).mp hsent
  obtain ⟨hsame, hany⟩ := of_decide_eq_true he
  obtain ⟨o, ho, hboth⟩ := List.any_eq_true.mp hany
  exact ⟨hlink, ⟨0, 0⟩, e, hget, hsame, o, ho, of_decide_eq_true hboth⟩

end Sample

/-- The Nack for the Interest that was sent is accepted. -/
theorem nack_accepted_from_upstream : ∃ info fw' token e s f,
    Reachable {} .disabled (fun _ => ⟨List.replicate 32 0, rfl⟩) Sample.sentOn.after ∧
      Sample.sentOn.after.node.faces.info? ⟨257⟩ = some info ∧
      Sample.sentOn.after.node.HandsBack info ⟨257⟩ Sample.handedBack ∧
      Sample.sentOn.after.receiveNack ⟨2⟩ ⟨⟨257⟩, 0⟩ Sample.handedBack = .ok fw' ∧
      Sample.sentOn.after.node.tables.pit.get? token = some e ∧
      Focus.NotesNack ⟨noteArrival ⟨2⟩ ⟨⟨257⟩, 0⟩ Sample.handedBack .accepted
        Sample.sentOn.after.node, token, e⟩ f ⟨257⟩ .noRoute ∧
      fw'.node = (Strategy.afterNack s
        { Sample.handedBack with incomingFace := some ⟨257⟩ } ⟨⟨257⟩, 0⟩ f).release := by
  have run : Run Sample.start _ Sample.sentOn.after :=
    Run.reached Sample.start (Sample.ask ⟨1⟩ ⟨1⟩ :: Sample.threeFaces) (by decide +kernel)
  have hlinked : (Sample.sentOn.after.node.faces.info? ⟨257⟩).any FaceInfo.isPointToPoint =
      true := by decide +kernel
  obtain ⟨info, hinfo, hlink⟩ := (Option.any_eq_true _ _).mp hlinked
  have hhands : Sample.sentOn.after.node.HandsBack info ⟨257⟩ Sample.handedBack :=
    Sample.handsBack_handedBack hlink (by decide +kernel)
  let ingress : FaceEndpoint := ⟨⟨257⟩, 0⟩
  have hknown : Sample.sentOn.after.node.faces.info? ingress.face = some info := hinfo
  obtain ⟨arrival, fw', hreceive, haccepted, -, hnoted⟩ :=
    nack_accepted_iff run.reachable ⟨2⟩ hknown Sample.handedBack
  obtain ⟨token, e, s, f, hget, -, -, hnotes, rfl⟩ := hnoted (haccepted.mpr hhands)
  exact ⟨info, _, token, e, s, f, run.reachable, hinfo, hhands, hreceive, hget, hnotes, rfl⟩

end NamedData
