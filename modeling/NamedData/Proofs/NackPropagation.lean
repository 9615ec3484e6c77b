import NamedData.Proofs.Arrivals
import NamedData.Proofs.HostScope
import NamedData.Proofs.NackAcceptance

/-!
How Nacks travel on. A built-in strategy waits until no face may still answer an entry. Then it
hands back every Interest that waits there behind a link with a single peer, with the mildest of the
reasons that came in; those who wait elsewhere are left to the end of the entry. The same Nack does
nothing when it comes again, unless a face that might still have answered has meanwhile run out of
time.
-/

namespace NamedData

open Forwarder

/-! ### The mildest reason -/

namespace PitEntry

/-- The reasons of the Nacks that are noted in the entry. -/
def reasons (e : PitEntry) : List NackReason :=
  e.outRecords.filterMap OutRecord.nack?

/-- No milder reason is noted in the entry. -/
structure Mildest (e : PitEntry) (reason : NackReason) : Prop where
  given : reason ∈ e.reasons
  least : ∀ other ∈ e.reasons, reason.severity ≤ other.severity

/-- Where a Nack is noted, there is a mildest reason. -/
theorem exists_mildest {e : PitEntry} (h : e.reasons ≠ []) :
    ∃ reason, leastBy? NackReason.severity e.reasons = some reason ∧ e.Mildest reason := by
  cases hleast : leastBy? NackReason.severity e.reasons with
  | none => exact absurd (leastBy?_eq_none hleast) h
  | some reason => exact ⟨reason, rfl, leastBy?_mem hleast, fun _ => leastBy?_le hleast⟩

theorem reasons_recordNack {e : PitEntry} {face : FaceId} {nonce : Nonce}
    (h : e.SentWith face nonce) (reason : NackReason) :
    reason ∈ (e.recordNack face reason).reasons := by
  obtain ⟨o, ho, hface, -⟩ := h
  have hnoted : { o with nack? := some reason } ∈ (e.recordNack face reason).outRecords :=
    List.mem_map.mpr ⟨o, ho, if_pos hface⟩
  exact List.mem_filterMap.mpr ⟨_, hnoted, rfl⟩

/-- The record of a face is found among those of other faces, and it alone goes. -/
theorem inRecords_deleteIn {e : PitEntry} {kept rest : List InRecord} {r : InRecord}
    (hsplit : e.inRecords = kept ++ r :: rest) (hdistinct : e.inFaces.Nodup) :
    e.inRecord? r.face = some r ∧ (e.deleteIn r.face).inRecords = kept ++ rest := by
  have hothers : ∀ q ∈ kept, ¬ decide (q.face = r.face) = true := by
    intro q hq hsame
    rw [inFaces, hsplit, List.map_append, List.map_cons, List.nodup_append] at hdistinct
    exact hdistinct.2.2 q.face (List.mem_map_of_mem hq) r.face List.mem_cons_self
      (of_decide_eq_true hsame)
  constructor
  · rw [inRecord?, hsplit, List.find?_append, List.find?_eq_none.mpr hothers]
    simp
  · rw [deleteIn]
    dsimp only
    rw [hsplit, List.eraseP_append_right _ hothers, List.eraseP_cons_of_pos (by simp)]

/-- The same Nack again leaves the records as they are. -/
theorem outRecords_recordNack_again {e e' : PitEntry} {face : FaceId} {reason : NackReason}
    (h : e'.outRecords = (e.recordNack face reason).outRecords) :
    (e'.recordNack face reason).outRecords = (e.recordNack face reason).outRecords := by
  rw [recordNack]
  dsimp only
  rw [h, recordNack]
  dsimp only
  rw [List.map_map]
  refine List.map_congr_left fun r _ => ?_
  by_cases hface : r.face = face
  · simp [hface]
  · simp [hface]

end PitEntry

/-! ### Handing Interests back -/

/-- Behind the face is a link with a single peer. -/
def Node.reachesOne (n : Node) (face : FaceId) : Bool :=
  (n.faces.info? face).any FaceInfo.isPointToPoint

theorem Node.reachesOne_eq {n m : Node} {face : FaceId}
    (h : m.faces.info? face = n.faces.info? face) : m.reachesOne face = n.reachesOne face := by
  rw [reachesOne, h, reachesOne]

theorem Node.reachesOne_congr {n m : Node} (h : m.faces.info? = n.faces.info?) :
    m.reachesOne = n.reachesOne :=
  funext fun face => reachesOne_eq (congrFun h face)

/-- The Interests of those records that name a link with a single peer are handed back, each once
and in the order of the records, and nothing else is sent. -/
def Node.Returns (n m : Node) (records : List InRecord) (reason : NackReason) : Prop :=
  ∃ new, m.journal.sent = n.journal.sent ++ new ∧
    new.map (fun t => (t.peer, t.packet)) =
      (records.filter fun r => n.reachesOne r.face).map fun r =>
        (r.peer, .nack { interest := r.interest.untagged, reason })

namespace Focus

theorem sendNack_of_not_reachesOne (f : Focus) (egress : FaceEndpoint) (reason : NackReason)
    (h : f.node.reachesOne egress.face = false) :
    ∃ notice, f.sendNack egress reason = f.say notice := by
  rcases f.sendNack_cases egress reason with hsay | ⟨info, _, hinfo, hlink, _, _⟩
  · exact hsay
  · rw [Node.reachesOne, hinfo] at h
    cases h.symm.trans hlink

theorem sendNack_of_reachesOne (f : Focus) {r : InRecord} (reason : NackReason)
    (h : f.node.reachesOne r.face = true) (hrecord : f.entry.inRecord? r.face = some r) :
    (f.sendNack r.peer reason).entry = f.entry.deleteIn r.face ∧
      ∃ isTaken, (f.sendNack r.peer reason).node.journal.sent = f.node.journal.sent ++
        [⟨r.peer, .nack { interest := r.interest.untagged, reason }, isTaken⟩] := by
  obtain ⟨info, hinfo, hlink⟩ := (Option.any_eq_true _ _).mp h
  have hpeer : f.node.faces.info? r.peer.face = some info := hinfo
  have hwaits : f.entry.inRecord? r.peer.face = some r := hrecord
  let said := f.node.say (.outgoingNack r.face f.entry.name reason .sent)
  have hknown : said.faces.info? r.peer.face = some info := hinfo
  obtain ⟨isTaken, hsent⟩ :=
    Node.sent_transmit hknown (.nack { interest := r.interest.untagged, reason })
  simp only [sendNack, hpeer, hwaits, hlink, ↓reduceIte]
  exact ⟨rfl, isTaken, hsent⟩

/-- Handing Interests back one after another. Those records that were passed over so far stay in
front of the ones that are still to come. -/
theorem returns_each {f : Focus} (reason : NackReason) {kept records : List InRecord}
    (hsplit : f.entry.inRecords = kept ++ records) (hdistinct : f.entry.inFaces.Nodup) :
    f.node.Returns ((records.map InRecord.peer).foldl (fun f p => f.sendNack p reason) f).node
        records reason ∧
      ((records.map InRecord.peer).foldl (fun f p => f.sendNack p reason) f).entry.inRecords =
        kept ++ records.filter fun r => !f.node.reachesOne r.face := by
  induction records generalizing f kept with
  | nil => exact ⟨⟨[], (List.append_nil _).symm, rfl⟩, hsplit⟩
  | cons r rest ih =>
      rw [List.map_cons, List.foldl_cons]
      cases hreaches : f.node.reachesOne r.face with
      | false =>
          obtain ⟨notice, hsay⟩ := f.sendNack_of_not_reachesOne r.peer reason hreaches
          have hnext : (f.say notice).entry.inRecords = (kept ++ [r]) ++ rest := by
            rw [List.append_assoc]
            exact hsplit
          obtain ⟨⟨new, hsent, hnew⟩, hleft⟩ := ih hnext hdistinct
          rw [hsay]
          refine ⟨⟨new, hsent, ?_⟩, ?_⟩
          · rw [List.filter_cons_of_neg (by simp [hreaches])]
            exact hnew
          · rw [List.filter_cons_of_pos (by simp [hreaches]), hleft, List.append_assoc]
            rfl
      | true =>
          obtain ⟨hrecord, hdeleted⟩ := PitEntry.inRecords_deleteIn hsplit hdistinct
          obtain ⟨hentry, isTaken, hfirst⟩ :=
            f.sendNack_of_reachesOne reason hreaches hrecord
          have hnext : (f.sendNack r.peer reason).entry.inRecords = kept ++ rest := by
            rw [hentry, hdeleted]
          have hstill : (f.sendNack r.peer reason).entry.inFaces.Nodup :=
            ((f.inRecords_sendNack r.peer reason).map _).nodup hdistinct
          have hfaces : (f.sendNack r.peer reason).node.reachesOne = f.node.reachesOne :=
            Node.reachesOne_congr (f.keeps_sendNack r.peer reason).info?
          obtain ⟨⟨new, hsent, hnew⟩, hleft⟩ := ih hnext hstill
          rw [hfaces] at hnew hleft
          let back : Transmission :=
            ⟨r.peer, .nack { interest := r.interest.untagged, reason }, isTaken⟩
          refine ⟨⟨back :: new, ?_, ?_⟩, ?_⟩
          · rw [hsent, hfirst, List.append_assoc, List.singleton_append]
          · rw [List.filter_cons_of_pos (by exact hreaches), List.map_cons, List.map_cons, hnew]
          · rw [List.filter_cons_of_neg (by simp [hreaches]), hleft]

end Focus

/-! ### What an accepted Nack leads to -/

/-- What becomes of an entry once a Nack is noted there. While a face may still answer, nothing is
sent. Otherwise the Interests that wait behind links with a single peer are handed back, with the
mildest of the reasons, and wait no longer. -/
inductive Node.PassesOn (n m : Node) (now : Timestamp) (noted left : PitEntry) : Prop where
  | waits (hpending : noted.hasPendingOutRecords now = true)
      (hsent : m.journal.sent = n.journal.sent) (hrecords : left.inRecords = noted.inRecords)
  | returns (reason : NackReason) (hdone : noted.hasPendingOutRecords now = false)
      (hmildest : noted.Mildest reason) (hsent : n.Returns m noted.inRecords reason)
      (hrecords : left.inRecords = noted.inRecords.filter fun r => !n.reachesOne r.face)

theorem Node.PassesOn.congr {n n' m : Node} {now : Timestamp} {noted noted' left : PitEntry}
    (h : n.PassesOn m now noted left) (hsent : n'.journal.sent = n.journal.sent)
    (hinfo : n'.faces.info? = n.faces.info?) (hin : noted'.inRecords = noted.inRecords)
    (hout : noted'.outRecords = noted.outRecords) : n'.PassesOn m now noted' left := by
  have hpending : noted'.hasPendingOutRecords now = noted.hasPendingOutRecords now := by
    rw [PitEntry.hasPendingOutRecords, hout, PitEntry.hasPendingOutRecords]
  have hreasons : noted'.reasons = noted.reasons := by
    rw [PitEntry.reasons, hout, PitEntry.reasons]
  have hreaches := reachesOne_congr hinfo
  cases h with
  | waits hwaits hsame hrecords =>
      exact .waits (hpending.trans hwaits) (hsame.trans hsent.symm) (hrecords.trans hin.symm)
  | returns reason hdone hmildest hback hrecords =>
      refine .returns reason (hpending.trans hdone) ?_ ?_ ?_
      · exact ⟨hreasons ▸ hmildest.given, hreasons ▸ hmildest.least⟩
      · rwa [Node.Returns, hreaches, hsent, hin]
      · rwa [hreaches, hin]

theorem Focus.outRecords_sendNacks (f : Focus) (reason : NackReason) (except : List FaceEndpoint) :
    (f.sendNacks reason except).entry.outRecords = f.entry.outRecords := by
  rw [sendNacks]
  generalize (f.entry.inRecords.map InRecord.peer).filter (fun p => p ∉ except) = peers
  induction peers generalizing f with
  | nil => rfl
  | cons p rest ih => exact (ih (f.sendNack p reason)).trans (f.records_sendNack p reason).1

theorem Focus.passesOn_passNackOn {f : Focus} (hdistinct : f.entry.inFaces.Nodup)
    (hnacked : f.entry.reasons ≠ []) (nack : Nack) (ingress : FaceEndpoint) :
    (passNackOn nack ingress f).entry.outRecords = f.entry.outRecords ∧
      f.node.PassesOn (passNackOn nack ingress f).release f.node.now f.entry
        (passNackOn nack ingress f).entry := by
  let told := f.say (.afterNack ingress.face nack.interest.name nack.reason)
  cases hpending : f.entry.hasPendingOutRecords f.node.now with
  | true =>
      have hwaits : passNackOn nack ingress f = told.say (.waitingForUpstreams f.entry.name) :=
        if_pos hpending
      rw [hwaits]
      exact ⟨rfl, .waits hpending rfl rfl⟩
  | false =>
      obtain ⟨mildest, hmildest, hleast⟩ := PitEntry.exists_mildest hnacked
      let ready := told.say (.allUpstreamsNacked f.entry.name mildest)
      have hback : passNackOn nack ingress f = ready.sendNacks mildest [] := by
        refine (if_neg (Bool.eq_false_iff.mp hpending)).trans ?_
        change (told.say (.allUpstreamsNacked f.entry.name
          ((leastBy? NackReason.severity f.entry.reasons).getD .unspecified))).sendNacks
            ((leastBy? NackReason.severity f.entry.reasons).getD .unspecified) [] = _
        rw [hmildest]
        rfl
      have hall : ready.sendNacks mildest [] =
          (f.entry.inRecords.map InRecord.peer).foldl (fun f p => f.sendNack p mildest) ready := by
        rw [sendNacks, List.filter_eq_self.mpr (by simp)]
        rfl
      have hready : ready.entry.inRecords = [] ++ f.entry.inRecords := rfl
      obtain ⟨hsent, hleft⟩ := returns_each mildest hready hdistinct
      refine ⟨?_, .returns mildest hpending hleast ?_ ?_⟩
      · rw [hback]
        exact ready.outRecords_sendNacks mildest []
      · rw [hback, hall]
        exact hsent
      · rw [hback, hall]
        exact hleft

namespace Forwarder

variable {fw fw' : Forwarder} {now : Timestamp} {ingress : FaceEndpoint} {info : FaceInfo}
  {nack : Nack} {arrival : NackArrival}

/-- A Nack is noted in the entry of a token and passed on from there. -/
structure TakesNack (fw fw' : Forwarder) (now : Timestamp) (face : FaceId) (nack : Nack)
    (token : PitToken) (e left : PitEntry) : Prop where
  found : fw.node.tables.pit.get? token = some e
  same : e.interest.sameSelectors nack.interest = true
  after : fw'.node.tables.pit.get? token = some left
  outRecords : left.outRecords = (e.recordNack face nack.reason).outRecords
  passesOn : fw.node.PassesOn fw'.node now (e.recordNack face nack.reason) left

theorem recordNack_eq (face : FaceId) (reason : NackReason) (f : Focus) : ∃ timers timer,
    recordNack face reason f = ⟨{ f.node with timers }, f.token,
      { f.entry.recordNack face reason with expiryTimer := timer }⟩ := by
  rw [recordNack]
  split
  · exact ⟨_, _, rfl⟩
  · exact ⟨_, _, rfl⟩

/-- Nothing is sent for a Nack that is not accepted; an accepted one is passed on. -/
theorem NackVerdict.takesNack (h : NackVerdict fw now ingress info nack arrival fw')
    (hfw : fw.Orderly) (hbuiltIn : fw.BuiltInOnly) :
    arrival ≠ .accepted ∧ fw'.node.journal.sent = fw.node.journal.sent ∨
      arrival = .accepted ∧
        ∃ token e left, TakesNack fw fw' now ingress.face nack token e left := by
  cases h with
  | wrongLink hlink => exact .inl ⟨nofun, rfl⟩
  | noEntry hlink hnone => exact .inl ⟨nofun, rfl⟩
  | refused token e hlink hget hsame hrefused => exact .inl ⟨hrefused, rfl⟩
  | accepted token e s hlink hget hsame haccepted hs hlawful =>
      have hdistinct := (hfw.node.valid.wellKept token e hget).distinct
      have hsent := (PitEntry.nackArrival_eq_accepted_iff hdistinct.outFaces).mp haccepted
      obtain ⟨b, rfl⟩ := hbuiltIn s (List.mem_of_getElem? hs)
      let noted : Focus := ⟨noteArrival now ingress nack .accepted fw.node, token, e⟩
      let recorded := recordNack ingress.face nack.reason noted
      let tagged : Nack := { nack with incomingFace := some ingress.face }
      let passed := Focus.passNackOn tagged ingress recorded
      have hkeeps : noted.Keeps passed :=
        (keeps_recordNack ingress.face nack.reason noted).trans
          (recorded.moves_passNackOn _ ingress).keeps
      have hlive : noted.Live := ⟨e, hget, rfl⟩
      have hafter := Focus.get?_release_self (hkeeps.live hlive)
      rw [hkeeps.token] at hafter
      obtain ⟨timers, timer, hrecorded⟩ := recordNack_eq ingress.face nack.reason noted
      have hin : recorded.entry.inRecords = (e.recordNack ingress.face nack.reason).inRecords :=
        congrArg (·.entry.inRecords) hrecorded
      have hout : recorded.entry.outRecords = (e.recordNack ingress.face nack.reason).outRecords :=
        congrArg (·.entry.outRecords) hrecorded
      have hnacked : recorded.entry.reasons ≠ [] := by
        rw [PitEntry.reasons, hout]
        exact List.ne_nil_of_mem (PitEntry.reasons_recordNack hsent nack.reason)
      have hfaces : recorded.entry.inFaces.Nodup := by
        rw [PitEntry.inFaces, hin]
        exact hdistinct.inFaces
      obtain ⟨hleft, hpasses⟩ := Focus.passesOn_passNackOn hfaces hnacked tagged ingress
      have hnow : recorded.node.now = now := congrArg (·.node.now) hrecorded
      rw [hnow] at hpasses
      rw [b.afterNack_eq]
      refine .inr ⟨rfl, token, e, passed.entry, hget, hsame, hafter, hleft.trans hout, ?_⟩
      have hbefore : fw.node.journal.sent = recorded.node.journal.sent :=
        (congrArg (·.node.journal.sent) hrecorded).symm
      have hinfo : fw.node.faces.info? = recorded.node.faces.info? :=
        (congrArg (·.node.faces.info?) hrecorded).symm
      exact hpasses.congr hbefore hinfo hin.symm hout.symm

/-! ### Faces that stay -/

/-- A call that reads no clock leaves every face as it is. -/
theorem info?_of_untimed {operation : Operation} {face : FaceId}
    (hperform : fw.perform operation = .ok fw') (huntimed : operation.reading? = none)
    (hknown : fw.node.faces.info? face = some info) :
    fw'.node.faces.info? face = some info := by
  cases operation with
  | addFace takes scope link =>
      cases hperform
      rw [Forwarder.addFace]
      cases hadd : fw.node.faces.add takes scope link with
      | none => exact hknown
      | some added =>
          obtain ⟨f, hfind, rfl⟩ := Option.map_eq_some_iff.mp hknown
          exact Option.map_eq_some_iff.mpr ⟨f, FaceTable.find?_add hadd hfind, rfl⟩
  | hangUp other =>
      cases hperform
      rwa [info?_hangUp]
  | setStrategy stem id =>
      cases hperform
      rw [Forwarder.setStrategy]
      split <;> exact hknown
  | removeFace now face => cases huntimed
  | addRoute now stem face cost => cases huntimed
  | receive now ingress packet => cases huntimed
  | dropInterest now egress interest => cases huntimed
  | runTimers now => cases huntimed
  | _ =>
      cases hperform
      exact hknown

/-- A face that there is before and after a call is the same face. -/
theorem info?_perform (h : fw.Valid) {operation : Operation} {face : FaceId}
    (hperform : fw.perform operation = .ok fw') (hbefore : fw.node.faces.contains face = true)
    (hafter : fw'.node.faces.contains face = true) :
    fw'.node.faces.info? face = fw.node.faces.info? face := by
  rw [FaceTable.contains_eq, Option.isSome_iff_exists] at hbefore hafter
  obtain ⟨info, hinfo⟩ := hbefore
  obtain ⟨info', hinfo'⟩ := hafter
  cases hreading : operation.reading? with
  | none => rw [hinfo, info?_of_untimed hperform hreading hinfo]
  | some now =>
      obtain ⟨n, hbegun, hdeeds⟩ := deeds_perform h hperform
      have hstart : n.faces.info? = fw.node.faces.info? := by
        rcases hbegun with rfl | ⟨now, _, rfl⟩ <;> rfl
      have hback := hdeeds.preserve
        (P := fun k => ∀ known, k.faces.info? face = some known → n.faces.info? face = some known)
        (fun _ _ hdeed hk known hknown => hk known (hdeed.info?_of_timed hreading hknown))
        fun _ => id
      rw [hinfo', ← hback info' hinfo', hstart]

end Forwarder

section Propagation

variable {settings : Settings} {store : ContentStore} {hash : HashFunction} {history : List Step}
  {fw fw' fw'' last : Forwarder} {token : PitToken} {e left : PitEntry} {now : Timestamp}
  {ingress : FaceEndpoint} {info : FaceInfo} {nack : Nack}

/-- Whoever waits in an entry does so behind a face that there is. -/
theorem Run.contains_inRecord (run : Run (Forwarder.new settings store hash) history fw)
    (hget : fw.node.tables.pit.get? token = some e) {r : InRecord} (hr : r ∈ e.inRecords) :
    fw.node.faces.contains r.face = true :=
  (run.valid.node.wellKept token e hget).known.inFaces r.face (List.mem_map_of_mem hr)

/-- Who waits in an entry before and after a step does so behind the same link. -/
theorem Run.reachesOne_step {s : Step} {earlier : List Step} {e' : PitEntry}
    (run : Run (Forwarder.new settings store hash) (s :: earlier) last)
    (hbefore : s.before.node.tables.pit.get? token = some e)
    (hafter : s.after.node.tables.pit.get? token = some e') {r : InRecord}
    (hr : r ∈ e.inRecords) (hr' : r ∈ e'.inRecords) :
    s.after.node.reachesOne r.face = s.before.node.reachesOne r.face := by
  obtain ⟨hrun, hperform, rfl⟩ := run.last
  exact Node.reachesOne_eq (info?_perform hrun.valid hperform
    (hrun.contains_inRecord hbefore hr) (run.contains_inRecord hafter hr'))

/-- While an entry is left alone, those who wait in it stay behind the same links. -/
theorem Run.reachesOne_left {later earlier : List Step} {s : Step}
    (run : Run (Forwarder.new settings store hash) (later ++ s :: earlier) last)
    (hleft : s.after.node.tables.pit.get? token = some left)
    (halone : ∀ t ∈ later,
      t.after.node.tables.pit.get? token = t.before.node.tables.pit.get? token) :
    last.node.tables.pit.get? token = some left ∧
      ∀ r ∈ left.inRecords, last.node.reachesOne r.face = s.after.node.reachesOne r.face := by
  refine run.along (P := fun k => k.node.tables.pit.get? token = some left ∧
    ∀ r ∈ left.inRecords, k.node.reachesOne r.face = s.after.node.reachesOne r.face)
    ⟨hleft, fun _ _ => rfl⟩ fun t ht _ hrun ⟨hget, hsame⟩ => ?_
  have hstill := (halone t ht).trans hget
  exact ⟨hstill, fun r hr => (hrun.reachesOne_step hget hstill hr hr).trans (hsame r hr)⟩

theorem Forwarder.TakesNack.inRecords_subset {face : FaceId}
    (h : TakesNack fw fw' now face nack token e left) : left.inRecords ⊆ e.inRecords := by
  cases h.passesOn with
  | waits _ _ hrecords =>
      rw [hrecords]
      exact List.Subset.refl _
  | returns _ _ _ _ hrecords =>
      rw [hrecords]
      exact List.filter_subset_self _

/-- Once a Nack was passed on, the same Nack sends nothing, unless it was not really passed on then
because a face might still have answered. -/
theorem Forwarder.TakesNack.quiet_again {again : Timestamp} {left' : PitEntry}
    (hfirst : TakesNack fw fw' now ingress.face nack token e left)
    (hagain : TakesNack last fw'' again ingress.face nack token left left')
    (hlinks : ∀ r ∈ left.inRecords, last.node.reachesOne r.face = fw.node.reachesOne r.face)
    (hwaits : (e.recordNack ingress.face nack.reason).hasPendingOutRecords now = true →
      (e.recordNack ingress.face nack.reason).hasPendingOutRecords again = true) :
    fw''.node.journal.sent = last.node.journal.sent := by
  cases hagain.passesOn with
  | waits _ hsent _ => exact hsent
  | returns _ hdone _ hsent _ =>
      cases hfirst.passesOn with
      | waits hpending _ _ =>
          have hstill := hwaits hpending
          rw [PitEntry.hasPendingOutRecords,
            PitEntry.outRecords_recordNack_again hfirst.outRecords] at hdone
          cases hdone.symm.trans hstill
      | returns _ _ _ _ hrecords =>
          obtain ⟨new, hnew, hpackets⟩ := hsent
          have hnobody : left.inRecords.filter (fun r => last.node.reachesOne r.face) = [] := by
            refine List.filter_eq_nil_iff.mpr fun r hr => ?_
            rw [hlinks r hr]
            rw [hrecords] at hr
            simpa using (List.mem_filter.mp hr).2
          have hkept : (left.recordNack ingress.face nack.reason).inRecords = left.inRecords := rfl
          rw [hkept, hnobody] at hpackets
          rw [hnew, List.map_eq_nil_iff.mp hpackets, List.append_nil]

/-- With the built-in strategies, an accepted Nack is noted in its entry and passed on from there:
nothing is sent while a face may still answer; otherwise everybody who waits behind a link with a
single peer is handed back the Interest that came in last from there, with the mildest of the reasons
noted in the entry, and waits no longer. As long as the entry is left alone, the same Nack sends
nothing more, unless a face might still have answered the first time and none may the second time. -/
theorem nack_passed_on (run : Run (Forwarder.new settings store hash) history fw) (now : Timestamp)
    (hinfo : fw.node.faces.info? ingress.face = some info) (nack : Nack)
    (hhands : fw.node.HandsBack info ingress.face nack) :
    ∃ fw' token e left, fw.receiveNack now ingress nack = .ok fw' ∧
      TakesNack fw fw' now ingress.face nack token e left ∧
      (∀ r ∈ e.inRecords, ∃ arrival, CameIn history token r arrival) ∧
      ∀ later last again, Run (Forwarder.new settings store hash)
          (later ++ ⟨fw, .receive now ingress (.nack nack), fw'⟩ :: history) last →
        (∀ t ∈ later, t.after.node.tables.pit.get? token = t.before.node.tables.pit.get? token) →
        ∃ fw'', last.receiveNack again ingress nack = .ok fw'' ∧
          (((e.recordNack ingress.face nack.reason).hasPendingOutRecords now = true →
              (e.recordNack ingress.face nack.reason).hasPendingOutRecords again = true) →
            fw''.node.journal.sent = last.node.journal.sent) := by
  have h := run.reachable.orderly
  obtain ⟨arrival, fw', hreceive, hverdict⟩ := h.receiveNack_verdict hinfo now nack
  obtain rfl := (hverdict.accepted_iff h).mpr hhands
  obtain ⟨hrefused, -⟩ | ⟨-, token, e, left, htakes⟩ := hverdict.takesNack h run.valid.builtIn
  · exact absurd rfl hrefused
  have hperform : fw.perform (.receive now ingress (.nack nack)) = .ok fw' := hreceive
  have hstep := Run.step run _ hperform
  refine ⟨fw', token, e, left, hreceive, htakes, ?_, ?_⟩
  · exact fun r hr => run.cameIn (Node.mem_waitingIn.mpr ⟨e, htakes.found, hr⟩)
  intro later last again hrun halone
  have hlast := hrun.reachable.orderly
  obtain ⟨hleft, hlinks⟩ := hrun.reachesOne_left htakes.after halone
  cases hinfo' : last.node.faces.info? ingress.face with
  | none => exact ⟨_, last.receiveNack_of_unknown again hinfo' nack, fun _ => rfl⟩
  | some info' =>
      obtain ⟨arrival', fw'', hreceive', hverdict'⟩ := hlast.receiveNack_verdict hinfo' again nack
      refine ⟨fw'', hreceive', fun hwaits => ?_⟩
      obtain ⟨-, hsent⟩ | ⟨-, token', e', left', hagain⟩ :=
        hverdict'.takesNack hlast hrun.valid.builtIn
      · exact hsent
      -- The entry was left alone, so it is the one that is found again.
      have hkept := interest_perform run.valid hperform htakes.found htakes.after
      obtain rfl : token' = token := by
        apply hlast.node.distinguished token' token e' left hagain.found hleft
        have hsame := htakes.same
        rw [← hkept, Interest.sameSelectors_comm] at hsame
        exact Interest.sameSelectors_trans hagain.same hsame
      obtain rfl := Option.some.inj (hagain.found.symm.trans hleft)
      refine htakes.quiet_again hagain (fun r hr => (hlinks r hr).trans ?_) hwaits
      exact hstep.reachesOne_step htakes.found htakes.after (htakes.inRecords_subset hr) hr

end Propagation

/-- The second face hands back the Interest of the first one, which goes on to the first; when the
Nack comes again, nothing more does. -/
theorem nack_passed_on_from_upstream : ∃ history info fw' fw'' token e left,
    Run Sample.start history Sample.sentOn.after ∧
      Sample.sentOn.after.node.faces.info? ⟨257⟩ = some info ∧
      Sample.sentOn.after.node.HandsBack info ⟨257⟩ Sample.handedBack ∧
      Sample.sentOn.after.receiveNack ⟨2⟩ ⟨⟨257⟩, 0⟩ Sample.handedBack = .ok fw' ∧
      TakesNack Sample.sentOn.after fw' ⟨2⟩ ⟨257⟩ Sample.handedBack token e left ∧
      fw'.receiveNack ⟨2⟩ ⟨⟨257⟩, 0⟩ Sample.handedBack = .ok fw'' ∧
      fw''.node.journal.sent = fw'.node.journal.sent := by
  have run : Run Sample.start _ Sample.sentOn.after :=
    Run.reached Sample.start (Sample.ask ⟨1⟩ ⟨1⟩ :: Sample.threeFaces) (by decide +kernel)
  have hlinked : (Sample.sentOn.after.node.faces.info? ⟨257⟩).any FaceInfo.isPointToPoint =
      true := by decide +kernel
  obtain ⟨info, hinfo, hlink⟩ := (Option.any_eq_true _ _).mp hlinked
  have hhands : Sample.sentOn.after.node.HandsBack info ⟨257⟩ Sample.handedBack :=
    Sample.handsBack_handedBack hlink (by decide +kernel)
  let ingress : FaceEndpoint := ⟨⟨257⟩, 0⟩
  have hknown : Sample.sentOn.after.node.faces.info? ingress.face = some info := hinfo
  obtain ⟨fw', token, e, left, hreceive, htakes, -, hagain⟩ :=
    nack_passed_on run ⟨2⟩ hknown Sample.handedBack hhands
  have hperform : Sample.sentOn.after.perform (.receive ⟨2⟩ ingress (.nack Sample.handedBack)) =
      .ok fw' := hreceive
  obtain ⟨fw'', hreceive', hquiet⟩ :=
    hagain [] fw' ⟨2⟩ (.step run _ hperform) (by simp)
  exact ⟨_, info, fw', fw'', token, e, left, run, hinfo, hhands, hreceive, htakes, hreceive',
    hquiet id⟩

namespace Sample

/-- The routes of the name lead to the second face and the third, and both are used. -/
def twoRoutes : List Operation :=
  [.setStrategy name 1, .addRoute ⟨1⟩ name ⟨258⟩ 0] ++ threeFaces

def askBriefly : Operation :=
  .receive ⟨1⟩ ⟨⟨256⟩, 0⟩ (.interest { name, nonce := ⟨1⟩, lifetime? := some 100 })

def handBack (now : Timestamp) : Operation :=
  .receive now ⟨⟨257⟩, 0⟩ (.nack handedBack)

/-- The first face asks briefly, then again for longer. -/
def askedLonger : List Operation :=
  [ask ⟨2⟩ ⟨2⟩, askBriefly] ++ twoRoutes

/-- The second face hands the Interest back while the third may still answer. -/
def firstReturn : Step :=
  ⟨reached start askedLonger, handBack ⟨3⟩, reached start (handBack ⟨3⟩ :: askedLonger)⟩

/-- The second face hands the Interest back again after the time of the third has run out. -/
def secondReturn : Step :=
  ⟨firstReturn.after, handBack ⟨102⟩,
    reached start (handBack ⟨102⟩ :: handBack ⟨3⟩ :: askedLonger)⟩

theorem run_secondReturn : Run start (secondReturn :: firstReturn :: historyOf start askedLonger)
    secondReturn.after := by
  have hrun := Run.reached start (handBack ⟨102⟩ :: handBack ⟨3⟩ :: askedLonger)
    (by decide +kernel)
  rwa [historyOf_cons _ _ _ (by decide +kernel), historyOf_cons _ _ _ (by decide +kernel)] at hrun

end Sample

/-- A Nack comes twice in a row, and both times hands back what was last sent to its face. Nothing is
sent the first time. The second time the Nack is passed on. -/
theorem nack_sent_on_return : ∃ second first earlier fw info,
    Run Sample.start (second :: first :: earlier) fw ∧
      first.operation = .receive ⟨3⟩ ⟨⟨257⟩, 0⟩ (.nack Sample.handedBack) ∧
      second.operation = .receive ⟨102⟩ ⟨⟨257⟩, 0⟩ (.nack Sample.handedBack) ∧
      first.before.node.faces.info? ⟨257⟩ = some info ∧
      first.before.node.HandsBack info ⟨257⟩ Sample.handedBack ∧ first.sent = [] ∧
      (second.before.node.tables.pit.get? ⟨0, 0⟩).isSome = true ∧
      second.sent.map (fun t => (t.peer, t.packet)) = [(⟨⟨256⟩, 0⟩,
        .nack { interest := { name := Sample.name, nonce := ⟨2⟩ }, reason := .noRoute })] := by
  have hlinked : (Sample.firstReturn.before.node.faces.info? ⟨257⟩).any FaceInfo.isPointToPoint =
      true := by decide +kernel
  obtain ⟨info, hinfo, hlink⟩ := (Option.any_eq_true _ _).mp hlinked
  exact ⟨_, _, _, _, info, Sample.run_secondReturn, rfl, rfl, hinfo,
    Sample.handsBack_handedBack hlink (by decide +kernel), by decide +kernel, by decide +kernel,
    by decide +kernel⟩

end NamedData
