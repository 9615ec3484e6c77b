import NamedData.Proofs.Preservation

/-!
What incoming Data does to an entry that it answers, and what goes out for it, in full. The entry is
satisfied and due at once, the face that the Data came from owes nothing any more, and those who
were served wait no longer; Data for one entry leaves the others waiting, Data for several leaves
nobody.
-/

namespace NamedData

/-- Whether the face of a record is served when Data comes in. A face gets its own Data back only
over an ad hoc link. -/
def InRecord.isServed (r : InRecord) (now : Timestamp) (ingress : FaceId) (isAdHoc : Bool) : Bool :=
  r.isLive now && (r.face ≠ ingress || isAdHoc)

namespace PitEntry

/-- The entry after Data came in for it. -/
def answered (e : PitEntry) (ingress : FaceId) (freshness : Millis) (left : List InRecord)
    (timer : Nat) : PitEntry :=
  { e with
    inRecords := left
    outRecords := e.outRecords.filter fun r => r.face ≠ ingress
    satisfied := true
    dataFreshness := freshness
    expiryTimer := some timer }

/-! ### Records that are deleted -/

theorem eraseP_eq_filter {ρ κ : Type} [DecidableEq κ] (key : ρ → κ) {l : List ρ}
    (h : (l.map key).Nodup) (k : κ) :
    (l.eraseP fun r => key r = k) = l.filter fun r => key r ≠ k := by
  induction l with
  | nil => rfl
  | cons r rest ih =>
      obtain ⟨hr, hrest⟩ := List.nodup_cons.mp h
      by_cases same : key r = k
      · have hothers : rest.filter (fun s => key s ≠ k) = rest := by
          apply List.filter_eq_self.mpr
          intro s hs
          apply decide_eq_true
          intro hsame
          apply hr
          rw [same, ← hsame]
          exact List.mem_map_of_mem hs
        simpa [same] using hothers.symm
      · simp [same, ih hrest]

theorem deleteIn_eq {e : PitEntry} (h : e.Distinct) (face : FaceId) :
    e.deleteIn face = { e with inRecords := e.inRecords.filter fun r => r.face ≠ face } := by
  rw [deleteIn, eraseP_eq_filter InRecord.face h.inFaces]

theorem deleteOut_eq {e : PitEntry} (h : e.Distinct) (face : FaceId) :
    e.deleteOut face = { e with outRecords := e.outRecords.filter fun r => r.face ≠ face } := by
  rw [deleteOut, eraseP_eq_filter OutRecord.face h.outFaces]

theorem deleteEach_eq {e : PitEntry} (h : e.Distinct) (faces : List FaceId) :
    faces.foldl deleteIn e =
      { e with inRecords := e.inRecords.filter fun r => r.face ∉ faces } := by
  induction faces generalizing e with
  | nil => simp
  | cons face rest ih =>
      rw [List.foldl_cons, ih (h.of_shrinks (e.shrinks_deleteIn face)), deleteIn_eq h,
        List.filter_filter]
      simp [Bool.and_comm]

end PitEntry

/-! ### Data that goes out -/

/-- Data that is sent to some peers goes out to those whose face lets it, in the same order. -/
theorem Node.sent_sendDataEach (data : Data) (peers : List FaceEndpoint) (n : Node) :
    ∃ sent, (peers.foldl (fun n egress => n.sendData egress data) n).journal.sent =
        n.journal.sent ++ sent ∧
      sent.map Transmission.peer = peers.filter (fun p => n.lets data p.face) ∧
      ∀ t ∈ sent, t.packet = .data data := by
  induction peers generalizing n with
  | nil => exact ⟨[], (List.append_nil _).symm, rfl, by simp⟩
  | cons p rest ih =>
      obtain ⟨sent, hsent, hpeers, hpackets⟩ := ih (n.sendData p data)
      have hlets := (n.unmoved_sendData p data).lets
      rw [hlets] at hpeers
      rw [List.foldl_cons, hsent]
      cases hfirst : n.lets data p.face with
      | false =>
          rw [Node.sent_sendData_of_not_lets hfirst]
          exact ⟨sent, rfl, by simp [hpeers, hfirst], hpackets⟩
      | true =>
          obtain ⟨isTaken, hone⟩ := Node.sent_sendData_of_lets hfirst
          refine ⟨Transmission.mk p (.data data) isTaken :: sent, ?_, ?_, ?_⟩
          · rw [hone, List.append_assoc, List.singleton_append]
          · simp [hpeers, hfirst]
          · intro t ht
            rcases List.mem_cons.mp ht with rfl | later
            · rfl
            · exact hpackets t later

namespace Focus

theorem sendDataEach_eq (data : Data) (peers : List FaceEndpoint) (f : Focus) :
    peers.foldl (fun f egress => f.sendData egress data) f =
      { node := peers.foldl (fun n egress => n.sendData egress data) f.node
        token := f.token
        entry := (peers.map FaceEndpoint.face).foldl PitEntry.deleteIn f.entry } := by
  induction peers generalizing f with
  | nil => rfl
  | cons p rest ih =>
      rw [List.foldl_cons, ih]
      rfl

theorem isServed_iff {r : InRecord} {now : Timestamp} {ingress : FaceId} {isAdHoc : Bool} :
    r.isServed now ingress isAdHoc = true ↔
      r.isLive now = true ∧ (r.face ≠ ingress ∨ isAdHoc = true) := by
  simp [InRecord.isServed]

variable {f : Focus}

theorem face_mem_waiting_iff (h : f.entry.Distinct) (ingress : FaceId) {r : InRecord}
    (hr : r ∈ f.entry.inRecords) : r.face ∈ (f.waiting ingress).map FaceEndpoint.face ↔
      r.isServed f.node.now ingress ((f.node.faces.info? ingress).any FaceInfo.isAdHoc) = true := by
  rw [isServed_iff, List.mem_map]
  constructor
  · rintro ⟨p, hp, hface⟩
    obtain ⟨s, hs, hlive, hother, rfl⟩ := mem_waiting.mp hp
    have same : s = r := List.inj_on_of_nodup_map h.inFaces hs hr hface
    rw [← same]
    exact ⟨hlive, hother⟩
  · rintro ⟨hlive, hother⟩
    exact ⟨r.peer, mem_waiting.mpr ⟨r, hr, hlive, hother, rfl⟩, rfl⟩

/-- The records of those who are served, and no others, are gone afterwards. -/
theorem sendDataToAll_eq (h : f.entry.Distinct) (ingress : FaceEndpoint) (data : Data) :
    f.sendDataToAll ingress data =
      { node := (f.waiting ingress.face).foldl (fun n egress => n.sendData egress data) f.node
        token := f.token
        entry := { f.entry with
          inRecords := f.entry.inRecords.filter fun r => !r.isServed f.node.now ingress.face
            ((f.node.faces.info? ingress.face).any FaceInfo.isAdHoc) } } := by
  rw [sendDataToAll, sendDataEach_eq, PitEntry.deleteEach_eq h]
  congr 2
  apply List.filter_congr
  intro r hr
  simp only [face_mem_waiting_iff h ingress.face hr, Bool.not_eq_true, Bool.decide_eq_false]

/-! ### The entry is closed -/

theorem timers_closeEntry (ingress : FaceEndpoint) (data : Data) (f : Focus) :
    (Forwarder.closeEntry ingress data f).node.timers = f.node.timers := by
  obtain ⟨deadNonces, hremember⟩ := Forwarder.rememberNonces_eq (Forwarder.settle data f)
    ((Forwarder.settle data f).entry.outRecord? ingress.face).toList
  rw [Forwarder.closeEntry_eq, hremember]
  rfl

theorem entry_closeEntry (h : f.entry.Distinct) (ingress : FaceEndpoint) (data : Data) {timer : Nat}
    (htimer : f.entry.expiryTimer = some timer) :
    (Forwarder.closeEntry ingress data f).entry =
      f.entry.answered ingress.face data.freshness f.entry.inRecords timer := by
  obtain ⟨deadNonces, hremember⟩ := Forwarder.rememberNonces_eq (Forwarder.settle data f)
    ((Forwarder.settle data f).entry.outRecord? ingress.face).toList
  have hsettled : (Forwarder.settle data f).entry.Distinct := ⟨h.inFaces, h.outFaces⟩
  have hentry : (Forwarder.closeEntry ingress data f).entry =
      (Forwarder.settle data f).entry.deleteOut ingress.face := by
    rw [Forwarder.closeEntry_eq, hremember]
    rfl
  rw [hentry, PitEntry.deleteOut_eq hsettled, PitEntry.answered, ← htimer]
  rfl

end Focus

/-! ### Several entries -/

/-- The second node is the first one after Data came in for the entries of some tokens, of whose
in-records some are left. No other entry and no other timer is touched. -/
structure Node.Answered (n m : Node) (tokens : List PitToken) (ingress : FaceId)
    (freshness : Millis) (left : PitEntry → List InRecord) : Prop where
  entries : ∀ token ∈ tokens, ∀ e, n.tables.pit.get? token = some e → ∃ timer,
    m.tables.pit.get? token = some (e.answered ingress freshness (left e) timer) ∧
      Timer.mk n.now timer token ∈ m.timers.timers
  others : ∀ token, token ∉ tokens → m.tables.pit.get? token = n.tables.pit.get? token
  timers : ∀ t : Timer PitToken, t.entry ∉ tokens → (t ∈ m.timers.timers ↔ t ∈ n.timers.timers)
  now : m.now = n.now
  info? : m.faces.info? = n.faces.info?

namespace Node.Answered

variable {n m k : Node} {token : PitToken} {tokens : List PitToken} {ingress : FaceId}
  {freshness : Millis} {left : PitEntry → List InRecord}

theorem refl (n : Node) (ingress : FaceId) (freshness : Millis) (left : PitEntry → List InRecord) :
    n.Answered n [] ingress freshness left where
  entries _ member := absurd member List.not_mem_nil
  others _ _ := rfl
  timers _ _ := Iff.rfl
  now := rfl
  info? := rfl

theorem cons (h : n.Answered m [token] ingress freshness left) (hnew : token ∉ tokens)
    (h' : m.Answered k tokens ingress freshness left) :
    n.Answered k (token :: tokens) ingress freshness left where
  entries u member e hget := by
    rcases List.mem_cons.mp member with rfl | later
    · obtain ⟨timer, hanswered, harmed⟩ := h.entries u List.mem_cons_self e hget
      refine ⟨timer, ?_, ?_⟩
      · rw [h'.others u hnew, hanswered]
      · exact (h'.timers (Timer.mk n.now timer u) hnew).mpr harmed
    · have hother : u ∉ [token] := by
        intro same
        rw [List.mem_singleton.mp same] at later
        exact hnew later
      obtain ⟨timer, hanswered, harmed⟩ := h'.entries u later e ((h.others u hother).trans hget)
      rw [h.now] at harmed
      exact ⟨timer, hanswered, harmed⟩
  others u hnot := by
    obtain ⟨hfirst, hrest⟩ := not_or.mp (List.mem_cons.not.mp hnot)
    rw [h'.others u hrest, h.others u (List.mem_singleton.not.mpr hfirst)]
  timers t hnot := by
    obtain ⟨hfirst, hrest⟩ := not_or.mp (List.mem_cons.not.mp hnot)
    exact (h'.timers t hrest).trans (h.timers t (List.mem_singleton.not.mpr hfirst))
  now := h'.now.trans h.now
  info? := h'.info?.trans h.info?

/-- What is handed out afterwards does not matter. -/
theorem unmoved (h : n.Answered m tokens ingress freshness left) (hmoved : m.Unmoved k) :
    n.Answered k tokens ingress freshness left where
  entries token member e hget := by
    rw [hmoved.tables, hmoved.timers]
    exact h.entries token member e hget
  others token hnot := by
    rw [hmoved.tables]
    exact h.others token hnot
  timers t hnot := by
    rw [hmoved.timers]
    exact h.timers t hnot
  now := hmoved.now.trans h.now
  info? := hmoved.info?.trans h.info?

/-- One entry that was at hand is put back. -/
theorem of_release {count : Nat} (hvalid : n.Valid count) {e : PitEntry} {f : Focus}
    (hget : n.tables.pit.get? token = some e) (hkeeps : Focus.Keeps ⟨n, token, e⟩ f)
    (htimers : f.node.timers = (Focus.setExpiry ⟨n, token, e⟩ 0).node.timers)
    (hentry : f.entry = e.answered ingress freshness (left e) n.timers.nextId) :
    n.Answered f.release [token] ingress freshness left := by
  have hfocus := hvalid.focus hget
  have hentries := Focus.get?_release (hkeeps.live hfocus.live)
  have harmed (t : Timer PitToken) : t ∈ f.release.timers.timers ↔
      t = Timer.mk n.now n.timers.nextId token ∨ t ∈ n.timers.timers ∧ t.entry ≠ token := by
    have hmem := Focus.mem_timers_setExpiry hfocus.timed 0 (t := t)
    rw [Timestamp.adding_zero, ← htimers] at hmem
    exact hmem
  constructor
  · intro u member e' hget'
    rw [List.mem_singleton] at member
    subst member
    rw [hget, Option.some.injEq] at hget'
    subst hget'
    refine ⟨n.timers.nextId, ?_, (harmed _).mpr (.inl rfl)⟩
    have hown := f.entryOf?_self
    rw [hkeeps.token] at hown
    rw [hentries, hown, hentry]
  · intro u hnot
    have hne : u ≠ token := List.mem_singleton.not.mp hnot
    rw [hentries, hkeeps.entryOf?_of_ne hne, Focus.entryOf?_of_ne _ hne]
  · intro t hnot
    have hne : t.entry ≠ token := List.mem_singleton.not.mp hnot
    rw [harmed]
    constructor
    · rintro (rfl | ⟨member, _⟩)
      · exact absurd rfl hne
      · exact member
    · intro member
      exact .inr ⟨member, hne⟩
  · exact hkeeps.now
  · exact hkeeps.info?

end Node.Answered

/-! ### The entry at hand -/

/-- The second node is the first one after it sent Data to some peers, in this order, and sent
nothing else. -/
def Node.SentTo (n m : Node) (data : Data) (peers : List FaceEndpoint) : Prop :=
  ∃ sent, m.journal.sent = n.journal.sent ++ sent ∧ sent.map Transmission.peer = peers ∧
    ∀ t ∈ sent, t.packet = .data data

namespace Forwarder

variable {n : Node} {count : Nat} {token : PitToken} {e : PitEntry} {ingress : FaceEndpoint}
  {data : Data} {info : FaceInfo} {g : Focus}

theorem isAdHoc_of_quiet (hinfo : n.faces.info? ingress.face = some info)
    (hquiet : (Focus.setExpiry ⟨n, token, e⟩ 0).Quiet g) :
    (g.node.faces.info? ingress.face).any FaceInfo.isAdHoc = info.isAdHoc := by
  have hfaces : g.node.faces.info? = n.faces.info? := hquiet.node.info?
  rw [hfaces, hinfo, Option.any_some]

theorem entry_of_quiet (hquiet : (Focus.setExpiry ⟨n, token, e⟩ 0).Quiet g) :
    g.entry = { e with expiryTimer := some n.timers.nextId } := by
  rw [hquiet.entry]
  exact congrArg (fun id => { e with expiryTimer := some id }) (Focus.nextId_disarmed ⟨n, token, e⟩)

theorem distinct_of_quiet (h : n.Valid count) (hget : n.tables.pit.get? token = some e)
    (hquiet : (Focus.setExpiry ⟨n, token, e⟩ 0).Quiet g) : g.entry.Distinct := by
  rw [entry_of_quiet hquiet]
  have hdistinct := (h.wellKept token e hget).distinct
  exact ⟨hdistinct.inFaces, hdistinct.outFaces⟩

/-- Data for a single entry leaves those waiting who are not served. -/
theorem answered_one (h : n.Valid count) (hget : n.tables.pit.get? token = some e)
    (hinfo : n.faces.info? ingress.face = some info)
    (hquiet : (Focus.setExpiry ⟨n, token, e⟩ 0).Quiet g) :
    n.Answered (closeEntry ingress data (g.sendDataToAll ingress data)).release [token]
      ingress.face data.freshness
      fun e => e.inRecords.filter fun r => !r.isServed n.now ingress.face info.isAdHoc := by
  have hdistinct := distinct_of_quiet h hget hquiet
  have hnow : g.node.now = n.now := hquiet.node.now
  have hmoves := Focus.moves_sendDataToAll hdistinct ingress data
  have hall := Focus.sendDataToAll_eq hdistinct ingress data
  rw [hnow, isAdHoc_of_quiet hinfo hquiet, entry_of_quiet hquiet] at hall
  apply Node.Answered.of_release h hget (keeps_one hquiet ingress data data)
  · have hmoved := unmoved_sendDataEach data (g.waiting ingress.face) g.node
    rw [Focus.timers_closeEntry, hall]
    exact hmoved.timers.trans hquiet.node.timers
  · have htimer : (g.sendDataToAll ingress data).entry.expiryTimer = some n.timers.nextId := by
      rw [hall]
    rw [Focus.entry_closeEntry (hmoves.distinct hdistinct) ingress data htimer, hall]
    rfl

theorem sent_one (hquiet : (Focus.setExpiry ⟨n, token, e⟩ 0).Quiet g) :
    n.SentTo (closeEntry ingress data (g.sendDataToAll ingress data)).release data
      ((g.waiting ingress.face).filter fun p => n.lets data p.face) := by
  obtain ⟨sent, hsent, hpeers, hpackets⟩ :=
    Node.sent_sendDataEach data (g.waiting ingress.face) g.node
  have hbefore : g.node.journal.sent = n.journal.sent := hquiet.node.sent
  have hlets : g.node.lets = n.lets := hquiet.node.toUnmoved.lets
  have hall : (g.sendDataToAll ingress data).node =
      (g.waiting ingress.face).foldl (fun n egress => n.sendData egress data) g.node := by
    rw [Focus.sendDataToAll, Focus.sendDataEach_eq]
  rw [hlets] at hpeers
  refine ⟨sent, ?_, hpeers, hpackets⟩
  rw [← hbefore, ← hsent, ← hall]
  exact sent_closeEntry ingress data (g.sendDataToAll ingress data)

theorem mem_waiting_one (hinfo : n.faces.info? ingress.face = some info)
    (hquiet : (Focus.setExpiry ⟨n, token, e⟩ 0).Quiet g) {p : FaceEndpoint} :
    p ∈ g.waiting ingress.face ↔ ∃ r ∈ e.inRecords,
      r.isServed n.now ingress.face info.isAdHoc = true ∧ r.peer = p := by
  have hnow : g.node.now = n.now := hquiet.node.now
  rw [Focus.mem_waiting, hnow, isAdHoc_of_quiet hinfo hquiet, entry_of_quiet hquiet]
  simp only [Focus.isServed_iff, and_assoc]

/-- Data for one of several entries leaves nobody waiting. -/
theorem answered_among (h : n.Valid count) (hget : n.tables.pit.get? token = some e)
    (hquiet : (Focus.setExpiry ⟨n, token, e⟩ 0).Quiet g) :
    n.Answered ((closeEntry ingress data g).onEntry PitEntry.clearIn).release [token] ingress.face
      data.freshness fun _ => [] := by
  have hentry := entry_of_quiet hquiet
  have htimer : g.entry.expiryTimer = some n.timers.nextId := by rw [hentry]
  have hclosed := Focus.entry_closeEntry (distinct_of_quiet h hget hquiet) ingress data htimer
  apply Node.Answered.of_release h hget (keeps_among hquiet ingress data)
  · exact (Focus.timers_closeEntry ingress data g).trans hquiet.node.timers
  · have hcleared : ((closeEntry ingress data g).onEntry PitEntry.clearIn).entry =
        (closeEntry ingress data g).entry.clearIn := rfl
    rw [hcleared, hclosed, hentry]
    rfl

end Forwarder

end NamedData
