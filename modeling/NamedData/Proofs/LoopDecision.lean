import NamedData.Proofs.Reachability

/-!
When an Interest is treated as a loop, and what is left of it then. Its name and nonce are
remembered, or some record of the entry for the same carries its nonce; only a face with a single
peer may repeat the nonce that it waits with. Such an Interest never makes an entry, since a new one
has no records; nothing remains of it but a count and, where the face has a single peer, a Nack that
was sent back.
-/

namespace NamedData

open Forwarder

/-! ### The decision -/

namespace PitEntry

/-- Some record of the entry carries the nonce. -/
def Carries (e : PitEntry) (nonce : Nonce) : Prop :=
  (∃ face, e.WaitsWith face nonce) ∨ ∃ face, e.SentWith face nonce

theorem carries_iff (e : PitEntry) (nonce : Nonce) (face : FaceId) :
    (e.findNonce nonce face).isNone = false ↔ e.Carries nonce := by
  constructor
  · intro hfound
    simp only [findNonce, DuplicateNonce.isNone, Bool.and_eq_false_iff, Bool.not_eq_false',
      List.any_eq_true, Bool.and_eq_true, decide_eq_true_eq] at hfound
    rcases hfound with ((hin | hin) | hout) | hout
    · obtain ⟨r, hr, hnonce, -⟩ := hin
      exact .inl ⟨r.face, r, hr, rfl, hnonce⟩
    · obtain ⟨r, hr, hnonce, -⟩ := hin
      exact .inl ⟨r.face, r, hr, rfl, hnonce⟩
    · obtain ⟨o, ho, hnonce, -⟩ := hout
      exact .inr ⟨o.face, o, ho, rfl, hnonce⟩
    · obtain ⟨o, ho, hnonce, -⟩ := hout
      exact .inr ⟨o.face, o, ho, rfl, hnonce⟩
  · -- every record belongs to the face or to another one
    rintro (⟨_, r, hr, rfl, rfl⟩ | ⟨_, o, ho, rfl, rfl⟩)
    · by_cases hface : r.face = face
      · have hsame : (e.findNonce r.nonce face).inSame = true :=
          List.any_eq_true.mpr ⟨r, hr, by simp [hface]⟩
        simp [DuplicateNonce.isNone, hsame]
      · have hother : (e.findNonce r.nonce face).inOther = true :=
          List.any_eq_true.mpr ⟨r, hr, by simp [hface]⟩
        simp [DuplicateNonce.isNone, hother]
    · by_cases hface : o.face = face
      · have hsame : (e.findNonce o.nonce face).outSame = true :=
          List.any_eq_true.mpr ⟨o, ho, by simp [hface]⟩
        simp [DuplicateNonce.isNone, hsame]
      · have hother : (e.findNonce o.nonce face).outOther = true :=
          List.any_eq_true.mpr ⟨o, ho, by simp [hface]⟩
        simp [DuplicateNonce.isNone, hother]

theorem isLoop_iff (e : PitEntry) (info : FaceInfo) (nonce : Nonce) (face : FaceId) :
    isLoop info (e.findNonce nonce face) = true ↔
      e.Carries nonce ∧ ¬ (info.isPointToPoint = true ∧ e.WaitsWith face nonce) := by
  have hwaits : (e.findNonce nonce face).inSame = true ↔ e.WaitsWith face nonce := by
    simp [findNonce, WaitsWith, and_comm]
  rw [isLoop, Bool.and_eq_true, Bool.not_eq_true', e.carries_iff nonce face, Bool.not_eq_true',
    ← hwaits, ← Bool.and_eq_true, Bool.not_eq_true]

end PitEntry

/-- An Interest from a face loops: its name and nonce are remembered, or some record of the entry
for the same carries its nonce and it is not that the face, with a single peer, repeats its own. -/
def Node.Loops (n : Node) (now : Timestamp) (info : FaceInfo) (face : FaceId) (i : Interest) :
    Prop :=
  n.deadNonces.has i.name i.nonce now = true ∨
    ∃ token e, n.tables.pit.get? token = some e ∧ e.interest.sameSelectors i = true ∧
      e.Carries i.nonce ∧ ¬ (info.isPointToPoint = true ∧ e.WaitsWith face i.nonce)

namespace Forwarder

variable {fw fw' : Forwarder} {now : Timestamp} {ingress : FaceEndpoint} {info : FaceInfo}
  {i : Interest}

/-- An Interest that its face may send here is let in. -/
theorem not_violates (h : info.isLocal = true ∨ i.name.isLocalhost = false) :
    (!info.isLocal && i.name.isLocalhost) = false := by
  rcases h with h | h <;> rw [h] <;> simp

/-- An Interest that its face may send here is turned away exactly if it loops. -/
theorem turnsAway_iff (hinfo : fw.node.faces.info? ingress.face = some info)
    (hscope : info.isLocal = true ∨ i.name.isLocalhost = false) :
    fw.turnsAway now ingress i = true ↔ fw.node.Loops now info ingress.face i := by
  have hlets := not_violates hscope
  rw [turnsAway, hinfo, Option.any_some, hlets, Bool.false_or, Bool.or_eq_true, Node.Loops,
    List.any_eq_true]
  refine or_congr_right ⟨?_, ?_⟩
  · rintro ⟨token, -, hany⟩
    obtain ⟨e, hget, hboth⟩ := (Option.any_eq_true _ _).mp hany
    obtain ⟨hsame, hloop⟩ := (Bool.and_eq_true _ _).mp hboth
    exact ⟨token, e, hget, hsame, (e.isLoop_iff info i.nonce ingress.face).mp hloop⟩
  · rintro ⟨token, e, hget, hsame, hcarries⟩
    refine ⟨token, Arena.mem_tokens.mpr ⟨e, hget⟩, ?_⟩
    rw [hget, Option.any_some, hsame, Bool.true_and]
    exact (e.isLoop_iff info i.nonce ingress.face).mpr hcarries

/-! ### What is left of a loop -/

/-- Nothing is left of an Interest but that it was counted and, if its face has a single peer, sent
back in a Nack with the given forwarding hint. -/
structure Traceless (fw fw' : Forwarder) (ingress : FaceEndpoint) (info : FaceInfo) (i : Interest)
    (hint : List Name) : Prop where
  tables : fw'.node.tables = fw.node.tables
  timers : fw'.node.timers = fw.node.timers
  deadNonces : fw'.node.deadNonces = fw.node.deadNonces
  store : fw'.store = fw.store
  sentBack : info.isPointToPoint = true → ∃ isTaken,
    fw'.node.journal.sent = fw.node.journal.sent ++
      [⟨ingress, .nack { interest := { i.untagged with forwardingHint := hint }
                         reason := .duplicate }, isTaken⟩]
  silent : info.isPointToPoint = false → fw'.node.journal.sent = fw.node.journal.sent

/-- Telling a loop, with talk before and after it, leaves no other trace. -/
theorem traceless_tellLoop {m m' : Node} (hint : List Name)
    (hinfo : fw.node.faces.info? ingress.face = some info)
    (hbefore : (noteInterest now ingress i fw.node).Quiet m)
    (hafter : (tellLoop ingress info (i.arrived ingress.face hint) m).Quiet m') :
    fw.Traceless { fw with node := m' } ingress info i hint := by
  obtain ⟨hmoved, hnack, hsilent⟩ := told_loop hint hinfo hbefore hafter
  exact ⟨hmoved.tables, hmoved.timers, hmoved.deadNonces, rfl, hnack, hsilent⟩

/-- With built-in strategies, a loop leaves no trace. -/
theorem Valid.receiveInterest_traceless (h : fw.Valid) (hdistinguished : fw.node.Distinguished)
    (hinfo : fw.node.faces.info? ingress.face = some info)
    (hscope : info.isLocal = true ∨ i.name.isLocalhost = false)
    (hloops : fw.node.Loops now info ingress.face i) :
    ∃ fw', fw.receiveInterest now ingress i = .ok fw' ∧
      fw.Traceless fw' ingress info i (if fw.node.deadNonces.has i.name i.nonce now then
        i.forwardingHint else hintLeft fw.node.regions i) := by
  have hlets := not_violates hscope
  rw [receiveInterest_of_known hinfo, hlets]
  cases hremembered : fw.node.deadNonces.has i.name i.nonce now with
  | true => exact ⟨_, rfl, traceless_tellLoop i.forwardingHint hinfo (.refl _) (.refl _)⟩
  | false =>
      obtain ⟨token, e, hget, hsame, hcarries⟩ := hloops.resolve_left (by simp [hremembered])
      have hloop := (e.isLoop_iff info i.nonce ingress.face).mpr hcarries
      obtain ⟨m, hint, harrive, hquiet, -, hhint⟩ := arrive_cases fw now ingress i
      have hnoted : (noteInterest now ingress i fw.node).Valid fw.strategies.length :=
        h.node.congr rfl rfl rfl
      have hvalid : Valid { fw with node := m } := h.of_node rfl (hnoted.unmoved hquiet.toUnmoved)
      have htables : m.tables = fw.node.tables := hquiet.tables
      have hfind : m.tables.findPending (i.arrived ingress.face hint) = .ok (some token) := by
        rw [htables, Interest.arrived, findPending_hinted]
        exact hdistinguished.findPending h.node.indexed hget hsame
      obtain ⟨notice, hadmit⟩ := hvalid.admitInterest_loops hfind (htables ▸ hget) hloop
      rw [harrive, hhint] at *
      exact ⟨_, hadmit, traceless_tellLoop _ hinfo hquiet (Node.quiet_say _ notice)⟩

end Forwarder

section Decision

variable {settings : Settings} {store : ContentStore} {hash : HashFunction} {fw : Forwarder}
  {ingress : FaceEndpoint} {info : FaceInfo} {i : Interest}

/-- Whatever strategies a forwarder has, an Interest that comes in from a face that may send it here
is treated as a loop exactly if it loops; any other Interest counts once as answered from the
content store or not. With built-in strategies, nothing is left of a loop but a Nack to a single
peer, with the forwarding hint that the Interest came with if it is remembered, and with the hint
that it would have gone on with if it loops in its entry. -/
theorem loop_decision_exact (reached : Reachable settings store hash fw) (now : Timestamp)
    (hinfo : fw.node.faces.info? ingress.face = some info)
    (hscope : info.isLocal = true ∨ i.name.isLocalhost = false) :
    ∃ fw', fw.receiveInterest now ingress i = .ok fw' ∧
      (fw'.node.admissions = fw.node.admissions ↔ fw.node.Loops now info ingress.face i) ∧
      (¬ fw.node.Loops now info ingress.face i →
        fw'.node.admissions = fw.node.admissions + 1) ∧
      (fw.BuiltInOnly → fw.node.Loops now info ingress.face i →
        fw.Traceless fw' ingress info i (if fw.node.deadNonces.has i.name i.nonce now then
          i.forwardingHint else hintLeft fw.node.regions i)) := by
  have horderly := reached.orderly
  obtain ⟨n, stored, hreceive, -, hcounted⟩ := horderly.receiveInterest_orderly now ingress i
  have hcount := hcounted (FaceTable.contains_of_info? hinfo)
  have hturns : fw.turnsAway now ingress i = true ↔ fw.node.Loops now info ingress.face i :=
    turnsAway_iff hinfo hscope
  refine ⟨_, hreceive, ?_, fun hnot => ?_, fun hbuiltIn hloops => ?_⟩
  · rw [← hturns, hcount]
    cases fw.turnsAway now ingress i <;> simp
  · rw [← hturns] at hnot
    rw [hcount, if_neg hnot]
  · obtain ⟨fw', hreceive', htraceless⟩ := (horderly.valid_of_builtIn
      hbuiltIn).receiveInterest_traceless horderly.node.distinguished hinfo hscope hloops
    obtain rfl := Except.ok.inj (hreceive.symm.trans hreceive')
    exact htraceless

/-- The Interest that was sent to the second of three faces comes back from the third one. -/
theorem loop_decision_exact_of_third_face : ∃ fw info,
    Reachable {} .disabled (fun _ => ⟨List.replicate 32 0, rfl⟩) fw ∧ fw.BuiltInOnly ∧
      fw.node.faces.info? ⟨258⟩ = some info ∧ info.isPointToPoint = true ∧
      fw.node.Loops ⟨2⟩ info ⟨258⟩ Sample.back ∧
      ∃ fw', fw.receiveInterest ⟨2⟩ ⟨⟨258⟩, 0⟩ Sample.back = .ok fw' ∧
        fw'.node.admissions = fw.node.admissions ∧
        fw.Traceless fw' ⟨⟨258⟩, 0⟩ info Sample.back
          (if fw.node.deadNonces.has Sample.back.name Sample.back.nonce ⟨2⟩ then
            Sample.back.forwardingHint else hintLeft fw.node.regions Sample.back) := by
  have run : Run Sample.start _ Sample.sentOn.after :=
    Run.reached Sample.start (Sample.ask ⟨1⟩ ⟨1⟩ :: Sample.threeFaces) (by decide +kernel)
  have hturned : Sample.sentOn.after.turnsAway ⟨2⟩ ⟨⟨258⟩, 0⟩ Sample.back = true := by
    decide +kernel
  have hlinked : (Sample.sentOn.after.node.faces.info? ⟨258⟩).any FaceInfo.isPointToPoint =
      true := by decide +kernel
  obtain ⟨info, hinfo, hlink⟩ := (Option.any_eq_true _ _).mp hlinked
  have hscope : info.isLocal = true ∨ Sample.back.name.isLocalhost = false := .inr (by decide)
  let ingress : FaceEndpoint := ⟨⟨258⟩, 0⟩
  have hknown : Sample.sentOn.after.node.faces.info? ingress.face = some info := hinfo
  have hloops := (turnsAway_iff hknown hscope).mp hturned
  obtain ⟨fw', hreceive, hdecided, -, htraceless⟩ :=
    loop_decision_exact run.reachable ⟨2⟩ hknown hscope
  exact ⟨_, info, run.reachable, run.valid.builtIn, hinfo, hlink, hloops, fw', hreceive,
    hdecided.mpr hloops, htraceless run.valid.builtIn hloops⟩

end Decision

end NamedData
