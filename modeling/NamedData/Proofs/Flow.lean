import NamedData.Proofs.Pipelines

/-!
Answers against Interests, face by face. What was answered to a face and what it still waits for are
counted together: recording an Interest adds one, sending Data or a Nack for a record moves one from
the second part to the first, and nothing a strategy does adds any.
-/

namespace NamedData

def Packet.isAnswer : Packet → Bool
  | .interest _ => false
  | .data _ => true
  | .nack _ => true

def Transmission.answers (t : Transmission) (face : FaceId) : Bool :=
  t.packet.isAnswer && t.peer.face = face

/-- How often Data or a Nack was sent to a face. -/
def answersTo (face : FaceId) (sent : List Transmission) : Nat :=
  sent.countP fun t => t.answers face

/-- How many pending entries a face waits in. -/
def Node.waitsOf (n : Node) (face : FaceId) : Nat :=
  n.tables.pit.total fun e => e.inFaces.count face

/-- One for the given face and nothing for the others. -/
def share (face other : FaceId) : Nat :=
  if other = face then 1 else 0

/-- What was answered to a face and what it still waits for. -/
def Node.flow (n : Node) (face : FaceId) : Nat :=
  answersTo face n.journal.sent + n.waitsOf face

/-- What was answered to a face, and whether it waits in the entry at hand. -/
def Focus.flow (f : Focus) (face : FaceId) : Nat :=
  answersTo face f.node.journal.sent + f.entry.inFaces.count face

variable {face : FaceId}

/-! ### What is sent -/

theorem answersTo_append (sent more : List Transmission) :
    answersTo face (sent ++ more) = answersTo face sent + answersTo face more :=
  List.countP_append

theorem answersTo_interest (peer : FaceEndpoint) (i : Interest) (isTaken : Bool) :
    answersTo face [Transmission.mk peer (.interest i) isTaken] = 0 := by
  simp [answersTo, Transmission.answers, Packet.isAnswer]

theorem answersTo_data (peer : FaceEndpoint) (d : Data) (isTaken : Bool) :
    answersTo face [Transmission.mk peer (.data d) isTaken] = share face peer.face := by
  simp [answersTo, Transmission.answers, Packet.isAnswer, share, List.countP_cons]

theorem answersTo_nack (peer : FaceEndpoint) (k : Nack) (isTaken : Bool) :
    answersTo face [Transmission.mk peer (.nack k) isTaken] = share face peer.face := by
  simp [answersTo, Transmission.answers, Packet.isAnswer, share, List.countP_cons]

theorem answersTo_nackedAtMost (face : FaceId) {n m : Node} {peer : FaceEndpoint}
    (h : Forwarder.NackedAtMost n m peer) :
    answersTo face m.journal.sent ≤ answersTo face n.journal.sent + share face peer.face := by
  rcases h with hsent | ⟨nack, isTaken, hsent⟩
  · rw [hsent]
    exact Nat.le_add_right _ _
  · rw [hsent, answersTo_append, answersTo_nack]

theorem answersTo_sendData (face : FaceId) (n : Node) (egress : FaceEndpoint) (data : Data) :
    answersTo face (n.sendData egress data).journal.sent ≤
      answersTo face n.journal.sent + share face egress.face := by
  cases hlets : n.lets data egress.face with
  | false =>
      rw [Node.sent_sendData_of_not_lets hlets]
      exact Nat.le_add_right _ _
  | true =>
      obtain ⟨isTaken, hsent⟩ := Node.sent_sendData_of_lets hlets
      rw [hsent, answersTo_append, answersTo_data]

theorem answersTo_sendDataEach (face : FaceId) (data : Data) (peers : List FaceEndpoint)
    (n : Node) :
    answersTo face (peers.foldl (fun n egress => n.sendData egress data) n).journal.sent ≤
      answersTo face n.journal.sent + peers.countP fun p => p.face = face := by
  induction peers generalizing n with
  | nil => exact Nat.le_refl _
  | cons p rest ih =>
      have hfirst := answersTo_sendData face n p data
      have hrest := ih (n.sendData p data)
      have hcount : (p :: rest).countP (fun q => q.face = face) =
          rest.countP (fun q => q.face = face) + share face p.face := by
        simp [List.countP_cons, share]
      rw [List.foldl_cons, hcount]
      omega

/-! ### The entry at hand -/

namespace Focus

variable {f f' : Focus}

theorem flow_of_quiet (h : f.Quiet f') : f'.flow face = f.flow face := by
  rw [flow, flow, h.node.sent, h.entry]

/-- Deleting the record of a face that waits gives back its share. -/
theorem count_deleteIn (face : FaceId) {e : PitEntry} {other : FaceId}
    (hwaits : other ∈ e.inFaces) :
    (e.deleteIn other).inFaces.count face + share face other = e.inFaces.count face := by
  rw [e.inFaces_deleteIn, share]
  split
  next same =>
    subst same
    have hpos := List.count_pos_iff.mpr hwaits
    rw [List.count_erase_self]
    omega
  next hne => rw [List.count_erase_of_ne (Ne.symm hne), Nat.add_zero]

theorem flow_sendData_of_waits {egress : FaceEndpoint} (hwaits : egress.face ∈ f.entry.inFaces)
    (data : Data) : (f.sendData egress data).flow face ≤ f.flow face := by
  have hsent := answersTo_sendData face f.node egress data
  have hcount := count_deleteIn face hwaits
  have hflow : (f.sendData egress data).flow face =
      answersTo face (f.node.sendData egress data).journal.sent +
        (f.entry.deleteIn egress.face).inFaces.count face := rfl
  rw [hflow, flow]
  omega

theorem flow_sendData (face : FaceId) (egress : FaceEndpoint) (data : Data) (f : Focus) :
    (f.sendData egress data).flow face ≤ f.flow face + share face egress.face := by
  have hsent := answersTo_sendData face f.node egress data
  have hcount := (f.entry.shrinks_deleteIn egress.face).inFaces.count_le face
  have hflow : (f.sendData egress data).flow face =
      answersTo face (f.node.sendData egress data).journal.sent +
        (f.entry.deleteIn egress.face).inFaces.count face := rfl
  rw [hflow, flow]
  omega

theorem flow_sendInterest (egress : FaceEndpoint) (interest : Interest) (f : Focus) :
    (f.sendInterest egress interest).flow face = f.flow face := by
  cases hknown : f.node.faces.contains egress.face with
  | false =>
      rw [sendInterest_of_unknown hknown]
      exact flow_of_quiet (f.quiet_say _)
  | true =>
      rw [sendInterest_of_known hknown]
      have hinfo := hknown
      rw [FaceTable.contains_eq] at hinfo
      obtain ⟨info, hsome⟩ := Option.isSome_iff_exists.mp hinfo
      obtain ⟨isTaken, hsent⟩ := Node.sent_transmit
        (n := f.node.say (.outgoingInterest egress.face f.entry.name)) hsome
        (.interest interest.untagged)
      have hinFaces : (f.entry.recordOut egress interest f.node.now).inFaces =
          f.entry.inFaces := rfl
      simp only [flow, Node.sent_count, hsent, Node.sent_say, answersTo_append,
        answersTo_interest, hinFaces, Nat.add_zero]

theorem flow_sendNack (egress : FaceEndpoint) (reason : NackReason) (f : Focus) :
    (f.sendNack egress reason).flow face ≤ f.flow face := by
  rcases f.sendNack_cases egress reason with
    ⟨notice, hsay⟩ | ⟨info, record, hinfo, _, hrecord, hsent⟩
  · rw [hsay]
    exact Nat.le_of_eq (flow_of_quiet (f.quiet_say notice))
  · have hwaits : egress.face ∈ f.entry.inFaces :=
      PitEntry.inRecord?_isSome.mp (Option.isSome_iff_exists.mpr ⟨record, hrecord⟩)
    have hcount := count_deleteIn face hwaits
    obtain ⟨isTaken, htransmit⟩ := Node.sent_transmit
      (n := f.node.say (.outgoingNack egress.face f.entry.name reason .sent)) hinfo
      (.nack { interest := record.interest.untagged, reason })
    rw [hsent]
    simp only [flow, Node.sent_count, htransmit, Node.sent_say, answersTo_append, answersTo_nack]
    omega

/-- No move adds to what a face is owed or was given. -/
theorem Move.flow (h : Move f f') : f'.flow face ≤ f.flow face := by
  cases h with
  | say notice => exact Nat.le_of_eq (flow_of_quiet (f.quiet_say notice))
  | mark decision now => exact Nat.le_refl _
  | forward egress interest _ _ _ => exact Nat.le_of_eq (flow_sendInterest egress interest f)
  | answer egress data hwaits => exact flow_sendData_of_waits hwaits data
  | handBack egress reason => exact flow_sendNack egress reason f
  | giveUp => exact Nat.le_refl _

theorem Moves.flow (h : f.Moves f') : f'.flow face ≤ f.flow face :=
  Moves.preserve (P := fun g => g.flow face ≤ f.flow face)
    (fun _ _ step hle => Nat.le_trans step.flow hle) h (Nat.le_refl _)

/-- Recording an Interest adds one for its face at most. -/
theorem flow_awaitData (ingress : FaceEndpoint) (interest : Interest) (f : Focus) :
    (Forwarder.awaitData ingress interest f).flow face ≤ f.flow face + share face ingress.face := by
  have hflow : (Forwarder.awaitData ingress interest f).flow face =
      answersTo face f.node.journal.sent +
        (f.entry.recordIn ingress interest f.node.now).inFaces.count face := rfl
  rw [hflow, flow, PitEntry.inFaces_recordIn, share]
  split
  · omega
  · rw [List.count_append, List.count_singleton]
    simp only [beq_iff_eq]
    omega

theorem flow_closeEntry (ingress : FaceEndpoint) (data : Data) (f : Focus) :
    (Forwarder.closeEntry ingress data f).flow face = f.flow face := by
  obtain ⟨deadNonces, hremember⟩ := Forwarder.rememberNonces_eq (Forwarder.settle data f)
    ((Forwarder.settle data f).entry.outRecord? ingress.face).toList
  rw [Forwarder.closeEntry_eq, hremember]
  rfl

theorem flow_recordNack (other : FaceId) (reason : NackReason) (f : Focus) :
    (Forwarder.recordNack other reason f).flow face = f.flow face := by
  rw [Forwarder.recordNack]
  split <;> rfl

theorem flow_forgetFace (other : FaceId) (f : Focus) :
    (Forwarder.forgetFace other f).flow face ≤ f.flow face := by
  have hcount := (f.entry.shrinks_forgetFace other).inFaces.count_le face
  rcases Forwarder.forgetFace_cases other f with ⟨_, hsame⟩ | ⟨_, hsame | hsame⟩
  · rw [hsame]
  · rw [hsame]
    exact Nat.add_le_add_left hcount _
  · rw [hsame]
    exact Nat.add_le_add_left hcount _

end Focus

/-- The entry at hand counts in the place of the stored one. -/
theorem Node.flow_release (face : FaceId) {n : Node} {token : PitToken} {e : PitEntry} {f : Focus}
    (hget : n.tables.pit.get? token = some e) (hkeeps : Focus.Keeps ⟨n, token, e⟩ f) :
    f.release.flow face + e.inFaces.count face = f.flow face + n.waitsOf face := by
  have htotal : f.release.waitsOf face + e.inFaces.count face =
      n.waitsOf face + f.entry.inFaces.count face := by
    have hpit : f.release.tables.pit = n.tables.pit.set token f.entry := by
      rw [Focus.release, hkeeps.tables, hkeeps.token]
    rw [Node.waitsOf, hpit]
    exact Arena.total_set (fun e => e.inFaces.count face) hget f.entry
  have hsent : f.release.journal.sent = f.node.journal.sent := rfl
  rw [Node.flow, Focus.flow, hsent]
  omega

/-- Work on an entry changes the flow of the node by as much as that of the entry at hand. -/
theorem Node.flow_release_le (extra : Nat) {n : Node} {token : PitToken} {e : PitEntry} {f : Focus}
    (hget : n.tables.pit.get? token = some e) (hkeeps : Focus.Keeps ⟨n, token, e⟩ f)
    (hflow : f.flow face ≤ Focus.flow ⟨n, token, e⟩ face + extra) :
    f.release.flow face ≤ n.flow face + extra := by
  have hrelease := Node.flow_release face hget hkeeps
  have hold : Focus.flow ⟨n, token, e⟩ face =
      answersTo face n.journal.sent + e.inFaces.count face := rfl
  have hnow : n.flow face = answersTo face n.journal.sent + n.waitsOf face := rfl
  rw [hold] at hflow
  rw [hnow]
  omega

theorem Node.flow_congr {n m : Node} (hsent : m.journal.sent = n.journal.sent)
    (hpit : m.tables.pit = n.tables.pit) : m.flow face = n.flow face := by
  rw [Node.flow, Node.flow, Node.waitsOf, Node.waitsOf, hsent, hpit]

theorem Node.flow_quiet {n m : Node} (h : n.Quiet m) : m.flow face = n.flow face :=
  Node.flow_congr h.sent (congrArg Tables.pit h.tables)

end NamedData
