import NamedData.Proofs.Deeds
import NamedData.Proofs.Flow

/-!
What deeds send. An Interest goes to the face of its tag, to a next hop that it may go to, or, once
somebody waits with it, to a next hop that appeared; Data goes where it is let out; a Nack goes to
whoever waits in the entry, or to the face of an Interest that loops. Nothing is taken back.
-/

namespace NamedData

open Forwarder

/-- The packets handed to faces in a step. -/
def Step.sent (s : Step) : List Transmission :=
  s.after.node.journal.sent.drop s.before.node.journal.sent.length

/-- What a deed on the entry at hand may hand to a face. -/
inductive Focus.Sends (operation : Operation) (f : Focus) (t : Transmission) : Prop where
  | interest {now : Timestamp} {ingress : FaceEndpoint} {i : Interest} {info : FaceInfo}
      (hint : List Name) (hcall : operation = .receive now ingress (.interest i))
      (hpacket : t.packet = .interest (i.arrived ingress.face hint).untagged)
      (hinfo : f.node.faces.info? t.peer.face = some info)
      (hallowed : i.nextHopFace = some t.peer.face ∨
        ∃ source, Scope.isEligible source (i.arrived ingress.face hint) info = true)
  | offer {now : Timestamp} {stem : Name} {cost : Nat} {r : InRecord} {info : FaceInfo}
      (hcall : operation = .addRoute now stem t.peer.face cost) (hwaits : r ∈ f.entry.inRecords)
      (hpacket : t.packet = .interest r.interest.untagged)
      (hinfo : f.node.faces.info? t.peer.face = some info)
      (hallowed : ∃ source, Scope.isEligible source r.interest info = true)
  | nack {r : InRecord} {reason : NackReason} {info : FaceInfo} (hwaits : r ∈ f.entry.inRecords)
      (hface : r.face = t.peer.face)
      (hpacket : t.packet = .nack { interest := r.interest.untagged, reason })
      (hinfo : f.node.faces.info? t.peer.face = some info)
  | data {data : Data} (hpacket : t.packet = .data data)
      (hlets : f.node.lets data t.peer.face = true)

/-- What a deed may hand to a face. -/
inductive Node.Sends (operation : Operation) (n : Node) (t : Transmission) : Prop where
  | ofEntry {token : PitToken} {e : PitEntry} (hget : n.tables.pit.get? token = some e)
      (hsends : Focus.Sends operation ⟨n, token, e⟩ t)
  | loop {now : Timestamp} {ingress : FaceEndpoint} {i : Interest} {info : FaceInfo}
      (hint : List Name) (hcall : operation = .receive now ingress (.interest i))
      (hpeer : t.peer = ingress)
      (hpacket : t.packet =
        .nack { interest := (i.arrived ingress.face hint).untagged, reason := .duplicate })
      (hinfo : n.faces.info? t.peer.face = some info)
      (hscope : (!info.isLocal && i.name.isLocalhost) = false)
  | data {data : Data} (hpacket : t.packet = .data data) (hlets : n.lets data t.peer.face = true)

/-- The second list of transmissions is the first one with some more, all of one kind. -/
def Extends (sent sent' : List Transmission) (P : Transmission → Prop) : Prop :=
  ∃ new, sent' = sent ++ new ∧ ∀ t ∈ new, P t

variable {sent sent' sent'' : List Transmission} {P Q : Transmission → Prop}

theorem Extends.of_eq (h : sent' = sent) : Extends sent sent' P :=
  ⟨[], by rw [h, List.append_nil], by simp⟩

theorem Extends.one {t : Transmission} (h : sent' = sent ++ [t]) (ht : P t) :
    Extends sent sent' P := by
  refine ⟨[t], h, ?_⟩
  intro u hu
  exact List.mem_singleton.mp hu ▸ ht

theorem Extends.mono (h : Extends sent sent' P) (himp : ∀ t, P t → Q t) : Extends sent sent' Q := by
  obtain ⟨new, hsent, hnew⟩ := h
  exact ⟨new, hsent, fun t ht => himp t (hnew t ht)⟩

theorem Extends.trans (h : Extends sent sent' P) (h' : Extends sent' sent'' P) :
    Extends sent sent'' P := by
  obtain ⟨new, rfl, hnew⟩ := h
  obtain ⟨new', rfl, hnew'⟩ := h'
  refine ⟨new ++ new', List.append_assoc _ _ _, ?_⟩
  intro t ht
  exact (List.mem_append.mp ht).elim (hnew t) (hnew' t)

/-- What a step sends is what it adds. -/
theorem Step.forall_sent {s : Step} (h : Extends s.before.node.journal.sent
    s.after.node.journal.sent P) : ∀ t ∈ s.sent, P t := by
  obtain ⟨new, hsent, hnew⟩ := h
  rw [Step.sent, hsent, List.drop_left]
  exact hnew

theorem extends_sendData {n : Node} (egress : FaceEndpoint) (data : Data)
    (h : ∀ t : Transmission, t.packet = .data data → n.lets data t.peer.face = true → P t) :
    Extends n.journal.sent (n.sendData egress data).journal.sent P := by
  cases hlets : n.lets data egress.face with
  | false => exact .of_eq (Node.sent_sendData_of_not_lets hlets)
  | true =>
      obtain ⟨isTaken, hsent⟩ := Node.sent_sendData_of_lets hlets
      exact .one hsent (h _ rfl hlets)

/-- A face is told that its Interest loops exactly if it has a single peer. -/
theorem sent_tellLoop {n : Node} {ingress : FaceEndpoint} {info : FaceInfo}
    (hinfo : n.faces.info? ingress.face = some info) (i : Interest) :
    (info.isPointToPoint = false ∧
        (tellLoop ingress info i n).journal.sent = n.journal.sent) ∨
      info.isPointToPoint = true ∧ ∃ isTaken,
        (tellLoop ingress info i n).journal.sent = n.journal.sent ++
          [⟨ingress, .nack { interest := i.untagged, reason := .duplicate }, isTaken⟩] := by
  have hknown (notice : Notice) : (n.say notice).faces.info? ingress.face = some info := hinfo
  rw [tellLoop]
  cases hlink : info.isPointToPoint with
  | false => exact .inl ⟨rfl, rfl⟩
  | true => exact .inr ⟨rfl, Node.sent_transmit (hknown _) _⟩

theorem extends_tellLoop {n : Node} {ingress : FaceEndpoint} {info : FaceInfo}
    (hinfo : n.faces.info? ingress.face = some info) (i : Interest)
    (h : ∀ isTaken, P ⟨ingress, .nack { interest := i.untagged, reason := .duplicate }, isTaken⟩) :
    Extends n.journal.sent (tellLoop ingress info i n).journal.sent P := by
  rcases sent_tellLoop hinfo i with ⟨_, hsent⟩ | ⟨_, isTaken, hsent⟩
  · exact .of_eq hsent
  · exact .one hsent (h isTaken)

theorem answers_nacked {n n' : Node} {peer : FaceEndpoint} (h : NackedAtMost n n' peer) :
    Extends n.journal.sent n'.journal.sent fun t => t.packet.isAnswer = true := by
  rcases h with hsent | ⟨nack, isTaken, hsent⟩
  · exact .of_eq hsent
  · exact .one hsent rfl

theorem answers_sendData (n : Node) (egress : FaceEndpoint) (data : Data) :
    Extends n.journal.sent (n.sendData egress data).journal.sent fun t =>
      t.packet.isAnswer = true := by
  refine extends_sendData egress data ?_
  intro t hpacket _
  rw [hpacket]
  rfl

namespace Focus

variable {f f' : Focus} {hash : HashFunction} {operation : Operation}

/-- An Interest that is sent to a face that there is. -/
theorem sent_sendInterest {egress : FaceId} {info : FaceInfo}
    (hinfo : f.node.faces.info? egress = some info) (interest : Interest) :
    ∃ isTaken, (f.sendInterest { face := egress } interest).node.journal.sent =
      f.node.journal.sent ++
        [Transmission.mk { face := egress } (.interest interest.untagged) isTaken] := by
  let said := f.node.say (.outgoingInterest egress f.entry.name)
  let peer : FaceEndpoint := { face := egress }
  have hknown : said.faces.info? peer.face = some info := hinfo
  rw [sendInterest_of_known (FaceTable.contains_of_info? hinfo)]
  exact Node.sent_transmit hknown (.interest interest.untagged)

/-- A Nack that goes out hands back the Interest of the face it goes to. -/
theorem sent_sendNack (f : Focus) (egress : FaceEndpoint) (reason : NackReason) :
    (∃ notice, f.sendNack egress reason = f.say notice) ∨ ∃ info r isTaken,
      f.node.faces.info? egress.face = some info ∧ r ∈ f.entry.inRecords ∧ r.face = egress.face ∧
      (f.sendNack egress reason).entry = f.entry.deleteIn egress.face ∧
      (f.sendNack egress reason).node.journal.sent = f.node.journal.sent ++
        [Transmission.mk egress (.nack { interest := r.interest.untagged, reason }) isTaken] := by
  rcases f.sendNack_cases egress reason with hsay | ⟨info, r, hinfo, _, hrecord, hnack⟩
  · exact .inl hsay
  · right
    let said := f.node.say (.outgoingNack egress.face f.entry.name reason .sent)
    have hknown : said.faces.info? egress.face = some info := hinfo
    obtain ⟨isTaken, hsent⟩ :=
      Node.sent_transmit hknown (.nack { interest := r.interest.untagged, reason })
    have hface : r.face = egress.face := by simpa using List.find?_some hrecord
    rw [hnack]
    exact ⟨info, r, isTaken, hinfo, List.mem_of_find?_eq_some hrecord, hface, rfl, hsent⟩

theorem Deed.sends (h : Deed hash operation f f') :
    Extends f.node.journal.sent f'.node.journal.sent (f.Sends operation) := by
  cases h with
  | talk hquiet => exact .of_eq hquiet.node.sent
  | hit data => exact .of_eq rfl
  | answer data => exact extends_sendData _ data fun _ => .data
  | wait hint => exact .of_eq rfl
  | mark decision => exact .of_eq rfl
  | forward hint hcall _ _ _ hinfo hallowed =>
      obtain ⟨isTaken, hsent⟩ := sent_sendInterest hinfo _
      exact .one hsent (.interest hint hcall rfl hinfo hallowed)
  | offer hcall hwaits _ _ hinfo hallowed =>
      obtain ⟨isTaken, hsent⟩ := sent_sendInterest hinfo _
      exact .one hsent (.offer hcall hwaits rfl hinfo hallowed)
  | handBack egress reason _ =>
      rcases f.sent_sendNack egress reason with
        ⟨notice, hsay⟩ | ⟨info, r, isTaken, hinfo, hr, hface, _, hsent⟩
      · exact .of_eq (by rw [hsay]; rfl)
      · exact .one hsent (.nack hr hface rfl hinfo)
  | giveUp => exact .of_eq rfl
  | nacked =>
      refine .of_eq ?_
      rw [recordNack]
      split <;> rfl
  | serve _ _ hserved =>
      obtain ⟨new, hsent, hnew⟩ := hserved.sent
      exact ⟨new, hsent, fun t ht => .data (hnew t ht).1 (hnew t ht).2⟩
  | @forget _ face _ =>
      refine .of_eq ?_
      rcases forgetFace_cases face f with ⟨_, hforget⟩ | ⟨_, hforget | hforget⟩
      · rw [hforget]
      · rw [hforget]
        rfl
      · rw [hforget]
        rfl

end Focus

namespace Node

variable {n m : Node} {hash : HashFunction} {operation : Operation}

theorem Deed.sends (h : Deed hash operation n m) :
    Extends n.journal.sent m.journal.sent (n.Sends operation) := by
  cases h with
  | aside halike _ => exact .of_eq halike.sent
  | addFace _ halike _ _ => exact .of_eq halike.sent
  | dropFace halike _ => exact .of_eq halike.sent
  | openEntry => exact .of_eq rfl
  | tellLoop _ hint hcall hinfo hscope =>
      exact extends_tellLoop hinfo _ fun _ => .loop hint hcall rfl rfl hinfo hscope
  | sendData => exact extends_sendData _ _ fun _ => .data
  | @work f f' hsound hdeed =>
      refine hdeed.sends.mono fun t hsends => ?_
      refine .ofEntry (Focus.get?_release_self hsound.live) ?_
      cases hsends with
      | interest hint hcall hpacket hinfo hallowed =>
          exact .interest hint hcall hpacket hinfo hallowed
      | offer hcall hwaits hpacket hinfo hallowed =>
          exact .offer hcall hwaits hpacket hinfo hallowed
      | nack hwaits hface hpacket hinfo => exact .nack hwaits hface hpacket hinfo
      | data hpacket hlets => exact .data hpacket hlets
  | finish _ _ hget _ _ => exact .of_eq (ended_ending hget).sent

/-- Nothing that was sent is taken back. -/
theorem Deeds.sends (h : Deeds hash operation n m) :
    Extends n.journal.sent m.journal.sent fun _ => True :=
  h.preserve (P := fun k => Extends n.journal.sent k.journal.sent fun _ => True)
    (fun _ _ hdeed hk => hk.trans (hdeed.sends.mono fun _ _ => trivial)) (.of_eq rfl)

end Node

end NamedData
