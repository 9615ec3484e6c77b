import NamedData.Proofs.Delivery
import NamedData.Proofs.Entries

/-!
Interests that loop. A loop is found in the memory of nonces before anything else is looked at, or
in the records of the entry that asks for the same. Either way no record is made and nothing is sent
on; the sender is told, unless it is one of many or was not to send the Interest here at all.
-/

namespace NamedData

namespace Forwarder

variable {fw fw' : Forwarder} {token : PitToken} {e : PitEntry} {i : Interest}

/-- Whether the sender of an Interest is told that it loops: if its face has a single peer and lets
the Interest in. -/
def tellsLoops (fw : Forwarder) (face : FaceId) (name : Name) : Bool :=
  (fw.node.faces.info? face).any fun info =>
    info.isPointToPoint && (info.isLocal || !name.isLocalhost)

/-- The Interest is treated as a loop: no record is made, and nothing is sent but a Nack to a sender
that is told. -/
structure TreatsAsLoop (fw fw' : Forwarder) (ingress : FaceEndpoint) (i : Interest) : Prop where
  tables : fw'.node.tables = fw.node.tables
  timers : fw'.node.timers = fw.node.timers
  told : fw.tellsLoops ingress.face i.name = true → ∃ hint isTaken,
    fw'.node.journal.sent = fw.node.journal.sent ++
      [⟨ingress, .nack { interest := (i.arrived ingress.face hint).untagged, reason := .duplicate },
        isTaken⟩]
  untold : fw.tellsLoops ingress.face i.name = false →
    fw'.node.journal.sent = fw.node.journal.sent

theorem tellsLoops_eq {face : FaceId} {info : FaceInfo}
    (hinfo : fw.node.faces.info? face = some info) (name : Name) :
    fw.tellsLoops face name = (info.isPointToPoint && (info.isLocal || !name.isLocalhost)) := by
  rw [tellsLoops, hinfo, Option.any_some]

/-- Where nobody is told of loops, an Interest that is dropped is treated as one. -/
theorem treatsAsLoop_of_untold {ingress : FaceEndpoint}
    (huntold : fw.tellsLoops ingress.face i.name = false)
    (htables : fw'.node.tables = fw.node.tables) (htimers : fw'.node.timers = fw.node.timers)
    (hsent : fw'.node.journal.sent = fw.node.journal.sent) : fw.TreatsAsLoop fw' ingress i where
  tables := htables
  timers := htimers
  told htold := by cases htold.symm.trans huntold
  untold _ := hsent

/-- Telling a loop, with talk before and after it, only sends the Interest back to a single peer. -/
theorem told_loop {now : Timestamp} {ingress : FaceEndpoint} {info : FaceInfo} {m m' : Node}
    (hint : List Name) (hinfo : fw.node.faces.info? ingress.face = some info)
    (hbefore : (noteInterest now ingress i fw.node).Quiet m)
    (hafter : (tellLoop ingress info (i.arrived ingress.face hint) m).Quiet m') :
    (noteInterest now ingress i fw.node).Unmoved m' ∧
      (info.isPointToPoint = true → ∃ isTaken, m'.journal.sent = fw.node.journal.sent ++
        [⟨ingress, .nack { interest := (i.arrived ingress.face hint).untagged
                           reason := .duplicate }, isTaken⟩]) ∧
      (info.isPointToPoint = false → m'.journal.sent = fw.node.journal.sent) := by
  have hmoved := unmoved_tellLoop ingress info (i.arrived ingress.face hint) m
  have hknown : m.faces.info? ingress.face = some info := by
    rw [hbefore.info?]
    exact hinfo
  have hsent : m.journal.sent = fw.node.journal.sent := hbefore.sent
  have hnack := sent_tellLoop hknown (i.arrived ingress.face hint)
  rw [← hafter.sent, hsent] at hnack
  refine ⟨(hbefore.toUnmoved.trans hmoved).trans hafter.toUnmoved, fun hlink => ?_,
    fun hlink => ?_⟩
  · exact (hnack.resolve_left fun ⟨hother, _⟩ => by cases hlink.symm.trans hother).2
  · exact (hnack.resolve_right fun ⟨hother, _⟩ => by cases hlink.symm.trans hother).2

theorem treatsAsLoop_tellLoop {now : Timestamp} {ingress : FaceEndpoint} {info : FaceInfo}
    {m : Node} (hint : List Name) (hinfo : fw.node.faces.info? ingress.face = some info)
    (hscope : (!info.isLocal && i.name.isLocalhost) = false)
    (hquiet : (noteInterest now ingress i fw.node).Quiet m)
    (htold : (tellLoop ingress info (i.arrived ingress.face hint) m).Quiet fw'.node) :
    fw.TreatsAsLoop fw' ingress i := by
  have hlets : (info.isLocal || !i.name.isLocalhost) = true := by
    cases hlocal : info.isLocal <;> simp_all
  have htells : fw.tellsLoops ingress.face i.name = info.isPointToPoint := by
    rw [tellsLoops_eq hinfo, hlets, Bool.and_true]
  obtain ⟨hmoved, hnack, hsilent⟩ := told_loop hint hinfo hquiet htold
  exact ⟨hmoved.tables, hmoved.timers, fun h => ⟨hint, hnack (htells.symm.trans h)⟩,
    fun h => hsilent (htells.symm.trans h)⟩

/-- An Interest that loops in its entry leaves the entry as it is. -/
theorem Valid.admitInterest_loops (h : fw.Valid) {ingress : FaceEndpoint} {i : Interest}
    {info : FaceInfo} (hfind : fw.node.tables.findPending i = .ok (some token))
    (hget : fw.node.tables.pit.get? token = some e)
    (hloop : isLoop info (e.findNonce i.nonce ingress.face) = true) :
    ∃ notice, fw.admitInterest ingress info i =
      .ok { fw with node := (tellLoop ingress info i fw.node).say notice } := by
  have hfound : fw.node.tables.findOrInsert i = .ok ((token, false), fw.node.tables) := by
    rw [Tables.findOrInsert, hfind]
    rfl
  let told := tellLoop ingress info i fw.node
  have hmoved : fw.node.Unmoved told := unmoved_tellLoop ingress info i fw.node
  have hvalid : Valid { fw with node := told } := h.of_node rfl (h.node.unmoved hmoved)
  have hkept : told.tables.pit.get? token = some e := by
    rw [hmoved.tables]
    exact hget
  obtain ⟨f, hconsult⟩ := hvalid.consult_ok (f := ⟨told, token, e⟩) hvalid.node.registered
    fun s f => s.afterLoop i ingress f
  obtain ⟨b, hf⟩ := consult_builtIn hvalid.builtIn hconsult
  have hentry : Forwarder.atEntry { fw with node := told } token
      (fun f => Forwarder.consult { fw with node := told } f fun s f => s.afterLoop i ingress f) =
        .ok { fw with node := f.release } := atEntry_eq_ok.mpr ⟨e, f, hkept, hconsult, rfl⟩
  have hnotice : ∃ notice, f.release = told.say notice := by
    rw [hf, b.afterLoop_eq]
    exact ⟨_, Node.release_focus hkept⟩
  obtain ⟨notice, hrelease⟩ := hnotice
  refine ⟨notice, ?_⟩
  rw [admitInterest]
  refine bind_eq_ok.mpr ⟨_, hfound, bind_eq_ok.mpr ⟨_, Node.focus_eq_ok.mpr ⟨e, hget, rfl⟩, ?_⟩⟩
  rw [if_pos hloop, rejectLoop_eq, ← hrelease]
  exact hentry

/-- An Interest that is let in and loops in the entry for the same is treated as a loop. -/
theorem Valid.arrive_loops (h : fw.Valid) (hdistinguished : fw.node.Distinguished)
    {ingress : FaceEndpoint} {info : FaceInfo} (now : Timestamp)
    (hinfo : fw.node.faces.info? ingress.face = some info)
    (hscope : (!info.isLocal && i.name.isLocalhost) = false)
    (hget : fw.node.tables.pit.get? token = some e) (hsame : e.interest.sameSelectors i = true)
    (hloop : isLoop info (e.findNonce i.nonce ingress.face) = true) :
    let arrived := arrive (fw.onNode (noteInterest now ingress i)) ingress
      { i with incomingFace := some ingress.face }
    ∃ fw', arrived.1.admitInterest ingress info arrived.2 = .ok fw' ∧
      fw.TreatsAsLoop fw' ingress i := by
  obtain ⟨m, hint, harrive, hquiet, _⟩ := arrive_cases fw now ingress i
  have htables : m.tables = fw.node.tables := hquiet.tables
  have hnoted : (noteInterest now ingress i fw.node).Valid fw.strategies.length :=
    h.node.congr rfl rfl rfl
  have hvalid : Valid { fw with node := m } := h.of_node rfl (hnoted.unmoved hquiet.toUnmoved)
  have hfind : m.tables.findPending (i.arrived ingress.face hint) = .ok (some token) := by
    rw [htables, Interest.arrived, findPending_hinted]
    exact hdistinguished.findPending h.node.indexed hget hsame
  have hlive : m.tables.pit.get? token = some e := by
    rw [htables]
    exact hget
  obtain ⟨notice, hadmit⟩ := hvalid.admitInterest_loops hfind hlive hloop
  let told := tellLoop ingress info (i.arrived ingress.face hint) m
  refine ⟨{ fw with node := told.say notice }, ?_,
    treatsAsLoop_tellLoop hint hinfo hscope hquiet (Node.quiet_say told notice)⟩
  rw [harrive]
  exact hadmit

/-- What becomes of an Interest from a face that there is. -/
theorem receiveInterest_of_known {now : Timestamp} {ingress : FaceEndpoint} {info : FaceInfo}
    (hinfo : fw.node.faces.info? ingress.face = some info) (i : Interest) :
    fw.receiveInterest now ingress i =
      if !info.isLocal && i.name.isLocalhost then
        .ok { fw with
          node := (noteInterest now ingress i fw.node).say
            (.incomingInterest ingress.face i.name .violatesLocalhost) }
      else if fw.node.deadNonces.has i.name i.nonce now then
        .ok { fw with
          node := tellLoop ingress info (i.arrived ingress.face i.forwardingHint)
            (noteInterest now ingress i fw.node) }
      else
        let arrived := arrive (fw.onNode (noteInterest now ingress i)) ingress
          { i with incomingFace := some ingress.face }
        arrived.1.admitInterest ingress info arrived.2 := by
  have htick : (fw.tick now).node.faces.info? ingress.face = some info := hinfo
  simp only [receiveInterest, htick, rejectLoop_eq]
  rfl

/-- An Interest is treated as a loop if its name and nonce are remembered, or its nonce loops in the
entry that asks for the same. -/
theorem Valid.receiveInterest_loops (h : fw.Valid) (hdistinguished : fw.node.Distinguished)
    {now : Timestamp} {ingress : FaceEndpoint} {i : Interest}
    (hloops : fw.node.deadNonces.has i.name i.nonce now = true ∨
      ∃ token e, fw.node.tables.pit.get? token = some e ∧ e.interest.sameSelectors i = true ∧
        ∀ info, isLoop info (e.findNonce i.nonce ingress.face) = true) :
    ∃ fw', fw.receiveInterest now ingress i = .ok fw' ∧ fw.TreatsAsLoop fw' ingress i := by
  cases hinfo : fw.node.faces.info? ingress.face with
  | none =>
      have htick : (fw.tick now).node.faces.info? ingress.face = none := hinfo
      have huntold : fw.tellsLoops ingress.face i.name = false := by
        rw [tellsLoops, hinfo]
        rfl
      refine ⟨(fw.tick now).say (.incomingInterest ingress.face i.name .unknownFace), ?_,
        treatsAsLoop_of_untold huntold rfl rfl rfl⟩
      simp only [Forwarder.receiveInterest, htick]
  | some info =>
      rw [receiveInterest_of_known hinfo]
      cases hscope : !info.isLocal && i.name.isLocalhost with
      | true =>
          have huntold : fw.tellsLoops ingress.face i.name = false := by
            rw [tellsLoops_eq hinfo]
            cases hlocal : info.isLocal <;> simp_all
          exact ⟨_, if_pos rfl, treatsAsLoop_of_untold huntold rfl rfl rfl⟩
      | false =>
          cases hremembered : fw.node.deadNonces.has i.name i.nonce now with
          | true =>
              exact ⟨_, rfl,
                treatsAsLoop_tellLoop i.forwardingHint hinfo hscope (.refl _) (.refl _)⟩
          | false =>
              obtain ⟨token, e, hget, hsame, hloop⟩ := hloops.resolve_left (by simp [hremembered])
              exact h.arrive_loops hdistinguished now hinfo hscope hget hsame (hloop info)

end Forwarder

end NamedData
