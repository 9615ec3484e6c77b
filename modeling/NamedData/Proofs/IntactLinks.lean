import NamedData.Proofs.LinkPipelines

/-!
A forwarder as if every link took everything. In this view a link that goes away, a packet that is
refused and the report of it are not to be seen, and every operation does the same as with links
that take everything. So runs with the same calls agree in it, whatever their links refuse.
-/

namespace NamedData

/-! ### Links that take everything -/

/-- A face whose link takes everything. -/
def Face.mended (f : Face) : Face :=
  { f with takes := fun _ => true }

/-- A packet that was handed over, as if its link had taken it. -/
def Transmission.taken (t : Transmission) : Transmission :=
  { t with isTaken := true }

namespace LinkView

/-- The view in which every link took and takes everything. -/
def intact : LinkView where
  faces t := { t with faces := t.faces.map Face.mended }
  sent := List.map Transmission.taken
  reported _ := []
  notices := List.filter fun x => !x.isDisconnection

theorem find?_intact (t : FaceTable) (face : FaceId) :
    (intact.faces t).find? face = (t.find? face).map Face.mended := by
  simp only [intact, FaceTable.find?, List.find?_map]
  rfl

theorem intact_handed (n : Node) (peer : FaceEndpoint) (packet : Packet) (isTaken : Bool) :
    intact.node (n.handed peer packet isTaken) = (intact.node n).handed peer packet true := by
  let hand (f : Face) : Face := { f with handed := f.handed + 1 }
  have hfaces : intact.faces (n.faces.modify peer.face hand) =
      (intact.faces n.faces).modify peer.face hand := by
    simp only [intact, FaceTable.modify, List.map_map]
    congr 1
    refine List.map_congr_left fun f _ => ?_
    change Face.mended (if f.info.face = peer.face then hand f else f) =
      if f.info.face = peer.face then hand f.mended else f.mended
    split <;> rfl
  have hsent : (n.journal.sent ++ [Transmission.mk peer packet isTaken]).map Transmission.taken =
      n.journal.sent.map Transmission.taken ++ [⟨peer, packet, true⟩] := List.map_append
  exact congrArg₂ (fun faces sent => { intact.node n with
    faces
    journal := { (intact.node n).journal with sent } }) hfaces hsent

/-- A refusal leaves no trace. -/
theorem intact_noteDisconnected (n : Node) (face : FaceId) :
    intact.node (n.noteDisconnected face) = intact.node n := by
  have hsaid : intact.node (n.say (.faceDisconnected face)) = intact.node n := by
    simp [node, intact, Node.say, Notice.isDisconnection]
  rw [Node.noteDisconnected]
  split
  · exact hsaid
  · exact hsaid

theorem intact_transmit (n : Node) (peer : FaceEndpoint) (packet : Packet) :
    intact.node (n.transmit peer packet) = (intact.node n).transmit peer packet := by
  have hfind := find?_intact n.faces peer.face
  cases hface : n.faces.find? peer.face with
  | none =>
      rw [hface] at hfind
      rw [Node.transmit_of_find?_none hface, Node.transmit_of_find?_none hfind]
  | some f =>
      rw [hface] at hfind
      rw [Node.transmit_of_find? hface, Node.transmit_of_find? hfind]
      refine Eq.trans ?_ (if_pos rfl).symm
      split
      · exact intact_handed n peer packet true
      · rw [intact_noteDisconnected]
        exact intact_handed n peer packet false

theorem intact_lawful : intact.Lawful where
  info? t := by
    funext face
    rw [FaceTable.info?, FaceTable.info?, find?_intact, Option.map_map]
    rfl
  notices l x hx := by
    simp [intact, hx]
  transmit := intact_transmit

/-! ### Operations on faces -/

theorem intact_remove (t : FaceTable) (face : FaceId) :
    (intact.faces t).remove face = ((t.remove face).1, intact.faces (t.remove face).2) := by
  have hcontains : (intact.faces t).contains face = t.contains face := by
    rw [FaceTable.contains, find?_intact, Option.isSome_map, FaceTable.contains]
  rw [FaceTable.remove, FaceTable.remove, hcontains]
  split
  · rfl
  · split
    · simp only [intact, List.filter_map]
      rfl
    · rfl

theorem intact_removeFace (fw : Forwarder) (now : Timestamp) (face : FaceId) :
    (fw.removeFace now face).map (Prod.map id intact.forwarder) =
      (intact.forwarder fw).removeFace now face := by
  have hremove : ((intact.forwarder fw).tick now).node.faces.remove face =
      ((fw.node.faces.remove face).1, intact.faces (fw.node.faces.remove face).2) :=
    intact_remove fw.node.faces face
  have htick : (fw.tick now).node.faces = fw.node.faces := rfl
  rw [Forwarder.removeFace, Forwarder.removeFace]
  simp only [hremove, htick]
  generalize fw.node.faces.remove face = removed
  obtain ⟨isRemoved, faces⟩ := removed
  cases isRemoved with
  | false => rfl
  | true =>
      let said := ((fw.tick now).onNode fun n => { n with faces }).say (.faceRemoved face)
      let withdrawn := said.onNode fun n => { n with tables := n.tables.forgetNextHop face }
      have hsaid : intact.forwarder said = ((intact.forwarder (fw.tick now)).onNode fun n =>
          { n with faces := intact.faces faces }).say (.faceRemoved face) :=
        intact_lawful.forwarder_say ((fw.tick now).onNode fun n => { n with faces }) rfl
      have hwithdrawn := congrArg (fun k : Forwarder => k.onNode fun n =>
        { n with tables := n.tables.forgetNextHop face }) hsaid
      have hforgotten := intact.map_forgetEach withdrawn face withdrawn.node.tables.pit.tokens
      have hstart : intact.forwarder withdrawn = _ := hwithdrawn
      rw [hstart] at hforgotten
      exact map_bind hforgotten fun _ _ => rfl

theorem intact_addFace (fw : Forwarder) (takes : Nat → Bool) (scope : FaceScope) (link : LinkType) :
    (fw.addFace takes scope link).map (Prod.map id intact.forwarder) =
      (intact.forwarder fw).addFace (fun _ => true) scope link := by
  have hadd : (intact.forwarder fw).node.faces.add (fun _ => true) scope link =
      (fw.node.faces.add takes scope link).map (Prod.map id intact.faces) := by
    change (intact.faces fw.node.faces).add _ _ _ = _
    rw [FaceTable.add, FaceTable.add]
    by_cases hroom : fw.node.faces.latest < FaceTable.lastId
    · have hroom' : (intact.faces fw.node.faces).latest < FaceTable.lastId := hroom
      rw [if_pos hroom, if_pos hroom']
      simp [intact, Face.mended]
    · have hroom' : ¬ (intact.faces fw.node.faces).latest < FaceTable.lastId := hroom
      rw [if_neg hroom, if_neg hroom']
      rfl
  rw [Forwarder.addFace, Forwarder.addFace, hadd]
  cases fw.node.faces.add takes scope link with
  | none => rfl
  | some added =>
      obtain ⟨face, faces⟩ := added
      exact congrArg (fun k => some (face, k))
        (intact_lawful.forwarder_say (fw.onNode fun n => { n with faces }) rfl)

theorem intact_hangUp (fw : Forwarder) (face : FaceId) :
    intact.forwarder (fw.hangUp face) = intact.forwarder fw := by
  have hfaces : intact.faces (fw.node.faces.hangUp face) = intact.faces fw.node.faces := by
    simp only [intact, FaceTable.hangUp, FaceTable.modify, List.map_map]
    congr 1
    refine List.map_congr_left fun f _ => ?_
    simp only [Function.comp]
    split <;> rfl
  exact congrArg (fun faces => { fw with node := { intact.node fw.node with faces } }) hfaces

end LinkView

/-- What a call says when links are left aside: a far end that goes away is no call, and a face is
added with some link. -/
def Operation.call? : Operation → Option Operation
  | hangUp _ => none
  | addFace _ scope link => some (.addFace (fun _ => true) scope link)
  | operation => some operation

namespace LinkView

theorem intact_perform {fw fw' : Forwarder} (hbuiltIn : fw.BuiltInOnly) {operation : Operation}
    (hperform : fw.perform operation = .ok fw') :
    match operation.call? with
    | some call => (intact.forwarder fw).perform call = .ok (intact.forwarder fw')
    | none => intact.forwarder fw' = intact.forwarder fw := by
  have hother (hfaces : operation.concernsFaces = false) :
      (intact.forwarder fw).perform operation = .ok (intact.forwarder fw') := by
    rw [← intact_lawful.perform (intact_lawful.acceptsAll hbuiltIn) hfaces, hperform]
    rfl
  cases operation with
  | addFace takes scope link =>
      cases hperform
      have hadd := intact_addFace fw takes scope link
      change Except.ok ((((intact.forwarder fw).addFace (fun _ => true) scope link).map
        Prod.snd).getD (intact.forwarder fw)) = _
      rw [← hadd]
      cases fw.addFace takes scope link <;> rfl
  | removeFace now face =>
      obtain ⟨⟨isRemoved, last⟩, hremove, rfl⟩ := map_eq_ok.mp hperform
      change ((intact.forwarder fw).removeFace now face).map Prod.snd = _
      rw [← intact_removeFace, hremove]
      rfl
  | hangUp face =>
      cases hperform
      exact intact_hangUp fw face
  | takeDisconnected =>
      cases hperform
      rfl
  | _ => exact hother rfl

end LinkView

/-- The calls of a run, the latest first, with links left aside. -/
def calls (history : List Step) : List Operation :=
  history.filterMap fun s => s.operation.call?

/-- The calls of a run, performed with links that take everything, lead where the run leads in the
view in which every link took everything. -/
theorem Run.intact {settings : Settings} {store : ContentStore} {hash : HashFunction}
    {history : List Step} {fw : Forwarder}
    (run : Run (Forwarder.new settings store hash) history fw) :
    (record (Forwarder.new settings store hash) (calls history)).map Prod.snd =
      .ok (LinkView.intact.forwarder fw) := by
  induction run with
  | start => rfl
  | step earlier operation hperform ih =>
      have hview := LinkView.intact_perform earlier.valid.builtIn hperform
      rw [calls, List.filterMap_cons]
      cases hcall : operation.call? with
      | none =>
          rw [hcall] at hview
          exact ih.trans (congrArg Except.ok hview.symm)
      | some call =>
          rw [hcall] at hview
          obtain ⟨⟨passed, last⟩, hrecord, hlast⟩ := map_eq_ok.mp ih
          rw [← hlast] at hview
          exact map_eq_ok.mpr
            ⟨⟨_, _⟩, bind_eq_ok.mpr ⟨_, hrecord, bind_eq_ok.mpr ⟨_, hview, rfl⟩⟩, rfl⟩

/-- What two forwarders share whose links may refuse different packets. -/
structure Forwarder.SameButLinks (fw fw' : Forwarder) : Prop where
  /-- The packets that were handed to faces, in order, whether they were taken or not. -/
  sent : fw.node.journal.sent.map (fun t => (t.peer, t.packet)) =
    fw'.node.journal.sent.map fun t => (t.peer, t.packet)
  /-- The pending Interests, the next hops and the choices of strategies. -/
  tables : fw.node.tables = fw'.node.tables
  store : fw.store = fw'.store
  deadNonces : fw.node.deadNonces = fw'.node.deadNonces
  timers : fw.node.timers = fw'.node.timers
  counters : fw.node.counters = fw'.node.counters
  events : fw.node.journal.events = fw'.node.journal.events
  now : fw.node.now = fw'.node.now
  regions : fw.node.regions = fw'.node.regions
  strategies : fw.strategies = fw'.strategies
  policy : fw.policy = fw'.policy
  hash : fw.hash = fw'.hash
  info? : fw.node.faces.info? = fw'.node.faces.info?
  notices : fw.node.journal.notices.filter (fun x => !x.isDisconnection) =
    fw'.node.journal.notices.filter fun x => !x.isDisconnection

theorem Forwarder.sameButLinks_of_intact {fw fw' : Forwarder}
    (h : LinkView.intact.forwarder fw = LinkView.intact.forwarder fw') : fw.SameButLinks fw' where
  sent := by
    have hsent (fw : Forwarder) : fw.node.journal.sent.map (fun t => (t.peer, t.packet)) =
        (LinkView.intact.forwarder fw).node.journal.sent.map fun t => (t.peer, t.packet) := by
      change _ = (fw.node.journal.sent.map Transmission.taken).map _
      rw [List.map_map]
      rfl
    rw [hsent fw, hsent fw', h]
  tables := (congrArg (fun k : Forwarder => k.node.tables) h :)
  store := (congrArg Forwarder.store h :)
  deadNonces := (congrArg (fun k : Forwarder => k.node.deadNonces) h :)
  timers := (congrArg (fun k : Forwarder => k.node.timers) h :)
  counters := (congrArg (fun k : Forwarder => k.node.counters) h :)
  events := (congrArg (fun k : Forwarder => k.node.journal.events) h :)
  now := (congrArg (fun k : Forwarder => k.node.now) h :)
  regions := (congrArg (fun k : Forwarder => k.node.regions) h :)
  strategies := (congrArg Forwarder.strategies h :)
  policy := (congrArg Forwarder.policy h :)
  hash := (congrArg Forwarder.hash h :)
  notices := (congrArg (fun k : Forwarder => k.node.journal.notices) h :)
  info? := by
    have hinfo (fw : Forwarder) :
        fw.node.faces.info? = (LinkView.intact.forwarder fw).node.faces.info? :=
      (LinkView.intact_lawful.info? fw.node.faces).symm
    rw [hinfo fw, hinfo fw', h]

end NamedData
