import NamedData.Forwarder.Focus
import NamedData.Proofs.Arena

/-!
What the elementary steps of a node leave as it is. Talking to observers and to faces moves nothing
that forwarding depends on; work on one entry moves nothing but that entry, its timer and the memory
of nonces. Whatever goes out is the end of the list of sent packets.
-/

namespace NamedData

/-! ### Faces -/

namespace FaceTable

theorem contains_eq (t : FaceTable) (face : FaceId) : t.contains face = (t.info? face).isSome := by
  simp [contains, info?]

theorem contains_of_info? {t : FaceTable} {face : FaceId} {info : FaceInfo}
    (h : t.info? face = some info) : t.contains face = true := by
  rw [contains_eq, h, Option.isSome_some]

theorem info?_modify (t : FaceTable) (face : FaceId) {change : Face → Face}
    (h : ∀ f, (change f).info = f.info) : (t.modify face change).info? = t.info? := by
  funext g
  have hinfo (f : Face) : (if f.info.face = face then change f else f).info = f.info := by
    split
    · exact h f
    · rfl
  simp only [info?, find?, modify, List.find?_map, Function.comp_def, hinfo, Option.map_map]

theorem info?_handOver {t t' : FaceTable} {face : FaceId} {isTaken : Bool}
    (h : t.handOver face = some (isTaken, t')) : t'.info? = t.info? := by
  rw [handOver] at h
  split at h
  · cases h
    exact info?_modify t face fun _ => rfl
  · cases h

theorem contains_of_handOver {t t' : FaceTable} {face : FaceId} {isTaken : Bool}
    (h : t.handOver face = some (isTaken, t')) : t.contains face = true := by
  rw [handOver] at h
  split at h
  next f hfind => rw [contains, hfind, Option.isSome_some]
  next => cases h

theorem find?_add {t t' : FaceTable} {takes : Nat → Bool} {scope : FaceScope} {link : LinkType}
    {new : FaceId} (h : t.add takes scope link = some (new, t')) {face : FaceId} {f : Face}
    (hfind : t.find? face = some f) : t'.find? face = some f := by
  rw [add] at h
  split at h
  · cases h
    rw [find?] at hfind ⊢
    rw [List.find?_append, hfind]
    rfl
  · cases h

theorem contains_iff {t : FaceTable} {face : FaceId} :
    t.contains face = true ↔ ∃ f ∈ t.faces, f.info.face = face := by
  simp [contains, find?]

theorem contains_remove {t t' : FaceTable} {face : FaceId} (h : t.remove face = (true, t'))
    (g : FaceId) : t'.contains g = true ↔ t.contains g = true ∧ g ≠ face := by
  rw [remove] at h
  split at h
  · cases h
  · split at h
    · cases h
      rw [contains_iff, contains_iff]
      constructor
      · rintro ⟨f, hf, rfl⟩
        obtain ⟨hmem, hother⟩ := List.mem_filter.mp hf
        exact ⟨⟨f, hmem, rfl⟩, of_decide_eq_true hother⟩
      · rintro ⟨⟨f, hf, rfl⟩, hother⟩
        exact ⟨f, List.mem_filter.mpr ⟨hf, decide_eq_true hother⟩, rfl⟩
    · cases h

end FaceTable

/-! ### Nodes -/

/-- The second counts are later ones, and no Interest came in between. -/
structure Counters.Onward (c c' : Counters) : Prop where
  inInterests : c'.inInterests = c.inInterests
  storeMisses : c.storeMisses ≤ c'.storeMisses

theorem Counters.Onward.refl (c : Counters) : c.Onward c :=
  ⟨rfl, Nat.le_refl _⟩

theorem Counters.Onward.trans {a b c : Counters} (h : a.Onward b) (h' : b.Onward c) : a.Onward c :=
  ⟨h'.inInterests.trans h.inInterests, Nat.le_trans h.storeMisses h'.storeMisses⟩

theorem Counters.Onward.outInterests (c : Counters) :
    c.Onward { c with outInterests := c.outInterests + 1 } :=
  ⟨rfl, Nat.le_refl _⟩

theorem Counters.Onward.outNacks (c : Counters) :
    c.Onward { c with outNacks := c.outNacks + 1 } :=
  ⟨rfl, Nat.le_refl _⟩

theorem Counters.Onward.outData (c : Counters) :
    c.Onward { c with outData := c.outData + 1 } :=
  ⟨rfl, Nat.le_refl _⟩

namespace Node

/-- The second node takes no face for broken that the first one neither has nor took for broken. -/
def ReportsKnown (n n' : Node) : Prop :=
  ∀ face ∈ n'.disconnected, face ∈ n.disconnected ∨ n.faces.contains face = true

theorem ReportsKnown.refl (n : Node) : n.ReportsKnown n :=
  fun _ => .inl

theorem ReportsKnown.trans {n m k : Node} (h : n.ReportsKnown m) (h' : m.ReportsKnown k)
    (hinfo : m.faces.info? = n.faces.info?) : n.ReportsKnown k := by
  intro face member
  rcases h' face member with hold | hknown
  · exact h face hold
  · rw [FaceTable.contains_eq, hinfo, ← FaceTable.contains_eq] at hknown
    exact .inr hknown

/-- The second node is the first one after it spoke to observers or handed something to a face. -/
structure Unmoved (n n' : Node) : Prop extends n.counters.Onward n'.counters where
  tables : n'.tables = n.tables
  deadNonces : n'.deadNonces = n.deadNonces
  timers : n'.timers = n.timers
  regions : n'.regions = n.regions
  now : n'.now = n.now
  info? : n'.faces.info? = n.faces.info?
  reports : n.ReportsKnown n'

theorem Unmoved.refl (n : Node) : n.Unmoved n :=
  ⟨.refl _, rfl, rfl, rfl, rfl, rfl, rfl, .refl n⟩

theorem Unmoved.trans {n m k : Node} (h : n.Unmoved m) (h' : m.Unmoved k) : n.Unmoved k :=
  ⟨h.toOnward.trans h'.toOnward, h'.tables.trans h.tables, h'.deadNonces.trans h.deadNonces,
    h'.timers.trans h.timers, h'.regions.trans h.regions, h'.now.trans h.now,
    h'.info?.trans h.info?, h.reports.trans h'.reports h.info?⟩

theorem unmoved_say (n : Node) (notice : Notice) : n.Unmoved (n.say notice) :=
  ⟨.refl _, rfl, rfl, rfl, rfl, rfl, rfl, .refl n⟩

theorem unmoved_report (n : Node) (event : Event) : n.Unmoved (n.report event) :=
  ⟨.refl _, rfl, rfl, rfl, rfl, rfl, rfl, .refl n⟩

theorem unmoved_count (n : Node) {f : Counters → Counters}
    (h : ∀ c : Counters, c.Onward (f c)) : n.Unmoved (n.count f) :=
  ⟨h n.counters, rfl, rfl, rfl, rfl, rfl, rfl, .refl n⟩

/-- The second node is the first one after it spoke to observers only. -/
structure Quiet (n n' : Node) : Prop extends n.Unmoved n' where
  sent : n'.journal.sent = n.journal.sent

theorem Quiet.refl (n : Node) : n.Quiet n :=
  ⟨.refl n, rfl⟩

theorem Quiet.trans {n m k : Node} (h : n.Quiet m) (h' : m.Quiet k) : n.Quiet k :=
  ⟨h.toUnmoved.trans h'.toUnmoved, h'.sent.trans h.sent⟩

theorem quiet_say (n : Node) (notice : Notice) : n.Quiet (n.say notice) :=
  ⟨n.unmoved_say notice, rfl⟩

theorem quiet_report (n : Node) (event : Event) : n.Quiet (n.report event) :=
  ⟨n.unmoved_report event, rfl⟩

theorem quiet_count (n : Node) {f : Counters → Counters}
    (h : ∀ c : Counters, c.Onward (f c)) : n.Quiet (n.count f) :=
  ⟨n.unmoved_count h, rfl⟩

theorem reportsKnown_noteDisconnected {n : Node} {face : FaceId}
    (hknown : n.faces.contains face = true) : n.ReportsKnown (n.noteDisconnected face) := by
  intro other member
  rw [noteDisconnected] at member
  split at member
  · exact .inl member
  · rcases List.mem_append.mp member with hold | hnew
    · exact .inl hold
    · exact .inr (List.mem_singleton.mp hnew ▸ hknown)

theorem unmoved_noteDisconnected {n : Node} {face : FaceId}
    (hknown : n.faces.contains face = true) : n.Unmoved (n.noteDisconnected face) := by
  have hreports := reportsKnown_noteDisconnected hknown
  rw [noteDisconnected] at hreports ⊢
  split at hreports
  next hnoted =>
    rw [if_pos hnoted]
    exact ⟨.refl _, rfl, rfl, rfl, rfl, rfl, rfl, hreports⟩
  next hnew =>
    rw [if_neg hnew]
    exact ⟨.refl _, rfl, rfl, rfl, rfl, rfl, rfl, hreports⟩

theorem unmoved_transmit (n : Node) (peer : FaceEndpoint) (packet : Packet) :
    n.Unmoved (n.transmit peer packet) := by
  rw [transmit]
  split
  · exact .refl n
  next isTaken faces hhand =>
    have hinfo := FaceTable.info?_handOver hhand
    have hhanded (sent : List Transmission) : n.Unmoved
        { n with faces, journal := { n.journal with sent } } :=
      ⟨.refl _, rfl, rfl, rfl, rfl, rfl, hinfo, .refl n⟩
    have hknown : faces.contains peer.face = true := by
      rw [FaceTable.contains_eq, hinfo, ← FaceTable.contains_eq]
      exact FaceTable.contains_of_handOver hhand
    dsimp only
    split
    · exact hhanded _
    · exact (hhanded _).trans (unmoved_noteDisconnected hknown)

theorem unmoved_dispatch (n : Node) (notice : Notice) (peer : FaceEndpoint) (packet : Packet)
    {f : Counters → Counters} (h : ∀ c : Counters, c.Onward (f c)) :
    n.Unmoved (((n.say notice).transmit peer packet).count f) :=
  ((n.unmoved_say notice).trans (unmoved_transmit _ peer packet)).trans (unmoved_count _ h)

theorem unmoved_sendData (n : Node) (egress : FaceEndpoint) (data : Data) :
    n.Unmoved (n.sendData egress data) := by
  rw [sendData]
  split
  · exact unmoved_say n _
  · split
    · exact unmoved_say n _
    · exact unmoved_dispatch n _ egress _ .outData

@[simp] theorem sent_say (n : Node) (notice : Notice) :
    (n.say notice).journal.sent = n.journal.sent := rfl

@[simp] theorem sent_count (n : Node) (f : Counters → Counters) :
    (n.count f).journal.sent = n.journal.sent := rfl

theorem sent_noteDisconnected (n : Node) (face : FaceId) :
    (n.noteDisconnected face).journal.sent = n.journal.sent := by
  rw [noteDisconnected]
  split <;> rfl

@[simp] theorem counters_transmit (n : Node) (peer : FaceEndpoint) (packet : Packet) :
    (n.transmit peer packet).counters = n.counters := by
  rw [transmit]
  split
  · rfl
  · split
    · rfl
    · rw [noteDisconnected]
      split <;> rfl

theorem storeMisses_sendData (n : Node) (egress : FaceEndpoint) (data : Data) :
    (n.sendData egress data).counters.storeMisses = n.counters.storeMisses := by
  rw [sendData]
  split
  · rfl
  · split
    · rfl
    · change ((n.say _).transmit egress (.data data)).counters.storeMisses = n.counters.storeMisses
      rw [counters_transmit]
      rfl

/-- A packet for a face that does not exist goes nowhere. -/
theorem transmit_of_unknown {n : Node} {peer : FaceEndpoint} (h : n.faces.info? peer.face = none)
    (packet : Packet) : n.transmit peer packet = n := by
  have hfind : n.faces.find? peer.face = none := by simpa [FaceTable.info?] using h
  simp [transmit, FaceTable.handOver, hfind]

/-- A packet for a face that exists is sent, whether its link takes it or not. -/
theorem sent_transmit {n : Node} {peer : FaceEndpoint} {info : FaceInfo}
    (h : n.faces.info? peer.face = some info) (packet : Packet) :
    ∃ isTaken, (n.transmit peer packet).journal.sent =
      n.journal.sent ++ [Transmission.mk peer packet isTaken] := by
  simp only [FaceTable.info?, Option.map_eq_some_iff] at h
  obtain ⟨f, hfind, _⟩ := h
  refine ⟨f.takes f.handed, ?_⟩
  simp only [transmit, FaceTable.handOver, hfind]
  split
  · rfl
  · rw [sent_noteDisconnected]

/-- Whether Data goes out of a face when it is sent there. -/
def lets (n : Node) (data : Data) (face : FaceId) : Bool :=
  (n.faces.info? face).any fun info => info.isLocal || !data.name.isLocalhost

theorem Unmoved.lets {n n' : Node} (h : n.Unmoved n') : n'.lets = n.lets := by
  funext data face
  simp only [Node.lets, h.info?]

theorem sent_sendData_of_lets {n : Node} {egress : FaceEndpoint} {data : Data}
    (h : n.lets data egress.face = true) :
    ∃ isTaken, (n.sendData egress data).journal.sent =
      n.journal.sent ++ [Transmission.mk egress (.data data) isTaken] := by
  rw [lets] at h
  cases hinfo : n.faces.info? egress.face with
  | none => simp [hinfo] at h
  | some info =>
      have hscope : (!info.isLocal && data.name.isLocalhost) = false := by
        simpa [hinfo, or_iff_not_imp_left] using h
      obtain ⟨isTaken, hsent⟩ :=
        sent_transmit (n := n.say (.outgoingData egress.face data.name false)) hinfo (.data data)
      exact ⟨isTaken, by simp [sendData, hinfo, hscope, hsent]⟩

theorem sent_sendData_of_not_lets {n : Node} {egress : FaceEndpoint} {data : Data}
    (h : n.lets data egress.face = false) :
    (n.sendData egress data).journal.sent = n.journal.sent := by
  rw [lets] at h
  cases hinfo : n.faces.info? egress.face with
  | none => simp [sendData, hinfo]
  | some info =>
      have hscope : (!info.isLocal && data.name.isLocalhost) = true := by
        simpa [hinfo, Bool.or_comm] using h
      simp [sendData, hinfo, hscope]

theorem focus_eq_ok {n : Node} {token : PitToken} {f : Focus} :
    n.focus token = .ok f ↔
      ∃ entry, n.tables.pit.get? token = some entry ∧ f = ⟨n, token, entry⟩ := by
  rw [focus, Arena.get]
  cases n.tables.pit.get? token <;> simp [eq_comm]

end Node

/-! ### Entries at hand -/

namespace Focus

/-- The second focus is the first one after some work on its entry. -/
structure Keeps (f f' : Focus) : Prop extends f.node.counters.Onward f'.node.counters where
  token : f'.token = f.token
  tables : f'.node.tables = f.node.tables
  regions : f'.node.regions = f.node.regions
  now : f'.node.now = f.node.now
  info? : f'.node.faces.info? = f.node.faces.info?
  reports : f.node.ReportsKnown f'.node
  interest : f'.entry.interest = f.entry.interest

theorem Keeps.refl (f : Focus) : f.Keeps f :=
  ⟨.refl _, rfl, rfl, rfl, rfl, rfl, .refl _, rfl⟩

theorem Keeps.trans {f g k : Focus} (h : f.Keeps g) (h' : g.Keeps k) : f.Keeps k :=
  ⟨h.toOnward.trans h'.toOnward, h'.token.trans h.token, h'.tables.trans h.tables,
    h'.regions.trans h.regions, h'.now.trans h.now, h'.info?.trans h.info?,
    h.reports.trans h'.reports h.info?, h'.interest.trans h.interest⟩

theorem keeps_onNode {f : Focus} {change : Node → Node} (h : f.node.Unmoved (change f.node)) :
    f.Keeps (f.onNode change) :=
  ⟨h.toOnward, rfl, h.tables, h.regions, h.now, h.info?, h.reports, rfl⟩

theorem keeps_onEntry {f : Focus} {change : PitEntry → PitEntry}
    (h : (change f.entry).interest = f.entry.interest) : f.Keeps (f.onEntry change) :=
  ⟨.refl _, rfl, rfl, rfl, rfl, rfl, .refl _, h⟩

theorem keeps_say (f : Focus) (notice : Notice) : f.Keeps (f.say notice) :=
  keeps_onNode (f.node.unmoved_say notice)

theorem keeps_setExpiry (f : Focus) (after : Millis) : f.Keeps (f.setExpiry after) :=
  ⟨.refl _, rfl, rfl, rfl, rfl, rfl, fun _ => .inl, rfl⟩

theorem keeps_rememberNonces (f : Focus) (records : List OutRecord) :
    f.Keeps (f.rememberNonces records) := by
  rw [rememberNonces]
  split
  · exact ⟨.refl _, rfl, rfl, rfl, rfl, rfl, fun _ => .inl, rfl⟩
  · exact .refl f

theorem sendInterest_of_known {f : Focus} {egress : FaceEndpoint}
    (h : f.node.faces.contains egress.face = true) (interest : Interest) :
    f.sendInterest egress interest =
      { f with
        node :=
          ((f.node.say (.outgoingInterest egress.face f.entry.name)).transmit egress
            (.interest interest.untagged)).count fun c =>
              { c with outInterests := c.outInterests + 1 }
        entry := f.entry.recordOut egress interest f.node.now } := by
  simp only [sendInterest, h, ↓reduceIte]
  rfl

theorem sendInterest_of_unknown {f : Focus} {egress : FaceEndpoint}
    (h : f.node.faces.contains egress.face = false) (interest : Interest) :
    f.sendInterest egress interest = f.say (.outgoingInterestNowhere interest.name) := by
  simp [sendInterest, h]

/-- A Nack either stays in the node or goes to a face that waits and thereby waits no longer. -/
theorem sendNack_cases (f : Focus) (egress : FaceEndpoint) (reason : NackReason) :
    (∃ notice, f.sendNack egress reason = f.say notice) ∨
      ∃ info record, f.node.faces.info? egress.face = some info ∧ info.isPointToPoint = true ∧
        f.entry.inRecord? egress.face = some record ∧
        f.sendNack egress reason =
          { f with
            node := ((f.node.say (.outgoingNack egress.face f.entry.name reason .sent)).transmit
              egress (.nack { interest := record.interest.untagged, reason })).count
                fun c => { c with outNacks := c.outNacks + 1 }
            entry := f.entry.deleteIn egress.face } := by
  cases hinfo : f.node.faces.info? egress.face with
  | none => exact .inl ⟨.outgoingNackNowhere f.entry.name reason, by simp only [sendNack, hinfo]⟩
  | some info =>
      cases hrecord : f.entry.inRecord? egress.face with
      | none =>
          exact .inl ⟨.outgoingNack egress.face f.entry.name reason .noInRecord, by
            simp only [sendNack, hinfo, hrecord]⟩
      | some record =>
          cases hlink : info.isPointToPoint with
          | false =>
              exact .inl ⟨.outgoingNack egress.face f.entry.name reason (.wrongLink info.link), by
                simp only [sendNack, hinfo, hrecord, hlink, Bool.false_eq_true, ↓reduceIte]⟩
          | true =>
              refine .inr ⟨info, record, rfl, hlink, rfl, ?_⟩
              simp only [sendNack, hinfo, hrecord, hlink, ↓reduceIte]
              rfl

theorem keeps_of_unmoved {f : Focus} {node : Node} (h : f.node.Unmoved node) {entry : PitEntry}
    (hinterest : entry.interest = f.entry.interest) : f.Keeps { f with node, entry } :=
  ⟨h.toOnward, rfl, h.tables, h.regions, h.now, h.info?, h.reports, hinterest⟩

/-- The second focus is the first one after it spoke to observers only. -/
structure Quiet (f f' : Focus) : Prop where
  node : f.node.Quiet f'.node
  token : f'.token = f.token
  entry : f'.entry = f.entry

theorem Quiet.trans {f g k : Focus} (h : f.Quiet g) (h' : g.Quiet k) : f.Quiet k :=
  ⟨h.node.trans h'.node, h'.token.trans h.token, h'.entry.trans h.entry⟩

theorem quiet_say (f : Focus) (notice : Notice) : f.Quiet (f.say notice) :=
  ⟨f.node.quiet_say notice, rfl, rfl⟩

theorem quiet_report (f : Focus) (event : Event) : f.Quiet (f.report event) :=
  ⟨f.node.quiet_report event, rfl, rfl⟩

theorem Quiet.keeps {f f' : Focus} (h : f.Quiet f') : f.Keeps f' :=
  ⟨h.node.toOnward, h.token, h.node.tables, h.node.regions, h.node.now, h.node.info?,
    h.node.reports, congrArg PitEntry.interest h.entry⟩

theorem keeps_sendInterest (f : Focus) (egress : FaceEndpoint) (interest : Interest) :
    f.Keeps (f.sendInterest egress interest) := by
  cases hknown : f.node.faces.contains egress.face with
  | false =>
      rw [sendInterest_of_unknown hknown]
      exact f.keeps_say _
  | true =>
      rw [sendInterest_of_known hknown]
      have hmoved := f.node.unmoved_dispatch (.outgoingInterest egress.face f.entry.name) egress
        (.interest interest.untagged) fun c => .outInterests c
      exact keeps_of_unmoved hmoved rfl

theorem keeps_sendData (f : Focus) (egress : FaceEndpoint) (data : Data) :
    f.Keeps (f.sendData egress data) :=
  keeps_of_unmoved (f.node.unmoved_sendData egress data) rfl

theorem keeps_sendDataToAll (f : Focus) (ingress : FaceEndpoint) (data : Data) :
    f.Keeps (f.sendDataToAll ingress data) := by
  have heach (peers : List FaceEndpoint) (g : Focus) :
      g.Keeps (peers.foldl (fun g egress => g.sendData egress data) g) := by
    induction peers generalizing g with
    | nil => exact .refl g
    | cons p rest ih => exact (g.keeps_sendData p data).trans (ih _)
  exact heach (f.waiting ingress.face) f

theorem keeps_sendNack (f : Focus) (egress : FaceEndpoint) (reason : NackReason) :
    f.Keeps (f.sendNack egress reason) := by
  rcases f.sendNack_cases egress reason with ⟨notice, hsay⟩ | ⟨info, record, _, _, _, hsent⟩
  · rw [hsay]
    exact f.keeps_say notice
  · rw [hsent]
    have hmoved := f.node.unmoved_dispatch (.outgoingNack egress.face f.entry.name reason .sent)
      egress (.nack { interest := record.interest.untagged, reason }) fun c => .outNacks c
    exact keeps_of_unmoved hmoved rfl

/-! ### All entries of a node with one at hand -/

/-- The entry of a token, where the entry at hand counts as it is now. -/
def entryOf? (f : Focus) (token : PitToken) : Option PitEntry :=
  if token = f.token then some f.entry else f.node.tables.pit.get? token

/-- The token at hand is that of an entry with the same Interest. -/
def Live (f : Focus) : Prop :=
  ∃ old, f.node.tables.pit.get? f.token = some old ∧ old.interest = f.entry.interest

theorem Keeps.live {f f' : Focus} (h : f.Keeps f') (hl : f.Live) : f'.Live := by
  obtain ⟨old, hget, hinterest⟩ := hl
  exact ⟨old, by rw [h.tables, h.token, hget], hinterest.trans h.interest.symm⟩

@[simp] theorem entryOf?_self (f : Focus) : f.entryOf? f.token = some f.entry :=
  if_pos rfl

theorem entryOf?_of_ne (f : Focus) {token : PitToken} (h : token ≠ f.token) :
    f.entryOf? token = f.node.tables.pit.get? token :=
  if_neg h

theorem entryOf?_focus {n : Node} {token : PitToken} {entry : PitEntry}
    (h : n.tables.pit.get? token = some entry) :
    Focus.entryOf? ⟨n, token, entry⟩ = n.tables.pit.get? := by
  funext t
  by_cases same : t = token
  · simp [entryOf?, same, h]
  · simp [entryOf?, same]

theorem get?_release {f : Focus} (h : f.Live) : f.release.tables.pit.get? = f.entryOf? := by
  obtain ⟨old, hget, _⟩ := h
  funext token
  exact Arena.get?_set hget f.entry token

theorem get?_release_self {f : Focus} (h : f.Live) :
    f.release.tables.pit.get? f.token = some f.entry := by
  rw [get?_release h, entryOf?_self]

theorem Keeps.entryOf?_of_ne {f f' : Focus} (h : f.Keeps f') {token : PitToken}
    (hne : token ≠ f.token) : f'.entryOf? token = f.entryOf? token := by
  rw [Focus.entryOf?_of_ne f hne, Focus.entryOf?_of_ne f' (by rwa [h.token]), h.tables]

/-- Work on one entry leaves the others as they are. -/
theorem Keeps.get?_release_of_ne {f f' : Focus} (h : f.Keeps f') (hlive : f.Live) {token : PitToken}
    (hne : token ≠ f.token) :
    f'.release.tables.pit.get? token = f.release.tables.pit.get? token := by
  rw [get?_release (h.live hlive), get?_release hlive, h.entryOf?_of_ne hne]

end Focus

end NamedData
