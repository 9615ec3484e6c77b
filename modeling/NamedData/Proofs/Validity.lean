import NamedData.Proofs.Pipelines
import NamedData.Proofs.RouteMap

/-!
The invariant of a node between operations: names list their pending entries, and their next hops in
order, chosen strategies are registered, no face has two records on one side of an entry, records
name faces that exist, and entries and timers belong together. It is stated a second time for a node
with an entry at hand, which may be without a timer for the time of the work; every piece of work on
an entry keeps it.
-/

namespace NamedData

/-- The records of an entry are in order. -/
structure PitEntry.WellKept (e : PitEntry) (faces : FaceTable) : Prop where
  distinct : e.Distinct
  known : e.Within fun face => faces.contains face = true

/-- The invariant of a node whose strategies are numbered below the given count. -/
structure Node.Valid (n : Node) (count : Nat) : Prop where
  indexed : n.tables.Indexed
  hopsListed : n.tables.HopsListed
  registered : n.tables.Registered count
  wellKept : ∀ token e, n.tables.pit.get? token = some e → e.WellKept n.faces
  timed : Timed n.timers.timers n.timers.nextId n.tables.pit.get?
  hasTimer : ∀ token e, n.tables.pit.get? token = some e → e.expiryTimer.isSome

/-- The invariant of a node with an entry at hand, of which only the timer may be missing. -/
structure Focus.Valid (f : Focus) (count : Nat) : Prop where
  live : f.Live
  indexed : f.node.tables.Indexed
  hopsListed : f.node.tables.HopsListed
  registered : f.node.tables.Registered count
  wellKept : f.entry.WellKept f.node.faces
  timed : f.Timed
  others : ∀ token e, token ≠ f.token → f.node.tables.pit.get? token = some e →
    e.WellKept f.node.faces ∧ e.expiryTimer.isSome

theorem FaceTable.contains_congr {t t' : FaceTable} (h : t'.info? = t.info?) :
    t'.contains = t.contains := by
  funext face
  rw [contains_eq, contains_eq, h]

theorem PitEntry.WellKept.congr {e : PitEntry} {faces faces' : FaceTable} (h : e.WellKept faces)
    (hinfo : faces'.info? = faces.info?) : e.WellKept faces' where
  distinct := h.distinct
  known := by
    rw [FaceTable.contains_congr hinfo]
    exact h.known

theorem PitEntry.WellKept.of_shrinks {e e' : PitEntry} {faces : FaceTable} (h : e.WellKept faces)
    (hshrinks : e.Shrinks e') : e'.WellKept faces :=
  ⟨h.distinct.of_shrinks hshrinks, h.known.of_shrinks hshrinks⟩

namespace Node.Valid

variable {n n' : Node} {count : Nat}

/-- Nothing counts but the tables, the timers and which faces there are. -/
theorem congr (h : n.Valid count) (htables : n'.tables = n.tables) (htimers : n'.timers = n.timers)
    (hinfo : n'.faces.info? = n.faces.info?) : n'.Valid count where
  indexed := htables ▸ h.indexed
  hopsListed := htables ▸ h.hopsListed
  registered := htables ▸ h.registered
  wellKept token e hget := (h.wellKept token e (htables ▸ hget)).congr hinfo
  timed := by
    rw [htables, htimers]
    exact h.timed
  hasTimer token e hget := h.hasTimer token e (htables ▸ hget)

theorem unmoved (h : n.Valid count) (hmoved : n.Unmoved n') : n'.Valid count :=
  h.congr hmoved.tables hmoved.timers hmoved.info?

/-- A change of the tables that leaves the arena alone. -/
theorem withTree (h : n.Valid count) {tables : Tables} (hindexed : tables.Indexed)
    (hhops : tables.HopsListed) (hregistered : tables.Registered count)
    (hpit : tables.pit = n.tables.pit) : Node.Valid { n with tables } count where
  indexed := hindexed
  hopsListed := hhops
  registered := hregistered
  wellKept token e hget := h.wellKept token e (hpit ▸ hget)
  timed := by
    have htimed := h.timed
    rw [← hpit] at htimed
    exact htimed
  hasTimer token e hget := h.hasTimer token e (hpit ▸ hget)

theorem mono (h : n.Valid count) {more : Nat} (hle : count ≤ more) : n.Valid more :=
  { h with registered := h.registered.mono hle }

theorem withFaces (h : n.Valid count) {faces : FaceTable}
    (hfaces : ∀ face, n.faces.contains face = true → faces.contains face = true) :
    Node.Valid { n with faces } count where
  indexed := h.indexed
  hopsListed := h.hopsListed
  registered := h.registered
  wellKept token e hget := by
    have hkept := h.wellKept token e hget
    exact ⟨hkept.distinct, fun face member => hfaces face (hkept.known.inFaces face member),
      fun face member => hfaces face (hkept.known.outFaces face member)⟩
  timed := h.timed
  hasTimer := h.hasTimer

theorem focus (h : n.Valid count) {token : PitToken} {e : PitEntry}
    (hget : n.tables.pit.get? token = some e) : Focus.Valid ⟨n, token, e⟩ count where
  live := ⟨e, hget, rfl⟩
  indexed := h.indexed
  hopsListed := h.hopsListed
  registered := h.registered
  wellKept := h.wellKept token e hget
  timed := by
    rw [Focus.Timed, Focus.entryOf?_focus hget]
    exact h.timed
  others u e' _ hget' := ⟨h.wellKept u e' hget', h.hasTimer u e' hget'⟩

/-- The entry for an Interest is at hand: an old one with its timer, or a new one without. -/
theorem findOrInsert (h : n.Valid count) {i : Interest} {token : PitToken} {isNew : Bool}
    {tables : Tables} (hfound : n.tables.findOrInsert i = .ok ((token, isNew), tables))
    {e : PitEntry} (hget : tables.pit.get? token = some e) :
    Focus.Valid ⟨{ n with tables }, token, e⟩ count ∧
      (tables = n.tables ∧ e.expiryTimer.isSome ∨ e = { interest := i.untagged }) := by
  rcases Tables.findOrInsert_cases hfound with ⟨rfl, _⟩ | ⟨pit, hinsert, rfl⟩
  · exact ⟨h.focus hget, .inl ⟨rfl, h.hasTimer token e hget⟩⟩
  · have hpit : ∀ u, pit.get? u = if u = token then some { interest := i.untagged }
        else n.tables.pit.get? u := Arena.get?_insert hinsert
    have hnew : e = { interest := i.untagged } := by
      have hself := hpit token
      rw [if_pos rfl] at hself
      exact Option.some.inj (Eq.trans (Eq.symm hget) hself)
    subst hnew
    have hother (u : PitToken) (e' : PitEntry) (hne : u ≠ token) (hget' : pit.get? u = some e') :
        n.tables.pit.get? u = some e' := by
      rwa [hpit, if_neg hne] at hget'
    have hhops : Tables.HopsListed { n.tables with pit } := h.hopsListed
    refine ⟨⟨⟨_, hget, rfl⟩, h.indexed.insert hinsert,
      hhops.change h.indexed.ordered i.name fun _ => id, ?_, ?_, ?_, ?_⟩, .inr rfl⟩
    · have hregistered : Tables.Registered { n.tables with pit } count := h.registered.congr rfl
      exact hregistered.change h.indexed.ordered _ fun r id hid => .inl hid
    · exact ⟨⟨List.nodup_nil, List.nodup_nil⟩, by simp [PitEntry.inFaces],
        by simp [PitEntry.outFaces]⟩
    · rw [Focus.Timed, Focus.entryOf?_focus hget]
      exact h.timed.insert (Arena.get?_of_insert hinsert) rfl hpit
    · intro u e' hne hget'
      have hold := hother u e' hne hget'
      exact ⟨h.wellKept u e' hold, h.hasTimer u e' hold⟩

end Node.Valid

/-! ### An entry at hand -/

namespace Focus.Valid

variable {f f' : Focus} {count : Nat}

/-- Putting the entry back keeps the invariant if the entry has a timer. -/
theorem release (h : f.Valid count) (htimer : f.entry.expiryTimer.isSome) :
    f.release.Valid count := by
  have hget := get?_release h.live
  obtain ⟨old, hold, hinterest⟩ := h.live
  have hrecords : ∀ token e, f.release.tables.pit.get? token = some e →
      e.WellKept f.node.faces ∧ e.expiryTimer.isSome := by
    intro token e hentry
    rw [hget] at hentry
    by_cases same : token = f.token
    · rw [same, entryOf?_self, Option.some.injEq] at hentry
      exact hentry ▸ ⟨h.wellKept, htimer⟩
    · rw [entryOf?_of_ne f same] at hentry
      exact h.others token e same hentry
  constructor
  · apply h.indexed.congr
    · exact h.indexed.ordered
    · intro n
      rfl
    · intro token
      rw [hget]
      by_cases same : token = f.token
      · rw [same, entryOf?_self, hold, Option.map_some, Option.map_some, PitEntry.name,
          PitEntry.name, hinterest]
      · rw [entryOf?_of_ne f same]
  · exact h.hopsListed
  · exact h.registered.congr rfl
  · intro token e hentry
    exact (hrecords token e hentry).1
  · rw [hget]
    exact h.timed
  · intro token e hentry
    exact (hrecords token e hentry).2

theorem of_keeps (h : f.Valid count) (hkeeps : f.Keeps f')
    (hwellKept : f'.entry.WellKept f.node.faces) (htimed : f'.Timed) : f'.Valid count where
  live := hkeeps.live h.live
  indexed := hkeeps.tables ▸ h.indexed
  hopsListed := hkeeps.tables ▸ h.hopsListed
  registered := hkeeps.tables ▸ h.registered
  wellKept := hwellKept.congr hkeeps.info?
  timed := htimed
  others token e hne hget := by
    rw [hkeeps.token] at hne
    rw [hkeeps.tables] at hget
    obtain ⟨hkept, htimer⟩ := h.others token e hne hget
    exact ⟨hkept.congr hkeeps.info?, htimer⟩

theorem quiet (h : f.Valid count) (hquiet : f.Quiet f') : f'.Valid count := by
  apply h.of_keeps hquiet.keeps
  · rw [hquiet.entry]
    exact h.wellKept
  · exact timed_of_keeps h.timed hquiet.keeps hquiet.node.timers (by rw [hquiet.entry])

theorem unmoved {n m : Node} {token : PitToken} {e : PitEntry}
    (h : Focus.Valid ⟨n, token, e⟩ count) (hmoved : n.Unmoved m) :
    Focus.Valid ⟨m, token, e⟩ count := by
  have hkeeps : Focus.Keeps ⟨n, token, e⟩ ⟨m, token, e⟩ := keeps_of_unmoved hmoved rfl
  exact h.of_keeps hkeeps h.wellKept (timed_of_keeps h.timed hkeeps hmoved.timers rfl)

theorem setExpiry (h : f.Valid count) (after : Millis) : (f.setExpiry after).Valid count :=
  h.of_keeps (f.keeps_setExpiry after)
    (h.wellKept.of_shrinks ⟨List.Sublist.refl _, List.Sublist.refl _⟩)
    (timed_setExpiry h.timed after)

theorem moves (h : f.Valid count) (hmoves : f.Moves f') : f'.Valid count := by
  have hknown : f'.NamesKnownFaces := hmoves.namesKnownFaces h.wellKept.known
  rw [NamesKnownFaces, FaceTable.contains_congr hmoves.keeps.info?] at hknown
  exact h.of_keeps hmoves.keeps ⟨hmoves.distinct h.wellKept.distinct, hknown⟩
    (hmoves.timed h.timed)

/-- A change of the records that leaves the Interest and the timer alone. -/
theorem onEntry (h : f.Valid count) {change : PitEntry → PitEntry}
    (hinterest : (change f.entry).interest = f.entry.interest)
    (htimer : (change f.entry).expiryTimer = f.entry.expiryTimer)
    (hwellKept : (change f.entry).WellKept f.node.faces) : (f.onEntry change).Valid count :=
  h.of_keeps (keeps_onEntry hinterest) hwellKept
    (timed_of_keeps h.timed (keeps_onEntry hinterest) rfl htimer)

theorem awaitData (h : f.Valid count) {ingress : FaceEndpoint}
    (hknown : f.node.faces.contains ingress.face = true) (interest : Interest) :
    (Forwarder.awaitData ingress interest f).Valid count := by
  apply Valid.setExpiry
  apply h.onEntry rfl rfl
  constructor
  · exact h.wellKept.distinct.recordIn ingress interest f.node.now
  · exact h.wellKept.known.recordIn hknown interest f.node.now

theorem settle (h : f.Valid count) (data : Data) : (Forwarder.settle data f).Valid count :=
  h.onEntry rfl rfl ⟨⟨h.wellKept.distinct.inFaces, h.wellKept.distinct.outFaces⟩,
    ⟨h.wellKept.known.inFaces, h.wellKept.known.outFaces⟩⟩

theorem rememberNonces (h : f.Valid count) (records : List OutRecord) :
    (f.rememberNonces records).Valid count := by
  obtain ⟨deadNonces, hremember⟩ := Forwarder.rememberNonces_eq f records
  have hkeeps := f.keeps_rememberNonces records
  rw [hremember] at hkeeps ⊢
  exact h.of_keeps hkeeps h.wellKept (timed_of_keeps h.timed hkeeps rfl rfl)

theorem closeEntry (h : f.Valid count) (ingress : FaceEndpoint) (data : Data) :
    (Forwarder.closeEntry ingress data f).Valid count := by
  have hremembered := (h.settle data).rememberNonces
    ((Forwarder.settle data f).entry.outRecord? ingress.face).toList
  rw [Forwarder.closeEntry_eq]
  apply hremembered.onEntry rfl rfl
  exact hremembered.wellKept.of_shrinks (PitEntry.shrinks_deleteOut _ _)

theorem sendData (h : f.Valid count) (egress : FaceEndpoint) (data : Data) :
    (f.sendData egress data).Valid count := by
  have hkeeps := f.keeps_sendData egress data
  apply h.of_keeps hkeeps
  · exact h.wellKept.of_shrinks (f.entry.shrinks_deleteIn egress.face)
  · exact timed_of_keeps h.timed hkeeps (f.node.unmoved_sendData egress data).timers rfl

theorem recordNack (h : f.Valid count) (face : FaceId) (reason : NackReason) :
    (Forwarder.recordNack face reason f).Valid count := by
  have hnoted : (f.onEntry fun e => e.recordNack face reason).Valid count :=
    h.onEntry rfl rfl (h.wellKept.of_shrinks (f.entry.shrinks_recordNack face reason))
  rw [Forwarder.recordNack]
  split
  · exact hnoted
  · exact hnoted.setExpiry 0

theorem forgetFace (h : f.Valid count) (face : FaceId) :
    (Forwarder.forgetFace face f).Valid count := by
  have hforgets : (f.onEntry fun e => e.forgetFace face).Valid count :=
    h.onEntry rfl rfl (h.wellKept.of_shrinks (f.entry.shrinks_forgetFace face))
  rcases Forwarder.forgetFace_cases face f with ⟨_, hsame⟩ | ⟨_, hsame | hsame⟩
  · rwa [hsame]
  · rwa [hsame]
  · rw [hsame]
    exact hforgets.setExpiry 0

end Focus.Valid

/-- An Interest that has its entry at hand keeps the invariant: a new entry does not loop. -/
theorem Forwarder.Admission.valid {ingress : FaceEndpoint} {info : FaceInfo} {interest : Interest}
    {n n' : Node} {token : PitToken} {e : PitEntry} {count : Nat}
    (hadmission : Forwarder.Admission ingress info interest n token e n')
    (h : Focus.Valid ⟨n, token, e⟩ count)
    (horigin : e.expiryTimer.isSome ∨ ∃ i, e = { interest := i })
    (hknown : n.faces.contains ingress.face = true) : n'.Valid count := by
  cases hadmission with
  | looped m hloop hmoved hsent =>
      have htimer : e.expiryTimer.isSome := by
        rcases horigin with hold | ⟨i, rfl⟩
        · exact hold
        · simp [isLoop, PitEntry.findNonce, DuplicateNonce.isNone] at hloop
      exact (h.unmoved hmoved).release htimer
  | hit g data hloop hempty hquiet =>
      have hnoted := h.unmoved (quiet_noteHit interest data n).toUnmoved
      have hsettled := (hnoted.settle data).setExpiry 0
      apply ((hsettled.quiet hquiet).sendData ingress _).release
      have hentry : (g.sendData ingress { data with
        incomingFace := some .contentStore }).entry.expiryTimer = g.entry.expiryTimer := rfl
      rw [hentry, hquiet.entry, Focus.expiryTimer_setExpiry]
      rfl
  | missed f hloop hanswer =>
      have hmoves := hanswer.moves
      have hnoted := h.unmoved (quiet_noteMiss interest n).toUnmoved
      apply ((hnoted.awaitData hknown interest).moves hmoves).release
      apply hmoves.hasTimer
      rw [awaitData, Focus.expiryTimer_setExpiry]
      rfl

end NamedData
