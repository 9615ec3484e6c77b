import NamedData.Proofs.AnyStrategy
import NamedData.Proofs.Tally

/-!
Work on a pending entry by a pipeline together with any lawful strategy. It ends without a fault and
leaves the node with its invariant, and no entry comes or goes meanwhile. The pipeline of Interests
takes an Interest further exactly if it does not turn it away, whatever the strategies are.
-/

namespace NamedData

open Forwarder

/-! ### Work on one entry -/

namespace Node.Orderly

variable {n m : Node} {count : Nat} {token : PitToken} {e : PitEntry}

theorem focus (h : n.Orderly count) (hget : n.tables.pit.get? token = some e) :
    Focus.Orderly ⟨n, token, e⟩ count ∧ e.expiryTimer.isSome := by
  have hrelease : (Focus.release ⟨n, token, e⟩).Orderly count := by
    rw [release_focus hget]
    exact h
  exact Focus.orderly_of_release ⟨e, hget, rfl⟩ hrelease

/-- The tables of the node are sound as tables by themselves are. -/
theorem soundTables (h : n.Orderly count) : ∃ made, n.tables.Sound made := by
  obtain ⟨made, hpit⟩ := h.hasRoom
  exact ⟨made, h.valid.indexed, h.distinguished, hpit⟩

/-- The entry for an Interest is at hand: an old one with its timer, or a new one without. -/
theorem findOrInsert (h : n.Orderly count) {i : Interest} {isNew : Bool} {tables : Tables}
    (hfound : n.tables.findOrInsert i = .ok ((token, isNew), tables))
    (hget : tables.pit.get? token = some e) :
    Focus.Orderly ⟨{ n with tables }, token, e⟩ count ∧
      (e.expiryTimer.isSome ∨ e = { interest := i.untagged }) := by
  obtain ⟨hvalid, horigin⟩ := h.valid.findOrInsert hfound hget
  obtain ⟨made, hbefore⟩ := h.soundTables
  obtain ⟨made', hsound⟩ : ∃ made, tables.Sound made := by
    rcases Tables.findOrInsert_eq_ok hfound with ⟨-, rfl, -⟩ | ⟨pit, -, hfind, hinsert, rfl⟩
    · exact ⟨made, hbefore⟩
    · exact ⟨made + 1, hbefore.opened hfind hinsert⟩
  have hrelease : Focus.release ⟨{ n with tables }, token, e⟩ = { n with tables } :=
    release_focus hget
  refine ⟨⟨hvalid, ?_, ?_⟩, horigin.imp_left And.right⟩
  · rw [hrelease]
    exact hsound.distinguished
  · rw [hrelease]
    exact ⟨made', hsound.pit⟩

theorem findOrInsert_ok (h : n.Orderly count) (i : Interest) : ∃ token isNew tables e,
    n.tables.findOrInsert i = .ok ((token, isNew), tables) ∧ tables.pit.get? token = some e := by
  obtain ⟨made, hsound⟩ := h.soundTables
  obtain ⟨token, isNew, tables, hfound⟩ := hsound.findOrInsert_ok i
  obtain ⟨e, hget⟩ := Tables.get?_of_findOrInsert hfound
  exact ⟨token, isNew, tables, e, hfound, hget⟩

end Node.Orderly

namespace Focus

variable {f g f' : Focus} {count : Nat}

/-- The entry at hand was worked on, by a pipeline or by a lawful strategy, and can be put back. No
entry came or went meanwhile, and no Interest was taken further. -/
structure Tended (count : Nat) (f f' : Focus) : Prop where
  orderly : f'.Orderly count
  hasTimer : f'.entry.expiryTimer.isSome
  contains : ∀ token, f'.release.tables.pit.contains token = f.release.tables.pit.contains token
  admissions : f'.node.admissions = f.node.admissions

theorem tended_of_keeps (h : f.Orderly count) (hkeeps : f.Keeps f') (hvalid : f'.Valid count)
    (htimer : f'.entry.expiryTimer.isSome) (hsame : f'.node.admissions = f.node.admissions) :
    Tended count f f' where
  orderly := h.work hkeeps hvalid
  hasTimer := htimer
  contains token := by rw [hkeeps.contains_release, release, Arena.contains_set]
  admissions := hsame

theorem Tended.trans (h : Tended count f g) (h' : Tended count g f') : Tended count f f' where
  orderly := h'.orderly
  hasTimer := h'.hasTimer
  contains token := (h'.contains token).trans (h.contains token)
  admissions := h'.admissions.trans h.admissions

theorem Tended.handled (h : Tended count f g) (hhandled : g.Handled f') : Tended count f f' := by
  obtain ⟨horderly, htimer⟩ := h.orderly.handled h.hasTimer hhandled
  exact h.trans ⟨horderly, htimer, hhandled.acts.contains, hhandled.acts.admissions⟩

theorem tended_setExpiry (h : f.Orderly count) (after : Millis) :
    Tended count f (f.setExpiry after) :=
  tended_of_keeps h (f.keeps_setExpiry after) (h.valid.setExpiry after)
    (Option.isSome_iff_exists.mpr ⟨_, f.expiryTimer_setExpiry after⟩) rfl

theorem tended_settle (h : f.Orderly count) (data : Data) :
    Tended count f ((settle data f).setExpiry 0) :=
  tended_of_keeps h ((keeps_onEntry rfl).trans (keeps_setExpiry _ 0))
    ((h.valid.settle data).setExpiry 0)
    (Option.isSome_iff_exists.mpr ⟨_, (settle data f).expiryTimer_setExpiry 0⟩) rfl

theorem tended_awaitData (h : f.Orderly count) (ingress : FaceEndpoint)
    (hknown : f.node.faces.contains ingress.face = true) (i : Interest) :
    Tended count f (awaitData ingress i f) :=
  tended_of_keeps h ((keeps_onEntry rfl).trans (keeps_setExpiry _ _)) (h.valid.awaitData hknown i)
    (Option.isSome_iff_exists.mpr ⟨_, Focus.expiryTimer_setExpiry _ _⟩) rfl

theorem tended_recordNack (h : f.Orderly count) (htimer : f.entry.expiryTimer.isSome)
    (face : FaceId) (reason : NackReason) : Tended count f (recordNack face reason f) := by
  refine tended_of_keeps h (keeps_recordNack face reason f) (h.valid.recordNack face reason)
    (hasTimer_recordNack htimer face reason) ?_
  rw [recordNack]
  split <;> rfl

theorem Tended.closeEntry (h : Tended count f g) (ingress : FaceEndpoint) (data : Data) :
    Tended count f (Forwarder.closeEntry ingress data g) := by
  refine h.trans (tended_of_keeps h.orderly (keeps_closeEntry ingress data g)
    (h.orderly.valid.closeEntry ingress data) ?_ ?_)
  · rw [expiryTimer_closeEntry]
    exact h.hasTimer
  · obtain ⟨deadNonces, hremember⟩ := rememberNonces_eq (Forwarder.settle data g)
      ((Forwarder.settle data g).entry.outRecord? ingress.face).toList
    rw [closeEntry_eq, hremember]
    rfl

theorem Tended.clearIn (h : Tended count f g) : Tended count f (g.onEntry PitEntry.clearIn) :=
  h.trans (tended_of_keeps h.orderly (keeps_onEntry rfl)
    (h.orderly.valid.onEntry rfl rfl (h.orderly.valid.wellKept.of_shrinks
      (PitEntry.shrinks_clearIn _))) h.hasTimer rfl)

theorem handled_announce (hlive : f.Live) (ingress : FaceEndpoint) (data : Data) :
    (f.setExpiry 0).Handled (announce ingress data (sayMatching ingress data f)) := by
  have hset := (f.keeps_setExpiry 0).live hlive
  have hsaid := handled_say hset (.incomingData ingress.face data.name (.matching f.entry.name))
  exact hsaid.trans (handled_report hsaid.live _)

theorem handled_followTag (hlive : f.Live) (i : Interest) (hop : FaceId) :
    f.Handled (followTag i hop f) := by
  rw [followTag]
  split
  · have hsaid := handled_say hlive (.nextHopTag i.name hop true)
    exact hsaid.trans ((Act.sendInterest _ { face := hop } i).handled hsaid.live)
  · exact handled_say hlive _

end Focus

namespace Forwarder

variable {fw fw' : Forwarder} {now : Timestamp} {ingress : FaceEndpoint} {token : PitToken}
  {e : PitEntry}

/-- There is a strategy, and every strategy is lawful. -/
structure Staffed (fw : Forwarder) : Prop where
  lawful : ∀ s ∈ fw.strategies, s.Lawful
  hasStrategy : 0 < fw.strategies.length

/-- The invariant of a forwarder between operations, whatever lawful strategies it has. -/
structure Orderly (fw : Forwarder) : Prop extends fw.Staffed where
  node : fw.node.Orderly fw.strategies.length

/-- The store, the policy and the hash function do not matter. -/
theorem Orderly.of_node (h : fw.Orderly) (hstrategies : fw'.strategies = fw.strategies)
    (hnode : fw'.node.Orderly fw.strategies.length) : fw'.Orderly where
  lawful := by
    rw [hstrategies]
    exact h.lawful
  hasStrategy := hstrategies ▸ h.hasStrategy
  node := hstrategies ▸ hnode

/-- With built-in strategies only, this is the invariant of runs. -/
theorem Orderly.valid_of_builtIn (h : fw.Orderly) (hbuiltIn : fw.BuiltInOnly) : fw.Valid :=
  ⟨hbuiltIn, h.hasStrategy, h.node.valid⟩

theorem Valid.orderly (h : fw.Valid) {made : Nat} (hsound : fw.node.tables.Sound made) :
    fw.Orderly where
  lawful s hs := by
    obtain ⟨b, rfl⟩ := h.builtIn s hs
    exact b.lawful
  hasStrategy := h.hasStrategy
  node := ⟨h.node, hsound.distinguished, made, hsound.pit⟩

theorem orderly_new (settings : Settings) (store : ContentStore) (hash : HashFunction) :
    (new settings store hash).Orderly :=
  (valid_new settings store hash).orderly (Tables.sound_new _)

/-- The strategy in effect is there, and it is lawful. -/
theorem Staffed.consults (h : fw.Staffed) {f : Focus}
    (hregistered : f.node.tables.Registered fw.strategies.length) :
    ∃ s : Strategy, s.Lawful ∧
      fw.strategies[f.node.tables.effectiveStrategy f.entry.name]? = some s ∧
      ∀ ask, fw.consult f ask = .ok (ask s f) := by
  have hlt := Tables.effectiveStrategy_lt hregistered h.hasStrategy f.entry.name
  have hs := List.getElem?_eq_getElem hlt
  exact ⟨_, h.lawful _ (List.getElem_mem hlt), hs, fun ask => consult_eq_ok.mpr ⟨_, hs, rfl⟩⟩

/-- Work on an entry that tends it leaves the forwarder with its invariant. -/
theorem atEntry_tended (fw : Forwarder) (count : Nat) (work : Focus → Except Fault Focus)
    (hget : fw.node.tables.pit.get? token = some e)
    (hwork : ∃ f, work ⟨fw.node, token, e⟩ = .ok f ∧ Focus.Tended count ⟨fw.node, token, e⟩ f) :
    ∃ n, fw.atEntry token work = .ok { fw with node := n } ∧ n.Orderly count ∧
      (∀ u, n.tables.pit.contains u = fw.node.tables.pit.contains u) ∧
      n.admissions = fw.node.admissions := by
  obtain ⟨f, hf, htended⟩ := hwork
  refine ⟨f.release, atEntry_eq_ok.mpr ⟨e, f, hget, hf, rfl⟩,
    htended.orderly.release htended.hasTimer, fun u => ?_, htended.admissions⟩
  rw [htended.contains, Node.release_focus hget]

/-! ### Interests -/

/-- What is done with an Interest that waits in the entry at hand: it goes to the face of its tag,
or the strategy in effect is asked. -/
def Follows (fw : Forwarder) (ingress : FaceEndpoint) (i : Interest) (f f' : Focus) : Prop :=
  (∃ hop, i.nextHopFace = some hop ∧ f' = followTag i hop f) ∨
    i.nextHopFace = none ∧ ∃ s : Strategy,
      fw.strategies[f.node.tables.effectiveStrategy f.entry.name]? = some s ∧
      f' = s.afterInterest i ingress f

/-- An Interest that was not answered from the content store waits and goes on. -/
theorem Staffed.onStoreMiss_follows (h : fw.Staffed)
    (hget : fw.node.tables.pit.get? token = some e)
    (hregistered : fw.node.tables.Registered fw.strategies.length) (ingress : FaceEndpoint)
    (i : Interest) : ∃ f', fw.onStoreMiss ingress token i = .ok { fw with node := f'.release } ∧
      fw.Follows ingress i (awaitData ingress i ⟨noteMiss i fw.node, token, e⟩) f' := by
  let waiting := awaitData ingress i ⟨noteMiss i fw.node, token, e⟩
  have hstaffed : Staffed (fw.onNode (noteMiss i)) := ⟨h.lawful, h.hasStrategy⟩
  obtain ⟨s, -, hs, hconsult⟩ := hstaffed.consults (f := waiting) hregistered
  cases htag : i.nextHopFace with
  | some hop =>
      refine ⟨followTag i hop waiting, ?_, .inl ⟨hop, htag, rfl⟩⟩
      refine atEntry_eq_ok.mpr ⟨e, _, hget, ?_, rfl⟩
      dsimp only
      rw [htag]
      rfl
  | none =>
      refine ⟨s.afterInterest i ingress waiting, ?_, .inr ⟨htag, s, hs, rfl⟩⟩
      refine atEntry_eq_ok.mpr ⟨e, _, hget, ?_, rfl⟩
      dsimp only
      rw [htag]
      exact hconsult _

theorem Staffed.onStoreMiss_orderly (h : fw.Staffed)
    (hget : fw.node.tables.pit.get? token = some e)
    (hf : Focus.Orderly ⟨fw.node, token, e⟩ fw.strategies.length)
    (hknown : fw.node.faces.contains ingress.face = true) (i : Interest) :
    ∃ n, fw.onStoreMiss ingress token i = .ok { fw with node := n } ∧
      n.Orderly fw.strategies.length ∧ n.admissions = fw.node.admissions + 1 := by
  have hquiet : Focus.Quiet ⟨fw.node, token, e⟩ ⟨noteMiss i fw.node, token, e⟩ :=
    ⟨quiet_noteMiss i fw.node, rfl, rfl⟩
  have hawaits := Focus.tended_awaitData (hf.quiet hquiet) ingress hknown i
  have hlive := hawaits.orderly.valid.live
  obtain ⟨f', hok, hfollows⟩ := h.onStoreMiss_follows hget hf.valid.registered ingress i
  have htended : Focus.Tended fw.strategies.length ⟨noteMiss i fw.node, token, e⟩ f' := by
    rcases hfollows with ⟨hop, htag, rfl⟩ | ⟨htag, s, hs, rfl⟩
    · exact hawaits.handled (Focus.handled_followTag hlive i hop)
    · have hlawful := h.lawful s (List.mem_of_getElem? hs)
      exact hawaits.handled (hlawful.answers (.afterInterest i ingress) _ hlive)
  refine ⟨f'.release, hok, htended.orderly.release htended.hasTimer, htended.admissions.trans ?_⟩
  exact (Nat.add_assoc _ _ _).symm

/-- An Interest that was answered from the content store satisfies its entry. -/
theorem Staffed.onStoreHit_orderly (h : fw.Staffed)
    (hget : fw.node.tables.pit.get? token = some e)
    (hf : Focus.Orderly ⟨fw.node, token, e⟩ fw.strategies.length) (ingress : FaceEndpoint)
    (i : Interest) (data : Data) :
    ∃ n, fw.onStoreHit ingress token i data = .ok { fw with node := n } ∧
      n.Orderly fw.strategies.length ∧ n.admissions = fw.node.admissions + 1 := by
  let sent : Data := { data with incomingFace := some .contentStore }
  let source : FaceEndpoint := { face := .contentStore }
  let noted : Focus := ⟨noteHit i data fw.node, token, e⟩
  have hquiet : Focus.Quiet ⟨fw.node, token, e⟩ noted := ⟨quiet_noteHit i data fw.node, rfl, rfl⟩
  have hnoted : noted.Orderly fw.strategies.length := hf.quiet hquiet
  have hsettled := Focus.tended_settle hnoted data
  have hreported := hsettled.handled
    (Focus.handled_report hsettled.orderly.valid.live
      (.satisfy ((settle data noted).setExpiry 0).entry source.face sent))
  have hstaffed : Staffed (fw.onNode (noteHit i data)) := ⟨h.lawful, h.hasStrategy⟩
  obtain ⟨s, hlawful, -, hconsult⟩ := hstaffed.consults
    (f := ((settle data noted).setExpiry 0).report
      (.satisfy ((settle data noted).setExpiry 0).entry source.face sent))
    hreported.orderly.valid.registered
  have htold := hlawful.answers (.beforeSatisfy sent source) _ hreported.orderly.valid.live
  have hanswered := htold.trans (hlawful.answers (.afterStoreHit sent ingress) _ htold.live)
  obtain ⟨n, hok, horderly, -, hsame⟩ := (fw.onNode (noteHit i data)).atEntry_tended
    fw.strategies.length (fun f => (fw.onNode (noteHit i data)).consult
      (((settle data f).setExpiry 0).report
        (.satisfy ((settle data f).setExpiry 0).entry source.face sent))
      fun s f => s.afterStoreHit sent ingress (s.beforeSatisfy sent source f)) hget
    ⟨_, hconsult _, hreported.handled hanswered⟩
  refine ⟨n, hok, horderly, hsame.trans ?_⟩
  exact Nat.add_right_comm _ _ _

/-- An Interest that loops in an entry with a timer leaves the entry to its strategy. -/
theorem Staffed.rejectLoop_orderly (h : fw.Staffed)
    (hget : fw.node.tables.pit.get? token = some e)
    (hf : Focus.Orderly ⟨fw.node, token, e⟩ fw.strategies.length) (htimer : e.expiryTimer.isSome)
    (ingress : FaceEndpoint) (info : FaceInfo) (i : Interest) :
    ∃ n, (fw.rejectLoop ingress info i).atEntry token (fun f =>
        (fw.rejectLoop ingress info i).consult f fun s f => s.afterLoop i ingress f) =
          .ok { fw with node := n } ∧
      n.Orderly fw.strategies.length ∧ n.admissions = fw.node.admissions := by
  have hmoved := unmoved_tellLoop ingress info i fw.node
  have hkept : (tellLoop ingress info i fw.node).tables.pit.get? token = some e := by
    rw [hmoved.tables]
    exact hget
  have hnode : fw.node.Orderly fw.strategies.length := by
    have hrelease := hf.release htimer
    rwa [Node.release_focus hget] at hrelease
  have hfocus := ((hnode.unmoved hmoved).focus hkept).1
  have hstart : Focus.Tended fw.strategies.length ⟨tellLoop ingress info i fw.node, token, e⟩
      ⟨tellLoop ingress info i fw.node, token, e⟩ := ⟨hfocus, htimer, fun _ => rfl, rfl⟩
  have hstaffed : Staffed (fw.onNode (tellLoop ingress info i)) := ⟨h.lawful, h.hasStrategy⟩
  obtain ⟨s, hlawful, -, hconsult⟩ := hstaffed.consults
    (f := ⟨tellLoop ingress info i fw.node, token, e⟩) hfocus.valid.registered
  rw [rejectLoop_eq]
  obtain ⟨n, hok, horderly, -, hsame⟩ := (fw.onNode (tellLoop ingress info i)).atEntry_tended
    fw.strategies.length (fun f => (fw.onNode (tellLoop ingress info i)).consult f
      fun s f => s.afterLoop i ingress f) hkept
    ⟨_, hconsult _, hstart.handled (hlawful.answers (.afterLoop i ingress) _ hfocus.valid.live)⟩
  refine ⟨n, hok, horderly, hsame.trans ?_⟩
  exact congrArg (fun c : Counters => c.storeHits + c.storeMisses)
    (counters_tellLoop ingress info i fw.node)

/-- The part of the pipeline that has its entry at hand. -/
theorem Staffed.admitAt_orderly (h : fw.Staffed) (hget : fw.node.tables.pit.get? token = some e)
    (hf : Focus.Orderly ⟨fw.node, token, e⟩ fw.strategies.length)
    (horigin : e.expiryTimer.isSome ∨ ∃ i, e = { interest := i })
    (hknown : fw.node.faces.contains ingress.face = true) (info : FaceInfo) (i : Interest) :
    ∃ n store, (if isLoop info (e.findNonce i.nonce ingress.face) then
        (fw.rejectLoop ingress info i).atEntry token fun f =>
          (fw.rejectLoop ingress info i).consult f fun s f => s.afterLoop i ingress f
      else if e.hasInRecords then fw.onStoreMiss ingress token i
      else match fw.findStored i with
        | (some data, fw) => fw.onStoreHit ingress token i data
        | (none, fw) => fw.onStoreMiss ingress token i) = .ok { fw with node := n, store } ∧
      n.Orderly fw.strategies.length ∧
      (isLoop info (e.findNonce i.nonce ingress.face) = true ∧
          n.admissions = fw.node.admissions ∨
        isLoop info (e.findNonce i.nonce ingress.face) = false ∧
          n.admissions = fw.node.admissions + 1) := by
  split
  next hloop =>
    have htimer : e.expiryTimer.isSome := horigin.resolve_right fun ⟨_, hnew⟩ => by
      rw [hnew] at hloop
      simp [isLoop, PitEntry.findNonce, DuplicateNonce.isNone] at hloop
    obtain ⟨n, hok, horderly, hsame⟩ :=
      h.rejectLoop_orderly hget hf htimer ingress info i
    exact ⟨n, fw.store, hok, horderly, .inl ⟨hloop, hsame⟩⟩
  next hnot =>
    have hnew := Bool.eq_false_iff.mpr hnot
    have hstocked (store : ContentStore) : Staffed { fw with store } := ⟨h.lawful, h.hasStrategy⟩
    have hmiss (store : ContentStore) := (hstocked store).onStoreMiss_orderly hget hf hknown i
    split
    next =>
      obtain ⟨n, hok, horderly, hmore⟩ := hmiss fw.store
      exact ⟨n, fw.store, hok, horderly, .inr ⟨hnew, hmore⟩⟩
    next =>
      split
      next data stored hstored =>
        obtain ⟨store, rfl⟩ := findStored_cases hstored
        obtain ⟨n, hok, horderly, hmore⟩ :=
          (hstocked store).onStoreHit_orderly hget hf ingress i data
        exact ⟨n, store, hok, horderly, .inr ⟨hnew, hmore⟩⟩
      next stored hstored =>
        obtain ⟨store, rfl⟩ := findStored_cases hstored
        obtain ⟨n, hok, horderly, hmore⟩ := hmiss store
        exact ⟨n, store, hok, horderly, .inr ⟨hnew, hmore⟩⟩

/-- An Interest that is not known to have been resolved before is taken further unless it loops in
the entry that is found or made for it. -/
theorem Orderly.admitInterest_orderly (h : fw.Orderly)
    (hknown : fw.node.faces.contains ingress.face = true) (info : FaceInfo) (i : Interest) :
    ∃ token isNew tables e n store,
      fw.node.tables.findOrInsert i = .ok ((token, isNew), tables) ∧
      tables.pit.get? token = some e ∧
      fw.admitInterest ingress info i = .ok { fw with node := n, store } ∧
      n.Orderly fw.strategies.length ∧
      (isLoop info (e.findNonce i.nonce ingress.face) = true ∧
          n.admissions = fw.node.admissions ∨
        isLoop info (e.findNonce i.nonce ingress.face) = false ∧
          n.admissions = fw.node.admissions + 1) := by
  obtain ⟨token, isNew, tables, e, hfound, hget⟩ := h.node.findOrInsert_ok i
  obtain ⟨hfocus, horigin⟩ := h.node.findOrInsert hfound hget
  let opened : Forwarder := fw.onNode fun n => { n with tables }
  have hstaffed : opened.Staffed := ⟨h.lawful, h.hasStrategy⟩
  obtain ⟨n, store, hrest, horderly, hcounted⟩ := hstaffed.admitAt_orderly hget hfocus
    (horigin.imp_right fun hnew => ⟨_, hnew⟩) hknown info i
  exact ⟨token, isNew, tables, e, n, store, hfound, hget,
    bind_eq_ok.mpr ⟨_, hfound, bind_eq_ok.mpr ⟨_, Node.focus_eq_ok.mpr ⟨e, hget, rfl⟩, hrest⟩⟩,
    horderly, hcounted⟩

/-- An Interest from a face is taken further unless it is turned away. -/
theorem Orderly.receiveInterest_orderly (h : fw.Orderly) (now : Timestamp)
    (ingress : FaceEndpoint) (i : Interest) :
    ∃ n store, fw.receiveInterest now ingress i = .ok { fw with node := n, store } ∧
      n.Orderly fw.strategies.length ∧
      (fw.node.faces.contains ingress.face = true →
        n.admissions = fw.node.admissions + if fw.turnsAway now ingress i then 0 else 1) := by
  have hnoted : (noteInterest now ingress i fw.node).Orderly fw.strategies.length :=
    ⟨h.node.valid.congr rfl rfl rfl, h.node.distinguished, h.node.hasRoom⟩
  cases hinfo : fw.node.faces.info? ingress.face with
  | none =>
      have htick : (fw.tick now).node.faces.info? ingress.face = none := hinfo
      have hunknown : fw.node.faces.contains ingress.face = false := by
        rw [FaceTable.contains_eq, hinfo]
        rfl
      refine ⟨_, fw.store, ?_, (h.node.tick now).unmoved (Node.unmoved_say _
        (.incomingInterest ingress.face i.name .unknownFace)), by simp [hunknown]⟩
      simp only [receiveInterest, htick]
      rfl
  | some info =>
      rw [receiveInterest_of_known hinfo]
      have hturns : fw.turnsAway now ingress i =
          (!info.isLocal && i.name.isLocalhost || fw.node.deadNonces.has i.name i.nonce now ||
            fw.node.tables.pit.tokens.any fun token => (fw.node.tables.pit.get? token).any fun e =>
              e.interest.sameSelectors i && isLoop info (e.findNonce i.nonce ingress.face)) := by
        rw [turnsAway, hinfo, Option.any_some]
      cases hscope : !info.isLocal && i.name.isLocalhost with
      | true =>
          refine ⟨_, fw.store, if_pos rfl, hnoted.unmoved (Node.unmoved_say _ _), fun _ => ?_⟩
          rw [hturns, hscope, Bool.true_or, Bool.true_or, if_pos rfl]
          rfl
      | false =>
          cases hremembered : fw.node.deadNonces.has i.name i.nonce now with
          | true =>
              refine ⟨_, fw.store, rfl, hnoted.unmoved (unmoved_tellLoop _ _ _ _), fun _ => ?_⟩
              rw [hturns, hremembered, Bool.or_true, Bool.true_or, if_pos rfl, Node.admissions,
                counters_tellLoop]
              rfl
          | false =>
              obtain ⟨m, hint, harrive, hquiet, -⟩ := arrive_cases fw now ingress i
              have hsaid : (arrive (fw.onNode (noteInterest now ingress i)) ingress
                  { i with incomingFace := some ingress.face }).1.node.admissions =
                    fw.node.admissions := by
                rw [arrive]
                split <;> rfl
              have hstart : Orderly { fw with node := m } :=
                h.of_node rfl (hnoted.unmoved hquiet.toUnmoved)
              have hknown : m.faces.contains ingress.face = true := by
                rw [FaceTable.contains_eq, hquiet.info?]
                exact Option.isSome_iff_exists.mpr ⟨info, hinfo⟩
              obtain ⟨token, isNew, tables, e, n, store, hfound, hget, hok, horderly, hcounted⟩ :=
                hstart.admitInterest_orderly hknown info (i.arrived ingress.face hint)
              have hsame : m.tables = fw.node.tables := hquiet.tables
              have hturned := turnsAway_of_found h.node.valid.indexed h.node.distinguished hinfo
                hscope hremembered (hsame ▸ hfound) hget
              rw [harrive] at hsaid ⊢
              refine ⟨n, store, hok, horderly, fun _ => ?_⟩
              have hbefore : m.admissions = fw.node.admissions := hsaid
              have hnonce : (i.arrived ingress.face hint).nonce = i.nonce := rfl
              rw [hnonce, hbefore] at hcounted
              rw [hturned]
              rcases hcounted with ⟨hloop, hcount⟩ | ⟨hloop, hcount⟩
              · rw [if_pos hloop]
                exact hcount
              · rw [hloop, if_neg Bool.false_ne_true]
                exact hcount

end Forwarder

end NamedData
