import NamedData.Proofs.LoopSuppression
import NamedData.Proofs.TableRuns
import NamedData.Strategy.Scripted

/-!
What any strategy may do. A strategy answers by sending packets out of pending entries, by giving
entries up and by noting things in them; it takes no entry away and starts no other timer. Built-in
strategies answer so, and so do those that follow a script. Whatever a strategy does in this way, a
node keeps its invariant, and no Interest counts as looked up in the content store for it.
-/

namespace NamedData

open Forwarder

namespace Focus

/-- One thing that a strategy may do with an entry at hand. -/
inductive Act : Focus → Focus → Prop where
  | sendInterest (f : Focus) (egress : FaceEndpoint) (interest : Interest) :
      Act f (f.sendInterest egress interest)
  | sendData (f : Focus) (egress : FaceEndpoint) (data : Data) : Act f (f.sendData egress data)
  | sendNack (f : Focus) (egress : FaceEndpoint) (reason : NackReason) :
      Act f (f.sendNack egress reason)
  | giveUp (f : Focus) : Act f f.reject
  /-- It notes something in the entry, whose Interest and timer are not its to change and whose
  records stay in order. -/
  | note (f : Focus) (change : PitEntry → PitEntry)
      (hinterest : (change f.entry).interest = f.entry.interest)
      (htimer : (change f.entry).expiryTimer = f.entry.expiryTimer)
      (hkept : f.entry.WellKept f.node.faces → (change f.entry).WellKept f.node.faces) :
      Act f (f.onEntry change)

end Focus

namespace Node

/-- One thing that a strategy may do to a node: it tells observers something, or it does something
with an entry and puts it back. -/
inductive Act : Node → Node → Prop where
  | say (n : Node) (notice : Notice) : Act n (n.say notice)
  | report (n : Node) (event : Event) : Act n (n.report event)
  | work {f f' : Focus} (hlive : f.Live) (hact : f.Act f') : Act f.release f'.release

/-- A sequence of things that a strategy may do. -/
def Acts : Node → Node → Prop :=
  Relation.ReflTransGen Act

theorem Acts.refl (n : Node) : n.Acts n :=
  Relation.ReflTransGen.refl

theorem Acts.trans {n m k : Node} (h : n.Acts m) (h' : m.Acts k) : n.Acts k :=
  Relation.ReflTransGen.trans h h'

theorem Act.acts {n m : Node} (h : Act n m) : n.Acts m :=
  Relation.ReflTransGen.single h

theorem Acts.preserve {P : Node → Prop} (hstep : ∀ n m, Act n m → P n → P m) {n m : Node}
    (h : n.Acts m) (hn : P n) : P m := by
  induction h with
  | refl => exact hn
  | tail _ hact ih => exact hstep _ _ hact ih

end Node

namespace Focus

/-- A strategy had the entry at hand, and did to the node what a strategy may do. -/
structure Handled (f f' : Focus) : Prop where
  token : f'.token = f.token
  live : f'.Live
  acts : f.release.Acts f'.release

variable {f g f' : Focus}

theorem Handled.refl (h : f.Live) : f.Handled f :=
  ⟨rfl, h, .refl _⟩

theorem Handled.trans (h : f.Handled g) (h' : g.Handled f') : f.Handled f' :=
  ⟨h'.token.trans h.token, h'.live, h.acts.trans h'.acts⟩

theorem handled_say (h : f.Live) (notice : Notice) : f.Handled (f.say notice) :=
  ⟨rfl, (f.keeps_say notice).live h, (Node.Act.say f.release notice).acts⟩

theorem handled_report (h : f.Live) (event : Event) : f.Handled (f.report event) :=
  ⟨rfl, (f.quiet_report event).keeps.live h, (Node.Act.report f.release event).acts⟩

theorem Act.keeps (h : f.Act f') : f.Keeps f' := by
  cases h with
  | sendInterest egress interest => exact f.keeps_sendInterest egress interest
  | sendData egress data => exact f.keeps_sendData egress data
  | sendNack egress reason => exact f.keeps_sendNack egress reason
  | giveUp => exact f.keeps_setExpiry 0
  | note change hinterest _ _ => exact keeps_onEntry hinterest

theorem Act.handled (h : f.Act f') (hlive : f.Live) : f.Handled f' :=
  ⟨h.keeps.token, h.keeps.live hlive, (Node.Act.work hlive h).acts⟩

theorem handled_foldl {α : Type} {step : Focus → α → Focus}
    (hstep : ∀ (f : Focus) a, f.Live → f.Handled (step f a)) (l : List α) (hlive : f.Live) :
    f.Handled (l.foldl step f) := by
  induction l generalizing f with
  | nil => exact .refl hlive
  | cons a rest ih =>
      have hfirst := hstep f a hlive
      exact hfirst.trans (ih hfirst.live)

theorem handled_sendDataToAll (h : f.Live) (ingress : FaceEndpoint) (data : Data) :
    f.Handled (f.sendDataToAll ingress data) :=
  handled_foldl (fun f egress => (Act.sendData f egress data).handled) _ h

theorem handled_sendNacks (h : f.Live) (reason : NackReason) (except : List FaceEndpoint) :
    f.Handled (f.sendNacks reason except) :=
  handled_foldl (fun f egress => (Act.sendNack f egress reason).handled) _ h

theorem Move.handled (h : Move f f') (hlive : f.Live) : f.Handled f' := by
  cases h with
  | say notice => exact handled_say hlive notice
  | mark decision now =>
      have hmark : f.Act (f.onEntry fun e => e.recordForwarded decision now) :=
        .note f _ rfl rfl fun hkept =>
          hkept.of_shrinks ⟨List.Sublist.refl _, List.Sublist.refl _⟩
      exact hmark.handled hlive
  | forward egress interest _ _ _ => exact (Act.sendInterest f egress interest).handled hlive
  | answer egress data _ => exact (Act.sendData f egress data).handled hlive
  | handBack egress reason => exact (Act.sendNack f egress reason).handled hlive
  | giveUp => exact (Act.giveUp f).handled hlive

theorem Moves.handled (h : f.Moves f') (hlive : f.Live) : f.Handled f' :=
  Moves.preserve (P := f.Handled)
    (fun _ _ step hbefore => hbefore.trans (step.handled hbefore.live)) h (.refl hlive)

end Focus

/-! ### Lawful strategies -/

/-- What a strategy can be asked about the entry at hand. -/
inductive Question where
  | afterInterest (interest : Interest) (ingress : FaceEndpoint)
  | afterLoop (interest : Interest) (ingress : FaceEndpoint)
  | beforeSatisfy (data : Data) (ingress : FaceEndpoint)
  | afterStoreHit (data : Data) (ingress : FaceEndpoint)
  | afterData (data : Data) (ingress : FaceEndpoint)
  | afterNack (nack : Nack) (ingress : FaceEndpoint)
  | afterNewNextHop (hop : NextHop)

def Strategy.answer (s : Strategy) : Question → Focus → Focus
  | .afterInterest interest ingress => s.afterInterest interest ingress
  | .afterLoop interest ingress => s.afterLoop interest ingress
  | .beforeSatisfy data ingress => s.beforeSatisfy data ingress
  | .afterStoreHit data ingress => s.afterStoreHit data ingress
  | .afterData data ingress => s.afterData data ingress
  | .afterNack nack ingress => s.afterNack nack ingress
  | .afterNewNextHop hop => s.afterNewNextHop hop

/-- A strategy that does nothing but what a strategy may do, whatever it is asked. -/
structure Strategy.Lawful (s : Strategy) : Prop where
  answers : ∀ q (f : Focus), f.Live → f.Handled (s.answer q f)
  drops : ∀ interest egress (n : Node), n.Acts (s.afterDrop interest egress n)

theorem BuiltIn.lawful (b : BuiltIn) : b.strategy.Lawful where
  answers q f hlive := by
    cases q with
    | afterInterest interest ingress =>
        exact (b.afterInterest_sendsOnOrEnds interest ingress f).moves.handled hlive
    | afterLoop interest ingress =>
        rw [Strategy.answer, b.afterLoop_eq]
        exact Focus.handled_say hlive _
    | beforeSatisfy data ingress =>
        rw [Strategy.answer, b.beforeSatisfy_eq]
        exact Focus.handled_say hlive _
    | afterStoreHit data ingress =>
        rw [Strategy.answer, b.afterStoreHit_eq]
        have hsaid := Focus.handled_say hlive (.afterStoreHit f.entry.name ingress.face data.name)
        exact hsaid.trans ((Focus.Act.sendData _ ingress data).handled hsaid.live)
    | afterData data ingress =>
        rw [Strategy.answer, b.afterData_eq]
        have hsaid := Focus.handled_say hlive (.afterData f.entry.name ingress.face data.name)
        exact hsaid.trans (Focus.handled_sendDataToAll hsaid.live ingress data)
    | afterNack nack ingress =>
        rw [Strategy.answer, b.afterNack_eq]
        exact (f.moves_passNackOn nack ingress).handled hlive
    | afterNewNextHop hop => exact (b.moves_afterNewNextHop hop f).handled hlive
  drops interest egress n := by
    rw [b.afterDrop_eq]
    exact (Node.Act.say n _).acts

namespace Script

theorem handled_run (o : Occasion) {f : Focus} (hlive : f.Live) (action : ScriptAction) :
    f.Handled (action.run o f) := by
  cases action with
  | sendInterest target nonce => exact (Focus.Act.sendInterest f _ _).handled hlive
  | sendData target data =>
      rw [ScriptAction.run]
      split
      · exact (Focus.Act.sendData f _ _).handled hlive
      · exact .refl hlive
  | sendDataToAll target data =>
      rw [ScriptAction.run]
      split
      · exact Focus.handled_sendDataToAll hlive _ _
      · exact .refl hlive
  | sendNack target reason => exact (Focus.Act.sendNack f _ reason).handled hlive
  | sendNacks reason except => exact Focus.handled_sendNacks hlive reason _
  | reject => exact (Focus.Act.giveUp f).handled hlive
  | forwardAlongFib nonce =>
      exact Focus.handled_foldl (fun f _ => (Focus.Act.sendInterest f _ _).handled) _ hlive
  | satisfy isSatisfied freshness =>
      have hnote : f.Act (f.onEntry fun e =>
          { e with satisfied := isSatisfied, dataFreshness := freshness }) :=
        .note f _ rfl rfl fun hkept =>
          hkept.of_shrinks ⟨List.Sublist.refl _, List.Sublist.refl _⟩
      exact hnote.handled hlive
  | reportNextHops => exact Focus.handled_report hlive _
  | reportFaceInfo target => exact Focus.handled_report hlive _
  | reportEntry => exact Focus.handled_report hlive _

theorem handled_answer (s : Script) (hook : Hook) (text : String) (o : Occasion)
    {standard : Focus → Focus} (hstandard : ∀ f : Focus, f.Live → f.Handled (standard f))
    {f : Focus} (hlive : f.Live) : f.Handled (s.answer hook text o standard f) := by
  have hreported := Focus.handled_report hlive (.hook s.name hook o.peer text)
  rw [answer]
  split
  next actions _ =>
    exact hreported.trans
      (Focus.handled_foldl (fun f action hf => handled_run o hf action) actions hreported.live)
  next => exact hreported.trans (hstandard _ hreported.live)

/-- A strategy that follows a script is lawful, whatever the script is. -/
theorem lawful (s : Script) : s.strategy.Lawful where
  answers q f hlive := by
    cases q with
    | afterInterest interest ingress => exact s.handled_answer _ _ _ (fun _ => .refl) hlive
    | afterLoop interest ingress =>
        exact s.handled_answer _ _ _ (fun _ hf => Focus.handled_say hf _) hlive
    | beforeSatisfy data ingress =>
        exact s.handled_answer _ _ _ (fun _ hf => Focus.handled_say hf _) hlive
    | afterStoreHit data ingress =>
        refine s.handled_answer _ _ _ (fun f hf => ?_) hlive
        exact (BuiltIn.bestRoute {}).lawful.answers (.afterStoreHit data ingress) f hf
    | afterData data ingress =>
        refine s.handled_answer _ _ _ (fun f hf => ?_) hlive
        exact (BuiltIn.bestRoute {}).lawful.answers (.afterData data ingress) f hf
    | afterNack nack ingress =>
        exact s.handled_answer _ _ _ (fun _ hf => Focus.handled_say hf _) hlive
    | afterNewNextHop hop =>
        exact s.handled_answer _ _ _ (fun _ hf => Focus.handled_say hf _) hlive
  drops interest egress n :=
    (Node.Act.report n _).acts.trans (Node.Act.say _ _).acts

end Script

/-! ### What is kept -/

/-- Work on one entry leaves the same tokens alive. -/
theorem Focus.Keeps.contains_release {f f' : Focus} (h : f.Keeps f') (token : PitToken) :
    f'.release.tables.pit.contains token = f.node.tables.pit.contains token := by
  rw [Focus.release, Arena.contains_set, h.tables]

namespace Node

variable {n m : Node}

/-- A new entry finds a slot that is not in use. -/
def HasRoom (n : Node) : Prop :=
  ∃ count, n.tables.pit.Sound count

theorem HasRoom.congr (h : n.HasRoom) (hpit : m.tables.pit = n.tables.pit) : m.HasRoom := by
  obtain ⟨count, hsound⟩ := h
  exact ⟨count, hpit ▸ hsound⟩

theorem HasRoom.work {f f' : Focus} (h : f.release.HasRoom) (hlive : f.Live)
    (hkeeps : f.Keeps f') : f'.release.HasRoom := by
  obtain ⟨count, hsound⟩ := h
  have hpit : f'.release.tables.pit = f.release.tables.pit.set f.token f'.entry := by
    rw [Focus.release, Focus.release, hkeeps.tables, hkeeps.token]
    exact (Arena.set_set _ _ _ _).symm
  exact ⟨count, hpit ▸ hsound.set (Focus.get?_release_self hlive) f'.entry⟩

end Node

/-- The invariant of a node between operations, whatever its strategies are. -/
structure Node.Orderly (n : Node) (count : Nat) : Prop where
  valid : n.Valid count
  distinguished : n.Distinguished
  hasRoom : n.HasRoom

/-- The same for a node with an entry at hand, of which only the timer may be missing. -/
structure Focus.Orderly (f : Focus) (count : Nat) : Prop where
  valid : f.Valid count
  distinguished : f.release.Distinguished
  hasRoom : f.release.HasRoom

namespace Focus

variable {f f' : Focus} {count : Nat}

/-- The invariant of a node with its entry put back is one of the node with the entry at hand. -/
theorem valid_of_release (hlive : f.Live) (h : f.release.Valid count) :
    f.Valid count ∧ f.entry.expiryTimer.isSome := by
  have hget := get?_release hlive
  have hself := get?_release_self hlive
  have hother {token : PitToken} (hne : token ≠ f.token) :
      f.release.tables.pit.get? token = f.node.tables.pit.get? token := by
    rw [hget, entryOf?_of_ne f hne]
  refine ⟨⟨hlive, ?_, h.hopsListed, h.registered.congr rfl, h.wellKept f.token f.entry hself, ?_, ?_⟩,
    h.hasTimer f.token f.entry hself⟩
  · apply h.indexed.congr
    · exact h.indexed.ordered
    · intro n
      rfl
    · intro token
      obtain ⟨old, hold, hinterest⟩ := hlive
      by_cases same : token = f.token
      · rw [same, hself, hold, Option.map_some, Option.map_some, PitEntry.name, PitEntry.name,
          hinterest]
      · rw [hother same]
  · have htimed := h.timed
    rw [hget] at htimed
    exact htimed
  · intro token e hne hentry
    rw [← hother hne] at hentry
    exact ⟨h.wellKept token e hentry, h.hasTimer token e hentry⟩

theorem Valid.sendInterest (h : f.Valid count) (egress : FaceEndpoint) (interest : Interest) :
    (f.sendInterest egress interest).Valid count := by
  have hkeeps := f.keeps_sendInterest egress interest
  cases hknown : f.node.faces.contains egress.face with
  | false =>
      rw [sendInterest_of_unknown hknown]
      exact h.quiet (f.quiet_say _)
  | true =>
      rw [sendInterest_of_known hknown] at hkeeps ⊢
      apply h.of_keeps hkeeps
      · exact ⟨h.wellKept.distinct.recordOut egress interest f.node.now,
          h.wellKept.known.recordOut hknown interest f.node.now⟩
      · exact timed_of_keeps h.timed hkeeps
          (f.node.unmoved_dispatch _ egress _ Counters.Onward.outInterests).timers rfl

theorem Act.valid (h : f.Act f') (hf : f.Valid count) : f'.Valid count := by
  cases h with
  | sendInterest egress interest => exact hf.sendInterest egress interest
  | sendData egress data => exact hf.sendData egress data
  | sendNack egress reason => exact hf.moves (Move.handBack f egress reason).moves
  | giveUp => exact hf.setExpiry 0
  | note change hinterest htimer hkept => exact hf.onEntry hinterest htimer (hkept hf.wellKept)

theorem Act.hasTimer (h : f.Act f') (hf : f.entry.expiryTimer.isSome) :
    f'.entry.expiryTimer.isSome := by
  cases h with
  | sendInterest egress interest =>
      cases hknown : f.node.faces.contains egress.face with
      | false => rwa [sendInterest_of_unknown hknown]
      | true => rwa [sendInterest_of_known hknown]
  | sendData egress data => exact hf
  | sendNack egress reason => exact (Move.handBack f egress reason).hasTimer hf
  | giveUp => exact Option.isSome_iff_exists.mpr ⟨_, f.expiryTimer_setExpiry 0⟩
  | note change _ htimer _ =>
      have hsame : (f.onEntry change).entry.expiryTimer = f.entry.expiryTimer := htimer
      rwa [hsame]

end Focus

theorem Node.Distinguished.work {f f' : Focus} (h : f.release.Distinguished) (hlive : f.Live)
    (hkeeps : f.Keeps f') : f'.release.Distinguished := by
  have hbefore : f.release.tables.Distinguished := h
  refine hbefore.of_old fun u e' hget => ?_
  by_cases hown : u = f.token
  · subst hown
    have hnew := Focus.get?_release_self (hkeeps.live hlive)
    rw [hkeeps.token] at hnew
    refine ⟨f.entry, Focus.get?_release_self hlive, ?_⟩
    rw [← hkeeps.interest, Option.some.inj (hnew.symm.trans hget)]
  · exact ⟨e', (hkeeps.get?_release_of_ne hlive hown).symm.trans hget, rfl⟩

namespace Focus

variable {f f' : Focus} {count : Nat}

namespace Orderly

/-- Work on the entry at hand. -/
theorem work (h : f.Orderly count) (hkeeps : f.Keeps f') (hvalid : f'.Valid count) :
    f'.Orderly count where
  valid := hvalid
  distinguished := h.distinguished.work h.valid.live hkeeps
  hasRoom := h.hasRoom.work h.valid.live hkeeps

theorem release (h : f.Orderly count) (htimer : f.entry.expiryTimer.isSome) :
    f.release.Orderly count :=
  ⟨h.valid.release htimer, h.distinguished, h.hasRoom⟩

theorem quiet (h : f.Orderly count) (hquiet : f.Quiet f') : f'.Orderly count :=
  h.work hquiet.keeps (h.valid.quiet hquiet)

end Orderly

theorem orderly_of_release (hlive : f.Live) (h : f.release.Orderly count) :
    f.Orderly count ∧ f.entry.expiryTimer.isSome := by
  obtain ⟨hvalid, htimer⟩ := valid_of_release hlive h.valid
  exact ⟨⟨hvalid, h.distinguished, h.hasRoom⟩, htimer⟩

end Focus

namespace Node

variable {n m : Node} {count : Nat}

namespace Orderly

theorem unmoved (h : n.Orderly count) (hmoved : n.Unmoved m) : m.Orderly count where
  valid := h.valid.unmoved hmoved
  distinguished := by
    rw [Distinguished, hmoved.tables]
    exact h.distinguished
  hasRoom := h.hasRoom.congr (congrArg Tables.pit hmoved.tables)

theorem tick (h : n.Orderly count) (now : Timestamp) : Node.Orderly { n with now } count :=
  ⟨h.valid.congr rfl rfl rfl, h.distinguished, h.hasRoom⟩

theorem act (h : n.Orderly count) (hact : Node.Act n m) : m.Orderly count := by
  cases hact with
  | say _ notice => exact h.unmoved (n.unmoved_say notice)
  | report _ event => exact h.unmoved (n.unmoved_report event)
  | work hlive hact =>
      obtain ⟨hfocus, htimer⟩ := Focus.orderly_of_release hlive h
      exact (hfocus.work hact.keeps (hact.valid hfocus.valid)).release (hact.hasTimer htimer)

/-- Whatever a strategy may do keeps the invariant. -/
theorem acts (h : n.Orderly count) (hacts : n.Acts m) : m.Orderly count :=
  hacts.preserve (P := fun k => k.Orderly count) (fun _ _ hact hk => hk.act hact) h

end Orderly

/-- No entry comes or goes by what a strategy may do. -/
theorem Acts.contains (h : n.Acts m) (token : PitToken) :
    m.tables.pit.contains token = n.tables.pit.contains token := by
  refine h.preserve (P := fun k => k.tables.pit.contains token = n.tables.pit.contains token)
    (fun k k' hact hk => Eq.trans ?_ hk) rfl
  cases hact with
  | say => rfl
  | report => rfl
  | @work f f' _ hact => rw [hact.keeps.contains_release, Focus.release, Arena.contains_set]

/-- How many Interests were taken further than to look whether they loop. -/
def admissions (n : Node) : Nat :=
  n.counters.storeHits + n.counters.storeMisses

theorem admissions_sendData (n : Node) (egress : FaceEndpoint) (data : Data) :
    (n.sendData egress data).admissions = n.admissions := by
  rw [sendData]
  split
  · rfl
  · split
    · rfl
    · change ((n.say _).transmit egress (.data data)).admissions = n.admissions
      rw [admissions, counters_transmit]
      rfl

end Node

theorem Focus.Act.admissions {f f' : Focus} (h : f.Act f') :
    f'.node.admissions = f.node.admissions := by
  cases h with
  | sendInterest egress interest =>
      cases hknown : f.node.faces.contains egress.face with
      | false =>
          rw [sendInterest_of_unknown hknown]
          rfl
      | true =>
          rw [sendInterest_of_known hknown]
          change ((f.node.say _).transmit egress _).admissions = f.node.admissions
          rw [Node.admissions, Node.counters_transmit]
          rfl
  | sendData egress data => exact f.node.admissions_sendData egress data
  | sendNack egress reason =>
      rcases f.sendNack_cases egress reason with ⟨notice, hsay⟩ | ⟨_, record, _, _, _, hsent⟩
      · rw [hsay]
        rfl
      · rw [hsent]
        change ((f.node.say _).transmit egress _).admissions = f.node.admissions
        rw [Node.admissions, Node.counters_transmit]
        rfl
  | giveUp => rfl
  | note => rfl

/-- Work on the entry at hand by a strategy keeps the invariant. -/
theorem Focus.Orderly.handled {f f' : Focus} {count : Nat} (h : f.Orderly count)
    (htimer : f.entry.expiryTimer.isSome) (hhandled : f.Handled f') :
    f'.Orderly count ∧ f'.entry.expiryTimer.isSome :=
  orderly_of_release hhandled.live ((h.release htimer).acts hhandled.acts)

theorem Node.Act.admissions {n m : Node} (h : Act n m) : m.admissions = n.admissions := by
  cases h with
  | say notice => rfl
  | report event => rfl
  | work _ hact => exact hact.admissions

theorem Node.Acts.admissions {n m : Node} (h : n.Acts m) : m.admissions = n.admissions :=
  h.preserve (P := fun k => k.admissions = n.admissions)
    (fun _ _ hact hk => hact.admissions.trans hk) rfl

end NamedData
