import NamedData.Proofs.Preservation

/-!
Runs of a forwarder. Whoever runs it may call any operation at any time with any reading of the
clock; a run lists the operations that were called so far, the latest first, and none of them ended
with a fault. The strategies are the built-in ones with any settings.
-/

namespace NamedData

/-- A call of the forwarder. The content store may be exchanged at any time, since its owner may
change it. -/
inductive Operation where
  | addFace (takes : Nat → Bool) (scope : FaceScope) (link : LinkType)
  | removeFace (now : Timestamp) (face : FaceId)
  | hangUp (face : FaceId)
  | takeDisconnected
  | addRoute (now : Timestamp) (stem : Name) (face : FaceId) (cost : Nat)
  | removeRoute (stem : Name) (face : FaceId)
  | addStrategy (strategy : BuiltIn)
  | setStrategy (stem : Name) (id : Nat)
  | unsetStrategy (stem : Name)
  | setPolicy (policy : UnsolicitedPolicy)
  | addRegion (region : Name)
  | removeRegion (region : Name)
  | useStore (store : ContentStore)
  | receive (now : Timestamp) (ingress : FaceEndpoint) (packet : Packet)
  | dropInterest (now : Timestamp) (egress : FaceEndpoint) (interest : Interest)
  | runTimers (now : Timestamp)

/-- The reading of the clock that comes with a call. -/
def Operation.reading? : Operation → Option Timestamp
  | removeFace now _ => some now
  | addRoute now .. => some now
  | receive now .. => some now
  | dropInterest now .. => some now
  | runTimers now => some now
  | _ => none

/-- Whether the call may send Interests on. -/
def Operation.sendsOn : Operation → Bool
  | receive _ _ (.interest _) => true
  | addRoute .. => true
  | _ => false

namespace Forwarder

def perform (fw : Forwarder) : Operation → Except Fault Forwarder
  | .addFace takes scope link => .ok (((fw.addFace takes scope link).map Prod.snd).getD fw)
  | .removeFace now face => (fw.removeFace now face).map Prod.snd
  | .hangUp face => .ok (fw.hangUp face)
  | .takeDisconnected => .ok fw.takeDisconnected.2
  | .addRoute now stem face cost => (fw.addRoute now stem face cost).map Prod.snd
  | .removeRoute stem face => .ok (fw.removeRoute stem face).2
  | .addStrategy b => .ok (fw.addStrategy b.strategy).2
  | .setStrategy stem id => .ok (fw.setStrategy stem id).2
  | .unsetStrategy stem => .ok (fw.unsetStrategy stem).2
  | .setPolicy policy => .ok (fw.setPolicy policy)
  | .addRegion region => .ok (fw.addRegion region)
  | .removeRegion region => .ok (fw.removeRegion region).2
  | .useStore store => .ok { fw with store }
  | .receive now ingress packet => fw.receive now ingress packet
  | .dropInterest now egress interest => fw.onDroppedInterest now egress interest
  | .runTimers now => .ok (fw.runTimers now).2

end Forwarder

/-- What an operation that reads no clock leaves as it is. -/
structure Node.Idle (n m : Node) : Prop where
  pit : m.tables.pit = n.tables.pit
  timers : m.timers = n.timers
  now : m.now = n.now
  counters : m.counters = n.counters
  sent : m.journal.sent = n.journal.sent

theorem Node.idle_refl (n : Node) : n.Idle n :=
  ⟨rfl, rfl, rfl, rfl, rfl⟩

namespace Forwarder

theorem idle_addFace (fw : Forwarder) (takes : Nat → Bool) (scope : FaceScope) (link : LinkType) :
    fw.node.Idle (((fw.addFace takes scope link).map Prod.snd).getD fw).node := by
  unfold Forwarder.addFace
  cases fw.node.faces.add takes scope link with
  | none => exact fw.node.idle_refl
  | some added => exact ⟨rfl, rfl, rfl, rfl, rfl⟩

theorem idle_setStrategy (fw : Forwarder) (stem : Name) (id : Nat) :
    fw.node.Idle (fw.setStrategy stem id).2.node := by
  unfold Forwarder.setStrategy
  split
  · constructor <;> rfl
  · constructor <;> rfl

theorem idle_unsetStrategy (fw : Forwarder) (stem : Name) :
    fw.node.Idle (fw.unsetStrategy stem).2.node := by
  unfold Forwarder.unsetStrategy Tables.unsetStrategy
  cases stem.isEmpty <;> constructor <;> rfl

/-- An operation that reads no clock looks at no pending entry and sends nothing. -/
theorem idle_of_untimed {fw fw' : Forwarder} {operation : Operation}
    (hperform : fw.perform operation = .ok fw') (huntimed : operation.reading? = none) :
    fw.node.Idle fw'.node := by
  cases operation with
  | addFace takes scope link =>
      cases hperform
      exact idle_addFace fw takes scope link
  | setStrategy stem id =>
      cases hperform
      exact idle_setStrategy fw stem id
  | unsetStrategy stem =>
      cases hperform
      exact idle_unsetStrategy fw stem
  | removeFace now face => cases huntimed
  | addRoute now stem face cost => cases huntimed
  | receive now ingress packet => cases huntimed
  | dropInterest now egress interest => cases huntimed
  | runTimers now => cases huntimed
  | _ =>
      cases hperform
      constructor <;> rfl

end Forwarder

/-- One call with the forwarder before and after it. -/
structure Step where
  before : Forwarder
  operation : Operation
  after : Forwarder

/-- The calls that lead from one forwarder to another, the latest first. -/
inductive Run (start : Forwarder) : List Step → Forwarder → Prop where
  | start : Run start [] start
  | step {history : List Step} {fw fw' : Forwarder} (run : Run start history fw)
      (operation : Operation) (hperform : fw.perform operation = .ok fw') :
      Run start ({ before := fw, operation, after := fw' } :: history) fw'

/-- Performs one operation after another and keeps the history. -/
def record (start : Forwarder) : List Operation → Except Fault (List Step × Forwarder)
  | [] => .ok ([], start)
  | operation :: earlier => do
    let (history, fw) ← record start earlier
    let fw' ← fw.perform operation
    .ok ({ before := fw, operation, after := fw' } :: history, fw')

/-- No reading of the clock is earlier than the one before it. -/
def ClockNeverBack (history : List Step) : Prop :=
  ∀ s ∈ history, ∀ now, s.operation.reading? = some now → s.before.node.now ≤ now

theorem clockNeverBack_of_all {history : List Step}
    (h : (history.all fun s => s.operation.reading?.all fun now =>
      decide (s.before.node.now ≤ now)) = true) : ClockNeverBack history := by
  intro s hs now hnow
  have hstep := List.all_eq_true.mp h s hs
  rw [hnow] at hstep
  exact of_decide_eq_true hstep

theorem Run.invariant {P : Forwarder → Prop} {start fw : Forwarder} {history : List Step}
    (run : Run start history fw) (hstart : P start)
    (hstep : ∀ fw operation fw', fw.perform operation = .ok fw' → P fw → P fw') : P fw := by
  induction run with
  | start => exact hstart
  | step _ operation hperform ih => exact hstep _ operation _ hperform ih

/-! ### Parts of a run -/

section Parts

variable {start fw : Forwarder} {later earlier history : List Step} {s : Step}

theorem Run.last (run : Run start (s :: history) fw) :
    Run start history s.before ∧ s.before.perform s.operation = .ok s.after ∧ fw = s.after := by
  cases run with
  | step run _ hperform => exact ⟨run, hperform, rfl⟩

/-- The earlier part of a run. -/
theorem Run.suffix (run : Run start (later ++ history) fw) : ∃ fw', Run start history fw' := by
  induction later generalizing fw with
  | nil => exact ⟨fw, run⟩
  | cons t rest ih => exact ih run.last.1

/-- The part of a run up to one of its steps. -/
theorem Run.upTo (run : Run start history fw) (hs : s ∈ history) :
    ∃ earlier, Run start (s :: earlier) s.after ∧ ∀ t ∈ s :: earlier, t ∈ history := by
  obtain ⟨later, earlier, rfl⟩ := List.append_of_mem hs
  obtain ⟨_, hrun⟩ := run.suffix
  obtain ⟨_, _, rfl⟩ := hrun.last
  exact ⟨earlier, hrun, fun _ ht => List.mem_append_right later ht⟩

theorem Run.mem (run : Run start history fw) (hs : s ∈ history) :
    ∃ earlier, Run start earlier s.before ∧ s.before.perform s.operation = .ok s.after := by
  obtain ⟨earlier, hrun, _⟩ := run.upTo hs
  obtain ⟨hbefore, hperform, _⟩ := hrun.last
  exact ⟨earlier, hbefore, hperform⟩

/-- What holds after one step of a run and is kept by all later ones holds at the end. -/
theorem Run.along {P : Forwarder → Prop} (run : Run start (later ++ s :: earlier) fw)
    (hfirst : P s.after)
    (hstep : ∀ t ∈ later, ∀ passed, Run start (t :: passed) t.after → P t.before → P t.after) :
    P fw := by
  induction later generalizing fw with
  | nil =>
      obtain ⟨_, _, rfl⟩ := run.last
      exact hfirst
  | cons t rest ih =>
      obtain ⟨hrest, _, rfl⟩ := run.last
      refine hstep t List.mem_cons_self _ run (ih hrest ?_)
      exact fun u hu => hstep u (List.mem_cons_of_mem t hu)

end Parts

/-! ### Runs of lists of operations -/

theorem map_eq_ok {ε α β : Type} {x : Except ε α} {f : α → β} {b : β} :
    x.map f = .ok b ↔ ∃ a, x = .ok a ∧ f a = b := by
  cases x with
  | error fault => simp [Except.map]
  | ok a => simp [Except.map]

theorem Run.of_record {start fw : Forwarder} {operations : List Operation} {history : List Step}
    (h : record start operations = .ok (history, fw)) : Run start history fw := by
  induction operations generalizing history fw with
  | nil =>
      cases h
      exact .start
  | cons operation earlier ih =>
      obtain ⟨⟨before, middle⟩, hearlier, hrest⟩ := bind_eq_ok.mp h
      obtain ⟨last, hperform, hresult⟩ := bind_eq_ok.mp hrest
      cases hresult
      exact .step (ih hearlier) operation hperform

/-- Where some operations lead, the latest first, if none of them ends with a fault. -/
def reached (start : Forwarder) (operations : List Operation) : Forwarder :=
  match record start operations with
  | .ok (_, fw) => fw
  | .error _ => start

/-- The history of some operations, if none of them ends with a fault. -/
def historyOf (start : Forwarder) (operations : List Operation) : List Step :=
  match record start operations with
  | .ok (history, _) => history
  | .error _ => []

theorem Run.reached (start : Forwarder) (operations : List Operation)
    (h : (record start operations).isOk = true) :
    Run start (historyOf start operations) (reached start operations) := by
  rw [historyOf, NamedData.reached]
  cases hrecord : record start operations with
  | error fault =>
      rw [hrecord] at h
      cases h
  | ok last => exact Run.of_record hrecord

theorem historyOf_cons (start : Forwarder) (operation : Operation) (earlier : List Operation)
    (h : (record start (operation :: earlier)).isOk = true) :
    historyOf start (operation :: earlier) =
      ⟨NamedData.reached start earlier, operation,
        NamedData.reached start (operation :: earlier)⟩ :: historyOf start earlier := by
  cases hearlier : record start earlier with
  | error fault => simp [record, hearlier, bind, Except.bind, Except.isOk, Except.toBool] at h
  | ok passed =>
      cases hperform : passed.2.perform operation with
      | error fault =>
          simp [record, hearlier, hperform, bind, Except.bind, Except.isOk, Except.toBool] at h
      | ok fw => simp [historyOf, NamedData.reached, record, hearlier, hperform, bind, Except.bind]

/-! ### Every operation keeps the invariant -/

/-- A change of the tables at one name that keeps the pending entries, leaves the next hops in
order and chooses registered strategies only. -/
theorem Node.Valid.changeAt {n : Node} {count : Nat} (h : n.Valid count) (stem : Name)
    {f : NameRecord → NameRecord} (hpending : ∀ r, (f r).pending = r.pending)
    (hhops : ∀ r, Listed r.nextHops → Listed (f r).nextHops)
    (hstrategy : ∀ r id, (f r).strategy? = some id → r.strategy? = some id ∨ id < count) :
    Node.Valid { n with tables := n.tables.change stem f } count := by
  apply h.withTree
  · exact h.indexed.change stem hpending
  · exact h.hopsListed.change h.indexed.ordered stem hhops
  · exact h.registered.change h.indexed.ordered stem hstrategy
  · rfl

namespace Forwarder

variable {fw fw' : Forwarder}

theorem strategies_addFace (fw : Forwarder) (takes : Nat → Bool) (scope : FaceScope)
    (link : LinkType) :
    (((fw.addFace takes scope link).map Prod.snd).getD fw).strategies = fw.strategies := by
  rw [addFace]
  cases fw.node.faces.add takes scope link <;> rfl

theorem strategies_setStrategy (fw : Forwarder) (stem : Name) (id : Nat) :
    (fw.setStrategy stem id).2.strategies = fw.strategies := by
  rw [setStrategy]
  split <;> rfl

/-- A call that reads no clock leaves the node with its invariant, and the strategies as they were
unless it adds one. -/
theorem valid_of_untimed {operation : Operation} (h : fw.node.Valid fw.strategies.length)
    (hperform : fw.perform operation = .ok fw') (huntimed : operation.reading? = none) :
    fw'.node.Valid fw.strategies.length ∧
      (fw'.strategies = fw.strategies ∨
        ∃ b : BuiltIn, fw'.strategies = fw.strategies ++ [b.strategy]) := by
  cases operation with
  | addFace takes scope link =>
      cases hperform
      refine ⟨?_, .inl (strategies_addFace fw takes scope link)⟩
      rw [Forwarder.addFace]
      cases hadd : fw.node.faces.add takes scope link with
      | none => exact h
      | some added =>
          obtain ⟨face, faces⟩ := added
          have hfaces : ∀ g, fw.node.faces.contains g = true → faces.contains g = true := by
            intro g hg
            obtain ⟨f, hfind⟩ := Option.isSome_iff_exists.mp hg
            exact Option.isSome_iff_exists.mpr ⟨f, FaceTable.find?_add hadd hfind⟩
          exact (h.withFaces hfaces).congr rfl rfl rfl
  | hangUp face =>
      cases hperform
      have hinfo : (fw.node.faces.hangUp face).info? = fw.node.faces.info? :=
        FaceTable.info?_modify fw.node.faces face fun _ => rfl
      exact ⟨h.congr rfl rfl hinfo, .inl rfl⟩
  | removeRoute stem face =>
      cases hperform
      have hchanged := h.changeAt stem (f := fun r =>
        { r with nextHops := r.nextHops.filter fun h => h.face ≠ face }) (fun _ => rfl)
        (fun _ hlisted => hlisted.remove face) fun _ _ hid => .inl hid
      exact ⟨hchanged.congr rfl rfl rfl, .inl rfl⟩
  | addStrategy b =>
      cases hperform
      exact ⟨h.congr rfl rfl rfl, .inr ⟨b, rfl⟩⟩
  | setStrategy stem id =>
      cases hperform
      refine ⟨?_, .inl (strategies_setStrategy fw stem id)⟩
      rw [Forwarder.setStrategy]
      split
      next s hs =>
        have hlt : id < fw.strategies.length := (List.getElem?_eq_some_iff.mp hs).1
        have hchanged := h.changeAt stem (f := fun r => { r with strategy? := some id })
          (fun _ => rfl) (fun _ hlisted => hlisted) fun r chosen hchosen => by
            cases hchosen
            exact .inr hlt
        exact hchanged.congr rfl rfl rfl
      next => exact h.congr rfl rfl rfl
  | unsetStrategy stem =>
      cases hperform
      refine ⟨?_, .inl rfl⟩
      rcases fw.node.tables.unsetStrategy_cases stem with hsame | hchanged
      · exact h.congr hsame rfl rfl
      · have hcleared := h.changeAt (f := fun r => { r with strategy? := none }) stem
          (fun _ => rfl) (fun _ => id) (by intro r id hid; cases hid)
        exact hcleared.congr hchanged rfl rfl
  | takeDisconnected =>
      cases hperform
      exact ⟨h.congr rfl rfl rfl, .inl rfl⟩
  | setPolicy policy =>
      cases hperform
      exact ⟨h, .inl rfl⟩
  | addRegion region =>
      cases hperform
      exact ⟨h.congr rfl rfl rfl, .inl rfl⟩
  | removeRegion region =>
      cases hperform
      exact ⟨h.congr rfl rfl rfl, .inl rfl⟩
  | useStore store =>
      cases hperform
      exact ⟨h, .inl rfl⟩
  | removeFace now face => cases huntimed
  | addRoute now stem face cost => cases huntimed
  | receive now ingress packet => cases huntimed
  | dropInterest now egress interest => cases huntimed
  | runTimers now => cases huntimed

theorem Valid.perform_untimed (h : fw.Valid) {operation : Operation}
    (hperform : fw.perform operation = .ok fw') (huntimed : operation.reading? = none) :
    fw'.Valid := by
  obtain ⟨hnode, hsame | ⟨b, hmore⟩⟩ := valid_of_untimed h.node hperform huntimed
  · exact h.of_node hsame hnode
  · constructor
    · intro s hs
      rw [hmore] at hs
      rcases List.mem_append.mp hs with hold | hnew
      · exact h.builtIn s hold
      · exact ⟨b, List.mem_singleton.mp hnew⟩
    · rw [hmore, List.length_append]
      exact Nat.lt_add_right _ h.hasStrategy
    · rw [hmore, List.length_append]
      exact hnode.mono (Nat.le_add_right _ _)

theorem Valid.perform (h : fw.Valid) {operation : Operation}
    (hperform : fw.perform operation = .ok fw') : fw'.Valid := by
  cases operation with
  | removeFace now face =>
      obtain ⟨⟨isRemoved, last⟩, hremove, rfl⟩ := map_eq_ok.mp hperform
      exact h.removeFace hremove
  | addRoute now stem face cost =>
      obtain ⟨⟨isAdded, last⟩, hadd, rfl⟩ := map_eq_ok.mp hperform
      exact h.addRoute hadd
  | receive now ingress packet =>
      cases packet with
      | interest i => exact h.receiveInterest hperform
      | data d => exact h.receiveData hperform
      | nack k => exact h.receiveNack hperform
  | dropInterest now egress interest =>
      obtain ⟨n, hquiet, rfl⟩ := onDroppedInterest_cases h.builtIn hperform
      exact h.of_node rfl ((h.tick now).node.unmoved hquiet.toUnmoved)
  | runTimers now =>
      cases hperform
      obtain ⟨n, _, hvalid, hrun⟩ := runTimers_cases h now
      rw [hrun]
      exact h.of_node rfl hvalid
  | _ => exact h.perform_untimed hperform rfl

end Forwarder

/-- A forwarder has its invariant at every moment of every run. -/
theorem Run.valid {settings : Settings} {store : ContentStore} {hash : HashFunction}
    {history : List Step} {fw : Forwarder}
    (run : Run (Forwarder.new settings store hash) history fw) : fw.Valid :=
  run.invariant (Forwarder.valid_new settings store hash) fun _ _ _ hperform h =>
    h.perform hperform

/-! ### Small runs -/

namespace Sample

/-- A forwarder without a content store. -/
def start : Forwarder :=
  .new {} .disabled fun _ => ⟨List.replicate 32 0, rfl⟩

def name : Name :=
  [.generic [97]]

/-- Two faces and a route to the second one. -/
def setup : List Operation :=
  [.addRoute ⟨1⟩ name ⟨257⟩ 0, .addFace (fun _ => true) .offHost .pointToPoint,
    .addFace (fun _ => true) .offHost .pointToPoint]

def ask (now : Timestamp) (nonce : Nonce) : Operation :=
  .receive now ⟨⟨256⟩, 0⟩ (.interest { name, nonce })

def askWide (now : Timestamp) (nonce : Nonce) : Operation :=
  .receive now ⟨⟨256⟩, 0⟩ (.interest { name, nonce, canBePrefix := true })

def data : Data where
  name := name

def reply (now : Timestamp) : Operation :=
  .receive now ⟨⟨257⟩, 0⟩ (.data data)

end Sample

end NamedData
