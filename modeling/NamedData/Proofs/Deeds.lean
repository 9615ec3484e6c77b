import NamedData.Proofs.Closing
import NamedData.Proofs.Runs

/-!
Deeds, the smallest things that an operation does to a node once it has read the clock. Each deed
says under which circumstances it is done, so that an invariant of whole runs takes one argument for
each deed. A deed on an entry at hand is also one of the node into which the entry is put back at
once; no deed but the end of the entry takes an entry away.
-/

namespace NamedData

open Forwarder

/-- The Interest as it is treated after it came in: tagged with its face, and perhaps without its
hint. -/
def Interest.arrived (i : Interest) (face : FaceId) (hint : List Name) : Interest :=
  { i with incomingFace := some face, forwardingHint := hint }

/-- Data as it is treated after it came in: tagged with its face. -/
def Data.arrived (d : Data) (face : FaceId) : Data :=
  { d with incomingFace := some face }

namespace Focus

/-- The entry does not end while anybody waits in it. -/
def Lasts (f : Focus) : Prop :=
  ∃ deadline, f.EndsAt deadline ∧ ∀ r ∈ f.entry.inRecords, r.expiry ≤ deadline

/-- What deeds on an entry at hand rely on. -/
structure Sound (f : Focus) : Prop where
  live : f.Live
  timed : f.Timed
  distinct : f.entry.Distinct

theorem Valid.sound {f : Focus} {count : Nat} (h : f.Valid count) : f.Sound :=
  ⟨h.live, h.timed, h.wellKept.distinct⟩

/-- The memory of nonces took in some more. -/
def Remembers (f f' : Focus) : Prop :=
  ∃ hashes : List UInt64, f'.node.deadNonces =
    hashes.foldl (fun l hash => l.addHash hash f.node.now) f.node.deadNonces

/-- Data came in for the entry. It is satisfied and due, the face that the Data came from owes
nothing any more, and nothing but this Data goes out. -/
structure Served (f f' : Focus) (ingress : FaceId) (data : Data) : Prop extends f.Keeps f' where
  timed : f'.Timed
  others : ∀ t : Timer PitToken, t.entry ≠ f.token →
    (t ∈ f'.node.timers.timers ↔ t ∈ f.node.timers.timers)
  satisfied : f'.entry.satisfied = true
  inRecords : f'.entry.inRecords.Sublist f.entry.inRecords
  outRecords : f'.entry.outRecords = f.entry.outRecords.filter fun r => r.face ≠ ingress
  remembers : f.Remembers f'
  sent : ∃ new, f'.node.journal.sent = f.node.journal.sent ++ new ∧
    ∀ t ∈ new, t.packet = .data data ∧ f.node.lets data t.peer.face = true

/-- One thing that an operation does to an entry at hand. -/
inductive Deed (hash : HashFunction) (operation : Operation) : Focus → Focus → Prop where
  | talk {f f' : Focus} (hquiet : f.Quiet f') : Deed hash operation f f'
  /-- The Interest that came in is answered from the content store. -/
  | hit (f : Focus) {now : Timestamp} {ingress : FaceEndpoint} {i : Interest} (data : Data)
      (hcall : operation = .receive now ingress (.interest i)) (hempty : f.entry.inRecords = []) :
      Deed hash operation f ((settle data f).setExpiry 0)
  | answer (f : Focus) {now : Timestamp} {ingress : FaceEndpoint} {i : Interest} (data : Data)
      (hcall : operation = .receive now ingress (.interest i)) (hempty : f.entry.inRecords = []) :
      Deed hash operation f (f.sendData ingress data)
  /-- The Interest that came in waits. -/
  | wait (f : Focus) {now : Timestamp} {ingress : FaceEndpoint} {i : Interest} {info : FaceInfo}
      (hint : List Name) (hcall : operation = .receive now ingress (.interest i))
      (hinfo : f.node.faces.info? ingress.face = some info)
      (hscope : (!info.isLocal && i.name.isLocalhost) = false)
      (hsame : f.entry.interest.sameSelectors i = true)
      (hloop : isLoop info (f.entry.findNonce i.nonce ingress.face) = false) :
      Deed hash operation f (awaitData ingress (i.arrived ingress.face hint) f)
  | mark (f : Focus) {now : Timestamp} {ingress : FaceEndpoint} {i : Interest}
      (decision : RetransmissionDecision) (hcall : operation = .receive now ingress (.interest i))
      (hlasts : f.Lasts) :
      Deed hash operation f (f.onEntry fun e => e.recordForwarded decision f.node.now)
  /-- The Interest that came in is sent to the face of its tag, or to one that it may go to. -/
  | forward (f : Focus) {now : Timestamp} {ingress : FaceEndpoint} {i : Interest} {egress : FaceId}
      {info : FaceInfo} (hint : List Name) (hcall : operation = .receive now ingress (.interest i))
      (hlasts : f.Lasts) (hsame : f.entry.interest.sameSelectors i = true)
      (hwaits : ∃ r ∈ f.entry.inRecords,
        r.face = ingress.face ∧ r.interest = i.arrived ingress.face hint)
      (hinfo : f.node.faces.info? egress = some info)
      (hallowed : i.nextHopFace = some egress ∨
        ∃ source, Scope.isEligible source (i.arrived ingress.face hint) info = true) :
      Deed hash operation f (f.sendInterest { face := egress } (i.arrived ingress.face hint))
  /-- An Interest that waits is sent to a next hop that appeared. -/
  | offer (f : Focus) {now : Timestamp} {stem : Name} {face : FaceId} {cost : Nat} {r : InRecord}
      {info : FaceInfo} (hcall : operation = .addRoute now stem face cost)
      (hwaits : r ∈ f.entry.inRecords) (hlive : r.isLive f.node.now = true)
      (hidle : (f.entry.outRecord? face).any (fun r => r.isPending f.node.now) = false)
      (hinfo : f.node.faces.info? face = some info)
      (hallowed : ∃ source, Scope.isEligible source r.interest info = true) :
      Deed hash operation f (f.sendInterest { face } r.interest)
  /-- An Interest is handed back to the peer that waits with it. -/
  | handBack (f : Focus) (egress : FaceEndpoint) (reason : NackReason)
      (hpeer : ∀ r ∈ f.entry.inRecords, r.face = egress.face → r.peer = egress) :
      Deed hash operation f (f.sendNack egress reason)
  /-- The Interest that came in may go nowhere. -/
  | giveUp (f : Focus) {now : Timestamp} {ingress : FaceEndpoint} {i : Interest}
      (hcall : operation = .receive now ingress (.interest i)) (htag : i.nextHopFace = none)
      (hsame : f.entry.interest.sameSelectors i = true)
      (hcause : f.entry.hasPendingOutRecords f.node.now = false ∨
        f.entry.retransmission.lastForwarded = none) : Deed hash operation f f.reject
  | nacked (f : Focus) {now : Timestamp} {ingress : FaceEndpoint} {nack : Nack}
      (hcall : operation = .receive now ingress (.nack nack)) :
      Deed hash operation f (recordNack ingress.face nack.reason f)
  | serve {f f' : Focus} {now : Timestamp} {ingress : FaceEndpoint} {data : Data}
      (hcall : operation = .receive now ingress (.data data))
      (hanswers : f.entry.interest.isAnsweredBy data.name (data.implicitDigest hash) = true)
      (hserved : f.Served f' ingress.face (data.arrived ingress.face)) : Deed hash operation f f'
  | forget (f : Focus) {now : Timestamp} {face : FaceId}
      (hcall : operation = .removeFace now face) : Deed hash operation f (forgetFace face f)

/-- A sequence of deeds on an entry at hand. -/
def Deeds (hash : HashFunction) (operation : Operation) : Focus → Focus → Prop :=
  Relation.ReflTransGen (Deed hash operation)

variable {hash : HashFunction} {operation : Operation} {f f' g : Focus}

theorem Deed.deeds (h : Deed hash operation f f') : Deeds hash operation f f' :=
  Relation.ReflTransGen.single h

theorem Deeds.refl (f : Focus) : Deeds hash operation f f :=
  Relation.ReflTransGen.refl

theorem Deeds.trans (h : Deeds hash operation f g) (h' : Deeds hash operation g f') :
    Deeds hash operation f f' :=
  Relation.ReflTransGen.trans h h'

theorem deeds_say (f : Focus) (notice : Notice) : Deeds hash operation f (f.say notice) :=
  (Deed.talk (f.quiet_say notice)).deeds

/-! ### The effect of deeds -/

theorem Deed.keeps (h : Deed hash operation f f') : f.Keeps f' := by
  cases h with
  | talk hquiet => exact hquiet.keeps
  | hit data => exact (keeps_onEntry (f := f) rfl).trans (keeps_setExpiry _ 0)
  | answer data => exact f.keeps_sendData _ data
  | wait hint => exact (keeps_onEntry (f := f) rfl).trans (keeps_setExpiry _ _)
  | mark decision => exact keeps_onEntry rfl
  | forward hint => exact f.keeps_sendInterest _ _
  | offer => exact f.keeps_sendInterest _ _
  | handBack egress reason _ => exact f.keeps_sendNack egress reason
  | giveUp => exact f.keeps_setExpiry 0
  | nacked => exact keeps_recordNack _ _ f
  | serve _ _ hserved => exact hserved.toKeeps
  | forget => exact keeps_forgetFace _ f

/-- Work that leaves timers alone and makes no face have two records keeps an entry sound. -/
theorem Sound.of_keeps (h : f.Sound) (hkeeps : f.Keeps f')
    (htimers : f'.node.timers = f.node.timers)
    (hid : f'.entry.expiryTimer = f.entry.expiryTimer) (hdistinct : f'.entry.Distinct) :
    f'.Sound :=
  ⟨hkeeps.live h.live, timed_of_keeps h.timed hkeeps htimers hid, hdistinct⟩

theorem Sound.onEntry (h : f.Sound) {change : PitEntry → PitEntry}
    (hinterest : (change f.entry).interest = f.entry.interest)
    (htimer : (change f.entry).expiryTimer = f.entry.expiryTimer)
    (hdistinct : (change f.entry).Distinct) : (f.onEntry change).Sound :=
  h.of_keeps (keeps_onEntry hinterest) rfl htimer hdistinct

theorem Sound.setExpiry (h : f.Sound) (after : Millis) : (f.setExpiry after).Sound :=
  ⟨(f.keeps_setExpiry after).live h.live, timed_setExpiry h.timed after,
    h.distinct.inFaces, h.distinct.outFaces⟩

theorem Sound.sendInterest (h : f.Sound) (egress : FaceEndpoint) (interest : Interest) :
    (f.sendInterest egress interest).Sound := by
  have hkeeps := f.keeps_sendInterest egress interest
  cases hknown : f.node.faces.contains egress.face with
  | false =>
      rw [sendInterest_of_unknown hknown] at hkeeps ⊢
      exact h.of_keeps hkeeps rfl rfl h.distinct
  | true =>
      rw [sendInterest_of_known hknown] at hkeeps ⊢
      exact h.of_keeps hkeeps
        (f.node.unmoved_dispatch _ egress _ Counters.Onward.outInterests).timers rfl
        (h.distinct.recordOut egress interest f.node.now)

theorem Sound.sendNack (h : f.Sound) (egress : FaceEndpoint) (reason : NackReason) :
    (f.sendNack egress reason).Sound := by
  have hkeeps := f.keeps_sendNack egress reason
  rcases f.sendNack_cases egress reason with ⟨notice, hsay⟩ | ⟨_, _, _, _, _, hsent⟩
  · rw [hsay] at hkeeps ⊢
    exact h.of_keeps hkeeps rfl rfl h.distinct
  · rw [hsent] at hkeeps ⊢
    exact h.of_keeps hkeeps (f.node.unmoved_dispatch _ egress _ Counters.Onward.outNacks).timers rfl
      (h.distinct.of_shrinks (f.entry.shrinks_deleteIn egress.face))

theorem Sound.forgetFace (h : f.Sound) (face : FaceId) : (forgetFace face f).Sound := by
  have hforgot : Sound (f.onEntry fun e => e.forgetFace face) :=
    h.onEntry rfl rfl (h.distinct.of_shrinks (f.entry.shrinks_forgetFace face))
  rcases forgetFace_cases face f with ⟨_, hforget⟩ | ⟨_, hforget | hforget⟩
  · rwa [hforget]
  · rwa [hforget]
  · rw [hforget]
    exact hforgot.setExpiry 0

theorem Deed.sound (h : Deed hash operation f f') (hf : f.Sound) : f'.Sound := by
  have hsame {e : PitEntry} (hin : e.inRecords = f.entry.inRecords)
      (hout : e.outRecords = f.entry.outRecords) : e.Distinct :=
    hf.distinct.of_shrinks (PitEntry.shrinks_of_records hin hout)
  cases h with
  | talk hquiet =>
      exact hf.of_keeps hquiet.keeps hquiet.node.timers (by rw [hquiet.entry])
        (hquiet.entry ▸ hf.distinct)
  | hit data => exact (hf.onEntry rfl rfl (hsame rfl rfl)).setExpiry 0
  | answer data =>
      exact hf.of_keeps (f.keeps_sendData _ data) (f.node.unmoved_sendData _ data).timers rfl
        (hf.distinct.of_shrinks (f.entry.shrinks_deleteIn _))
  | wait hint =>
      exact (hf.onEntry rfl rfl (hf.distinct.recordIn _ _ f.node.now)).setExpiry _
  | mark decision => exact hf.onEntry rfl rfl (hsame rfl rfl)
  | forward hint => exact hf.sendInterest _ _
  | offer => exact hf.sendInterest _ _
  | handBack egress reason _ => exact hf.sendNack egress reason
  | giveUp => exact hf.setExpiry 0
  | @nacked _ ingress nack _ =>
      have hnoted : Sound (f.onEntry fun e => e.recordNack ingress.face nack.reason) :=
        hf.onEntry rfl rfl (hf.distinct.of_shrinks (f.entry.shrinks_recordNack _ nack.reason))
      rw [recordNack]
      split
      · exact hnoted
      · exact hnoted.setExpiry 0
  | serve _ _ hserved =>
      refine ⟨hserved.toKeeps.live hf.live, hserved.timed, hf.distinct.of_shrinks ⟨?_, ?_⟩⟩
      · exact hserved.inRecords.map _
      · rw [PitEntry.outFaces, hserved.outRecords]
        exact List.filter_sublist.map _
  | @forget _ face _ => exact hf.forgetFace face

theorem inRecords_sendNack (f : Focus) (egress : FaceEndpoint) (reason : NackReason) :
    (f.sendNack egress reason).entry.inRecords.Sublist f.entry.inRecords := by
  rcases f.sendNack_cases egress reason with ⟨notice, hsay⟩ | ⟨_, _, _, _, _, hsent⟩
  · rw [hsay]
    exact List.Sublist.refl _
  · rw [hsent]
    exact List.eraseP_sublist

/-- Nobody comes to wait in an entry but by an Interest that waits. -/
theorem Deed.inRecords (h : Deed hash operation f f') :
    f'.entry.inRecords.Sublist f.entry.inRecords ∨
      ∃ now ingress i info hint, operation = .receive now ingress (.interest i) ∧
        f.node.faces.info? ingress.face = some info ∧
        (!info.isLocal && i.name.isLocalhost) = false ∧
        f.entry.interest.sameSelectors i = true ∧
        isLoop info (f.entry.findNonce i.nonce ingress.face) = false ∧
        f' = awaitData ingress (i.arrived ingress.face hint) f := by
  cases h with
  | talk hquiet => exact .inl (hquiet.entry ▸ List.Sublist.refl _)
  | hit data => exact .inl (List.Sublist.refl _)
  | answer data => exact .inl List.eraseP_sublist
  | wait hint hcall hinfo hscope hsame hloop =>
      exact .inr ⟨_, _, _, _, hint, hcall, hinfo, hscope, hsame, hloop, rfl⟩
  | mark decision => exact .inl (List.Sublist.refl _)
  | forward hint _ _ _ _ hinfo _ =>
      rw [sendInterest_of_known (FaceTable.contains_of_info? hinfo)]
      exact .inl (List.Sublist.refl _)
  | offer _ _ _ _ hinfo _ =>
      rw [sendInterest_of_known (FaceTable.contains_of_info? hinfo)]
      exact .inl (List.Sublist.refl _)
  | handBack egress reason _ => exact .inl (f.inRecords_sendNack egress reason)
  | giveUp => exact .inl (List.Sublist.refl _)
  | nacked =>
      left
      rw [recordNack]
      split <;> exact List.Sublist.refl _
  | serve _ _ hserved => exact .inl hserved.inRecords
  | @forget _ face _ =>
      left
      rcases forgetFace_cases face f with ⟨_, hforget⟩ | ⟨_, hforget | hforget⟩
      · rw [hforget]
      · rw [hforget]
        exact List.filter_sublist
      · rw [hforget]
        exact List.filter_sublist

/-- A property of all entries, where the entry at hand is looked at apart from the others. -/
theorem forall_release_iff (hlive : f.Live) {P : PitToken → PitEntry → Prop} :
    (∀ token e, f.release.tables.pit.get? token = some e → P token e) ↔
      P f.token f.entry ∧
        ∀ token e, token ≠ f.token → f.node.tables.pit.get? token = some e → P token e := by
  rw [get?_release hlive]
  constructor
  · intro h
    refine ⟨h f.token f.entry f.entryOf?_self, ?_⟩
    intro token e hne hget
    exact h token e (by rwa [entryOf?_of_ne f hne])
  · rintro ⟨hown, hothers⟩ token e hget
    by_cases same : token = f.token
    · rw [same, entryOf?_self, Option.some.injEq] at hget
      exact same ▸ hget ▸ hown
    · rw [entryOf?_of_ne f same] at hget
      exact hothers token e same hget

end Focus

/-! ### Nodes -/

namespace Node

/-- Nothing that becomes of pending Interests has changed. -/
structure Alike (n m : Node) : Prop where
  pit : m.tables.pit = n.tables.pit
  timers : m.timers = n.timers
  now : m.now = n.now
  deadNonces : m.deadNonces = n.deadNonces
  sent : m.journal.sent = n.journal.sent

theorem Quiet.alike {n m : Node} (h : n.Quiet m) : n.Alike m :=
  ⟨congrArg Tables.pit h.tables, h.timers, h.now, h.deadNonces, h.sent⟩

/-- The node after an entry has ended. -/
def ending (n : Node) (token : PitToken) (e : PitEntry) : Node :=
  finalize ⟨n, token, { e with expiryTimer := none }⟩

theorem ended_ending {n : Node} {token : PitToken} {e : PitEntry}
    (hget : n.tables.pit.get? token = some e) : Ended n (n.ending token e) token :=
  ended_finalize (f := ⟨n, token, { e with expiryTimer := none }⟩) hget

/-- One thing that an operation does to a node. -/
inductive Deed (hash : HashFunction) (operation : Operation) : Node → Node → Prop where
  | aside {n m : Node} (halike : n.Alike m) (hinfo : m.faces.info? = n.faces.info?) :
      Deed hash operation n m
  | addFace {n m : Node} (hcall : operation.reading? = none) (halike : n.Alike m)
      (hknown : ∀ token e, n.tables.pit.get? token = some e →
        e.Within fun face => n.faces.contains face = true)
      (hfaces : ∀ face, n.faces.contains face = true → m.faces.info? face = n.faces.info? face) :
      Deed hash operation n m
  | dropFace {n m : Node} (halike : n.Alike m)
      (hfaces : ∀ face info, m.faces.info? face = some info → n.faces.info? face = some info) :
      Deed hash operation n m
  /-- A new entry for the Interest that came in. -/
  | openEntry {n : Node} {now : Timestamp} {ingress : FaceEndpoint} {i : Interest}
      {token : PitToken} {tables : Tables} (hint : List Name)
      (hcall : operation = .receive now ingress (.interest i))
      (hnew : ∀ u e, n.tables.pit.get? u = some e → e.interest.sameSelectors i = false)
      (hinsert : n.tables.pit.insert { interest := (i.arrived ingress.face hint).untagged } =
        .ok (token, tables.pit)) : Deed hash operation n { n with tables }
  /-- The Interest that came in loops. -/
  | tellLoop (n : Node) {now : Timestamp} {ingress : FaceEndpoint} {i : Interest} {info : FaceInfo}
      (hint : List Name) (hcall : operation = .receive now ingress (.interest i))
      (hinfo : n.faces.info? ingress.face = some info)
      (hscope : (!info.isLocal && i.name.isLocalhost) = false) :
      Deed hash operation n (tellLoop ingress info (i.arrived ingress.face hint) n)
  | sendData (n : Node) {now : Timestamp} {ingress : FaceEndpoint} {data : Data}
      (egress : FaceEndpoint) (hcall : operation = .receive now ingress (.data data)) :
      Deed hash operation n (n.sendData egress (data.arrived ingress.face))
  | work {f f' : Focus} (hsound : f.Sound) (hdeed : Focus.Deed hash operation f f') :
      Deed hash operation f.release f'.release
  /-- An entry ends by its timer. -/
  | finish {n : Node} {now : Timestamp} {timer : Timer PitToken} {rest : List (Timer PitToken)}
      {e : PitEntry} (hcall : operation = .runTimers now)
      (htimed : Timed (rearm (timer :: rest) n).timers.timers n.timers.nextId n.tables.pit.get?)
      (hget : n.tables.pit.get? timer.entry = some e) (hid : e.expiryTimer = some timer.id)
      (hdue : timer.deadline ≤ n.now) :
      Deed hash operation (rearm (timer :: rest) n)
        (rearm rest (n.ending timer.entry e))

/-- A sequence of deeds. -/
def Deeds (hash : HashFunction) (operation : Operation) : Node → Node → Prop :=
  Relation.ReflTransGen (Deed hash operation)

variable {hash : HashFunction} {operation : Operation} {n m k : Node}

theorem Deed.deeds (h : Deed hash operation n m) : Deeds hash operation n m :=
  Relation.ReflTransGen.single h

theorem Deeds.refl (n : Node) : Deeds hash operation n n :=
  Relation.ReflTransGen.refl

theorem Deeds.trans (h : Deeds hash operation n m) (h' : Deeds hash operation m k) :
    Deeds hash operation n k :=
  Relation.ReflTransGen.trans h h'

/-- What every deed keeps is kept by sequences of deeds. -/
theorem Deeds.preserve {P : Node → Prop} (hdeed : ∀ n m, Deed hash operation n m → P n → P m)
    (h : Deeds hash operation n m) (hn : P n) : P m := by
  induction h with
  | refl => exact hn
  | tail _ step ih => exact hdeed _ _ step ih

theorem deeds_of_quiet (h : n.Quiet m) : Deeds hash operation n m :=
  (Deed.aside h.alike h.info?).deeds

/-- An entry that is taken out and put back at once. -/
theorem release_focus {token : PitToken} {e : PitEntry} (hget : n.tables.pit.get? token = some e) :
    Focus.release ⟨n, token, e⟩ = n := by
  rw [Focus.release, Arena.set_self hget]

/-- What deeds on a node rely on. -/
structure Sound (n : Node) : Prop where
  timed : Timed n.timers.timers n.timers.nextId n.tables.pit.get?
  distinct : ∀ token e, n.tables.pit.get? token = some e → e.Distinct

theorem Valid.sound {count : Nat} (h : n.Valid count) : n.Sound :=
  ⟨h.timed, fun token e hget => (h.wellKept token e hget).distinct⟩

theorem Sound.congr (h : n.Sound) (hpit : m.tables.pit = n.tables.pit)
    (htimers : m.timers = n.timers) : m.Sound where
  timed := by
    rw [hpit, htimers]
    exact h.timed
  distinct := by
    rw [hpit]
    exact h.distinct

theorem Sound.focus (h : n.Sound) {token : PitToken} {e : PitEntry}
    (hget : n.tables.pit.get? token = some e) : Focus.Sound ⟨n, token, e⟩ where
  live := ⟨e, hget, rfl⟩
  timed := by
    rw [Focus.Timed, Focus.entryOf?_focus hget]
    exact h.timed
  distinct := h.distinct token e hget

/-- A sound entry is put back among others that have distinct records too. -/
theorem Sound.release {f : Focus} (h : f.Sound)
    (hothers : ∀ token e, token ≠ f.token → f.node.tables.pit.get? token = some e → e.Distinct) :
    f.release.Sound where
  timed := by
    rw [Focus.get?_release h.live]
    exact h.timed
  distinct := (Focus.forall_release_iff h.live).mpr ⟨h.distinct, hothers⟩

theorem Deed.sound (h : Deed hash operation n m) (hn : n.Sound) : m.Sound := by
  cases h with
  | aside halike _ => exact hn.congr halike.pit halike.timers
  | addFace _ halike _ _ => exact hn.congr halike.pit halike.timers
  | dropFace halike _ => exact hn.congr halike.pit halike.timers
  | @openEntry _ _ ingress i token tables hint _ _ hinsert =>
      have hpit := Arena.get?_insert hinsert
      refine ⟨hn.timed.insert (Arena.get?_of_insert hinsert) rfl hpit, ?_⟩
      intro u e hget
      rw [hpit] at hget
      split at hget
      · cases hget
        exact ⟨List.nodup_nil, List.nodup_nil⟩
      · exact hn.distinct u e hget
  | @tellLoop _ _ ingress i info hint _ _ _ =>
      have hmoved := unmoved_tellLoop ingress info (i.arrived ingress.face hint) n
      exact hn.congr (congrArg Tables.pit hmoved.tables) hmoved.timers
  | @sendData _ _ ingress data egress _ =>
      have hmoved := n.unmoved_sendData egress (data.arrived ingress.face)
      exact hn.congr (congrArg Tables.pit hmoved.tables) hmoved.timers
  | @work f f' hsound hdeed =>
      obtain ⟨_, hothers⟩ := (Focus.forall_release_iff hsound.live).mp hn.distinct
      have hkeeps := hdeed.keeps
      apply Sound.release (hdeed.sound hsound)
      rw [hkeeps.tables, hkeeps.token]
      exact hothers
  | @finish k _ timer rest e _ _ hget _ _ =>
      have hended := ended_ending hget
      obtain ⟨old, herase⟩ := hended.tables
      have hleft := Tables.get?_of_erase herase
      constructor
      · have htimers := hn.timed.erase hleft
        rw [rearm, hended.timers]
        exact htimers
      · intro u e' hget'
        have hkept : (k.ending timer.entry e).tables.pit.get? u = some e' := hget'
        rw [hleft] at hkept
        split at hkept
        · cases hkept
        · exact hn.distinct u e' hkept

/-- The clock is read before anything else is done. -/
theorem Deed.now (h : Deed hash operation n m) : m.now = n.now := by
  cases h with
  | aside halike _ => exact halike.now
  | addFace _ halike _ _ => exact halike.now
  | dropFace halike _ => exact halike.now
  | openEntry => rfl
  | tellLoop => exact (unmoved_tellLoop _ _ _ n).now
  | sendData => exact (n.unmoved_sendData _ _).now
  | work _ hdeed => exact hdeed.keeps.now
  | finish _ _ hget _ _ => exact (ended_ending hget).now

theorem Deeds.now (h : Deeds hash operation n m) : m.now = n.now :=
  h.preserve (P := fun k => k.now = n.now) (fun _ _ hdeed hk => hdeed.now.trans hk) rfl

theorem Deeds.sound (h : Deeds hash operation n m) (hn : n.Sound) : m.Sound :=
  h.preserve (fun _ _ hdeed => hdeed.sound) hn

/-- Deeds on an entry at hand are deeds of the node. -/
theorem Deeds.work {f f' : Focus} (hsound : f.Sound) (h : Focus.Deeds hash operation f f') :
    Deeds hash operation f.release f'.release := by
  have hdeeds : Deeds hash operation f.release f'.release ∧ f'.Sound := by
    induction h with
    | refl => exact ⟨.refl _, hsound⟩
    | tail _ step ih => exact ⟨ih.1.trans (Deed.work ih.2 step).deeds, step.sound ih.2⟩
  exact hdeeds.1

theorem Deeds.onEntry {token : PitToken} {e : PitEntry} {f : Focus} (hn : n.Sound)
    (hget : n.tables.pit.get? token = some e)
    (h : Focus.Deeds hash operation ⟨n, token, e⟩ f) : Deeds hash operation n f.release := by
  have hworks := Deeds.work (hn.focus hget) h
  rwa [release_focus hget] at hworks

end Node

end NamedData
