import NamedData.Proofs.Conduct

/-!
The memory of nonces over time. Whatever deeds do, they only add to it, at the time of the node; so
a pair of name and nonce that was added is remembered for a whole lifetime from then on, however
much is added later and however often the memory is swept.
-/

namespace NamedData

namespace DeadNonceList

variable {l : DeadNonceList} {hash other : UInt64} {now deadline : Timestamp}

/-- The hash is remembered until the given time at least. -/
def Keeps (l : DeadNonceList) (hash : UInt64) (deadline : Timestamp) : Prop :=
  ∃ expiry, l.expiry? hash = some expiry ∧ deadline ≤ expiry

theorem lookup_filter {κ β : Type} [BEq κ] [LawfulBEq κ] {key : κ} {value : β} {l : List (κ × β)}
    {keep : κ × β → Bool} (h : l.lookup key = some value) (hkeep : keep (key, value) = true) :
    (l.filter keep).lookup key = some value := by
  induction l with
  | nil => cases h
  | cons first rest ih =>
      obtain ⟨k, v⟩ := first
      by_cases same : key = k
      · subst same
        simp only [List.lookup_cons_self, Option.some.injEq] at h
        subst h
        rw [List.filter_cons_of_pos hkeep, List.lookup_cons_self]
      · have hfirst : (key == k) = false := by simpa using same
        simp only [List.lookup_cons, hfirst] at h
        rw [List.filter_cons]
        split
        · simp only [List.lookup_cons, hfirst]
          exact ih h
        · exact ih h

theorem Keeps.has (h : l.Keeps hash deadline) {name : Name} {nonce : Nonce}
    (hhash : NonceHash.hash name nonce = hash) (hnow : now < deadline) :
    l.has name nonce now = true := by
  obtain ⟨expiry, hexpiry, hle⟩ := h
  rw [DeadNonceList.has, hhash, hexpiry]
  exact decide_eq_true (Nat.lt_of_lt_of_le hnow hle)

theorem Keeps.prune (h : l.Keeps hash deadline) (hnow : now < deadline) :
    (l.prune now).Keeps hash deadline := by
  obtain ⟨expiry, hexpiry, hle⟩ := h
  exact ⟨expiry, lookup_filter hexpiry (decide_eq_true (Nat.lt_of_lt_of_le hnow hle)), hle⟩

@[simp] theorem lifetime_addHash (l : DeadNonceList) (hash : UInt64) (now : Timestamp) :
    (l.addHash hash now).lifetime = l.lifetime := by
  rw [addHash]
  dsimp only
  split <;> rfl

/-- Sweeping after an insertion makes no difference before the time is over. -/
theorem keeps_addHash (hnow : now < deadline)
    (h : Keeps { l with
      expiries := (other, now.adding l.lifetime) :: l.expiries.filter fun e => e.1 ≠ other
      insertsSincePrune := l.insertsSincePrune + 1 } hash deadline) :
    (l.addHash other now).Keeps hash deadline := by
  rw [addHash]
  dsimp only
  split
  · exact h.prune hnow
  · exact h

theorem keeps_addHash_self (hnow : now < now.adding l.lifetime) :
    (l.addHash hash now).Keeps hash (now.adding l.lifetime) :=
  keeps_addHash hnow ⟨now.adding l.lifetime, List.lookup_cons_self, Nat.le_refl _⟩

/-- A hash that is added later, the same one included, is remembered for longer. -/
theorem Keeps.addHash (h : l.Keeps hash deadline) (hnow : now < deadline)
    (hle : deadline ≤ now.adding l.lifetime) : (l.addHash other now).Keeps hash deadline := by
  apply keeps_addHash hnow
  obtain ⟨expiry, hexpiry, hlater⟩ := h
  by_cases same : hash = other
  · subst same
    exact ⟨now.adding l.lifetime, List.lookup_cons_self, hle⟩
  · have hfirst : (hash == other) = false := by simpa using same
    refine ⟨expiry, ?_, hlater⟩
    simp only [expiry?, List.lookup_cons, hfirst]
    exact lookup_filter hexpiry (by simpa using same)

end DeadNonceList

/-- A time that is later stays so when the same is added. -/
theorem Timestamp.adding_le {t t' : Timestamp} (h : t ≤ t') (d : Millis) :
    t.adding d ≤ t'.adding d := by
  rw [le_iff, toNat_adding, toNat_adding]
  rw [le_iff] at h
  omega

/-- The memory with some hashes more, added at one time. -/
def DeadNonceList.addAll (l : DeadNonceList) (hashes : List UInt64) (now : Timestamp) :
    DeadNonceList :=
  hashes.foldl (fun l hash => l.addHash hash now) l

namespace DeadNonceList

variable {l : DeadNonceList} {hash : UInt64} {now since : Timestamp}

/-- A hash is remembered, from the time on when it was added until a lifetime later. -/
structure Recalls (l : DeadNonceList) (hash : UInt64) (since now : Timestamp) : Prop where
  passed : since ≤ now
  keeps : now < since.adding l.lifetime → l.Keeps hash (since.adding l.lifetime)

theorem Recalls.later (h : l.Recalls hash since now) {now' : Timestamp} (hle : now ≤ now') :
    l.Recalls hash since now' :=
  ⟨Nat.le_trans h.passed hle, fun hnow => h.keeps (Nat.lt_of_le_of_lt hle hnow)⟩

theorem lifetime_addAll (l : DeadNonceList) (hashes : List UInt64) (now : Timestamp) :
    (l.addAll hashes now).lifetime = l.lifetime := by
  induction hashes generalizing l with
  | nil => rfl
  | cons first rest ih => exact (ih _).trans (l.lifetime_addHash first now)

theorem Recalls.addHash (h : l.Recalls hash since now) (other : UInt64) :
    (l.addHash other now).Recalls hash since now where
  passed := h.passed
  keeps hnow := by
    rw [lifetime_addHash] at hnow ⊢
    exact (h.keeps hnow).addHash hnow (Timestamp.adding_le h.passed l.lifetime)

theorem Recalls.addAll (h : l.Recalls hash since now) (hashes : List UInt64) :
    (l.addAll hashes now).Recalls hash since now := by
  induction hashes generalizing l with
  | nil => exact h
  | cons first rest ih => exact ih (h.addHash first)

/-- What is added is remembered from then on. -/
theorem recalls_addAll {hashes : List UInt64} (h : hash ∈ hashes) (l : DeadNonceList)
    (now : Timestamp) : (l.addAll hashes now).Recalls hash now now := by
  induction hashes generalizing l with
  | nil => cases h
  | cons first rest ih =>
      rcases List.mem_cons.mp h with rfl | later
      · have hadded : (l.addHash hash now).Recalls hash now now := by
          refine ⟨Nat.le_refl _, fun hnow => ?_⟩
          rw [lifetime_addHash] at hnow ⊢
          exact keeps_addHash_self hnow
        exact hadded.addAll rest
      · exact ih later (l.addHash first now)

end DeadNonceList

/-! ### Deeds -/

/-- Whether the call may add to the memory of nonces. -/
def Operation.buries : Operation → Bool
  | receive _ _ (.data _) => true
  | runTimers _ => true
  | _ => false

open Forwarder

namespace Focus

variable {f f' : Focus} {hash : HashFunction} {operation : Operation}

theorem deadNonces_sendNack (f : Focus) (egress : FaceEndpoint) (reason : NackReason) :
    (f.sendNack egress reason).node.deadNonces = f.node.deadNonces := by
  rcases f.sendNack_cases egress reason with ⟨notice, hsay⟩ | ⟨_, _, _, _, _, hsent⟩
  · rw [hsay]
    rfl
  · rw [hsent]
    exact (f.node.unmoved_dispatch _ egress _ Counters.Onward.outNacks).deadNonces

theorem deadNonces_sendInterest {egress : FaceId} {info : FaceInfo}
    (hinfo : f.node.faces.info? egress = some info) (interest : Interest) :
    (f.sendInterest { face := egress } interest).node.deadNonces = f.node.deadNonces := by
  rw [sendInterest_of_known (FaceTable.contains_of_info? hinfo)]
  exact (f.node.unmoved_dispatch _ _ _ Counters.Onward.outInterests).deadNonces

/-- A deed on an entry adds to the memory only where Data came in. -/
theorem Deed.deadNonces_cases (h : Deed hash operation f f') :
    f'.node.deadNonces = f.node.deadNonces ∨ operation.buries = true ∧ f.Remembers f' := by
  cases h with
  | talk hquiet => exact .inl hquiet.node.deadNonces
  | hit data => exact .inl rfl
  | answer data => exact .inl (f.node.unmoved_sendData _ data).deadNonces
  | wait hint => exact .inl rfl
  | mark decision => exact .inl rfl
  | forward hint _ _ _ _ hinfo _ => exact .inl (deadNonces_sendInterest hinfo _)
  | offer _ _ _ _ hinfo _ => exact .inl (deadNonces_sendInterest hinfo _)
  | handBack egress reason _ => exact .inl (f.deadNonces_sendNack egress reason)
  | giveUp => exact .inl rfl
  | nacked =>
      left
      rw [recordNack]
      split <;> rfl
  | serve hcall _ hserved => exact .inr ⟨hcall ▸ rfl, hserved.remembers⟩
  | @forget _ face _ =>
      left
      rcases forgetFace_cases face f with ⟨_, hforget⟩ | ⟨_, hforget | hforget⟩
      · rw [hforget]
      · rw [hforget]
        rfl
      · rw [hforget]
        rfl

end Focus

namespace Node

variable {n m : Node} {hash : HashFunction} {operation : Operation} {token : PitToken}
  {e : PitEntry}

/-- The memory of nonces after an entry has ended. -/
def rememberedAfter (n : Node) (token : PitToken) (e : PitEntry) : DeadNonceList :=
  if Focus.remembersNonces ⟨n, token, e⟩ then
    n.deadNonces.addAll (e.outRecords.map fun r => NonceHash.hash e.name r.nonce) n.now
  else n.deadNonces

theorem deadNonces_ending (hget : n.tables.pit.get? token = some e) :
    (n.ending token e).deadNonces = n.rememberedAfter token e := by
  obtain ⟨pit, hremove⟩ := Arena.remove_of_get? hget
  have herase := Tables.erase_eq_some.mpr ⟨pit, hremove, rfl⟩
  rw [ending, finalize_eq (f := ⟨n, token, { e with expiryTimer := none }⟩) herase]
  -- what is said and counted at the end makes no difference for the memory
  have hremember (g : Focus) (hentry : g.entry = { e with expiryTimer := none })
      (hnow : g.node.now = n.now) (hdead : g.node.deadNonces = n.deadNonces) :
      (g.rememberNonces e.outRecords).node.deadNonces = n.rememberedAfter token e := by
    have hworth : g.remembersNonces = Focus.remembersNonces ⟨n, token, e⟩ := by
      rw [Focus.remembersNonces, Focus.remembersNonces, hentry, hdead]
    rw [Focus.rememberNonces, hworth, rememberedAfter]
    split
    · rw [DeadNonceList.addAll, List.foldl_map, ← hdead, ← hnow]
      rw [hentry]
      rfl
    · exact hdead
  let parted : Focus := ⟨n, token, { e with expiryTimer := none }⟩
  let said := parted.say (.finalized e.name e.satisfied)
  let reported := if e.satisfied then said else said.report (.expire said.entry)
  have hreported : reported.entry = parted.entry ∧ reported.node.now = n.now ∧
      reported.node.deadNonces = n.deadNonces := by
    simp only [reported]
    split <;> exact ⟨rfl, rfl, rfl⟩
  have hparting : (parting parted).node.deadNonces =
      (reported.rememberNonces reported.entry.outRecords).node.deadNonces := rfl
  change (parting parted).node.deadNonces = _
  rw [hparting, hreported.1]
  exact hremember reported hreported.1 hreported.2.1 hreported.2.2

/-- A deed adds to the memory, if at all, where Data came in or an entry ends. -/
theorem Deed.deadNonces_cases (h : Deed hash operation n m) : m.deadNonces = n.deadNonces ∨
    operation.buries = true ∧ ∃ hashes, m.deadNonces = n.deadNonces.addAll hashes n.now := by
  cases h with
  | aside halike _ => exact .inl halike.deadNonces
  | addFace _ halike _ _ => exact .inl halike.deadNonces
  | dropFace halike _ => exact .inl halike.deadNonces
  | openEntry => exact .inl rfl
  | tellLoop => exact .inl (unmoved_tellLoop _ _ _ n).deadNonces
  | sendData => exact .inl (n.unmoved_sendData _ _).deadNonces
  | work _ hdeed => exact hdeed.deadNonces_cases
  | @finish k _ timer rest e hcall _ hget _ _ =>
      have hending := deadNonces_ending hget
      rw [rememberedAfter] at hending
      split at hending
      · exact .inr ⟨hcall ▸ rfl, _, hending⟩
      · exact .inl hending

/-- Deeds only add to the memory, at the time of the node. -/
theorem Deed.deadNonces (h : Deed hash operation n m) :
    ∃ hashes, m.deadNonces = n.deadNonces.addAll hashes n.now := by
  rcases h.deadNonces_cases with hsame | ⟨_, hadded⟩
  · exact ⟨[], hsame⟩
  · exact hadded

/-- Only incoming Data and timers add to the memory. -/
theorem Deeds.deadNonces_of_other (h : Deeds hash operation n m)
    (hother : operation.buries = false) : m.deadNonces = n.deadNonces :=
  h.preserve (P := fun k => k.deadNonces = n.deadNonces)
    (fun _ _ hdeed hk => by
      rcases hdeed.deadNonces_cases with hsame | ⟨hburies, _⟩
      · exact hsame.trans hk
      · rw [hother] at hburies
        cases hburies)
    rfl

theorem Deeds.lifetime (h : Deeds hash operation n m) :
    m.deadNonces.lifetime = n.deadNonces.lifetime :=
  h.preserve (P := fun k => k.deadNonces.lifetime = n.deadNonces.lifetime)
    (fun _ _ hdeed hk => by
      obtain ⟨hashes, hadded⟩ := hdeed.deadNonces
      rw [hadded, DeadNonceList.lifetime_addAll, hk])
    rfl

theorem Deeds.recalls (h : Deeds hash operation n m) {pair : UInt64} {since : Timestamp}
    (hn : n.deadNonces.Recalls pair since n.now) : m.deadNonces.Recalls pair since m.now :=
  h.preserve (P := fun k => k.deadNonces.Recalls pair since k.now)
    (fun _ _ hdeed hk => by
      obtain ⟨hashes, hadded⟩ := hdeed.deadNonces
      rw [hadded, hdeed.now]
      exact hk.addAll hashes)
    hn

end Node

end NamedData
