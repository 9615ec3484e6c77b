import NamedData.Proofs.Deeds

/-!
Every operation is a sequence of deeds. The clock is read first, if at all; then the built-in
strategies and the pipelines do nothing but the deeds that their operation allows.
-/

namespace NamedData

open Forwarder

/-! ### Waiting -/

theorem Timestamp.le_adding (t : Timestamp) (d : Millis) : t ≤ t.adding d := by
  have hlimit := t.toNat_le_limit
  rw [le_iff, toNat_adding]
  omega

/-- Waiting for the time that is left leads to the later point. -/
theorem Timestamp.adding_since {t earlier : Timestamp} (h : earlier ≤ t) :
    earlier.adding ((t.since? earlier).getD 0) = t := by
  have hlimit := t.toNat_le_limit
  have hsmall : t.toNat - earlier.toNat < UInt64.size := by
    have := t.ms.toNat_lt
    unfold toNat
    simp only [UInt64.size]
    omega
  have hle : earlier.toNat ≤ t.toNat := h
  have hsum : earlier.toNat + (t.toNat - earlier.toNat) = t.toNat := by omega
  rw [since?, if_pos h, Option.getD_some, adding, UInt64.toNat_ofNat_of_lt' hsmall, hsum,
    Nat.min_eq_left hlimit]
  simp [toNat]

instance : Std.MaxEqOr Timestamp where
  max_eq_or a b := by
    change (if a ≤ b then b else a) = a ∨ (if a ≤ b then b else a) = b
    split
    · exact .inr rfl
    · exact .inl rfl

/-- The latest of some points is later than each of them. -/
theorem le_of_max? {l : List Timestamp} {m : Timestamp} (h : l.max? = some m) :
    ∀ t ∈ l, t ≤ m := by
  have hfold (rest : List Timestamp) (a : Timestamp) :
      a ≤ rest.foldl max a ∧ ∀ t ∈ rest, t ≤ rest.foldl max a := by
    induction rest generalizing a with
    | nil => exact ⟨Nat.le_refl _, by simp⟩
    | cons b rest ih =>
        obtain ⟨hfirst, hrest⟩ := ih (max a b)
        have hmax : a ≤ max a b ∧ b ≤ max a b := by
          change a ≤ (if a ≤ b then b else a) ∧ b ≤ (if a ≤ b then b else a)
          split
          next hle => exact ⟨hle, Nat.le_refl _⟩
          next hlt => exact ⟨Nat.le_refl _, Nat.le_of_not_le hlt⟩
        refine ⟨Nat.le_trans hmax.1 hfirst, ?_⟩
        intro t ht
        rcases List.mem_cons.mp ht with rfl | later
        · exact Nat.le_trans hmax.2 hfirst
        · exact hrest t later
  cases l with
  | nil => cases h
  | cons a rest =>
      rw [List.max?_cons'] at h
      cases h
      intro t ht
      rcases List.mem_cons.mp ht with rfl | later
      · exact (hfold rest t).1
      · exact (hfold rest a).2 t later

namespace Focus

variable {hash : HashFunction} {operation : Operation} {now : Timestamp} {ingress : FaceEndpoint}
  {i : Interest} {hint : List Name} {f f' : Focus}

/-- The entry ends when the last of those who wait in it gives up. -/
def EndsWithLast (f : Focus) : Prop :=
  ∃ deadline, f.EndsAt deadline ∧ (∃ r ∈ f.entry.inRecords, r.expiry = deadline) ∧
    ∀ r ∈ f.entry.inRecords, r.expiry ≤ deadline

theorem EndsWithLast.lasts (h : f.EndsWithLast) : f.Lasts := by
  obtain ⟨deadline, hends, -, hlatest⟩ := h
  exact ⟨deadline, hends, hlatest⟩

/-- An entry in which an Interest waits ends with the last of those who wait. The time that is left
for it is counted from now, but nothing is lost by that, since the new record ends no sooner. -/
theorem endsWithLast_awaitData (h : f.Sound) (ingress : FaceEndpoint) (interest : Interest) :
    (awaitData ingress interest f).EndsWithLast := by
  let e := f.entry.recordIn ingress interest f.node.now
  have hrecorded : (f.onEntry fun e => e.recordIn ingress interest f.node.now).Timed :=
    timed_of_keeps h.timed (keeps_onEntry rfl) rfl rfl
  have hrecord : PitEntry.inRecordOf ingress interest f.node.now ∈ e.inRecords :=
    (PitEntry.mem_inRecords_recordIn h.distinct.inFaces).mpr (.inl rfl)
  have hnew : (PitEntry.inRecordOf ingress interest f.node.now).expiry ∈
      e.inRecords.map InRecord.expiry :=
    List.mem_map_of_mem hrecord
  obtain ⟨last, hlast⟩ : ∃ last, e.lastInExpiry? = some last :=
    Option.isSome_iff_exists.mp (List.isSome_max?_of_mem hnew)
  have hlatest := le_of_max? hlast
  have hnow : f.node.now ≤ last :=
    Nat.le_trans (Timestamp.le_adding f.node.now interest.lifetime) (hlatest _ hnew)
  refine ⟨last, ?_, List.mem_map.mp (List.max?_mem hlast),
    fun r hr => hlatest r.expiry (List.mem_map_of_mem hr)⟩
  have hends :=
    endsAt_setExpiry hrecorded ((e.lastInExpiry?.bind fun t => t.since? f.node.now).getD 0)
  have hdeadline : f.node.now.adding ((e.lastInExpiry?.bind fun t => t.since? f.node.now).getD 0) =
      last := by
    rw [hlast]
    exact Timestamp.adding_since hnow
  have hsame : (f.onEntry fun e => e.recordIn ingress interest f.node.now).node.now = f.node.now :=
    rfl
  rw [hsame, hdeadline] at hends
  exact hends

/-- An entry in which an Interest waits does not end while anybody waits in it. -/
theorem lasts_awaitData (h : f.Sound) (ingress : FaceEndpoint) (interest : Interest) :
    (awaitData ingress interest f).Lasts :=
  (endsWithLast_awaitData h ingress interest).lasts

/-- The Interest that came in waits in the entry, which lasts. -/
structure Holds (f : Focus) (ingress : FaceEndpoint) (i : Interest) (hint : List Name) : Prop where
  lasts : f.Lasts
  same : f.entry.interest.sameSelectors i = true
  waits : ∃ r ∈ f.entry.inRecords,
    r.face = ingress.face ∧ r.interest = i.arrived ingress.face hint
  peer : ∀ r ∈ f.entry.inRecords, r.face = ingress.face → r.peer = ingress

theorem holds_awaitData (h : f.Sound) (hsame : f.entry.interest.sameSelectors i = true) :
    (awaitData ingress (i.arrived ingress.face hint) f).Holds ingress i hint where
  lasts := lasts_awaitData h ingress _
  same := hsame
  waits := ⟨_, (PitEntry.mem_inRecords_recordIn h.distinct.inFaces).mpr (.inl rfl), rfl, rfl⟩
  peer := by
    intro r hr hface
    rcases (PitEntry.mem_inRecords_recordIn h.distinct.inFaces).mp hr with rfl | ⟨_, hother⟩
    · rfl
    · exact absurd hface hother

theorem Holds.of_keeps (h : f.Holds ingress i hint) (hkeeps : f.Keeps f')
    (htimers : f'.node.timers = f.node.timers)
    (hid : f'.entry.expiryTimer = f.entry.expiryTimer)
    (hin : f'.entry.inRecords = f.entry.inRecords) : f'.Holds ingress i hint where
  lasts := by
    obtain ⟨deadline, hends, hlast⟩ := h.lasts
    refine ⟨deadline, ?_, hin ▸ hlast⟩
    rw [EndsAt, htimers, hkeeps.token, NamedData.EndsAt, hid]
    exact hends
  same := hkeeps.interest ▸ h.same
  waits := hin ▸ h.waits
  peer := hin ▸ h.peer

theorem Holds.say (h : f.Holds ingress i hint) (notice : Notice) :
    (f.say notice).Holds ingress i hint :=
  h.of_keeps (f.keeps_say notice) rfl rfl rfl

/-- The entry notes that its Interest is forwarded. -/
theorem Holds.mark (h : f.Holds ingress i hint) (hash : HashFunction)
    (hcall : operation = .receive now ingress (.interest i)) (decision : RetransmissionDecision) :
    f.Deeds hash operation (f.onEntry fun e => e.recordForwarded decision f.node.now) ∧
      (f.onEntry fun e => e.recordForwarded decision f.node.now).Holds ingress i hint := by
  have hmark : Deed hash operation f (f.onEntry fun e => e.recordForwarded decision f.node.now) :=
    .mark f decision hcall h.lasts
  exact ⟨hmark.deeds, h.of_keeps hmark.keeps rfl rfl rfl⟩

/-- The Interest is sent to a face that it may go to. -/
theorem Holds.forward (h : f.Holds ingress i hint) (hash : HashFunction)
    (hcall : operation = .receive now ingress (.interest i)) {egress : FaceId} {info : FaceInfo}
    (hinfo : f.node.faces.info? egress = some info)
    (hallowed : i.nextHopFace = some egress ∨
      ∃ source, Scope.isEligible source (i.arrived ingress.face hint) info = true) :
    f.Deeds hash operation (f.sendInterest { face := egress } (i.arrived ingress.face hint)) ∧
      (f.sendInterest { face := egress } (i.arrived ingress.face hint)).Holds ingress i hint := by
  have hforward : Deed hash operation f
      (f.sendInterest { face := egress } (i.arrived ingress.face hint)) :=
    .forward f hint hcall h.lasts h.same h.waits hinfo hallowed
  refine ⟨hforward.deeds, ?_⟩
  have hkeeps := hforward.keeps
  rw [sendInterest_of_known (FaceTable.contains_of_info? hinfo)] at hkeeps ⊢
  exact h.of_keeps hkeeps
    (f.node.unmoved_dispatch _ _ _ Counters.Onward.outInterests).timers rfl rfl

/-! ### An Interest that goes on -/

theorem records_sendNack (f : Focus) (egress : FaceEndpoint) (reason : NackReason) :
    (f.sendNack egress reason).entry.outRecords = f.entry.outRecords ∧
      (f.sendNack egress reason).entry.retransmission = f.entry.retransmission := by
  rcases f.sendNack_cases egress reason with ⟨notice, hsay⟩ | ⟨_, _, _, _, _, hsent⟩
  · rw [hsay]
    exact ⟨rfl, rfl⟩
  · rw [hsent]
    exact ⟨rfl, rfl⟩

theorem deeds_rejectNoRoute (hcall : operation = .receive now ingress (.interest i))
    (htag : i.nextHopFace = none) (h : f.Holds ingress i hint)
    (hcause : f.entry.hasPendingOutRecords f.node.now = false ∨
      f.entry.retransmission.lastForwarded = none) :
    f.Deeds hash operation (f.rejectNoRoute ingress) := by
  let said := f.say (.noEligibleNextHop f.entry.name)
  have hback : Deed hash operation said (said.sendNack ingress .noRoute) :=
    .handBack said ingress .noRoute h.peer
  have hkeeps := hback.keeps
  obtain ⟨hout, hretransmission⟩ := said.records_sendNack ingress .noRoute
  have hgiveUp : Deed hash operation (said.sendNack ingress .noRoute)
      (said.sendNack ingress .noRoute).reject := by
    apply Deed.giveUp _ hcall htag
    · rw [hkeeps.interest]
      exact h.same
    · rw [PitEntry.hasPendingOutRecords, hout, hretransmission, hkeeps.now]
      exact hcause
  exact ((f.deeds_say _).trans hback.deeds).trans hgiveUp.deeds

theorem deeds_followTag (hcall : operation = .receive now ingress (.interest i))
    (h : f.Holds ingress i hint) {hop : FaceId} (htag : i.nextHopFace = some hop) :
    f.Deeds hash operation (followTag (i.arrived ingress.face hint) hop f) := by
  rw [followTag]
  split
  next hknown =>
    rw [FaceTable.contains_eq] at hknown
    obtain ⟨info, hinfo⟩ := Option.isSome_iff_exists.mp hknown
    have hsaid := h.say (.nextHopTag i.name hop true)
    exact (f.deeds_say _).trans (hsaid.forward hash hcall hinfo (.inl htag)).1
  next => exact f.deeds_say _

end Focus

/-- A decision for a new Interest is one for an entry that was not sent on before, or has no record
of it. -/
theorem Suppression.decide_new {s : Suppression} {e : PitEntry} {now : Timestamp}
    (h : s.decide e now = .new) :
    e.hasPendingOutRecords now = false ∨ e.retransmission.lastForwarded = none := by
  rw [decide] at h
  split at h
  next hnever => exact .inr hnever
  next last _ =>
    split at h
    next hnone =>
      left
      rw [PitEntry.hasPendingOutRecords, List.isEmpty_iff.mp hnone]
      rfl
    next =>
      split at h
      · cases h
      · cases h

section Strategies

variable {hash : HashFunction} {operation : Operation} {now : Timestamp} {ingress : FaceEndpoint}
  {i : Interest} {hint : List Name} {f : Focus}

open Focus

theorem BestRoute.deeds_afterInterest (s : Suppression)
    (hcall : operation = .receive now ingress (.interest i)) (htag : i.nextHopFace = none)
    (h : f.Holds ingress i hint) :
    f.Deeds hash operation (afterInterest s (i.arrived ingress.face hint) ingress f) := by
  simp only [afterInterest]
  split
  · exact f.deeds_say _
  · split
    · exact .refl f
    next info hinfo =>
      split
      next hop hchosen =>
        obtain ⟨_, egressInfo, hegress, heligible⟩ := mem_eligibleHops.mp (choose_mem hchosen)
        have hsaid := h.say (.bestRouteChosen ingress.face (i.arrived ingress.face hint).name
          hop.face (s.decide f.entry f.node.now ≠ .new))
        obtain ⟨hmark, hmarked⟩ := hsaid.mark hash hcall (s.decide f.entry f.node.now)
        obtain ⟨hforward, _⟩ := hmarked.forward hash hcall hegress (.inr ⟨info, heligible⟩)
        exact ((f.deeds_say _).trans hmark).trans hforward
      · split
        next hnew => exact deeds_rejectNoRoute hcall htag h (Suppression.decide_new hnew)
        · exact f.deeds_say _

theorem Multicast.deeds_sendToAll (hcall : operation = .receive now ingress (.interest i))
    (source : FaceInfo) {hops : List NextHop} (h : f.Holds ingress i hint)
    (heligible : ∀ hop ∈ hops, ∃ info, f.node.faces.info? hop.face = some info ∧
      Scope.isEligible source (i.arrived ingress.face hint) info = true) :
    f.Deeds hash operation (sendToAll f (i.arrived ingress.face hint) ingress.face hops) := by
  induction hops generalizing f with
  | nil => exact .refl f
  | cons hop rest ih =>
      obtain ⟨info, hinfo, hhop⟩ := heligible hop List.mem_cons_self
      have hsaid := h.say (.multicastTo ingress.face (i.arrived ingress.face hint).name hop.face)
      obtain ⟨hforward, hforwarded⟩ := hsaid.forward hash hcall hinfo (.inr ⟨source, hhop⟩)
      refine ((f.deeds_say _).trans hforward).trans (ih hforwarded ?_)
      intro other member
      rw [(Focus.keeps_sendInterest _ _ _).info?]
      exact heligible other (List.mem_cons_of_mem hop member)

theorem Multicast.deeds_afterInterest (s : Suppression)
    (hcall : operation = .receive now ingress (.interest i)) (htag : i.nextHopFace = none)
    (h : f.Holds ingress i hint) :
    f.Deeds hash operation (afterInterest s (i.arrived ingress.face hint) ingress f) := by
  simp only [afterInterest]
  split
  · exact f.deeds_say _
  · split
    · exact .refl f
    next info hinfo =>
      split
      · split
        · exact .refl f
        next hidle =>
          have hpending : f.entry.hasPendingOutRecords f.node.now = false := by simpa using hidle
          exact deeds_rejectNoRoute hcall htag h (.inl hpending)
      · obtain ⟨hmark, hmarked⟩ := h.mark hash hcall (s.decide f.entry f.node.now)
        refine hmark.trans (deeds_sendToAll hcall info hmarked ?_)
        intro hop member
        exact (mem_eligibleHops.mp member).2

theorem Multicast.deeds_afterNewNextHop {stem : Name} {hop : NextHop}
    (hcall : operation = .addRoute now stem hop.face hop.cost) (f : Focus) :
    f.Deeds hash operation (afterNewNextHop hop f) := by
  simp only [afterNewNextHop]
  split
  · exact .refl f
  next egress hegress =>
    split
    · exact .refl f
    next hpending =>
      have hidle : (f.entry.outRecord? hop.face).any (fun r => r.isPending f.node.now) = false := by
        simpa using hpending
      split
      · exact .refl f
      next interest hvoucher =>
        rw [voucher?, Option.map_eq_some_iff] at hvoucher
        obtain ⟨r, hfind, rfl⟩ := hvoucher
        have hr := List.find?_some hfind
        simp only [Bool.and_eq_true, Option.any_eq_true] at hr
        obtain ⟨⟨_, hlive⟩, source, _, heligible⟩ := hr
        let said := f.say (.offeredTo f.entry.name hop.face)
        have hoffer : Deed hash operation said
            (said.sendInterest { face := hop.face } r.interest) :=
          .offer said hcall (List.mem_of_find?_eq_some hfind) hlive hidle hegress
            ⟨source, heligible⟩
        exact (f.deeds_say _).trans hoffer.deeds

theorem BuiltIn.deeds_afterInterest (b : BuiltIn)
    (hcall : operation = .receive now ingress (.interest i)) (htag : i.nextHopFace = none)
    (h : f.Holds ingress i hint) :
    f.Deeds hash operation
      (b.strategy.afterInterest (i.arrived ingress.face hint) ingress f) := by
  cases b with
  | bestRoute s => exact BestRoute.deeds_afterInterest s hcall htag h
  | multicast s => exact Multicast.deeds_afterInterest s hcall htag h

theorem BuiltIn.deeds_afterNewNextHop (b : BuiltIn) {stem : Name} {hop : NextHop}
    (hcall : operation = .addRoute now stem hop.face hop.cost) (f : Focus) :
    f.Deeds hash operation (b.strategy.afterNewNextHop hop f) := by
  cases b with
  | bestRoute s => exact f.deeds_say _
  | multicast s => exact Multicast.deeds_afterNewNextHop hcall f

theorem Focus.deeds_handBacks (reason : NackReason) {peers : List FaceEndpoint} {f : Focus}
    (hpeers : ∀ p ∈ peers, ∀ r ∈ f.entry.inRecords, r.face = p.face → r.peer = p) :
    f.Deeds hash operation (peers.foldl (fun f egress => f.sendNack egress reason) f) := by
  induction peers generalizing f with
  | nil => exact .refl f
  | cons p rest ih =>
      have hback : Deed hash operation f (f.sendNack p reason) :=
        .handBack f p reason (hpeers p List.mem_cons_self)
      refine hback.deeds.trans (ih fun q hq r hr => ?_)
      exact hpeers q (List.mem_cons_of_mem p hq) r ((f.inRecords_sendNack p reason).subset hr)

theorem Focus.deeds_passNackOn (nack : Nack) (ingress : FaceEndpoint) {f : Focus}
    (hdistinct : f.entry.Distinct) : f.Deeds hash operation (passNackOn nack ingress f) := by
  have hpeers : ∀ p ∈ (f.entry.inRecords.map InRecord.peer).filter fun p => p ∉ [],
      ∀ r ∈ f.entry.inRecords, r.face = p.face → r.peer = p := by
    intro p hp r hr hface
    obtain ⟨record, hrecord, rfl⟩ := List.mem_map.mp (List.mem_of_mem_filter hp)
    rw [List.inj_on_of_nodup_map hdistinct.inFaces hr hrecord hface]
  let told := f.say (.afterNack ingress.face nack.interest.name nack.reason)
  have hpropagate : told.Deeds hash operation told.propagateNacks := by
    rw [propagateNacks]
    split
    · exact told.deeds_say _
    · exact (told.deeds_say _).trans (deeds_handBacks _ hpeers)
  exact (f.deeds_say _).trans hpropagate

theorem Forwarder.GoesOn.deeds (hcall : operation = .receive now ingress (.interest i))
    (hholds : f.Holds ingress i hint) {f' : Focus}
    (h : GoesOn ingress (i.arrived ingress.face hint) f f') : f.Deeds hash operation f' := by
  rcases h with ⟨hop, htag, rfl⟩ | ⟨htag, b, rfl⟩
  · exact deeds_followTag hcall hholds htag
  · exact b.deeds_afterInterest hcall htag hholds

end Strategies

end NamedData
