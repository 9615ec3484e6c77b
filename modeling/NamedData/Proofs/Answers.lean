import NamedData.Forwarder.Basic
import NamedData.Proofs.Moves

/-!
The answers of the built-in strategies are sequences of moves. Answering all who wait takes an
argument about their records: each has one of its own, so that no answer takes away the record of
another.
-/

namespace NamedData

/-! ### Peers in order -/

namespace FaceEndpoint

theorem before_iff {a b : FaceEndpoint} : before a b = true ↔
    a.face.id < b.face.id ∨ a.face.id = b.face.id ∧ a.endpoint < b.endpoint := by
  have hface : a.face = b.face ↔ a.face.id = b.face.id := by
    cases a.face
    cases b.face
    simp
  simp [before, hface]

theorem before_trans {a b c : FaceEndpoint} (hab : before a b = true) (hbc : before b c = true) :
    before a c = true := by
  rw [before_iff] at *
  omega

theorem before_irrefl (a : FaceEndpoint) : before a a ≠ true := by
  rw [Ne, before_iff]
  omega

theorem before_of_not {a b : FaceEndpoint} (hab : ¬ before b a = true) (hne : a ≠ b) :
    before a b = true := by
  rw [before_iff] at *
  have hdiffer : a.face.id = b.face.id → a.endpoint ≠ b.endpoint := by
    intro hface hendpoint
    obtain ⟨⟨id⟩, endpoint⟩ := a
    obtain ⟨⟨id'⟩, endpoint'⟩ := b
    simp_all
  omega

theorem mem_ordered {peers : List FaceEndpoint} {p : FaceEndpoint} :
    p ∈ ordered peers ↔ p ∈ peers := by
  induction peers with
  | nil => simp [ordered]
  | cons q rest ih => simpa [ordered, mem_insertDistinct] using or_congr_right ih

theorem pairwise_insertDistinct {l : List FaceEndpoint} (a : FaceEndpoint)
    (h : l.Pairwise fun p q => before p q = true) :
    (insertDistinct before a l).Pairwise fun p q => before p q = true := by
  induction l with
  | nil => simp [insertDistinct]
  | cons b rest ih =>
      obtain ⟨hb, hrest⟩ := List.pairwise_cons.mp h
      rw [insertDistinct]
      split
      next hbefore =>
        apply List.pairwise_cons.mpr
        constructor
        · intro p hp
          rcases mem_insertDistinct.mp hp with rfl | hold
          · exact hbefore
          · exact hb p hold
        · exact ih hrest
      next hnot =>
        split
        · exact h
        next hne =>
          have hab := before_of_not hnot hne
          apply List.pairwise_cons.mpr
          constructor
          · intro p hp
            rcases List.mem_cons.mp hp with rfl | hold
            · exact hab
            · exact before_trans hab (hb p hold)
          · exact h

/-- Peers in order stand in strictly ascending order. -/
theorem pairwise_ordered (peers : List FaceEndpoint) :
    (ordered peers).Pairwise fun p q => before p q = true := by
  induction peers with
  | nil => exact List.Pairwise.nil
  | cons p rest ih => exact pairwise_insertDistinct p ih

theorem nodup_ordered (peers : List FaceEndpoint) : (ordered peers).Nodup := by
  apply (pairwise_ordered peers).imp
  intro p q hbefore same
  exact before_irrefl q (same ▸ hbefore)

end FaceEndpoint

namespace Focus

/-! ### Data for all who wait -/

theorem mem_waiting {f : Focus} {ingress : FaceId} {p : FaceEndpoint} :
    p ∈ f.waiting ingress ↔ ∃ r ∈ f.entry.inRecords, r.isLive f.node.now = true ∧
      (r.face ≠ ingress ∨ (f.node.faces.info? ingress).any FaceInfo.isAdHoc = true) ∧
        r.peer = p := by
  simp [waiting, FaceEndpoint.mem_ordered, and_assoc]

theorem face_mem_of_waiting {f : Focus} {ingress : FaceId} {p : FaceEndpoint}
    (h : p ∈ f.waiting ingress) : p.face ∈ f.entry.inFaces := by
  obtain ⟨r, hr, _, _, rfl⟩ := mem_waiting.mp h
  exact PitEntry.mem_inFaces.mpr ⟨r, hr, rfl⟩

theorem nodup_waiting_faces {f : Focus} (h : f.entry.Distinct) (ingress : FaceId) :
    ((f.waiting ingress).map FaceEndpoint.face).Nodup := by
  have hnodup : (f.waiting ingress).Nodup := FaceEndpoint.nodup_ordered _
  apply hnodup.map_on
  intro p hp q hq hface
  obtain ⟨r, hr, _, _, rfl⟩ := mem_waiting.mp hp
  obtain ⟨s, hs, _, _, rfl⟩ := mem_waiting.mp hq
  have same : r = s := List.inj_on_of_nodup_map h.inFaces hr hs hface
  rw [same]

theorem moves_answers (data : Data) {peers : List FaceEndpoint}
    (hnodup : (peers.map FaceEndpoint.face).Nodup) {f : Focus}
    (hwait : ∀ p ∈ peers, p.face ∈ f.entry.inFaces) :
    f.Moves (peers.foldl (fun f egress => f.sendData egress data) f) := by
  induction peers generalizing f with
  | nil => exact .refl f
  | cons p rest ih =>
      obtain ⟨hp, hrest⟩ := List.nodup_cons.mp hnodup
      have hmove : Move f (f.sendData p data) := .answer f p data (hwait p List.mem_cons_self)
      refine hmove.moves.trans (ih hrest ?_)
      intro q hq
      have hne : q.face ≠ p.face := by
        intro same
        exact hp (same ▸ List.mem_map_of_mem hq)
      have hinFaces : (f.sendData p data).entry.inFaces = f.entry.inFaces.erase p.face :=
        f.entry.inFaces_deleteIn p.face
      rw [hinFaces]
      exact (List.mem_erase_of_ne hne).mpr (hwait q (List.mem_cons_of_mem p hq))

theorem moves_sendDataToAll {f : Focus} (h : f.entry.Distinct) (ingress : FaceEndpoint)
    (data : Data) : f.Moves (f.sendDataToAll ingress data) :=
  moves_answers data (nodup_waiting_faces h ingress.face) fun _ => face_mem_of_waiting

/-! ### Nacks -/

theorem moves_handBacks (reason : NackReason) (peers : List FaceEndpoint) (f : Focus) :
    f.Moves (peers.foldl (fun f egress => f.sendNack egress reason) f) := by
  induction peers generalizing f with
  | nil => exact .refl f
  | cons p rest ih =>
      have hmove : Move f (f.sendNack p reason) := .handBack f p reason
      exact hmove.moves.trans (ih _)

theorem moves_propagateNacks (f : Focus) : f.Moves f.propagateNacks := by
  rw [propagateNacks]
  split
  · exact (Move.say f _).moves
  · exact (Move.say f _).moves.trans (moves_handBacks _ _ _)

theorem moves_passNackOn (nack : Nack) (ingress : FaceEndpoint) (f : Focus) :
    f.Moves (passNackOn nack ingress f) :=
  (Move.say f _).moves.trans (moves_propagateNacks _)

/-! ### Interests that are sent on -/

/-- Moves after which everybody waits who waited before. -/
structure SendsOn (f f' : Focus) : Prop where
  moves : f.Moves f'
  inFaces : f'.entry.inFaces = f.entry.inFaces

theorem SendsOn.refl (f : Focus) : f.SendsOn f :=
  ⟨.refl f, rfl⟩

theorem SendsOn.trans {f g k : Focus} (h : f.SendsOn g) (h' : g.SendsOn k) : f.SendsOn k :=
  ⟨h.moves.trans h'.moves, h'.inFaces.trans h.inFaces⟩

theorem sendsOn_say (f : Focus) (notice : Notice) : f.SendsOn (f.say notice) :=
  ⟨(Move.say f notice).moves, rfl⟩

theorem sendsOn_mark (f : Focus) (decision : RetransmissionDecision) (now : Timestamp) :
    f.SendsOn (f.onEntry fun e => e.recordForwarded decision now) :=
  ⟨(Move.mark f decision now).moves, rfl⟩

theorem sendsOn_forward {f : Focus} {egress : FaceEndpoint} {interest : Interest} {info : FaceInfo}
    (hinfo : f.node.faces.info? egress.face = some info)
    (hallowed : interest.nextHopFace = some egress.face ∨
      ∃ ingress, Scope.isEligible ingress interest info = true) :
    f.SendsOn (f.sendInterest egress interest) where
  moves := (Move.forward f egress interest info hinfo hallowed).moves
  inFaces := by
    rw [sendInterest_of_known (FaceTable.contains_of_info? hinfo)]
    rfl

/-- The Interest is sent on, or else giving the entry up is the last that happens to it. -/
def SendsOnOrEnds (f f' : Focus) : Prop :=
  f.SendsOn f' ∨ ∃ g, f.Moves g ∧ f' = g.reject

theorem SendsOnOrEnds.moves {f f' : Focus} (h : f.SendsOnOrEnds f') : f.Moves f' := by
  rcases h with hsends | ⟨g, hmoves, rfl⟩
  · exact hsends.moves
  · exact hmoves.trans (Move.giveUp g).moves

theorem ends_rejectNoRoute (f : Focus) (ingress : FaceEndpoint) :
    f.SendsOnOrEnds (f.rejectNoRoute ingress) := by
  refine .inr ⟨_, ?_, rfl⟩
  exact (Move.say f _).moves.trans (Move.handBack _ ingress .noRoute).moves

end Focus

/-! ### The choice of next hops -/

section Least

variable {α : Type} {key : α → Nat} {l : List α} {a b : α}

theorem leastBy?_mem (h : leastBy? key l = some a) : a ∈ l := by
  induction l generalizing a with
  | nil => cases h
  | cons b rest ih =>
      rw [leastBy?] at h
      split at h
      next c hc =>
        split at h
        · cases h
          exact List.mem_cons_of_mem b (ih hc)
        · cases h
          exact List.mem_cons_self
      · cases h
        exact List.mem_cons_self

theorem leastBy?_eq_none (h : leastBy? key l = none) : l = [] := by
  cases l with
  | nil => rfl
  | cons c rest =>
      rw [leastBy?] at h
      split at h
      · split at h <;> cases h
      · cases h

theorem leastBy?_le (h : leastBy? key l = some a) (hb : b ∈ l) : key a ≤ key b := by
  induction l generalizing a with
  | nil => cases hb
  | cons c rest ih =>
      rw [leastBy?] at h
      split at h
      next d hd =>
        have hleast : key a ≤ key c ∧ key a ≤ key d := by
          split at h <;> cases h <;> omega
        rcases List.mem_cons.mp hb with rfl | hb
        · exact hleast.1
        · exact Nat.le_trans hleast.2 (ih hd hb)
      next hnone =>
        cases h
        rw [leastBy?_eq_none hnone] at hb
        exact Nat.le_of_eq (congrArg key (List.mem_singleton.mp hb).symm)

/-- In an ordered list, the first of several with the smallest key is the one before the others. -/
theorem leastBy?_first {r : α → α → Prop} (hl : l.Pairwise r) (h : leastBy? key l = some a)
    (hb : b ∈ l) : key a < key b ∨ key a = key b ∧ (b = a ∨ r a b) := by
  induction l generalizing a with
  | nil => cases hb
  | cons c rest ih =>
      obtain ⟨hc, hrest⟩ := List.pairwise_cons.mp hl
      rw [leastBy?] at h
      split at h
      next d hd =>
        split at h
        next hless =>
          cases h
          rcases List.mem_cons.mp hb with rfl | hb
          · exact .inl hless
          · exact ih hrest hd hb
        next hnot =>
          cases h
          rcases List.mem_cons.mp hb with rfl | hb
          · exact .inr ⟨rfl, .inl rfl⟩
          · have hle := leastBy?_le hd hb
            rcases Nat.lt_or_eq_of_le (Nat.le_trans (Nat.le_of_not_lt hnot) hle) with hlt | heq
            · exact .inl hlt
            · exact .inr ⟨heq, .inr (hc b hb)⟩
      next hnone =>
        cases h
        rw [leastBy?_eq_none hnone] at hb
        exact .inr ⟨congrArg key (List.mem_singleton.mp hb).symm,
          .inl (List.mem_singleton.mp hb)⟩

end Least

/-- An eligible next hop has a face that the Interest may be sent out of. -/
theorem Focus.mem_eligibleHops {f : Focus} {ingress : FaceInfo} {interest : Interest}
    {hop : NextHop} : hop ∈ f.eligibleHops ingress interest ↔ hop ∈ f.nextHops ∧
      ∃ info, f.node.faces.info? hop.face = some info ∧
        Scope.isEligible ingress interest info = true := by
  simp [eligibleHops, Option.any_eq_true]

theorem BestRoute.choose_mem {e : PitEntry} {decision : RetransmissionDecision}
    {eligible : List NextHop} {hop : NextHop} (h : choose e decision eligible = some hop) :
    hop ∈ eligible := by
  cases decision with
  | new => exact List.mem_of_head? h
  | forward => exact leastBy?_mem h
  | suppress => exact leastBy?_mem h

open Focus in
theorem BestRoute.afterInterest_sendsOnOrEnds (s : Suppression) (interest : Interest)
    (ingress : FaceEndpoint) (f : Focus) :
    f.SendsOnOrEnds (afterInterest s interest ingress f) := by
  simp only [afterInterest]
  split
  · exact .inl (f.sendsOn_say _)
  · split
    · exact .inl (.refl f)
    next info hinfo =>
      split
      next hop hchosen =>
        obtain ⟨_, egressInfo, hegress, heligible⟩ := mem_eligibleHops.mp (choose_mem hchosen)
        left
        apply (f.sendsOn_say _).trans
        apply (sendsOn_mark _ _ _).trans
        exact sendsOn_forward hegress (.inr ⟨info, heligible⟩)
      · split
        · exact ends_rejectNoRoute f ingress
        · exact .inl (f.sendsOn_say _)

open Focus in
theorem Multicast.sendsOn_sendToAll (interest : Interest) (ingress : FaceId) (info : FaceInfo)
    {hops : List NextHop} {f : Focus}
    (heligible : ∀ hop ∈ hops, ∃ egressInfo, f.node.faces.info? hop.face = some egressInfo ∧
      Scope.isEligible info interest egressInfo = true) :
    f.SendsOn (sendToAll f interest ingress hops) := by
  induction hops generalizing f with
  | nil => exact .refl f
  | cons hop rest ih =>
      obtain ⟨egressInfo, hegress, hhop⟩ := heligible hop List.mem_cons_self
      have hsay := f.sendsOn_say (.multicastTo ingress interest.name hop.face)
      have hsend : Focus.SendsOn (f.say (.multicastTo ingress interest.name hop.face))
          (Focus.sendInterest (f.say _) { face := hop.face } interest) :=
        sendsOn_forward hegress (.inr ⟨info, hhop⟩)
      refine (hsay.trans hsend).trans (ih ?_)
      intro other member
      rw [hsend.moves.keeps.info?]
      exact heligible other (List.mem_cons_of_mem hop member)

open Focus in
theorem Multicast.afterInterest_sendsOnOrEnds (s : Suppression) (interest : Interest)
    (ingress : FaceEndpoint) (f : Focus) :
    f.SendsOnOrEnds (afterInterest s interest ingress f) := by
  simp only [afterInterest]
  split
  · exact .inl (f.sendsOn_say _)
  · split
    · exact .inl (.refl f)
    next info hinfo =>
      split
      · split
        · exact .inl (.refl f)
        · exact ends_rejectNoRoute f ingress
      · left
        apply (f.sendsOn_mark _ _).trans
        apply sendsOn_sendToAll interest ingress.face info
        intro hop member
        exact (mem_eligibleHops.mp member).2

open Focus in
theorem Multicast.moves_afterNewNextHop (hop : NextHop) (f : Focus) :
    f.Moves (afterNewNextHop hop f) := by
  simp only [afterNewNextHop]
  split
  · exact .refl f
  next egress hegress =>
    split
    · exact .refl f
    · split
      · exact .refl f
      next interest hvoucher =>
        rw [voucher?, Option.map_eq_some_iff] at hvoucher
        obtain ⟨r, hfind, rfl⟩ := hvoucher
        have hr := List.find?_some hfind
        simp only [Bool.and_eq_true, Option.any_eq_true] at hr
        obtain ⟨_, ingressInfo, _, heligible⟩ := hr
        apply Moves.trans (Move.say f _).moves
        apply Move.moves
        exact .forward _ { face := hop.face } r.interest egress hegress
          (.inr ⟨ingressInfo, heligible⟩)

/-! ### The built-in strategies -/

/-- A built-in strategy. -/
inductive BuiltIn where
  | bestRoute (s : Suppression)
  | multicast (s : Suppression)
deriving DecidableEq

namespace BuiltIn

/-- What a built-in strategy answers. -/
def strategy : BuiltIn → Strategy
  | bestRoute s => .bestRoute s
  | multicast s => .multicast s

theorem afterInterest_sendsOnOrEnds (b : BuiltIn) (interest : Interest) (ingress : FaceEndpoint)
    (f : Focus) : f.SendsOnOrEnds (b.strategy.afterInterest interest ingress f) := by
  cases b with
  | bestRoute s => exact BestRoute.afterInterest_sendsOnOrEnds s interest ingress f
  | multicast s => exact Multicast.afterInterest_sendsOnOrEnds s interest ingress f

theorem afterNack_eq (b : BuiltIn) : b.strategy.afterNack = Focus.passNackOn := by
  cases b <;> rfl

theorem moves_afterNewNextHop (b : BuiltIn) (hop : NextHop) (f : Focus) :
    f.Moves (b.strategy.afterNewNextHop hop f) := by
  cases b with
  | bestRoute s => exact (Focus.Move.say f _).moves
  | multicast s => exact Multicast.moves_afterNewNextHop hop f

theorem afterLoop_eq (b : BuiltIn) : b.strategy.afterLoop = StandardHook.afterLoop := by
  cases b <;> rfl

theorem beforeSatisfy_eq (b : BuiltIn) :
    b.strategy.beforeSatisfy = StandardHook.beforeSatisfy := by
  cases b <;> rfl

theorem afterStoreHit_eq (b : BuiltIn) :
    b.strategy.afterStoreHit = StandardHook.afterStoreHit := by
  cases b <;> rfl

theorem afterData_eq (b : BuiltIn) : b.strategy.afterData = StandardHook.afterData := by
  cases b <;> rfl

theorem afterDrop_eq (b : BuiltIn) : b.strategy.afterDrop = StandardHook.afterDrop := by
  cases b <;> rfl

end BuiltIn

end NamedData
