import NamedData.Proofs.Receptions

/-!
What a new next hop is offered. When a face becomes a next hop of a prefix, each entry that the walk
below the prefix reaches is left to its strategy; multicast sends the face a copy of the Interest of
the first who waits from whom it may go there. The copies that go out are those of the entries as
they were before.
-/

namespace NamedData

open Forwarder

/-- A copy of the Interest that somebody waits with is handed to a face. -/
def Transmission.Copies (t : Transmission) (r : InRecord) (face : FaceId) : Prop :=
  t.peer.face = face ∧ t.packet = .interest r.interest.untagged

namespace Focus

/-- The record whose Interest goes to a next hop that appears: that of the first who waits from whom
it may go there. There is none if the face may still answer another copy. -/
def vouched? (f : Focus) (hop : FaceId) : Option InRecord :=
  (f.node.faces.info? hop).bind fun egress =>
    if (f.entry.outRecord? hop).any fun r => r.isPending f.node.now then none
    else f.entry.inRecords.find? fun r =>
      r.face ≠ egress.face && r.isLive f.node.now &&
        (f.node.faces.info? r.face).any fun ingress => Scope.isEligible ingress r.interest egress

theorem vouched?_eq_some {f : Focus} {hop : FaceId} {r : InRecord} (h : f.vouched? hop = some r) :
    ∃ egress, f.node.faces.info? hop = some egress ∧
      f.entry.inRecords.find? (fun r => r.face ≠ egress.face && r.isLive f.node.now &&
        (f.node.faces.info? r.face).any fun ingress =>
          Scope.isEligible ingress r.interest egress) = some r := by
  obtain ⟨egress, hinfo, hfind⟩ := Option.bind_eq_some_iff.mp h
  split at hfind
  · cases hfind
  · exact ⟨egress, hinfo, hfind⟩

/-- Whose Interest it is depends on the faces, the time and the entry only. -/
theorem vouched?_congr {f g : Focus} (hinfo : g.node.faces.info? = f.node.faces.info?)
    (hnow : g.node.now = f.node.now) (hentry : g.entry = f.entry) (hop : FaceId) :
    g.vouched? hop = f.vouched? hop := by
  rw [vouched?, vouched?, hinfo, hnow, hentry]

/-- As long as the same wait, no other Interest is chosen. -/
theorem vouched?_of_inRecords {f g : Focus} (hinfo : g.node.faces.info? = f.node.faces.info?)
    (hnow : g.node.now = f.node.now) (hin : g.entry.inRecords = f.entry.inRecords)
    {hop : FaceId} {r r' : InRecord} (h : f.vouched? hop = some r)
    (h' : g.vouched? hop = some r') : r' = r := by
  obtain ⟨egress, hegress, hfind⟩ := vouched?_eq_some h
  obtain ⟨egress', hegress', hfind'⟩ := vouched?_eq_some h'
  rw [hinfo, hegress, Option.some.injEq] at hegress'
  subst hegress'
  rw [hinfo, hnow, hin, hfind] at hfind'
  exact (Option.some.inj hfind').symm

end Focus

theorem Multicast.afterNewNextHop_eq (hop : NextHop) (f : Focus) :
    afterNewNextHop hop f = match f.vouched? hop.face with
      | none => f
      | some r => (f.say (.offeredTo f.entry.name hop.face)).sendInterest { face := hop.face }
          r.interest := by
  rw [afterNewNextHop, Focus.vouched?]
  cases f.node.faces.info? hop.face with
  | none => rfl
  | some egress =>
      simp only [Option.bind_some]
      split
      · rfl
      · rw [voucher?]
        cases f.entry.inRecords.find? _ <;> rfl

namespace Forwarder

/-- The strategy of an entry has the Interest of a record sent to a next hop that appears. -/
def Promotes (fw : Forwarder) (hop : FaceId) (token : PitToken) (r : InRecord) : Prop :=
  ∃ e s, fw.node.tables.pit.get? token = some e ∧
    fw.strategies[fw.node.tables.effectiveStrategy e.name]? = some (Strategy.multicast s) ∧
    Focus.vouched? ⟨fw.node, token, e⟩ hop = some r

/-- Some entries, one after another, were offered a next hop. Exactly those were sent there that
their strategies wanted sent at the start, and of these no other would be sent another time. -/
structure OfferedTo (hop : FaceId) (tokens : List PitToken) (fw fw' : Forwarder) : Prop where
  strategies : fw'.strategies = fw.strategies
  before : ∀ u r, fw'.Promotes hop u r → fw.Promotes hop u r
  others : ∀ u r, u ∉ tokens → fw.Promotes hop u r → fw'.Promotes hop u r
  sent : ∃ new, fw'.node.journal.sent = fw.node.journal.sent ++ new ∧
    (∀ t ∈ new, ∃ token ∈ tokens, ∃ r, fw.Promotes hop token r ∧ t.Copies r hop) ∧
    ∀ token ∈ tokens, ∀ r, fw.Promotes hop token r → ∃ t ∈ new, t.Copies r hop

variable {fw fw' k : Forwarder} {hop : FaceId} {tokens tokens' : List PitToken}

theorem OfferedTo.refl (hop : FaceId) (fw : Forwarder) : OfferedTo hop [] fw fw :=
  ⟨rfl, fun _ _ => id, fun _ _ _ => id, [], by simp, by simp, by simp⟩

theorem OfferedTo.trans (h : OfferedTo hop tokens fw k) (h' : OfferedTo hop tokens' k fw') :
    OfferedTo hop (tokens ++ tokens') fw fw' where
  strategies := h'.strategies.trans h.strategies
  before u r hu := h.before u r (h'.before u r hu)
  others u r hu hfirst := by
    rw [List.mem_append, not_or] at hu
    exact h'.others u r hu.2 (h.others u r hu.1 hfirst)
  sent := by
    obtain ⟨new, hsent, hnew, hall⟩ := h.sent
    obtain ⟨new', hsent', hnew', hall'⟩ := h'.sent
    refine ⟨new ++ new', by rw [hsent', hsent, List.append_assoc], ?_, ?_⟩
    · intro t ht
      rcases List.mem_append.mp ht with ht | ht
      · obtain ⟨token, member, r, hpromotes, hcopy⟩ := hnew t ht
        exact ⟨token, List.mem_append_left _ member, r, hpromotes, hcopy⟩
      · obtain ⟨token, member, r, hpromotes, hcopy⟩ := hnew' t ht
        exact ⟨token, List.mem_append_right _ member, r, h.before token r hpromotes, hcopy⟩
    · intro token member r hpromotes
      by_cases hfirst : token ∈ tokens
      · obtain ⟨t, ht, hcopy⟩ := hall token hfirst r hpromotes
        exact ⟨t, List.mem_append_left _ ht, hcopy⟩
      · have hsecond := (List.mem_append.mp member).resolve_left hfirst
        obtain ⟨t, ht, hcopy⟩ :=
          hall' token hsecond r (h.others token r hfirst hpromotes)
        exact ⟨t, List.mem_append_right _ ht, hcopy⟩

/-- What a strategy has sent depends on the faces, the time, the entry and which strategy it is. -/
theorem promotes_congr {u : PitToken} (hstrategies : fw'.strategies = fw.strategies)
    (hinfo : fw'.node.faces.info? = fw.node.faces.info?) (hnow : fw'.node.now = fw.node.now)
    (hget : fw'.node.tables.pit.get? u = fw.node.tables.pit.get? u)
    (heffective : fw'.node.tables.effectiveStrategy = fw.node.tables.effectiveStrategy)
    (r : InRecord) : fw'.Promotes hop u r ↔ fw.Promotes hop u r := by
  simp only [Promotes, hstrategies, hget, heffective]
  simp only [Focus.vouched?_congr (f := ⟨fw.node, u, _⟩) (g := ⟨fw'.node, u, _⟩) hinfo hnow rfl]

/-- An entry that its strategy leaves as it is. -/
theorem offeredTo_of_idle {token : PitToken} (hstrategies : fw'.strategies = fw.strategies)
    (hinfo : fw'.node.faces.info? = fw.node.faces.info?) (hnow : fw'.node.now = fw.node.now)
    (htables : fw'.node.tables = fw.node.tables)
    (hsent : fw'.node.journal.sent = fw.node.journal.sent)
    (hnone : ∀ r, ¬ fw.Promotes hop token r) : OfferedTo hop [token] fw fw' := by
  have hsame (u : PitToken) (r : InRecord) : fw'.Promotes hop u r ↔ fw.Promotes hop u r :=
    promotes_congr hstrategies hinfo hnow (by rw [htables]) (by rw [htables]) r
  refine ⟨hstrategies, fun u r => (hsame u r).mp, fun u r _ => (hsame u r).mpr, [],
    by rw [hsent, List.append_nil], by simp, ?_⟩
  intro u hu r hpromotes
  exact (hnone r (List.mem_singleton.mp hu ▸ hpromotes)).elim

/-- An entry from which a copy goes to the next hop. -/
theorem offeredTo_of_sent {token : PitToken} {e : PitEntry} {s : Suppression} {r : InRecord}
    (hget : fw.node.tables.pit.get? token = some e)
    (hstrategy : fw.strategies[fw.node.tables.effectiveStrategy e.name]? =
      some (Strategy.multicast s))
    (hvouched : Focus.vouched? ⟨fw.node, token, e⟩ hop = some r) (notice : Notice) :
    OfferedTo hop [token] fw { fw with node :=
      ((Focus.say ⟨fw.node, token, e⟩ notice).sendInterest { face := hop } r.interest).release } := by
  let f : Focus := ⟨fw.node, token, e⟩
  obtain ⟨egress, hegress, -⟩ := Focus.vouched?_eq_some hvouched
  have hinfo : (f.say notice).node.faces.info? hop = some egress := hegress
  let f' := (f.say notice).sendInterest { face := hop } r.interest
  have hkeeps : f.Keeps f' := (f.keeps_say notice).trans (Focus.keeps_sendInterest _ _ _)
  have hlive : f.Live := ⟨e, hget, rfl⟩
  have hin : f'.entry.inRecords = e.inRecords :=
    Focus.records_sendInterest (f := f.say notice) hinfo r.interest
  have heffective : f'.release.tables.effectiveStrategy = fw.node.tables.effectiveStrategy := by
    have htables : f'.node.tables = fw.node.tables := hkeeps.tables
    rw [Focus.release, htables]
    rfl
  have hown : f'.release.tables.pit.get? token = some f'.entry := by
    have hself := Focus.get?_release_self (hkeeps.live hlive)
    rwa [hkeeps.token] at hself
  have hother (u : PitToken) (hu : u ≠ token) :
      f'.release.tables.pit.get? u = fw.node.tables.pit.get? u := by
    rw [hkeeps.get?_release_of_ne hlive hu, Node.release_focus hget]
  have hsame (u : PitToken) (hu : u ≠ token) (r : InRecord) :
      Promotes { fw with node := f'.release } hop u r ↔ fw.Promotes hop u r :=
    promotes_congr (by rfl) hkeeps.info? hkeeps.now (hother u hu) heffective r
  have hpromotes : fw.Promotes hop token r := ⟨e, s, hget, hstrategy, hvouched⟩
  refine ⟨rfl, ?_, ?_, ?_⟩
  · intro u r' hagain
    by_cases hu : u = token
    · subst hu
      obtain ⟨e', s', hget', hstrategy', hvouched'⟩ := hagain
      have hentry : f'.entry = e' := Option.some.inj (hown.symm.trans hget')
      have hrecord : r' = r :=
        Focus.vouched?_of_inRecords (f := f) (g := ⟨f'.release, u, e'⟩) hkeeps.info? hkeeps.now
          (hentry ▸ hin) hvouched hvouched'
      exact hrecord ▸ hpromotes
    · exact (hsame u hu r').mp hagain
  · intro u r' hu hfirst
    exact (hsame u (fun heq => hu (List.mem_singleton.mpr heq)) r').mpr hfirst
  · obtain ⟨isTaken, hsent⟩ := Focus.sent_sendInterest (f := f.say notice) hinfo r.interest
    refine ⟨_, hsent, ?_, ?_⟩
    · intro t ht
      rw [List.mem_singleton.mp ht]
      exact ⟨token, List.mem_singleton_self token, r, hpromotes, rfl, rfl⟩
    · rintro u hu r' ⟨e', s', hget', hstrategy', hvouched'⟩
      rw [List.mem_singleton.mp hu, hget, Option.some.injEq] at hget'
      subst hget'
      have hrecord : r' = r :=
        Focus.vouched?_of_inRecords (f := f) (g := ⟨fw.node, u, e⟩) rfl rfl rfl hvouched hvouched'
      exact ⟨_, List.mem_singleton_self _, rfl, hrecord ▸ rfl⟩

/-- One entry is offered the next hop. -/
theorem offeredTo_one (h : fw.BuiltInOnly) {token : PitToken} {cost : Nat}
    (hoffer : (fw.atEntry token fun f =>
      fw.consult f fun s f => s.afterNewNextHop { cost, face := hop } f) = .ok fw') :
    OfferedTo hop [token] fw fw' := by
  obtain ⟨e, f', hget, hconsult, rfl⟩ := atEntry_eq_ok.mp hoffer
  obtain ⟨strategy, hstrategy, rfl⟩ := consult_eq_ok.mp hconsult
  obtain ⟨b, rfl⟩ := h strategy (List.mem_of_getElem? hstrategy)
  have hidle (hnone : ∀ r, ¬ fw.Promotes hop token r) {f : Focus}
      (hquiet : Focus.Quiet ⟨fw.node, token, e⟩ f) :
      OfferedTo hop [token] fw { fw with node := f.release } := by
    obtain ⟨m, u, e'⟩ := f
    obtain ⟨hnode, rfl, rfl⟩ := hquiet
    have htables : m.tables = fw.node.tables := hnode.tables
    rw [Node.release_focus (htables ▸ hget)]
    exact offeredTo_of_idle rfl hnode.info? hnode.now htables hnode.sent hnone
  cases b with
  | bestRoute s =>
      refine hidle ?_ (Focus.quiet_say _ _)
      rintro r ⟨e', s', hget', hstrategy', -⟩
      rw [hget, Option.some.injEq] at hget'
      subst hget'
      have hname := congrArg Strategy.name (Option.some.inj (hstrategy.symm.trans hstrategy'))
      exact absurd hname (by decide : "best-route" ≠ "multicast")
  | multicast s =>
      have hanswer : (BuiltIn.multicast s).strategy.afterNewNextHop { cost, face := hop } =
          Multicast.afterNewNextHop { cost, face := hop } := rfl
      rw [hanswer, Multicast.afterNewNextHop_eq]
      split
      next hnone =>
        refine hidle ?_ ⟨.refl _, rfl, rfl⟩
        rintro r ⟨e', s', hget', -, hvouched⟩
        rw [hget, Option.some.injEq] at hget'
        subst hget'
        cases hnone.symm.trans hvouched
      next r hvouched => exact offeredTo_of_sent hget hstrategy hvouched _

theorem offeredTo_foldlM {tokens : List PitToken} {cost : Nat} (h : fw.BuiltInOnly)
    (hfold : tokens.foldlM (fun fw token => fw.atEntry token fun f =>
      fw.consult f fun s f => s.afterNewNextHop { cost, face := hop } f) fw = .ok fw') :
    OfferedTo hop tokens fw fw' := by
  induction tokens generalizing fw with
  | nil =>
      cases hfold
      exact .refl hop _
  | cons token rest ih =>
      rw [List.foldlM_cons] at hfold
      obtain ⟨k, hfirst, hrest⟩ := bind_eq_ok.mp hfold
      have hone := offeredTo_one h hfirst
      have hbuiltIn : k.BuiltInOnly := by
        rw [BuiltInOnly, hone.strategies]
        exact h
      exact hone.trans (ih hbuiltIn hrest)

/-! ### A new route -/

/-- The forwarder after a route was put into its tables, before it is offered to any entry. -/
def routed (fw : Forwarder) (now : Timestamp) (stem : Name) (face : FaceId) (cost : Nat) :
    Forwarder :=
  (fw.tick now).onNode fun n => { n with tables := (n.tables.addNextHop stem face cost).2 }

end Forwarder

/-- In the step, a face becomes a next hop of a prefix; the walk below the prefix reaches the entry,
and its strategy has the Interest of the record sent to the face. -/
def Step.Offers (s : Step) (token : PitToken) (r : InRecord) (face : FaceId) : Prop :=
  ∃ now stem cost, s.operation = .addRoute now stem face cost ∧
    (s.before.node.tables.addNextHop stem face cost).1 = true ∧
    token ∈ (s.before.routed now stem face cost).offered stem ∧
    (s.before.routed now stem face cost).Promotes face token r

/-- Whoever is offered to a face waits. -/
theorem Step.Offers.waits {s : Step} {token : PitToken} {r : InRecord} {face : FaceId}
    (h : s.Offers token r face) :
    ∃ e, s.before.node.tables.pit.get? token = some e ∧ r ∈ e.inRecords := by
  obtain ⟨_, _, _, _, _, _, e, _, hget, _, hvouched⟩ := h
  obtain ⟨_, _, hfind⟩ := Focus.vouched?_eq_some hvouched
  exact ⟨e, hget, List.mem_of_find?_eq_some hfind⟩

/-- A route sends copies of the Interests that it is offered to, and nothing else. -/
theorem Forwarder.sent_addRoute {fw fw' : Forwarder} (h : fw.BuiltInOnly) {now : Timestamp}
    {stem : Name} {face : FaceId} {cost : Nat}
    (hperform : fw.perform (.addRoute now stem face cost) = .ok fw') :
    (∀ t ∈ (Step.mk fw (.addRoute now stem face cost) fw').sent, ∃ token r,
      (Step.mk fw (.addRoute now stem face cost) fw').Offers token r face ∧ t.Copies r face) ∧
    ∀ token r, (Step.mk fw (.addRoute now stem face cost) fw').Offers token r face →
      ∃ t ∈ (Step.mk fw (.addRoute now stem face cost) fw').sent, t.Copies r face := by
  obtain ⟨⟨isAdded, last⟩, hadd, rfl⟩ := map_eq_ok.mp hperform
  have hnothing (hsent : last.node.journal.sent = fw.node.journal.sent) :
      (Step.mk fw (.addRoute now stem face cost) last).sent = [] := by
    rw [Step.sent, hsent, List.drop_length]
  rw [addRoute] at hadd
  split at hadd
  next hknown =>
    dsimp only at hadd
    split at hadd
    next hnew =>
      obtain ⟨_, hfold, hresult⟩ := bind_eq_ok.mp hadd
      cases hresult
      have hlisted : BuiltInOnly ((fw.routed now stem face cost).say (.routeAdded stem face cost
          (fw.node.tables.addNextHop stem face cost).1)) := h
      obtain ⟨new, hsent, hcopies, hall⟩ := (offeredTo_foldlM hlisted hfold).sent
      have hstep : (Step.mk fw (.addRoute now stem face cost) last).sent = new := by
        rw [Step.sent, hsent]
        exact List.drop_left
      rw [hstep]
      constructor
      · intro t ht
        obtain ⟨token, member, r, hpromotes, hcopy⟩ := hcopies t ht
        exact ⟨token, r, ⟨now, stem, cost, rfl, hnew, member, hpromotes⟩, hcopy⟩
      · rintro token r ⟨_, _, _, hcall, _, member, hpromotes⟩
        cases hcall
        exact hall token member r hpromotes
    next hold =>
      cases hadd
      rw [hnothing rfl]
      refine ⟨by simp, ?_⟩
      rintro token r ⟨_, _, _, hcall, hnew, _⟩
      cases hcall
      exact (hold hnew).elim
  next hunknown =>
    cases hadd
    rw [hnothing rfl]
    refine ⟨by simp, ?_⟩
    rintro token r ⟨_, _, _, hcall, _, _, e, s, _, _, hvouched⟩
    cases hcall
    obtain ⟨_, hinfo, _⟩ := Focus.vouched?_eq_some hvouched
    exact (hunknown (FaceTable.contains_of_info? hinfo)).elim

end NamedData
