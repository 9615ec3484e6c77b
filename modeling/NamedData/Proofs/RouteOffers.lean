import NamedData.Proofs.NewNextHops
import NamedData.Proofs.Reachability
import NamedData.Proofs.RouteMap
import NamedData.Proofs.TreeWalks

/-!
Which entries a new next hop is offered to. The walk that collects them turns back at names with
next hops of their own, carries the strategy in effect downwards and treats its start and the root
apart. What it finds are the entries that a lookup in the new tables leads to the prefix and whose
strategy asks for new next hops; each of them is left to its strategy once, in name order.
-/

namespace NamedData

open Forwarder

namespace Tables

variable {t : Tables} {n p : Name}

def IsNextHop (t : Tables) (stem : Name) (face : FaceId) : Prop :=
  ∃ hop ∈ (t.recordAt stem).nextHops, hop.face = face

/-- The name is at or below the prefix, and no longer prefix of it has next hops. -/
structure FallsTo (t : Tables) (n stem : Name) : Prop where
  begins : stem <+: n
  noneLonger : ∀ q, q <+: n → stem.length < q.length → (t.recordAt q).nextHops = []

/-- A lookup of the name finds the next hops of the prefix, the longest one that has any. -/
structure ResolvesAt (t : Tables) (n p : Name) : Prop where
  begins : p <+: n
  hasNextHops : (t.recordAt p).nextHops ≠ []
  longest : ∀ q, q <+: n → (t.recordAt q).nextHops ≠ [] → q.length ≤ p.length
  gives : t.nextHops n = (t.recordAt p).nextHops

theorem addNextHop_isNew (t : Tables) (stem : Name) (face : FaceId) (cost : Nat) :
    (t.addNextHop stem face cost).1 = true ↔ ¬ t.IsNextHop stem face := by
  simp [addNextHop, IsNextHop]

/-! ### Lookups after a registration -/

/-- Next hops of the prefix are what a lookup finds if no longer prefix has any. -/
theorem FallsTo.gives (h : t.FallsTo n p) (hhops : (t.recordAt p).nextHops ≠ []) :
    t.nextHops n = (t.recordAt p).nextHops := by
  -- Component by component: each one after the prefix leads to a name without next hops.
  obtain ⟨⟨rest, rfl⟩, hnone⟩ := h
  induction rest using List.reverseRecOn with
  | nil =>
      rw [List.append_nil]
      cases p using List.reverseRecOn with
      | nil => exact t.nextHops_nil
      | append_singleton p c => rw [nextHops_concat, if_neg hhops]
  | append_singleton rest c ih =>
      have hlast : (t.recordAt (p ++ (rest ++ [c]))).nextHops = [] :=
        hnone _ List.prefix_rfl (by simp)
      rw [← List.append_assoc] at hlast hnone ⊢
      rw [nextHops_concat, if_pos hlast]
      exact ih fun q hq => hnone q (hq.trans (List.prefix_append _ _))

/-- Next hops of a prefix are of no concern to names below it. -/
theorem fallsTo_change (h : t.tree.Ordered) (stem : Name) (f : NameRecord → NameRecord)
    (n : Name) : (t.change stem f).FallsTo n stem ↔ t.FallsTo n stem := by
  have hother (q : Name) (hlonger : stem.length < q.length) :
      (t.change stem f).recordAt q = t.recordAt q := by
    rw [recordAt_change h, if_neg]
    rintro rfl
    exact Nat.lt_irrefl _ hlonger
  constructor
  · rintro ⟨hbegins, hnone⟩
    exact ⟨hbegins, fun q hq hlonger => hother q hlonger ▸ hnone q hq hlonger⟩
  · rintro ⟨hbegins, hnone⟩
    exact ⟨hbegins, fun q hq hlonger => (hother q hlonger).symm ▸ hnone q hq hlonger⟩

/-- Names resolve at a prefix with next hops if no longer prefix has any. -/
theorem fallsTo_iff_resolvesAt (hhops : (t.recordAt p).nextHops ≠ []) (n : Name) :
    t.FallsTo n p ↔ t.ResolvesAt n p := by
  constructor
  · intro hfalls
    refine ⟨hfalls.begins, hhops, fun q hq hany => ?_, hfalls.gives hhops⟩
    exact Nat.le_of_not_lt fun hlonger => hany (hfalls.noneLonger q hq hlonger)
  · intro hresolves
    refine ⟨hresolves.begins, fun q hq hlonger => ?_⟩
    by_contra hany
    exact Nat.not_le_of_lt hlonger (hresolves.longest q hq hany)

/-- With the new next hop, the lookups that resolve at the prefix are those of the names for which
no longer prefix had next hops. -/
theorem resolvesAt_addNextHop (h : t.tree.Ordered) (stem : Name) (face : FaceId) (cost : Nat)
    (n : Name) : ((t.addNextHop stem face cost).2).ResolvesAt n stem ↔ t.FallsTo n stem := by
  have hhops : (((t.addNextHop stem face cost).2).recordAt stem).nextHops ≠ [] := by
    rw [addNextHop, recordAt_change h, if_pos rfl]
    exact List.ne_nil_of_mem (mem_insertOrdered.mpr (.inl rfl))
  exact (fallsTo_iff_resolvesAt hhops n).symm.trans (fallsTo_change h stem _ n)

theorem effectiveStrategy_addNextHop (h : t.tree.Ordered) (stem : Name) (face : FaceId)
    (cost : Nat) : ((t.addNextHop stem face cost).2).effectiveStrategy = t.effectiveStrategy := by
  refine effectiveStrategy_congr fun n => ?_
  rw [addNextHop, recordAt_change h]
  split
  next same => rw [same]
  next => rfl

end Tables

namespace Forwarder

variable {fw fw' : Forwarder} {stem : Name} {face : FaceId} {cost : Nat} {now : Timestamp}
  {hop : NextHop}

/-! ### The walk -/

/-- The strategy in effect at the name asks for new next hops. -/
def WantsNewNextHops (fw : Forwarder) (n : Name) : Prop :=
  ∃ s, fw.strategies[fw.node.tables.effectiveStrategy n]? = some s ∧ s.wantsNewNextHops = true

/-- Entries of the name would use a next hop of the prefix and are to be told of it: a lookup falls
to the prefix, and the strategy asks for new next hops unless the name and the prefix are the
root. -/
structure WouldUse (fw : Forwarder) (stem n : Name) : Prop where
  falls : fw.node.tables.FallsTo n stem
  wants : stem = [] ∧ n = [] ∨ fw.WantsNewNextHops n

/-- The walk goes on at its start, and below it at names without next hops. -/
theorem leadsOn_view (t : Tables) (stem p : Name) : leadsOn stem (t.view (stem ++ p)) = true ↔
    p = [] ∨ (t.recordAt (stem ++ p)).nextHops = [] := by
  simp only [leadsOn, Visit.depth, Visit.hasNextHops, Tables.view, Bool.or_eq_true,
    decide_eq_true_eq, List.length_append, Bool.not_not, List.isEmpty_iff]
  constructor
  · rintro ((hroot | hstart) | hnone)
    · exact .inl (List.eq_nil_of_length_eq_zero (by omega))
    · exact .inl (List.eq_nil_of_length_eq_zero (by omega))
    · exact .inr hnone
  · rintro (rfl | hnone)
    · exact .inl (.inr rfl)
    · exact .inr hnone

/-- Where there are entries, they are offered the next hop at the root, and elsewhere if the walk
goes on and the strategy in effect asks for it. -/
theorem isOffered_view {n : Name} (hpending : (fw.node.tables.recordAt n).pending ≠ [])
    (stem : Name) : fw.isOffered stem (fw.node.tables.view n) = true ↔
      n = [] ∨ leadsOn stem (fw.node.tables.view n) = true ∧ fw.WantsNewNextHops n := by
  have hany : Visit.hasPending (fw.node.tables.view n) = true := by
    simpa [Visit.hasPending, Tables.view] using hpending
  have hdepth : (fw.node.tables.view n).depth = n.length := rfl
  simp only [isOffered, hany, hdepth, WantsNewNextHops, Bool.or_eq_true, Bool.and_eq_true,
    Option.any_eq_true, decide_eq_true_eq, and_true, List.length_eq_zero_iff]
  rfl

/-- The walk gets to a name and goes on there if a lookup of the name falls to its start. -/
theorem fallsTo_iff (t : Tables) (stem rest : Name) : t.FallsTo (stem ++ rest) stem ↔
    (∀ p, p <+: rest → p ≠ rest → leadsOn stem (t.view (stem ++ p)) = true) ∧
      leadsOn stem (t.view (stem ++ rest)) = true := by
  simp only [leadsOn_view]
  constructor
  · rintro ⟨-, hnone⟩
    have hway (p : Name) (hp : p <+: rest) : p = [] ∨ (t.recordAt (stem ++ p)).nextHops = [] := by
      rw [or_iff_not_imp_left]
      intro hne
      refine hnone _ ((List.prefix_append_right_inj stem).mpr hp) ?_
      rw [List.length_append]
      exact Nat.lt_add_of_pos_right (List.length_pos_iff.mpr hne)
    exact ⟨fun p hp _ => hway p hp, hway rest List.prefix_rfl⟩
  · rintro ⟨hway, hend⟩
    refine ⟨List.prefix_append stem rest, fun q hq hlonger => ?_⟩
    obtain ⟨p, rfl⟩ : stem <+: q :=
      List.prefix_of_prefix_length_le (List.prefix_append stem rest) hq hlonger.le
    have hp : p <+: rest := (List.prefix_append_right_inj stem).mp hq
    have hne : p ≠ [] := by
      rintro rfl
      simp at hlonger
    by_cases same : p = rest
    · exact same ▸ hend.resolve_left (same ▸ hne)
    · exact (hway p hp same).resolve_left hne

/-- The walk collects the entries that would use a next hop of its start. -/
theorem mem_offered_iff (h : fw.node.tables.Indexed) (stem : Name) (token : PitToken) :
    token ∈ fw.offered stem ↔
      ∃ e, fw.node.tables.pit.get? token = some e ∧ fw.WouldUse stem e.name := by
  rw [offered, h.mem_pendingAt_iff]
  refine exists_congr fun e => and_congr_right fun hget => ?_
  have hpending : (fw.node.tables.recordAt e.name).pending ≠ [] :=
    List.ne_nil_of_mem ((h.listed e.name token).mpr ⟨e, hget, rfl⟩)
  rw [isOffered_view hpending]
  constructor
  · rintro ⟨rest, hname, hway, hoffered⟩
    rw [hname] at hoffered ⊢
    rcases hoffered with hroot | ⟨hend, hwants⟩
    · obtain ⟨rfl, rfl⟩ := List.append_eq_nil_iff.mp hroot
      exact ⟨(fallsTo_iff _ _ _).mpr ⟨hway, (leadsOn_view _ _ _).mpr (.inl rfl)⟩, .inl ⟨rfl, rfl⟩⟩
    · exact ⟨(fallsTo_iff _ _ _).mpr ⟨hway, hend⟩, .inr hwants⟩
  · rintro ⟨hfalls, hwants⟩
    obtain ⟨rest, hname⟩ := hfalls.begins
    rw [← hname] at hfalls hwants ⊢
    obtain ⟨hway, hend⟩ := (fallsTo_iff _ _ _).mp hfalls
    exact ⟨rest, rfl, hway, hwants.imp And.right fun hwants => ⟨hend, hwants⟩⟩

/-! ### The registration -/

/-- Some entries, one after another, are left to the strategies in effect at their names. -/
inductive AsksInTurn (hop : NextHop) : Forwarder → List PitToken → Forwarder → Prop where
  | done (fw : Forwarder) : AsksInTurn hop fw [] fw
  | next {fw last : Forwarder} {token : PitToken} {rest : List PitToken} {e : PitEntry}
      {s : Strategy} (hget : fw.node.tables.pit.get? token = some e)
      (hs : fw.strategies[fw.node.tables.effectiveStrategy e.name]? = some s)
      (hrest : AsksInTurn hop
        { fw with node := (s.afterNewNextHop hop ⟨fw.node, token, e⟩).release } rest last) :
      AsksInTurn hop fw (token :: rest) last

theorem asksInTurn_of_foldlM {tokens : List PitToken}
    (hfold : tokens.foldlM (fun fw token => fw.atEntry token fun f =>
      fw.consult f fun s f => s.afterNewNextHop hop f) fw = .ok fw') :
    AsksInTurn hop fw tokens fw' := by
  induction tokens generalizing fw with
  | nil =>
      cases hfold
      exact .done _
  | cons token rest ih =>
      rw [List.foldlM_cons] at hfold
      obtain ⟨k, hfirst, hrest⟩ := bind_eq_ok.mp hfold
      obtain ⟨e, f, hget, hconsult, rfl⟩ := atEntry_eq_ok.mp hfirst
      obtain ⟨s, hs, rfl⟩ := consult_eq_ok.mp hconsult
      exact .next hget hs (ih hrest)

/-- With the route in the tables, the same entries would use it. -/
theorem wouldUse_routed (h : fw.node.tables.tree.Ordered) (now : Timestamp) (stem : Name)
    (face : FaceId) (cost : Nat) (n : Name) :
    (fw.routed now stem face cost).WouldUse stem n ↔ fw.WouldUse stem n := by
  have hfalls : (fw.routed now stem face cost).node.tables.FallsTo n stem ↔
      fw.node.tables.FallsTo n stem := Tables.fallsTo_change h stem _ n
  have heffective : (fw.routed now stem face cost).node.tables.effectiveStrategy =
      fw.node.tables.effectiveStrategy :=
    Tables.effectiveStrategy_addNextHop h stem face cost
  have hwants : (fw.routed now stem face cost).WantsNewNextHops n ↔ fw.WantsNewNextHops n := by
    rw [WantsNewNextHops, heffective]
    rfl
  constructor
  · rintro ⟨hf, hw⟩
    exact ⟨hfalls.mp hf, hw.imp_right hwants.mp⟩
  · rintro ⟨hf, hw⟩
    exact ⟨hfalls.mpr hf, hw.imp_right hwants.mpr⟩

/-- What is offered a route that was just put into the tables. -/
theorem offered_routed (h : fw.node.tables.Indexed) (now : Timestamp) (stem : Name) (face : FaceId)
    (cost : Nat) : fw.node.tables.InNameOrder ((fw.routed now stem face cost).offered stem) ∧
      ∀ token, token ∈ (fw.routed now stem face cost).offered stem ↔
        ∃ e, fw.node.tables.pit.get? token = some e ∧ fw.WouldUse stem e.name := by
  have hindexed : (fw.routed now stem face cost).node.tables.Indexed :=
    h.change stem fun _ => rfl
  constructor
  · obtain ⟨hnodup, hordered⟩ := hindexed.pendingAt_inNameOrder stem (leadsOn stem)
      ((fw.routed now stem face cost).isOffered stem)
    exact ⟨hnodup, hordered⟩
  · intro token
    rw [mem_offered_iff hindexed]
    exact exists_congr fun e => and_congr_right fun _ => wouldUse_routed h.ordered now stem face
      cost e.name

/-- A face that is no next hop of the prefix becomes one, and entries are told of it. -/
theorem addRoute_of_new (hface : fw.node.faces.contains face = true)
    (hnew : ¬ fw.node.tables.IsNextHop stem face) {isAdded : Bool}
    (hadd : fw.addRoute now stem face cost = .ok (isAdded, fw')) :
    isAdded = true ∧ AsksInTurn { cost, face }
      ((fw.routed now stem face cost).say (.routeAdded stem face cost true))
      ((fw.routed now stem face cost).offered stem) fw' := by
  have hisNew : (fw.node.tables.addNextHop stem face cost).1 = true :=
    (fw.node.tables.addNextHop_isNew stem face cost).mpr hnew
  have htick : (fw.tick now).node.tables = fw.node.tables := rfl
  rw [addRoute, if_pos hface] at hadd
  simp only [htick, hisNew, if_pos] at hadd
  obtain ⟨last, hfold, hresult⟩ := bind_eq_ok.mp hadd
  cases hresult
  exact ⟨rfl, asksInTurn_of_foldlM hfold⟩

/-- A face that is a next hop of the prefix has its cost changed, and no entry is told. -/
theorem addRoute_of_old (hface : fw.node.faces.contains face = true)
    (hold : fw.node.tables.IsNextHop stem face) (now : Timestamp) (cost : Nat) :
    fw.addRoute now stem face cost = .ok (true,
      (fw.routed now stem face cost).say (.routeAdded stem face cost false)) := by
  have hisOld : (fw.node.tables.addNextHop stem face cost).1 = false := by
    rw [← Bool.not_eq_true, fw.node.tables.addNextHop_isNew stem face cost, not_not]
    exact hold
  have htick : (fw.tick now).node.tables = fw.node.tables := rfl
  rw [addRoute, if_pos hface]
  simp only [htick, hisOld, if_neg Bool.false_ne_true]
  rfl

end Forwarder

variable {settings : Settings} {store : ContentStore} {hash : HashFunction} {fw : Forwarder}
  {face : FaceId}

/-- In any state that is reached, a face that becomes a next hop of a prefix is offered to the
entries that would use it: those under the prefix with no longer prefix that has next hops, which
are those whose lookup resolves at the prefix from now on, if the strategy in effect at their name
asks for new next hops, as it need not for entries of the root and a route of the root. Each is left
to its strategy once, in name order, and no other is. A face that was a next hop of the prefix
before is not offered to anyone. -/
theorem new_next_hop_reaches_users (reached : Reachable settings store hash fw) (now : Timestamp)
    (stem : Name) (hface : fw.node.faces.contains face = true) (cost : Nat) :
    (¬ fw.node.tables.IsNextHop stem face → ∃ tokens fw',
      fw.addRoute now stem face cost = .ok (true, fw') ∧
      AsksInTurn { cost, face }
        ((fw.routed now stem face cost).say (.routeAdded stem face cost true)) tokens fw' ∧
      fw.node.tables.InNameOrder tokens ∧
      ∀ token, token ∈ tokens ↔
        ∃ e, fw.node.tables.pit.get? token = some e ∧ fw.WouldUse stem e.name) ∧
    (fw.node.tables.IsNextHop stem face → fw.addRoute now stem face cost = .ok (true,
      (fw.routed now stem face cost).say (.routeAdded stem face cost false))) ∧
    ∀ n, (fw.routed now stem face cost).node.tables.ResolvesAt n stem ↔
      fw.node.tables.FallsTo n stem := by
  have hindexed := reached.orderly.node.valid.indexed
  refine ⟨fun hnew => ?_, fun hold => Forwarder.addRoute_of_old hface hold now cost,
    Tables.resolvesAt_addNextHop hindexed.ordered stem face cost⟩
  obtain ⟨isAdded, n, hadd, -⟩ := reached.orderly.addRoute_orderly now stem face cost
  obtain ⟨rfl, hasks⟩ := Forwarder.addRoute_of_new hface hnew hadd
  obtain ⟨hordered, hmem⟩ := Forwarder.offered_routed hindexed now stem face cost
  exact ⟨_, _, hadd, hasks, hordered, hmem⟩

namespace Sample

def askFor (now : Timestamp) (rest : Name) (nonce : Nonce) : Operation :=
  .receive now ⟨⟨256⟩, 0⟩ (.interest { name := name ++ rest, nonce })

/-- A name right below that of the sample has a route of its own to the second face. -/
def ownRoute : Name :=
  name ++ [.generic [99]]

/-- Under multicast the first face asked below the name with a route of its own, then at another
name, and then at the name of the sample. -/
def severalAsked : List Operation :=
  [askFor ⟨4⟩ [] ⟨3⟩, askFor ⟨3⟩ [.generic [98]] ⟨2⟩,
    askFor ⟨2⟩ [.generic [99], .generic [100]] ⟨1⟩, .addRoute ⟨1⟩ ownRoute ⟨257⟩ 0,
    .setStrategy name 1] ++ threeFaces

def severalWait : Forwarder :=
  reached start severalAsked

theorem run_severalWait : Run start (historyOf start severalAsked) severalWait :=
  Run.reached start _ (by decide +kernel)

end Sample

open Sample

/-- The third face is offered to the two entries whose lookups resolve at the name. Told again of the
second face, the other route tells no entry. -/
theorem new_next_hop_reaches_users_below : ∃ tokens fw',
    severalWait.addRoute ⟨5⟩ name ⟨258⟩ 0 = .ok (true, fw') ∧
    AsksInTurn { cost := 0, face := ⟨258⟩ }
      ((severalWait.routed ⟨5⟩ name ⟨258⟩ 0).say (.routeAdded name ⟨258⟩ 0 true)) tokens fw' ∧
    (∀ token, token ∈ tokens ↔ token ∈ [PitToken.mk 2 0, PitToken.mk 1 0]) ∧
    severalWait.addRoute ⟨5⟩ ownRoute ⟨257⟩ 1 = .ok (true,
      (severalWait.routed ⟨5⟩ ownRoute ⟨257⟩ 1).say (.routeAdded ownRoute ⟨257⟩ 1 false)) := by
  have reached := run_severalWait.reachable
  have hsecond : severalWait.node.faces.contains ⟨257⟩ = true := by decide +kernel
  have hthird : severalWait.node.faces.contains ⟨258⟩ = true := by decide +kernel
  obtain ⟨hnew, -, -⟩ := new_next_hop_reaches_users reached ⟨5⟩ name hthird 0
  obtain ⟨-, hold, -⟩ := new_next_hop_reaches_users reached ⟨5⟩ ownRoute hsecond 1
  obtain ⟨tokens, fw', hadd, hasks, -, hmem⟩ :=
    hnew (by rw [Tables.IsNextHop]; decide +kernel)
  have hoffered : (severalWait.routed ⟨5⟩ name ⟨258⟩ 0).offered name =
      [PitToken.mk 2 0, PitToken.mk 1 0] := by decide +kernel
  have hlisted := (Forwarder.offered_routed reached.orderly.node.valid.indexed ⟨5⟩ name ⟨258⟩ 0).2
  rw [hoffered] at hlisted
  exact ⟨tokens, fw', hadd, hasks, fun token => (hmem token).trans (hlisted token).symm,
    hold (by rw [Tables.IsNextHop]; decide +kernel)⟩

end NamedData
