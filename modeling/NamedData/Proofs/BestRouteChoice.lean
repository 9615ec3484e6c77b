import NamedData.Proofs.HopChoices
import NamedData.Proofs.LoopSuppression

/-!
Which next hop the best-route strategy picks. A new Interest goes to the cheapest next hop that may
have it. A retransmission goes to the cheapest of those that were not tried yet, or else to the one
that was tried longest ago. One copy is sent, or none: no other face hears of the Interest.
-/

namespace NamedData

open Forwarder

namespace BestRoute

/-- The next hop for an Interest, depending on whether it counts as new or is forwarded again. -/
inductive Picks (n : Node) (ingress : FaceInfo) (i : Interest) (e : PitEntry) :
    RetransmissionDecision → NextHop → Prop
  | cheapest {hop : NextHop} (h : NextHop.IsFirst (n.Offers ingress i e) hop) :
      Picks n ingress i e .new hop
  | untried {hop : NextHop}
      (h : NextHop.IsFirst
        (fun hop => n.Offers ingress i e hop ∧ e.outRecord? hop.face = none) hop) :
      Picks n ingress i e .forward hop
  | longestAgo {hop : NextHop} {record : OutRecord} (hoffers : n.Offers ingress i e hop)
      (hrecord : e.outRecord? hop.face = some record)
      (hearliest : ∀ other, n.Offers ingress i e other → ∃ later,
        e.outRecord? other.face = some later ∧
          (record.renewed < later.renewed ∨
            record.renewed = later.renewed ∧ (other = hop ∨ hop.before other = true))) :
      Picks n ingress i e .forward hop

/-- At most one next hop is picked. -/
theorem Picks.unique {n : Node} {ingress : FaceInfo} {i : Interest} {e : PitEntry}
    {decision : RetransmissionDecision} {a b : NextHop} (ha : Picks n ingress i e decision a)
    (hb : Picks n ingress i e decision b) : a = b := by
  cases ha with
  | cheapest ha =>
      cases hb with
      | cheapest hb => exact ha.unique hb
  | untried ha =>
      cases hb with
      | untried hb => exact ha.unique hb
      | longestAgo _ _ hearliest =>
          obtain ⟨later, hlater, -⟩ := hearliest a ha.1.1
          cases ha.1.2.symm.trans hlater
  | @longestAgo _ recordA hoffersA hrecordA hearliestA =>
      cases hb with
      | untried hb =>
          obtain ⟨later, hlater, -⟩ := hearliestA b hb.1.1
          cases hb.1.2.symm.trans hlater
      | @longestAgo _ recordB hoffersB hrecordB hearliestB =>
          obtain ⟨_, hlater, hafter⟩ := hearliestA b hoffersB
          obtain rfl := Option.some.inj (hrecordB.symm.trans hlater)
          obtain ⟨_, hlater', hbefore⟩ := hearliestB a hoffersA
          obtain rfl := Option.some.inj (hrecordA.symm.trans hlater')
          rw [Timestamp.lt_iff] at hafter hbefore
          rcases hafter with hless | ⟨hsame, hafter⟩
          · rcases hbefore with hmore | ⟨hsame, -⟩
            · exact absurd hmore (Nat.lt_asymm hless)
            · exact absurd (congrArg Timestamp.toNat hsame).symm (Nat.ne_of_lt hless)
          · rcases hbefore with hmore | ⟨-, hbefore⟩
            · exact absurd (congrArg Timestamp.toNat hsame).symm (Nat.ne_of_lt hmore)
            · rcases hafter with hba | hafter
              · exact hba.symm
              · exact hbefore.resolve_right (NextHop.not_before_of_before hafter)

/-- What the strategy makes of an entry when it is asked about an Interest. A suppressed one is only
noted. One copy of any other goes to the next hop that is picked. If no next hop may have it, a new
one is handed back and the entry is due, and a retransmission is only noted. -/
structure Chooses (ingress : FaceEndpoint) (info : FaceInfo) (i : Interest)
    (decision : RetransmissionDecision) (f f' : Focus) : Prop where
  suppressed : decision = .suppress → f' = f.say (.suppressed ingress.face i.name)
  sent : decision ≠ .suppress → (∃ hop, f.node.Offers info i f.entry hop) →
    ∃ hop, Picks f.node info i f.entry decision hop ∧ f.node.SendsTo f'.node i hop.face
  refused : decision = .new → (∀ hop, ¬ f.node.Offers info i f.entry hop) →
    f' = f.rejectNoRoute ingress
  idle : decision = .forward → (∀ hop, ¬ f.node.Offers info i f.entry hop) →
    f' = f.say (.noHopForRetransmission ingress.face i.name)

/-- What that comes to when the pipeline asks about an Interest that waits in the entry at hand. -/
structure Acts (n : Node) (now : Timestamp) (ingress : FaceEndpoint) (info : FaceInfo)
    (i : Interest) (token : PitToken) (e : PitEntry) (decision : RetransmissionDecision)
    (f : Focus) (m : Node) : Prop where
  suppressed : decision = .suppress → m = (f.say (.suppressed ingress.face i.name)).release
  sent : decision ≠ .suppress → (∃ hop, n.Offers info i e hop) →
    ∃ hop, Picks n info i e decision hop ∧ n.SendsTo m i hop.face
  refused : decision = .new → (∀ hop, ¬ n.Offers info i e hop) →
    n.FindsNoRoute m now ingress info i token
  idle : decision = .forward → (∀ hop, ¬ n.Offers info i e hop) →
    m = (f.say (.noHopForRetransmission ingress.face i.name)).release

/-! ### When a next hop was tried -/

theorem lastTried_of_none {e : PitEntry} {hop : NextHop} (h : e.outRecord? hop.face = none) :
    lastTried e hop = 0 := by
  rw [lastTried, h]

theorem lastTried_of_some {e : PitEntry} {hop : NextHop} {record : OutRecord}
    (h : e.outRecord? hop.face = some record) :
    lastTried e hop = record.renewed.toNat + 1 := by
  rw [lastTried, h]

/-- One of several next hops that was tried no later than any other, and comes before those that
were tried at the same time. -/
def TriedFirst (e : PitEntry) (P : NextHop → Prop) (hop : NextHop) : Prop :=
  P hop ∧ ∀ other, P other → lastTried e hop < lastTried e other ∨
    lastTried e hop = lastTried e other ∧ (other = hop ∨ hop.before other = true)

/-- A next hop that was not tried comes first among those that were not. -/
theorem TriedFirst.untried {e : PitEntry} {P : NextHop → Prop} {hop : NextHop}
    (h : TriedFirst e P hop) (hnone : e.outRecord? hop.face = none) :
    NextHop.IsFirst (fun hop => P hop ∧ e.outRecord? hop.face = none) hop := by
  refine ⟨⟨h.1, hnone⟩, fun other hother => ?_⟩
  rcases h.2 other hother.1 with hless | ⟨-, hbefore⟩
  · rw [lastTried_of_none hother.2] at hless
    exact absurd hless (Nat.not_lt_zero _)
  · exact hbefore

/-- If the first next hop was tried, then so were the others, and none of them before it. -/
theorem TriedFirst.tried {e : PitEntry} {P : NextHop → Prop} {hop other : NextHop}
    {record : OutRecord} (h : TriedFirst e P hop) (hrecord : e.outRecord? hop.face = some record)
    (hother : P other) : ∃ later, e.outRecord? other.face = some later ∧
      (record.renewed < later.renewed ∨
        record.renewed = later.renewed ∧ (other = hop ∨ hop.before other = true)) := by
  have horder := h.2 other hother
  rw [lastTried_of_some hrecord] at horder
  cases hlater : e.outRecord? other.face with
  | none =>
      rw [lastTried_of_none hlater] at horder
      omega
  | some later =>
      rw [lastTried_of_some hlater] at horder
      refine ⟨later, rfl, horder.imp Nat.lt_of_succ_lt_succ fun hsame => ?_⟩
      exact ⟨Timestamp.eq_of_toNat (Nat.succ.inj hsame.1), hsame.2⟩

/-! ### What the strategy makes of the next hops that are left -/

section Asked

variable {ingress : FaceEndpoint} {info : FaceInfo} {i : Interest} {f : Focus} {s : Suppression}
  {decision : RetransmissionDecision} {hop : NextHop}

theorem picks_of_choose (hlisted : Listed f.nextHops) (hsent : decision ≠ .suppress)
    (hchosen : choose f.entry decision (f.eligibleHops info i) = some hop) :
    Picks f.node info i f.entry decision hop := by
  have hordered := (Focus.listed_eligibleHops hlisted info i).1
  cases decision with
  | new =>
      have hfirst := NextHop.isFirst_of_head? hordered hchosen
      exact .cheapest ⟨Focus.mem_eligibleHops_offers.mp hfirst.1,
        fun other hother => hfirst.2 other (Focus.mem_eligibleHops_offers.mpr hother)⟩
  | forward =>
      have hfirst : TriedFirst f.entry (f.node.Offers info i f.entry) hop :=
        ⟨Focus.mem_eligibleHops_offers.mp (choose_mem hchosen), fun other hother =>
          leastBy?_first hordered hchosen (Focus.mem_eligibleHops_offers.mpr hother)⟩
      cases hrecord : f.entry.outRecord? hop.face with
      | none => exact .untried (hfirst.untried hrecord)
      | some record =>
          exact .longestAgo hfirst.1 hrecord fun other hother => hfirst.tried hrecord hother
  | suppress => exact absurd rfl hsent

theorem not_offers_of_choose (hnone : choose f.entry decision (f.eligibleHops info i) = none)
    (hop : NextHop) : ¬ f.node.Offers info i f.entry hop := by
  have hempty : f.eligibleHops info i = [] := by
    cases decision with
    | new => exact List.head?_eq_none_iff.mp hnone
    | forward => exact leastBy?_eq_none hnone
    | suppress => exact leastBy?_eq_none hnone
  intro hoffers
  rw [← Focus.mem_eligibleHops_offers, hempty] at hoffers
  cases hoffers

theorem afterInterest_eq_say (h : s.decide f.entry f.node.now = .suppress) :
    afterInterest s i ingress f = f.say (.suppressed ingress.face i.name) := by
  rw [afterInterest]
  exact if_pos h

theorem afterInterest_of_chosen (hdecide : s.decide f.entry f.node.now = decision)
    (hsent : decision ≠ .suppress) (hinfo : f.node.faces.info? ingress.face = some info)
    (hchosen : choose f.entry decision (f.eligibleHops info i) = some hop) :
    afterInterest s i ingress f =
      ((f.say (.bestRouteChosen ingress.face i.name hop.face (decision ≠ .new))).onEntry
        fun e => e.recordForwarded decision f.node.now).sendInterest { face := hop.face } i := by
  subst hdecide
  rw [afterInterest]
  simp only [if_neg hsent, hinfo, hchosen]

theorem afterInterest_of_none (hdecide : s.decide f.entry f.node.now = decision)
    (hsent : decision ≠ .suppress) (hinfo : f.node.faces.info? ingress.face = some info)
    (hchosen : choose f.entry decision (f.eligibleHops info i) = none) :
    afterInterest s i ingress f =
      if decision = .new then f.rejectNoRoute ingress
      else f.say (.noHopForRetransmission ingress.face i.name) := by
  subst hdecide
  rw [afterInterest]
  simp only [if_neg hsent, hinfo, hchosen]

/-- If some next hop may have it, an Interest that is not suppressed goes to the one that is picked.
-/
theorem sendsTo_afterInterest (hlisted : Listed f.nextHops)
    (hinfo : f.node.faces.info? ingress.face = some info)
    (hdecide : s.decide f.entry f.node.now = decision) (hsent : decision ≠ .suppress)
    (hsome : ∃ hop, f.node.Offers info i f.entry hop) :
    ∃ hop, Picks f.node info i f.entry decision hop ∧
      f.node.SendsTo (afterInterest s i ingress f).node i hop.face := by
  cases hchosen : choose f.entry decision (f.eligibleHops info i) with
  | none =>
      obtain ⟨hop, hoffers⟩ := hsome
      exact absurd hoffers (not_offers_of_choose hchosen hop)
  | some hop =>
      refine ⟨hop, picks_of_choose hlisted hsent hchosen, ?_⟩
      rw [afterInterest_of_chosen hdecide hsent hinfo hchosen]
      let said := f.say (.bestRouteChosen ingress.face i.name hop.face (decision ≠ .new))
      let marked := said.onEntry fun e => e.recordForwarded decision f.node.now
      obtain ⟨-, egress, hegress, -⟩ := Focus.mem_eligibleHops.mp (choose_mem hchosen)
      exact Focus.sent_sendInterest (f := marked) hegress i

theorem afterInterest_of_no_offer (hdecide : s.decide f.entry f.node.now = decision)
    (hsent : decision ≠ .suppress) (hinfo : f.node.faces.info? ingress.face = some info)
    (hnone : ∀ hop, ¬ f.node.Offers info i f.entry hop) :
    afterInterest s i ingress f =
      if decision = .new then f.rejectNoRoute ingress
      else f.say (.noHopForRetransmission ingress.face i.name) := by
  cases hchosen : choose f.entry decision (f.eligibleHops info i) with
  | none => exact afterInterest_of_none hdecide hsent hinfo hchosen
  | some hop =>
      exact absurd (Focus.mem_eligibleHops_offers.mp (choose_mem hchosen)) (hnone hop)

/-- The strategy chooses a next hop for any entry that it is asked about. -/
theorem chooses_afterInterest (i : Interest) (hlisted : Listed f.nextHops)
    (hinfo : f.node.faces.info? ingress.face = some info)
    (hdecide : s.decide f.entry f.node.now = decision) :
    Chooses ingress info i decision f (afterInterest s i ingress f) where
  suppressed hsuppress := afterInterest_eq_say (hdecide.trans hsuppress)
  sent := sendsTo_afterInterest hlisted hinfo hdecide
  refused hnew hnone := by
    rw [afterInterest_of_no_offer hdecide (by rw [hnew]; nofun) hinfo hnone, if_pos hnew]
  idle hforward hnone := by
    have hagain : decision ≠ .new := by rw [hforward]; nofun
    rw [afterInterest_of_no_offer hdecide (by rw [hforward]; nofun) hinfo hnone, if_neg hagain]

variable {n : Node} {now : Timestamp} {token : PitToken} {e : PitEntry}

/-- That the Interest waits now has no part in what is picked. -/
theorem Picks.of_asked (h : n.Asks now ingress i token e f)
    (hpicks : Picks f.node info i f.entry decision hop) : Picks n info i e decision hop := by
  have hrecord : f.entry.outRecord? = e.outRecord? := by
    funext face
    rw [PitEntry.outRecord?, h.outRecords, PitEntry.outRecord?]
  cases hpicks with
  | cheapest hfirst =>
      rw [h.offers] at hfirst
      exact .cheapest hfirst
  | untried hfirst =>
      rw [h.offers, hrecord] at hfirst
      exact .untried hfirst
  | longestAgo hoffers hlast hearliest =>
      rw [h.offers, hrecord] at hearliest
      rw [h.offers] at hoffers
      rw [hrecord] at hlast
      exact .longestAgo hoffers hlast hearliest

theorem acts_afterInterest (s : Suppression) (h : n.Asks now ingress i token e f)
    (hlisted : n.tables.HopsListed) (hinfo : n.faces.info? ingress.face = some info) :
    Acts n now ingress info i token e (s.decide e now) f
      (afterInterest s i ingress f).release := by
  have hknown : f.node.faces.info? ingress.face = some info := (congrFun h.info?_eq _).trans hinfo
  obtain ⟨hsuppressed, hsent, hrefused, hidle⟩ :=
    chooses_afterInterest i (Focus.listed_nextHops h.nextHops hlisted) hknown (h.decide s)
  rw [h.offers] at hsent hrefused hidle
  constructor
  case suppressed =>
    intro hsuppress
    rw [hsuppressed hsuppress]
  case sent =>
    intro hnot hsome
    obtain ⟨hop, hpicks, isTaken, hlast⟩ := hsent hnot hsome
    exact ⟨hop, hpicks.of_asked h, isTaken, hlast.trans (congrArg (· ++ _) h.sent)⟩
  case refused =>
    intro hnew hnone
    rw [hrefused hnew hnone]
    exact h.findsNoRoute hinfo
  case idle =>
    intro hforward hnone
    rw [hidle hforward hnone]

end Asked

end BestRoute

section Outcome

variable {settings : Settings} {store : ContentStore} {hash : HashFunction} {fw : Forwarder}
  {s : Suppression}

/-- An untagged Interest that is let in and does not loop, under a name of the best-route strategy,
has an entry. Unless the content store answers, it waits there, and the strategy is asked. Whatever
entry the strategy is asked about, with next hops from the state, it chooses among them. -/
theorem best_route_choice (reached : Reachable settings store hash fw) :
    (∀ (now : Timestamp) (ingress : FaceEndpoint) (info : FaceInfo) (i : Interest),
      fw.node.faces.info? ingress.face = some info →
      info.isLocal = true ∨ i.name.isLocalhost = false →
      ¬ fw.node.Loops now info ingress.face i → i.nextHopFace = none →
      fw.strategies[fw.node.tables.effectiveStrategy i.name]? = some (Strategy.bestRoute s) →
      ∃ fw' n token e, fw.receiveInterest now ingress i = .ok fw' ∧
        fw.Opens now ingress i n token e ∧
        fw.node.Asks now ingress (fw.node.arrival ingress i) token e
          (n.unanswered ingress (fw.node.arrival ingress i) token e) ∧
        (e.inRecords ≠ [] ∨ (fw.store.find (fw.node.arrival ingress i) now).1 = none →
          BestRoute.Acts fw.node now ingress info (fw.node.arrival ingress i) token e
            (s.decide e now) (n.unanswered ingress (fw.node.arrival ingress i) token e)
            fw'.node)) ∧
    ∀ (ingress : FaceEndpoint) (info : FaceInfo) (i : Interest) (f : Focus),
      f.node.tables.nextHops = fw.node.tables.nextHops →
      f.node.faces.info? ingress.face = some info →
      BestRoute.Chooses ingress info i (s.decide f.entry f.node.now) f
        ((Strategy.bestRoute s).afterInterest i ingress f) := by
  have h := reached.orderly
  have hlisted : fw.node.tables.HopsListed := h.node.valid.hopsListed
  refine ⟨fun now ingress info i hinfo hscope hnew htag hstrategy => ?_,
    fun ingress info i f hsame hinfo => ?_⟩
  · obtain ⟨fw', n, token, e, hreceive, hopens, hleft⟩ :=
      h.receiveInterest_asks hinfo hscope hnew htag hstrategy
    have hasks := hopens.asked (fw.node.arrival ingress i)
    refine ⟨fw', n, token, e, hreceive, hopens, hasks, fun hmiss => ?_⟩
    rw [hleft hmiss]
    exact BestRoute.acts_afterInterest s hasks hlisted hinfo
  · exact BestRoute.chooses_afterInterest i (Focus.listed_nextHops hsame hlisted) hinfo rfl

end Outcome

namespace Sample

/-- The third face is a next hop of the name too, at a higher cost than the second. The first face
asked, and its Interest was sent to the second. -/
def triedOne : Forwarder :=
  reached start (ask ⟨2⟩ ⟨1⟩ :: .addRoute ⟨1⟩ name ⟨258⟩ 1 :: threeFaces)

/-- What an entry of that state shows at a later time: its Interest is repeated and may go to the
third face. -/
def IsRepeated (e : PitEntry) : Bool :=
  e.interest.sameSelectors (triedOne.node.arrival ⟨⟨256⟩, 0⟩ again) && !e.inRecords.isEmpty
    && Suppression.decide {} e ⟨20⟩ = .forward
    && decide (⟨1, ⟨258⟩⟩ ∈ triedOne.node.route e.interest)

end Sample

/-- The first face asks again after the quiet period, and the Interest goes to the next hop that is
picked for a retransmission. -/
theorem best_route_tries_next : ∃ info fw' e hop,
    Reachable {} .disabled (fun _ => ⟨List.replicate 32 0, rfl⟩) Sample.triedOne ∧
      Sample.triedOne.node.faces.info? ⟨256⟩ = some info ∧
      ¬ Sample.triedOne.node.Loops ⟨20⟩ info ⟨256⟩ Sample.again ∧
      Sample.triedOne.receiveInterest ⟨20⟩ ⟨⟨256⟩, 0⟩ Sample.again = .ok fw' ∧
      Suppression.decide {} e ⟨20⟩ = .forward ∧
      BestRoute.Picks Sample.triedOne.node info
        (Sample.triedOne.node.arrival ⟨⟨256⟩, 0⟩ Sample.again) e .forward hop ∧
      Sample.triedOne.node.SendsTo fw'.node
        (Sample.triedOne.node.arrival ⟨⟨256⟩, 0⟩ Sample.again) hop.face := by
  have run : Run Sample.start _ Sample.triedOne := Run.reached _ _ (by decide +kernel)
  let ingress : FaceEndpoint := ⟨⟨256⟩, 0⟩
  obtain ⟨info, hinfo⟩ := Option.isSome_iff_exists.mp
    (show (Sample.triedOne.node.faces.info? ingress.face).isSome = true by decide +kernel)
  have hscope : info.isLocal = true ∨ Sample.again.name.isLocalhost = false := .inr (by decide)
  have hnew : ¬ Sample.triedOne.node.Loops ⟨20⟩ info ingress.face Sample.again :=
    (turnsAway_iff hinfo hscope).not.mp (by decide +kernel)
  have hrepeated : (Sample.triedOne.node.tables.pit.get? ⟨0, 0⟩).any Sample.IsRepeated = true := by
    decide +kernel
  obtain ⟨old, hget, hentry⟩ := (Option.any_eq_true _ _).mp hrepeated
  simp only [Sample.IsRepeated, Bool.and_eq_true, Bool.not_eq_true', List.isEmpty_eq_false_iff,
    decide_eq_true_eq] at hentry
  obtain ⟨⟨⟨hselectors, hwaiting⟩, hdecide⟩, hroute⟩ := hentry
  obtain ⟨hchoice, -⟩ := best_route_choice (s := {}) run.reachable
  obtain ⟨fw', _, token, e, hreceive, hopens, -, hasked⟩ := hchoice ⟨20⟩ ingress info Sample.again
    hinfo hscope hnew rfl (show _ = some (Strategy.bestRoute {}) by rfl)
  have hsame : e = old := by
    cases hopens.finds with
    | old hfound =>
        have hlisted := Arena.mem_tokens.mpr ⟨e, hfound⟩
        have honly : Sample.triedOne.node.tables.pit.tokens = [⟨0, 0⟩] := by decide +kernel
        rw [honly, List.mem_singleton] at hlisted
        rw [hlisted, hget] at hfound
        exact (Option.some.inj hfound).symm
    | new _ hnone _ => cases hselectors.symm.trans (hnone _ old hget)
  subst hsame
  obtain ⟨hop, hpicks, hsends⟩ := (hasked (.inl hwaiting)).sent (by rw [hdecide]; nofun)
    ⟨_, .of_any hinfo hroute (by decide +kernel)⟩
  rw [hdecide] at hpicks
  exact ⟨info, fw', e, hop, run.reachable, hinfo, hnew, hreceive, hdecide, hpicks, hsends⟩

end NamedData
