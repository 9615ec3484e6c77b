import NamedData.Proofs.HopChoices
import NamedData.Proofs.LoopSuppression
import NamedData.Proofs.NewNextHops

/-!
Where the multicast strategy sends an Interest. Each next hop that may have it gets one copy, and no
other face does. A face that becomes a next hop while an Interest waits gets one copy at most: that
of the first who waits from whom it may go there, unless the face may still answer an earlier one.
-/

namespace NamedData

open Forwarder

/-- One copy of the Interest is sent to each of the next hops, in their order, and nothing else. -/
def Node.SendsToEach (n m : Node) (i : Interest) (hops : List NextHop) : Prop :=
  ∃ new, m.journal.sent = n.journal.sent ++ new ∧
    new.map (fun t => (t.peer, t.packet)) =
      hops.map fun hop => ({ face := hop.face }, .interest i.untagged)

namespace Multicast

/-- What the strategy makes of an entry when it is asked about an Interest. A suppressed one is only
noted. Any other is sent to all next hops that may have it, the cheapest first. If there are none it
is handed back and the entry is due, unless a face may still answer. -/
structure Spreads (ingress : FaceEndpoint) (info : FaceInfo) (i : Interest)
    (decision : RetransmissionDecision) (f f' : Focus) : Prop where
  suppressed : decision = .suppress → f' = f.say (.suppressed ingress.face i.name)
  sent : decision ≠ .suppress → (∃ hop, f.node.Offers info i f.entry hop) → ∃ hops,
    (∀ hop, hop ∈ hops ↔ f.node.Offers info i f.entry hop) ∧
      hops.Pairwise (fun a b => a.before b = true) ∧ (hops.map NextHop.face).Nodup ∧
      f.node.SendsToEach f'.node i hops
  refused : decision ≠ .suppress → (∀ hop, ¬ f.node.Offers info i f.entry hop) →
    f.entry.hasPendingOutRecords f.node.now = false → f' = f.rejectNoRoute ingress
  idle : decision ≠ .suppress → (∀ hop, ¬ f.node.Offers info i f.entry hop) →
    f.entry.hasPendingOutRecords f.node.now = true → f' = f

/-- What that comes to when the pipeline asks about an Interest that waits in the entry at hand. -/
structure Acts (n : Node) (now : Timestamp) (ingress : FaceEndpoint) (info : FaceInfo)
    (i : Interest) (token : PitToken) (e : PitEntry) (decision : RetransmissionDecision)
    (f : Focus) (m : Node) : Prop where
  suppressed : decision = .suppress → m = (f.say (.suppressed ingress.face i.name)).release
  sent : decision ≠ .suppress → (∃ hop, n.Offers info i e hop) → ∃ hops,
    (∀ hop, hop ∈ hops ↔ n.Offers info i e hop) ∧
      hops.Pairwise (fun a b => a.before b = true) ∧ (hops.map NextHop.face).Nodup ∧
      n.SendsToEach m i hops
  refused : decision ≠ .suppress → (∀ hop, ¬ n.Offers info i e hop) →
    e.hasPendingOutRecords now = false → n.FindsNoRoute m now ingress info i token
  idle : decision ≠ .suppress → (∀ hop, ¬ n.Offers info i e hop) →
    e.hasPendingOutRecords now = true → m = f.release

/-! ### An Interest that is asked about -/

section Asked

variable {ingress : FaceEndpoint} {info : FaceInfo} {i : Interest} {f : Focus} {s : Suppression}
  {decision : RetransmissionDecision}

theorem afterInterest_eq_say (h : s.decide f.entry f.node.now = .suppress) :
    afterInterest s i ingress f = f.say (.suppressed ingress.face i.name) := by
  rw [afterInterest]
  exact if_pos h

theorem afterInterest_of_sent (hdecide : s.decide f.entry f.node.now = decision)
    (hsent : decision ≠ .suppress) (hinfo : f.node.faces.info? ingress.face = some info) :
    afterInterest s i ingress f =
      if (f.eligibleHops info i).isEmpty then
        if f.entry.hasPendingOutRecords f.node.now then f else f.rejectNoRoute ingress
      else
        sendToAll (f.onEntry fun e => e.recordForwarded decision f.node.now) i ingress.face
          (f.eligibleHops info i) := by
  subst hdecide
  rw [afterInterest]
  simp only [if_neg hsent, hinfo]

theorem sendsToEach_afterInterest (hdecide : s.decide f.entry f.node.now = decision)
    (hsent : decision ≠ .suppress) (hinfo : f.node.faces.info? ingress.face = some info)
    (hsome : ∃ hop, f.node.Offers info i f.entry hop) :
    f.node.SendsToEach (afterInterest s i ingress f).node i (f.eligibleHops info i) := by
  have hany : (f.eligibleHops info i).isEmpty = false := by
    obtain ⟨hop, hoffers⟩ := hsome
    rw [List.isEmpty_eq_false_iff]
    exact List.ne_nil_of_mem (Focus.mem_eligibleHops_offers.mpr hoffers)
  let marked := f.onEntry fun e => e.recordForwarded decision f.node.now
  have hknown : ∀ hop ∈ f.eligibleHops info i,
      ∃ egress, marked.node.faces.info? hop.face = some egress := by
    intro hop member
    obtain ⟨-, egress, hegress, -⟩ := Focus.mem_eligibleHops.mp member
    exact ⟨egress, hegress⟩
  rw [afterInterest_of_sent hdecide hsent hinfo, hany, if_neg Bool.false_ne_true]
  exact (sent_sendToAll (f := marked) i ingress.face hknown).2

theorem afterInterest_of_no_offer (hdecide : s.decide f.entry f.node.now = decision)
    (hsent : decision ≠ .suppress) (hinfo : f.node.faces.info? ingress.face = some info)
    (hnone : ∀ hop, ¬ f.node.Offers info i f.entry hop) :
    afterInterest s i ingress f =
      if f.entry.hasPendingOutRecords f.node.now then f else f.rejectNoRoute ingress := by
  have hempty : f.eligibleHops info i = [] := List.eq_nil_iff_forall_not_mem.mpr
    fun hop member => hnone hop (Focus.mem_eligibleHops_offers.mp member)
  rw [afterInterest_of_sent hdecide hsent hinfo, hempty]
  exact if_pos rfl

/-- The strategy spreads an Interest over the next hops of any entry that it is asked about. -/
theorem spreads_afterInterest (i : Interest) (hlisted : Listed f.nextHops)
    (hinfo : f.node.faces.info? ingress.face = some info)
    (hdecide : s.decide f.entry f.node.now = decision) :
    Spreads ingress info i decision f (afterInterest s i ingress f) where
  suppressed hsuppress := afterInterest_eq_say (hdecide.trans hsuppress)
  sent hsent hsome := by
    obtain ⟨hordered, hsingle⟩ := Focus.listed_eligibleHops hlisted info i
    exact ⟨f.eligibleHops info i, fun hop => Focus.mem_eligibleHops_offers, hordered, hsingle,
      sendsToEach_afterInterest hdecide hsent hinfo hsome⟩
  refused hsent hnone hover := by
    rw [afterInterest_of_no_offer hdecide hsent hinfo hnone, hover, if_neg Bool.false_ne_true]
  idle hsent hnone hpending := by
    rw [afterInterest_of_no_offer hdecide hsent hinfo hnone, hpending, if_pos rfl]

theorem acts_afterInterest {n : Node} {now : Timestamp} {token : PitToken} {e : PitEntry}
    (s : Suppression) (h : n.Asks now ingress i token e f) (hlisted : n.tables.HopsListed)
    (hinfo : n.faces.info? ingress.face = some info) :
    Acts n now ingress info i token e (s.decide e now) f
      (afterInterest s i ingress f).release := by
  have hknown : f.node.faces.info? ingress.face = some info := (congrFun h.info?_eq _).trans hinfo
  have hpending : f.entry.hasPendingOutRecords f.node.now = e.hasPendingOutRecords now := by
    rw [PitEntry.hasPendingOutRecords, h.outRecords, h.clock, PitEntry.hasPendingOutRecords]
  obtain ⟨hsuppressed, hsent, hrefused, hidle⟩ :=
    spreads_afterInterest i (Focus.listed_nextHops h.nextHops hlisted) hknown (h.decide s)
  rw [h.offers] at hsent hrefused hidle
  rw [hpending] at hrefused hidle
  constructor
  case suppressed =>
    intro hsuppress
    rw [hsuppressed hsuppress]
  case sent =>
    intro hnot hsome
    obtain ⟨hops, hmem, hordered, hsingle, new, hlast, hnew⟩ := hsent hnot hsome
    exact ⟨hops, hmem, hordered, hsingle, new, hlast.trans (congrArg (· ++ new) h.sent), hnew⟩
  case refused =>
    intro hnot hnone hover
    rw [hrefused hnot hnone hover]
    exact h.findsNoRoute hinfo
  case idle =>
    intro hnot hnone hstill
    rw [hidle hnot hnone hstill]

end Asked

end Multicast

/-! ### A next hop that appears -/

theorem FaceTable.face_of_info? {t : FaceTable} {face : FaceId} {info : FaceInfo}
    (h : t.info? face = some info) : info.face = face := by
  obtain ⟨found, hfind, rfl⟩ := Option.map_eq_some_iff.mp h
  simpa using List.find?_some hfind

namespace Focus

/-- Somebody on another face waits, and the Interest may go from there to the face. -/
structure Vouches (f : Focus) (face : FaceId) (r : InRecord) : Prop where
  other : r.face ≠ face
  live : r.isLive f.node.now = true
  mayGo : ∃ ingress egress, f.node.faces.info? r.face = some ingress ∧
    f.node.faces.info? face = some egress ∧ Scope.MayGo ingress r.interest egress

/-- A face that is there has no copy of the Interest that it may still answer, and somebody vouches
for it. -/
structure Welcomes (f : Focus) (face : FaceId) : Prop where
  known : f.node.faces.contains face = true
  unasked : ∀ r, f.entry.outRecord? face = some r → r.isPending f.node.now = false
  vouched : ∃ r ∈ f.entry.inRecords, f.Vouches face r

variable {f : Focus} {face : FaceId} {egress : FaceInfo} {r : InRecord}

theorem vouches_iff (hegress : f.node.faces.info? face = some egress) :
    (r.face ≠ egress.face && r.isLive f.node.now && (f.node.faces.info? r.face).any fun ingress =>
      Scope.isEligible ingress r.interest egress) = true ↔ f.Vouches face r := by
  rw [Bool.and_eq_true, Bool.and_eq_true, Option.any_eq_true, decide_eq_true_eq,
    FaceTable.face_of_info? hegress]
  simp only [Scope.isEligible_iff]
  constructor
  · rintro ⟨⟨hother, hlive⟩, ingress, hingress, hmay⟩
    exact ⟨hother, hlive, ingress, egress, hingress, hegress, hmay⟩
  · rintro ⟨hother, hlive, ingress, egress', hingress, hegress', hmay⟩
    obtain rfl := Option.some.inj (hegress.symm.trans hegress')
    exact ⟨⟨hother, hlive⟩, ingress, hingress, hmay⟩

/-- The first record that vouches for a face, if the face is welcome. -/
theorem vouched?_first (h : f.vouched? face = some r) :
    f.Welcomes face ∧ ∃ earlier later, f.entry.inRecords = earlier ++ r :: later ∧
      f.Vouches face r ∧ ∀ r' ∈ earlier, ¬ f.Vouches face r' := by
  obtain ⟨egress, hegress, hchosen⟩ := Option.bind_eq_some_iff.mp h
  split at hchosen
  · cases hchosen
  next hunasked =>
    obtain ⟨hvouches, earlier, later, hsplit, hfirst⟩ := List.find?_eq_some_iff_append.mp hchosen
    refine ⟨⟨FaceTable.contains_of_info? hegress, fun record hrecord => ?_, r, ?_, ?_⟩,
      earlier, later, hsplit, ?_, fun r' hr' hr'vouches => ?_⟩
    · rw [hrecord, Option.any_some] at hunasked
      exact Bool.eq_false_iff.mpr hunasked
    · rw [hsplit]
      exact List.mem_append_right _ List.mem_cons_self
    · exact (vouches_iff hegress).mp hvouches
    · exact (vouches_iff hegress).mp hvouches
    · have hnot := hfirst r' hr'
      rw [(vouches_iff hegress).mpr hr'vouches] at hnot
      cases hnot

theorem not_welcomes_of_vouched? (h : f.vouched? face = none) : ¬ f.Welcomes face := by
  intro hwelcomes
  obtain ⟨r, hr, hvouches⟩ := hwelcomes.vouched
  obtain ⟨-, egress, -, hegress, -⟩ := hvouches.mayGo
  have hunasked : ((f.entry.outRecord? face).any fun r => r.isPending f.node.now) = false := by
    cases hrecord : f.entry.outRecord? face with
    | none => rfl
    | some record => exact hwelcomes.unasked record hrecord
  rw [vouched?, hegress, Option.bind_some, hunasked, if_neg Bool.false_ne_true,
    List.find?_eq_none] at h
  exact h r hr ((vouches_iff hegress).mpr hvouches)

end Focus

/-- A next hop that appears gets a copy of the Interest of the first who vouches for it, if it is
welcome, and otherwise nothing is done. -/
theorem Multicast.afterNewNextHop_welcomes (hop : NextHop) (f : Focus) :
    (f.Welcomes hop.face → ∃ earlier r later, f.entry.inRecords = earlier ++ r :: later ∧
      f.Vouches hop.face r ∧ (∀ r' ∈ earlier, ¬ f.Vouches hop.face r') ∧
      f.node.SendsTo (afterNewNextHop hop f).node r.interest hop.face) ∧
    (¬ f.Welcomes hop.face → afterNewNextHop hop f = f) := by
  cases hvouched : f.vouched? hop.face with
  | none =>
      refine ⟨fun hwelcomes => absurd hwelcomes (Focus.not_welcomes_of_vouched? hvouched),
        fun _ => ?_⟩
      rw [afterNewNextHop_eq, hvouched]
  | some r =>
      obtain ⟨hwelcomes, earlier, later, hsplit, hvouches, hfirst⟩ := Focus.vouched?_first hvouched
      refine ⟨fun _ => ⟨earlier, r, later, hsplit, hvouches, hfirst, ?_⟩,
        fun hnot => absurd hwelcomes hnot⟩
      obtain ⟨-, egress, -, hegress, -⟩ := hvouches.mayGo
      rw [afterNewNextHop_eq, hvouched]
      exact Focus.sent_sendInterest (f := f.say (.offeredTo f.entry.name hop.face)) hegress _

section Outcome

variable {settings : Settings} {store : ContentStore} {hash : HashFunction} {fw : Forwarder}
  {s : Suppression}

/-- An untagged Interest that is let in and does not loop, under a name of the multicast strategy,
has an entry. Unless the content store answers, it waits there, and the strategy is asked. Whatever
entry the strategy is asked about, with next hops from the state, it spreads the Interest over them.
Whatever entry waits in whatever state, a next hop that appears gets one copy if it is welcome
there. -/
theorem multicast_fan_out (reached : Reachable settings store hash fw) :
    (∀ (now : Timestamp) (ingress : FaceEndpoint) (info : FaceInfo) (i : Interest),
      fw.node.faces.info? ingress.face = some info →
      info.isLocal = true ∨ i.name.isLocalhost = false →
      ¬ fw.node.Loops now info ingress.face i → i.nextHopFace = none →
      fw.strategies[fw.node.tables.effectiveStrategy i.name]? = some (Strategy.multicast s) →
      ∃ fw' n token e, fw.receiveInterest now ingress i = .ok fw' ∧
        fw.Opens now ingress i n token e ∧
        fw.node.Asks now ingress (fw.node.arrival ingress i) token e
          (n.unanswered ingress (fw.node.arrival ingress i) token e) ∧
        (e.inRecords ≠ [] ∨ (fw.store.find (fw.node.arrival ingress i) now).1 = none →
          Multicast.Acts fw.node now ingress info (fw.node.arrival ingress i) token e
            (s.decide e now) (n.unanswered ingress (fw.node.arrival ingress i) token e)
            fw'.node)) ∧
    (∀ (ingress : FaceEndpoint) (info : FaceInfo) (i : Interest) (f : Focus),
      f.node.tables.nextHops = fw.node.tables.nextHops →
      f.node.faces.info? ingress.face = some info →
      Multicast.Spreads ingress info i (s.decide f.entry f.node.now) f
        ((Strategy.multicast s).afterInterest i ingress f)) ∧
    ∀ (hop : NextHop) (f : Focus),
      (f.Welcomes hop.face → ∃ earlier r later, f.entry.inRecords = earlier ++ r :: later ∧
        f.Vouches hop.face r ∧ (∀ r' ∈ earlier, ¬ f.Vouches hop.face r') ∧
        f.node.SendsTo ((Strategy.multicast s).afterNewNextHop hop f).node r.interest hop.face) ∧
      (¬ f.Welcomes hop.face → (Strategy.multicast s).afterNewNextHop hop f = f) := by
  have h := reached.orderly
  have hlisted : fw.node.tables.HopsListed := h.node.valid.hopsListed
  refine ⟨fun now ingress info i hinfo hscope hnew htag hstrategy => ?_,
    fun ingress info i f hsame hinfo => ?_, Multicast.afterNewNextHop_welcomes⟩
  · obtain ⟨fw', n, token, e, hreceive, hopens, hleft⟩ :=
      h.receiveInterest_asks hinfo hscope hnew htag hstrategy
    have hasks := hopens.asked (fw.node.arrival ingress i)
    refine ⟨fw', n, token, e, hreceive, hopens, hasks, fun hmiss => ?_⟩
    rw [hleft hmiss]
    exact Multicast.acts_afterInterest s hasks hlisted hinfo
  · exact Multicast.spreads_afterInterest i (Focus.listed_nextHops hsame hlisted) hinfo rfl

end Outcome

namespace Sample

/-- Under multicast, the second and the third face are next hops of the name. -/
def forked : Forwarder :=
  reached start (.addRoute ⟨1⟩ name ⟨258⟩ 1 :: .setStrategy name 1 :: threeFaces)

/-- Under multicast, the first face asked, and its Interest was sent to the second. -/
def spread : Forwarder :=
  reached start (ask ⟨2⟩ ⟨1⟩ :: .setStrategy name 1 :: threeFaces)

end Sample

/-- An Interest of the first face goes to the second and the third. If the third becomes a next hop
only when the Interest waits, it gets a copy then. -/
theorem multicast_reaches_all :
    (∃ fw' hops, Sample.forked.receiveInterest ⟨2⟩ ⟨⟨256⟩, 0⟩ Sample.again = .ok fw' ∧
      ⟨0, ⟨257⟩⟩ ∈ hops ∧ ⟨1, ⟨258⟩⟩ ∈ hops ∧
      Sample.forked.node.SendsToEach fw'.node
        (Sample.forked.node.arrival ⟨⟨256⟩, 0⟩ Sample.again) hops) ∧
    ∃ e r, Sample.spread.node.tables.pit.get? ⟨0, 0⟩ = some e ∧ r ∈ e.inRecords ∧
      Sample.spread.node.SendsTo ((Strategy.multicast {}).afterNewNextHop ⟨0, ⟨258⟩⟩
        ⟨Sample.spread.node, ⟨0, 0⟩, e⟩).node r.interest ⟨258⟩ := by
  have run : Run Sample.start _ Sample.forked := Run.reached _ _ (by decide +kernel)
  have run' : Run Sample.start _ Sample.spread := Run.reached _ _ (by decide +kernel)
  let ingress : FaceEndpoint := ⟨⟨256⟩, 0⟩
  obtain ⟨hforked, -⟩ := multicast_fan_out (s := {}) run.reachable
  obtain ⟨-, -, hspread⟩ := multicast_fan_out (s := {}) run'.reachable
  constructor
  · obtain ⟨info, hinfo⟩ := Option.isSome_iff_exists.mp
      (show (Sample.forked.node.faces.info? ingress.face).isSome = true by decide +kernel)
    have hscope : info.isLocal = true ∨ Sample.again.name.isLocalhost = false := .inr (by decide)
    have hnew : ¬ Sample.forked.node.Loops ⟨2⟩ info ingress.face Sample.again :=
      (turnsAway_iff hinfo hscope).not.mp (by decide +kernel)
    obtain ⟨fw', _, token, e, hreceive, hopens, -, hasked⟩ := hforked ⟨2⟩ ingress info Sample.again
      hinfo hscope hnew rfl (show _ = some (Strategy.multicast {}) by rfl)
    let arrival := Sample.forked.node.arrival ingress Sample.again
    have hentry : e = { interest := arrival.untagged } := by
      cases hopens.finds with
      | old hget =>
          have hlisted := Arena.mem_tokens.mpr ⟨e, hget⟩
          have hnone : Sample.forked.node.tables.pit.tokens = [] := by decide +kernel
          rw [hnone] at hlisted
          cases hlisted
      | new _ _ hentry => exact hentry
    subst hentry
    have hsecond : Sample.forked.node.Offers info arrival { interest := arrival.untagged }
        ⟨0, ⟨257⟩⟩ := .of_any hinfo (by decide +kernel) (by decide +kernel)
    have hthird : Sample.forked.node.Offers info arrival { interest := arrival.untagged }
        ⟨1, ⟨258⟩⟩ := .of_any hinfo (by decide +kernel) (by decide +kernel)
    obtain ⟨hops, hmem, -, -, hsends⟩ := (hasked (.inr rfl)).sent (by nofun) ⟨_, hsecond⟩
    exact ⟨fw', hops, hreceive, (hmem _).mpr hsecond, (hmem _).mpr hthird, hsends⟩
  · have hchosen : (Sample.spread.node.tables.pit.get? ⟨0, 0⟩).any (fun e =>
        (Focus.vouched? ⟨Sample.spread.node, ⟨0, 0⟩, e⟩ ⟨258⟩).isSome) = true := by decide +kernel
    obtain ⟨e, hget, hsome⟩ := (Option.any_eq_true _ _).mp hchosen
    obtain ⟨_, hvouched⟩ := Option.isSome_iff_exists.mp hsome
    obtain ⟨earlier, r, later, hsplit, -, -, hsends⟩ :=
      (hspread ⟨0, ⟨258⟩⟩ _).1 (Focus.vouched?_first hvouched).1
    refine ⟨e, r, hget, ?_, hsends⟩
    change r ∈ (Focus.mk Sample.spread.node ⟨0, 0⟩ e).entry.inRecords
    rw [hsplit]
    exact List.mem_append_right _ List.mem_cons_self

end NamedData
