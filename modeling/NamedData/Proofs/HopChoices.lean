import NamedData.Proofs.NackPropagation
import NamedData.Proofs.StoreAnswers

/-!
What a strategy may choose from when it is asked about an Interest. The Interest waits in its entry
by then; faces and routes are what they were before it came in, and nothing has been sent. The next
hops are those of the Interest that the entry was made for, cheapest first, and of these only such
count whose face exists and may have the Interest from the face that it came from.
-/

namespace NamedData

open Forwarder

/-! ### Where an Interest may go -/

/-- The Interest may be sent from the first face to the second: its name may go there, and it does
not go back where it came from unless the link is ad hoc. -/
structure Scope.MayGo (ingress : FaceInfo) (i : Interest) (egress : FaceInfo) : Prop where
  localhost : i.name.isLocalhost = true → egress.isLocal = true
  localhop : i.name.isLocalhop = true → egress.isLocal = true ∨ ingress.isLocal = true
  back : egress.face = ingress.face → egress.isAdHoc = true

theorem Scope.isEligible_iff {ingress egress : FaceInfo} {i : Interest} :
    isEligible ingress i egress = true ↔ MayGo ingress i egress := by
  have hparts : isEligible ingress i egress = true ↔
      (egress.face = ingress.face → egress.isAdHoc = true) ∧
        (egress.isLocal = true ∨ i.name.isLocalhost = false ∧
          (i.name.isLocalhop = true → ingress.isLocal = true)) := by
    simp [isEligible, violates, imp_iff_not_or]
  rw [hparts]
  constructor
  · rintro ⟨hback, hlocal | ⟨hhost, hhop⟩⟩
    · exact ⟨fun _ => hlocal, fun _ => .inl hlocal, hback⟩
    · refine ⟨fun h => ?_, fun h => .inr (hhop h), hback⟩
      cases hhost.symm.trans h
  · intro h
    refine ⟨h.back, ?_⟩
    by_cases hlocal : egress.isLocal = true
    · exact .inl hlocal
    · exact .inr ⟨Bool.eq_false_iff.mpr (mt h.localhost hlocal),
        fun hhop => (h.localhop hhop).resolve_left hlocal⟩

/-- A next hop of the entry whose face exists and may have the Interest. -/
def Node.Offers (n : Node) (ingress : FaceInfo) (i : Interest) (e : PitEntry) (hop : NextHop) :
    Prop :=
  hop ∈ n.route e.interest ∧
    ∃ egress, n.faces.info? hop.face = some egress ∧ Scope.MayGo ingress i egress

/-- Where an Interest may go is found by asking the face table. -/
theorem Node.Offers.of_any {n : Node} {ingress : FaceId} {info : FaceInfo} {i : Interest}
    {e : PitEntry} {hop : NextHop} (hinfo : n.faces.info? ingress = some info)
    (hroute : hop ∈ n.route e.interest)
    (heligible : (n.faces.info? hop.face).any (fun egress =>
      (n.faces.info? ingress).any fun info => Scope.isEligible info i egress) = true) :
    n.Offers info i e hop := by
  obtain ⟨egress, hegress, hany⟩ := (Option.any_eq_true _ _).mp heligible
  rw [hinfo] at hany
  exact ⟨hroute, egress, hegress, Scope.isEligible_iff.mp hany⟩

/-! ### The order of next hops -/

/-- Of the next hops with a property, the one with the lowest cost, and with the lowest face among
those. -/
def NextHop.IsFirst (P : NextHop → Prop) (hop : NextHop) : Prop :=
  P hop ∧ ∀ other, P other → other = hop ∨ hop.before other = true

theorem NextHop.not_before_of_before {a b : NextHop} (h : a.before b = true) :
    b.before a ≠ true := by
  intro hback
  have hself := before_trans h hback
  simp [before] at hself

theorem NextHop.IsFirst.unique {P : NextHop → Prop} {a b : NextHop} (ha : IsFirst P a)
    (hb : IsFirst P b) : a = b := by
  rcases hb.2 a ha.1 with hsame | hbefore
  · exact hsame
  · exact ((ha.2 b hb.1).resolve_right (not_before_of_before hbefore)).symm

theorem NextHop.isFirst_of_head? {hops : List NextHop} {hop : NextHop}
    (hordered : hops.Pairwise fun a b => a.before b = true) (h : hops.head? = some hop) :
    IsFirst (· ∈ hops) hop := by
  obtain ⟨rest, rfl⟩ := List.head?_eq_some_iff.mp h
  refine ⟨List.mem_cons_self, fun other hother => ?_⟩
  exact (List.mem_cons.mp hother).imp_right ((List.pairwise_cons.mp hordered).1 other)

theorem Tables.HopsListed.nextHops {t : Tables} (h : t.HopsListed) (n : Name) :
    Listed (t.nextHops n) := by
  rw [nextHops_eq_prefixes]
  cases hlast : ((n.inits.map fun p => (t.recordAt p).nextHops).filter
      fun hops => !hops.isEmpty).getLast? with
  | none => exact Listed.nil
  | some hops =>
      obtain ⟨hlisted, -⟩ := List.mem_filter.mp (List.mem_of_getLast? hlast)
      obtain ⟨p, -, rfl⟩ := List.mem_map.mp hlisted
      exact h p

/-- The next hops of an Interest are in order, each face once. -/
theorem Node.listed_route {n : Node} (h : ∀ p, Listed (n.tables.nextHops p)) (i : Interest) :
    Listed (n.route i) := by
  rw [route]
  split
  · cases hfind : (i.forwardingHint.map n.tables.nextHops).find? fun hops => !hops.isEmpty with
    | none => exact h i.name
    | some hops =>
        obtain ⟨p, -, rfl⟩ := List.mem_map.mp (List.mem_of_find?_eq_some hfind)
        exact h p
  · exact h i.name

/-- A strategy that filters the next hops of the entry at hand finds those where the Interest may
go. -/
theorem Focus.mem_eligibleHops_offers {f : Focus} {info : FaceInfo} {i : Interest} {hop : NextHop} :
    hop ∈ f.eligibleHops info i ↔ f.node.Offers info i f.entry hop := by
  rw [mem_eligibleHops, nextHops_eq_route]
  simp only [Scope.isEligible_iff]
  rfl

theorem Focus.listed_eligibleHops {f : Focus} (h : Listed f.nextHops) (info : FaceInfo)
    (i : Interest) : (f.eligibleHops info i).Pairwise (fun a b => a.before b = true) ∧
      ((f.eligibleHops info i).map NextHop.face).Nodup :=
  ⟨h.ordered.sublist List.filter_sublist,
    h.single.sublist (List.filter_sublist.map NextHop.face)⟩

/-- An entry at hand has its next hops from the tables. -/
theorem Focus.listed_nextHops {f : Focus} {t : Tables} (hsame : f.node.tables.nextHops = t.nextHops)
    (hlisted : t.HopsListed) : Listed f.nextHops := by
  rw [nextHops_eq_route]
  exact Node.listed_route (fun p => hsame ▸ hlisted.nextHops p) _

/-! ### A strategy that is asked -/

/-- A strategy is asked about an Interest that waits in the entry at hand. Apart from the clock, two
counts, the timer of the entry and what was said or reported, the node is as it was. -/
structure Node.Asks (n : Node) (now : Timestamp) (ingress : FaceEndpoint) (i : Interest)
    (token : PitToken) (e : PitEntry) (f : Focus) : Prop extends
    f.TakesUp now ingress i token e where
  clock : f.node.now = now
  faces : f.node.faces = n.faces
  others : ∀ u, u ≠ f.token → f.node.tables.pit.get? u = n.tables.pit.get? u
  nextHops : f.node.tables.nextHops = n.tables.nextHops
  effective : f.node.tables.effectiveStrategy = n.tables.effectiveStrategy
  regions : f.node.regions = n.regions
  deadNonces : f.node.deadNonces = n.deadNonces
  disconnected : f.node.disconnected = n.disconnected
  counters : f.node.counters = { n.counters with
    inInterests := n.counters.inInterests + 1, storeMisses := n.counters.storeMisses + 1 }
  sent : f.node.journal.sent = n.journal.sent
  live : f.Live
  timed : f.Timed

section Pipeline

variable {fw : Forwarder} {now : Timestamp} {ingress : FaceEndpoint} {info : FaceInfo}
  {i : Interest} {n : Node} {token : PitToken} {e : PitEntry} {s : Strategy}

/-- Once an Interest waits that the content store does not answer, a strategy may be asked. -/
theorem Forwarder.Opens.asked (ho : fw.Opens now ingress i n token e) (arrived : Interest) :
    fw.node.Asks now ingress arrived token e (n.unanswered ingress arrived token e) := by
  let noted : Focus := ⟨noteMiss arrived n, token, e⟩
  have hsound : noted.Sound := ho.sound_noteMiss arrived
  have hrecorded : noted.Keeps (noted.onEntry fun e => e.recordIn ingress arrived noted.node.now) :=
    Focus.keeps_onEntry rfl
  exact { ho.takesUp arrived with
    clock := ho.clock
    faces := ho.faces
    others := ho.others
    nextHops := ho.nextHops
    effective := ho.effective
    regions := ho.regions
    deadNonces := ho.deadNonces
    disconnected := ho.disconnected
    counters := congrArg (fun c => { c with storeMisses := c.storeMisses + 1 }) ho.counters
    sent := ho.sent
    live := (hrecorded.trans (Focus.keeps_setExpiry _ _)).live hsound.live
    timed := Focus.timed_setExpiry (Focus.timed_of_keeps hsound.timed hrecorded rfl rfl) _ }

/-- An Interest without a tag that the content store does not answer is left to the strategy in
effect at its name. -/
theorem Forwarder.Opens.asksStrategy (ho : fw.Opens now ingress i n token e) (h : fw.Staffed)
    (htag : i.nextHopFace = none)
    (hs : fw.strategies[fw.node.tables.effectiveStrategy i.name]? = some s) (store : ContentStore) :
    Forwarder.onStoreMiss { fw with node := n, store } ingress token (fw.node.arrival ingress i) =
      .ok { fw with
        node := (s.afterInterest (fw.node.arrival ingress i) ingress
          (n.unanswered ingress (fw.node.arrival ingress i) token e)).release
        store } := by
  let arrived := fw.node.arrival ingress i
  let waiting := n.unanswered ingress arrived token e
  have hname : waiting.entry.name = i.name := (Interest.sameSelectors_iff.mp ho.asks).1
  have heffective : waiting.node.tables.effectiveStrategy waiting.entry.name =
      fw.node.tables.effectiveStrategy i.name := by
    rw [hname]
    exact congrFun ho.effective i.name
  let opened : Forwarder := { fw with node := n, store }
  have hstaffed : opened.Staffed := ⟨h.lawful, h.hasStrategy⟩
  obtain ⟨f', hmissed, hfollows⟩ :=
    hstaffed.onStoreMiss_follows ho.here ho.focus.valid.registered ingress arrived
  rcases hfollows with ⟨hop, htagged, -⟩ | ⟨-, s', hs', rfl⟩
  · cases htag.symm.trans htagged
  · have hchosen : opened.strategies[waiting.node.tables.effectiveStrategy waiting.entry.name]? =
        some s' := hs'
    rw [heffective] at hchosen
    obtain rfl : s' = s := Option.some.inj (hchosen.symm.trans hs)
    exact hmissed

/-- An untagged Interest that is let in and does not loop has an entry. Unless nobody waits there
and the content store answers, the strategy in effect at its name is asked, and what it leaves is
what the call leaves. -/
theorem Forwarder.Orderly.receiveInterest_asks (h : fw.Orderly)
    (hinfo : fw.node.faces.info? ingress.face = some info)
    (hscope : info.isLocal = true ∨ i.name.isLocalhost = false)
    (hnew : ¬ fw.node.Loops now info ingress.face i) (htag : i.nextHopFace = none)
    (hs : fw.strategies[fw.node.tables.effectiveStrategy i.name]? = some s) :
    ∃ fw' n token e, fw.receiveInterest now ingress i = .ok fw' ∧
      fw.Opens now ingress i n token e ∧
      (e.inRecords ≠ [] ∨ (fw.store.find (fw.node.arrival ingress i) now).1 = none →
        fw'.node = (s.afterInterest (fw.node.arrival ingress i) ingress
          (n.unanswered ingress (fw.node.arrival ingress i) token e)).release) := by
  obtain ⟨n, token, e, hopens, hgoesOn⟩ := h.receiveInterest_goesOn hinfo hscope hnew
  have hmissed := hopens.asksStrategy h.toStaffed htag hs
  have hreceive := hgoesOn fw.store
  by_cases hempty : e.inRecords = []
  · rw [goOn_of_nobody _ _ _ _ hempty, hopens.clock] at hreceive
    let asked := (fw.store.find (fw.node.arrival ingress i) now).2
    cases hfound : (fw.store.find (fw.node.arrival ingress i) now).1 with
    | none =>
        rw [hfound] at hreceive
        exact ⟨_, n, token, e, hreceive.trans (hmissed asked), hopens, fun _ => rfl⟩
    | some data =>
        rw [hfound] at hreceive
        let opened : Forwarder := { fw with node := n, store := asked }
        have hstaffed : opened.Staffed := ⟨h.lawful, h.hasStrategy⟩
        obtain ⟨m, hhit, -⟩ := hstaffed.onStoreHit_orderly (e := e) hopens.here hopens.focus ingress
          (fw.node.arrival ingress i) data
        refine ⟨_, n, token, e, hreceive.trans hhit, hopens, ?_⟩
        rintro (hwaiting | hnone)
        · exact absurd hempty hwaiting
        · cases hnone
  · rw [goOn_of_somebody _ _ _ _ hempty] at hreceive
    exact ⟨_, n, token, e, hreceive.trans (hmissed fw.store), hopens, fun _ => rfl⟩

end Pipeline

/-! ### What a strategy that is asked can do -/

/-- One copy of the Interest is sent, to the given face. -/
def Node.SendsTo (n m : Node) (i : Interest) (face : FaceId) : Prop :=
  ∃ isTaken, m.journal.sent = n.journal.sent ++
    [Transmission.mk { face } (.interest i.untagged) isTaken]

/-- The Interest is handed back for want of a route, if its face has a single peer, and its entry is
due. -/
structure Node.FindsNoRoute (n m : Node) (now : Timestamp) (ingress : FaceEndpoint)
    (info : FaceInfo) (i : Interest) (token : PitToken) : Prop where
  nacked : info.isPointToPoint = true → ∃ isTaken, m.journal.sent = n.journal.sent ++
    [⟨ingress, .nack { interest := i.untagged, reason := .noRoute }, isTaken⟩]
  silent : info.isPointToPoint = false → m.journal.sent = n.journal.sent
  due : ∃ e, m.tables.pit.get? token = some e ∧ EndsAt m.timers.timers token e now

namespace Node.Asks

variable {n : Node} {now : Timestamp} {ingress : FaceEndpoint} {info : FaceInfo} {i : Interest}
  {token : PitToken} {e : PitEntry} {f : Focus}

theorem interest (h : n.Asks now ingress i token e f) : f.entry.interest = e.interest := by
  rw [h.entry]

theorem outRecords (h : n.Asks now ingress i token e f) : f.entry.outRecords = e.outRecords := by
  rw [h.entry]

/-- That the Interest waits now has no part in whether it is sent on. -/
theorem decide (h : n.Asks now ingress i token e f) (s : Suppression) :
    s.decide f.entry f.node.now = s.decide e now := by
  rw [h.clock, h.entry]
  rfl

/-- That the Interest waits now has no part in where it may go. -/
theorem offers (h : n.Asks now ingress i token e f) (info : FaceInfo) :
    f.node.Offers info i f.entry = n.Offers info i e := by
  funext hop
  have hroute : f.node.route e.interest = n.route e.interest :=
    Node.route_of_tables h.nextHops h.regions e.interest
  rw [Offers, h.interest, hroute, h.faces, Offers]

theorem info?_eq (h : n.Asks now ingress i token e f) : f.node.faces.info? = n.faces.info? :=
  congrArg FaceTable.info? h.faces

/-- The record of the face that the Interest came from is that of the Interest. -/
theorem inRecord?_ingress (h : n.Asks now ingress i token e f) :
    ∃ r, f.entry.inRecord? r.face = some r ∧ r.peer = ingress ∧ r.interest = i := by
  have hsome : (f.entry.inRecord? ingress.face).isSome := by
    rw [PitEntry.inRecord?, List.find?_isSome]
    exact ⟨_, (h.inRecords _).mpr (.inl rfl), decide_eq_true rfl⟩
  obtain ⟨r, hr⟩ := Option.isSome_iff_exists.mp hsome
  have hface : r.face = ingress.face := by simpa using List.find?_some hr
  refine ⟨r, hface ▸ hr, ?_⟩
  rcases (h.inRecords r).mp (List.mem_of_find?_eq_some hr) with rfl | ⟨-, hother⟩
  · exact ⟨rfl, rfl⟩
  · exact absurd hface hother

theorem findsNoRoute (h : n.Asks now ingress i token e f)
    (hinfo : n.faces.info? ingress.face = some info) :
    n.FindsNoRoute (f.rejectNoRoute ingress).release now ingress info i token := by
  let said := f.say (.noEligibleNextHop f.entry.name)
  let nacked := said.sendNack ingress .noRoute
  have hkeeps : f.Keeps nacked := (f.keeps_say _).trans (said.keeps_sendNack ingress .noRoute)
  have hreaches : said.node.reachesOne ingress.face = info.isPointToPoint := by
    have hknown : said.node.faces.info? ingress.face = some info :=
      (congrFun h.info?_eq _).trans hinfo
    rw [Node.reachesOne, hknown, Option.any_some]
  have hrejected : (f.rejectNoRoute ingress).release.journal.sent = nacked.node.journal.sent := rfl
  refine ⟨fun hlink => ?_, fun hlink => ?_, (nacked.setExpiry 0).entry, ?_, ?_⟩
  · obtain ⟨r, hrecord, rfl, rfl⟩ := h.inRecord?_ingress
    obtain ⟨-, isTaken, hsent⟩ :=
      said.sendNack_of_reachesOne .noRoute (hreaches.trans hlink) hrecord
    exact ⟨isTaken, hrejected.trans (hsent.trans (congrArg (· ++ _) h.sent))⟩
  · obtain ⟨notice, hsay⟩ :=
      said.sendNack_of_not_reachesOne ingress .noRoute (hreaches.trans hlink)
    rw [hrejected]
    change (said.sendNack ingress .noRoute).node.journal.sent = _
    rw [hsay]
    exact h.sent
  · have hafter := Focus.get?_release_self
      ((hkeeps.trans (Focus.keeps_setExpiry nacked 0)).live h.live)
    rwa [(hkeeps.trans (Focus.keeps_setExpiry nacked 0)).token, h.token] at hafter
  · have hkept := said.keepsTime_sendNack ingress .noRoute
    have htimed : nacked.Timed :=
      Focus.timed_of_keeps h.timed hkeeps hkept.timers hkept.timer
    have hends := Focus.endsAt_setExpiry htimed 0
    have htoken : nacked.token = token := hkeeps.token.trans h.token
    rw [Timestamp.adding_zero, hkeeps.now, h.clock] at hends
    exact htoken ▸ hends

end Node.Asks

end NamedData
