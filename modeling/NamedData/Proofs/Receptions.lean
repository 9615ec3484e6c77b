import NamedData.Proofs.Entries
import NamedData.Proofs.Sendings

/-!
What becomes of an Interest that comes in. It is turned away, with an answer at most and without
anybody beginning or ceasing to wait; or it waits in an entry, where it takes the place of the
earlier Interest of its face, and then is sent on or handed back. Where it may be sent is a matter of
its tag or, without one, of the next hops of the Interest that the entry was made for.
-/

namespace NamedData

open Forwarder

/-! ### Routes -/

/-- The next hops of an Interest by its own hint and name. Unless its hint is empty or points into a
region of the node, they are those of the first delegation that has any; otherwise, and if no
delegation has any, they are those of the name. -/
def Node.route (n : Node) (i : Interest) : List NextHop :=
  if i.forwardingHint ≠ [] ∧ n.regions.reaches i.forwardingHint = false then
    ((i.forwardingHint.map n.tables.nextHops).find? fun hops => !hops.isEmpty).getD
      (n.tables.nextHops i.name)
  else n.tables.nextHops i.name

/-- An entry is routed by the Interest that it was made for. -/
theorem Focus.nextHops_eq_route (f : Focus) : f.nextHops = f.node.route f.entry.interest := by
  rw [Focus.nextHops, Node.route]
  cases hreaches : f.node.regions.reaches f.entry.interest.forwardingHint with
  | true => simp
  | false =>
      by_cases hempty : f.entry.interest.forwardingHint = []
      · simp [hempty]
      · simp [hempty]

/-- The route of an Interest depends on its hint and its name only. -/
theorem Node.route_congr {n : Node} {i j : Interest} (hhint : i.forwardingHint = j.forwardingHint)
    (hname : i.name = j.name) : n.route i = n.route j := by
  rw [route, route, hhint, hname]

/-- Changes that leave the next hops of every name and the regions alone leave the routes alone. -/
theorem Node.route_of_tables {n m : Node} (htables : m.tables.nextHops = n.tables.nextHops)
    (hregions : m.regions = n.regions) (i : Interest) : m.route i = n.route i := by
  rw [route, route, htables, hregions]

/-! ### An Interest that waits -/

namespace PitEntry

theorem find?_upsert {ρ : Type} {isOld : ρ → Bool} {record : ρ} (h : isOld record = true)
    (l : List ρ) : (upsert isOld record l).find? isOld = some record := by
  induction l with
  | nil => simp [upsert, h]
  | cons r rest ih =>
      cases hold : isOld r <;> simp [upsert, hold, h, ih]

/-- The record of a face is that of the Interest that came in from it. -/
theorem inRecord?_recordIn (e : PitEntry) (ingress : FaceEndpoint) (interest : Interest)
    (now : Timestamp) : (e.recordIn ingress interest now).inRecord? ingress.face =
      some (inRecordOf ingress interest now) := by
  rw [inRecord?, recordIn]
  exact find?_upsert (by simp) e.inRecords

end PitEntry

namespace Focus

/-- What comes of an Interest that waits in the entry at hand: copies of it go to faces that there
are, or the Interest of the face that it came from is handed back. -/
inductive Passes (ingress : FaceEndpoint) (interest : Interest) (f f' : Focus) : Prop where
  | sent (hin : f'.entry.inRecords = f.entry.inRecords)
      (hsent : Extends f.node.journal.sent f'.node.journal.sent fun t =>
        t.packet = .interest interest.untagged ∧ f.node.faces.contains t.peer.face = true ∧
          (interest.nextHopFace = some t.peer.face ∨
            interest.nextHopFace = none ∧ ∃ hop ∈ f.nextHops, hop.face = t.peer.face))
  | refused {r : InRecord} {reason : NackReason} {isTaken : Bool}
      (hr : f.entry.inRecord? ingress.face = some r)
      (hin : f'.entry.inRecords = f.entry.inRecords.eraseP fun r => r.face = ingress.face)
      (hsent : f'.node.journal.sent = f.node.journal.sent ++
        [⟨ingress, .nack { interest := r.interest.untagged, reason }, isTaken⟩])

variable {f f' : Focus} {ingress : FaceEndpoint} {interest : Interest}

theorem Passes.idle (hentry : f'.entry.inRecords = f.entry.inRecords)
    (hsent : f'.node.journal.sent = f.node.journal.sent) : f.Passes ingress interest f' :=
  .sent hentry (.of_eq hsent)

theorem passes_say (f : Focus) (notice : Notice) : f.Passes ingress interest (f.say notice) :=
  .idle rfl rfl

theorem passes_rejectNoRoute (f : Focus) (ingress : FaceEndpoint) (interest : Interest) :
    f.Passes ingress interest (f.rejectNoRoute ingress) := by
  let said := f.say (.noEligibleNextHop f.entry.name)
  have hreject : f.rejectNoRoute ingress = (said.sendNack ingress .noRoute).reject := rfl
  rw [hreject]
  rcases said.sendNack_cases ingress .noRoute with
    ⟨notice, hsay⟩ | ⟨info, r, hinfo, _, hrecord, hsent⟩
  · rw [hsay]
    exact .idle rfl rfl
  · obtain ⟨isTaken, hlist⟩ := Node.sent_transmit
      (n := said.node.say (.outgoingNack ingress.face f.entry.name .noRoute .sent)) hinfo
      (.nack { interest := r.interest.untagged, reason := .noRoute })
    rw [hsent]
    exact .refused hrecord rfl hlist

/-- A copy of the Interest goes out of a face. -/
theorem records_sendInterest {egress : FaceId} {info : FaceInfo}
    (hinfo : f.node.faces.info? egress = some info) (interest : Interest) :
    (f.sendInterest { face := egress } interest).entry.inRecords = f.entry.inRecords := by
  rw [sendInterest_of_known (FaceTable.contains_of_info? hinfo)]
  rfl

theorem passes_followTag {hop : FaceId} (htag : interest.nextHopFace = some hop) (f : Focus) :
    f.Passes ingress interest (followTag interest hop f) := by
  rw [followTag]
  split
  next hknown =>
    obtain ⟨info, hinfo⟩ := Option.isSome_iff_exists.mp (FaceTable.contains_eq _ _ ▸ hknown)
    obtain ⟨isTaken, hsent⟩ :=
      sent_sendInterest (f := f.say (.nextHopTag interest.name hop true)) hinfo interest
    exact .sent (records_sendInterest (f := f.say _) hinfo interest)
      (.one hsent ⟨rfl, hknown, .inl htag⟩)
  next => exact f.passes_say _

end Focus

open Focus in
theorem BestRoute.passes_afterInterest (s : Suppression) {interest : Interest}
    (htag : interest.nextHopFace = none) (ingress : FaceEndpoint) (f : Focus) :
    f.Passes ingress interest (afterInterest s interest ingress f) := by
  simp only [afterInterest]
  split
  · exact f.passes_say _
  · split
    · exact .idle rfl rfl
    next info hinfo =>
      split
      next hop hchosen =>
        obtain ⟨hroute, egressInfo, hegress, -⟩ := mem_eligibleHops.mp (choose_mem hchosen)
        let marked := (f.say (.bestRouteChosen ingress.face interest.name hop.face
          (s.decide f.entry f.node.now ≠ .new))).onEntry
            fun e => e.recordForwarded (s.decide f.entry f.node.now) f.node.now
        obtain ⟨isTaken, hsent⟩ := sent_sendInterest (f := marked) hegress interest
        exact .sent (records_sendInterest (f := marked) hegress interest)
          (.one hsent ⟨rfl, FaceTable.contains_of_info? hegress, .inr ⟨htag, hop, hroute, rfl⟩⟩)
      · split
        · exact f.passes_rejectNoRoute ingress interest
        · exact f.passes_say _

open Focus in
/-- One copy of the Interest goes to each of the next hops, in their order. -/
theorem Multicast.sent_sendToAll (interest : Interest) (ingress : FaceId) {hops : List NextHop}
    {f : Focus} (hknown : ∀ hop ∈ hops, ∃ info, f.node.faces.info? hop.face = some info) :
    (sendToAll f interest ingress hops).entry.inRecords = f.entry.inRecords ∧
      ∃ new, (sendToAll f interest ingress hops).node.journal.sent = f.node.journal.sent ++ new ∧
        new.map (fun t => (t.peer, t.packet)) =
          hops.map fun hop => ({ face := hop.face }, .interest interest.untagged) := by
  induction hops generalizing f with
  | nil => exact ⟨rfl, [], (List.append_nil _).symm, rfl⟩
  | cons hop rest ih =>
      obtain ⟨info, hinfo⟩ := hknown hop List.mem_cons_self
      let said := f.say (.multicastTo ingress interest.name hop.face)
      let next := said.sendInterest { face := hop.face } interest
      have hrest : ∀ other ∈ rest, ∃ info, next.node.faces.info? other.face = some info := by
        intro other member
        rw [(said.keeps_sendInterest _ interest).info?]
        exact hknown other (List.mem_cons_of_mem hop member)
      obtain ⟨isTaken, hfirst⟩ := sent_sendInterest (f := said) hinfo interest
      obtain ⟨hin, new, hlater, hnew⟩ := ih hrest
      let copy : Transmission := ⟨{ face := hop.face }, .interest interest.untagged, isTaken⟩
      refine ⟨hin.trans (records_sendInterest (f := said) hinfo interest), copy :: new, ?_, ?_⟩
      · exact hlater.trans ((congrArg (· ++ new) hfirst).trans (List.append_assoc _ _ _))
      · rw [List.map_cons, List.map_cons, hnew]

open Focus in
theorem Multicast.passes_afterInterest (s : Suppression) {interest : Interest}
    (htag : interest.nextHopFace = none) (ingress : FaceEndpoint) (f : Focus) :
    f.Passes ingress interest (afterInterest s interest ingress f) := by
  simp only [afterInterest]
  split
  · exact f.passes_say _
  · split
    · exact .idle rfl rfl
    next info hinfo =>
      split
      · split
        · exact .idle rfl rfl
        · exact f.passes_rejectNoRoute ingress interest
      · let marked := f.onEntry
          fun e => e.recordForwarded (s.decide f.entry f.node.now) f.node.now
        have hknown : ∀ hop ∈ f.eligibleHops info interest,
            ∃ info, marked.node.faces.info? hop.face = some info := by
          intro hop member
          obtain ⟨-, egressInfo, hegress, -⟩ := mem_eligibleHops.mp member
          exact ⟨egressInfo, hegress⟩
        obtain ⟨hin, new, hsent, hnew⟩ := sent_sendToAll interest ingress.face hknown
        refine .sent hin ⟨new, hsent, fun t ht => ?_⟩
        have hcopy := List.mem_map_of_mem (f := fun t : Transmission => (t.peer, t.packet)) ht
        rw [hnew] at hcopy
        obtain ⟨hop, member, heq⟩ := List.mem_map.mp hcopy
        obtain ⟨hpeer, hpacket⟩ := Prod.mk.inj heq
        have hface : hop.face = t.peer.face := congrArg FaceEndpoint.face hpeer
        obtain ⟨hroute, egressInfo, hegress, -⟩ := mem_eligibleHops.mp member
        exact ⟨hpacket.symm, hface ▸ FaceTable.contains_of_info? hegress,
          .inr ⟨htag, hop, hroute, hface⟩⟩

theorem Forwarder.GoesOn.passes {ingress : FaceEndpoint} {interest : Interest} {f f' : Focus}
    (h : GoesOn ingress interest f f') : f.Passes ingress interest f' := by
  rcases h with ⟨hop, htag, rfl⟩ | ⟨htag, b, rfl⟩
  · exact Focus.passes_followTag htag f
  · cases b with
    | bestRoute s => exact BestRoute.passes_afterInterest s htag ingress f
    | multicast s => exact Multicast.passes_afterInterest s htag ingress f

/-! ### The whole pipeline -/

/-- An Interest as the node goes on with it after it came in. -/
def Node.arrival (n : Node) (ingress : FaceEndpoint) (i : Interest) : Interest :=
  i.arrived ingress.face (hintLeft n.regions i)

/-- Who waits in the entry of a token; nobody if there is no entry. -/
def Node.waitingIn (n : Node) (token : PitToken) : List InRecord :=
  ((n.tables.pit.get? token).map PitEntry.inRecords).getD []

theorem Node.waitingIn_of_get? {n : Node} {token : PitToken} {e : PitEntry}
    (h : n.tables.pit.get? token = some e) : n.waitingIn token = e.inRecords := by
  rw [waitingIn, h]
  rfl

theorem Node.waitingIn_of_none {n : Node} {token : PitToken}
    (h : n.tables.pit.get? token = none) : n.waitingIn token = [] := by
  rw [waitingIn, h]
  rfl

theorem Node.waitingIn_congr {n m : Node} {token : PitToken}
    (h : m.tables.pit.get? token = n.tables.pit.get? token) :
    m.waitingIn token = n.waitingIn token := by
  rw [waitingIn, h, waitingIn]

theorem Node.mem_waitingIn {n : Node} {token : PitToken} {r : InRecord} :
    r ∈ n.waitingIn token ↔ ∃ e, n.tables.pit.get? token = some e ∧ r ∈ e.inRecords := by
  cases hget : n.tables.pit.get? token with
  | none => simp [waitingIn_of_none hget]
  | some e => simp [waitingIn_of_get? hget]

namespace Forwarder

/-- An entry was there before an Interest came in, or it is made for the Interest and has nobody
waiting yet. -/
inductive Finds (n : Node) (token : PitToken) (e : PitEntry) (interest : Interest) : Prop where
  | old (hget : n.tables.pit.get? token = some e)
  | new (hfree : n.tables.pit.get? token = none)
      (hnone : ∀ u e', n.tables.pit.get? u = some e' → e'.interest.sameSelectors interest = false)
      (hentry : e = { interest := interest.untagged })

theorem Finds.waitingIn {n : Node} {token : PitToken} {e : PitEntry} {interest : Interest}
    (h : Finds n token e interest) : n.waitingIn token = e.inRecords := by
  cases h with
  | old hget => exact Node.waitingIn_of_get? hget
  | new hfree _ hentry => rw [Node.waitingIn_of_none hfree, hentry]

/-- An entry that was not there before was made for the Interest. -/
theorem Finds.made {n : Node} {pit : Arena PitEntry} {token u : PitToken} {e e' e'' : PitEntry}
    {interest : Interest} (h : Finds n token e interest) (hget : pit.get? token = some e')
    (hkept : e'.interest = e.interest)
    (hothers : ∀ u, u ≠ token → pit.get? u = n.tables.pit.get? u)
    (hget' : pit.get? u = some e'') (hfree : n.tables.pit.get? u = none) :
    e''.interest = interest.untagged := by
  by_cases hown : u = token
  · subst hown
    rw [Option.some.inj (hget'.symm.trans hget), hkept]
    cases h with
    | old hold => cases hold.symm.trans hfree
    | new _ _ hentry => rw [hentry]
  · cases hget'.symm.trans ((hothers u hown).trans hfree)

/-- An Interest waits in an entry from now on, in the place of the earlier one of its face, and is
sent on; or it waited there and is handed back at once. -/
structure TakesIn (fw fw' : Forwarder) (ingress : FaceEndpoint) (interest : Interest)
    (now : Timestamp) (token : PitToken) (e e' : PitEntry) : Prop where
  misses : fw.node.counters.storeMisses < fw'.node.counters.storeMisses
  finds : Finds fw.node token e interest
  same : e.interest.sameSelectors interest = true
  after : fw'.node.tables.pit.get? token = some e'
  kept : e'.interest = e.interest
  others : ∀ u, u ≠ token → fw'.node.tables.pit.get? u = fw.node.tables.pit.get? u
  goesOn :
    (e'.inRecords = (e.recordIn ingress interest now).inRecords ∧
      Extends fw.node.journal.sent fw'.node.journal.sent fun t =>
        t.packet = .interest interest.untagged ∧ fw.node.faces.contains t.peer.face = true ∧
          (interest.nextHopFace = some t.peer.face ∨ interest.nextHopFace = none ∧
            ∃ hop ∈ fw.node.route e.interest, hop.face = t.peer.face)) ∨
    (e'.inRecords =
        (e.recordIn ingress interest now).inRecords.eraseP (fun r => r.face = ingress.face) ∧
      ∃ reason isTaken, fw'.node.journal.sent = fw.node.journal.sent ++
        [⟨ingress, .nack { interest := interest.untagged, reason }, isTaken⟩])

/-- What becomes of an Interest that comes in. If it is turned away after all, it may leave an entry
that was made for it. -/
inductive Reception (fw : Forwarder) (now : Timestamp) (ingress : FaceEndpoint) (i : Interest)
    (fw' : Forwarder) : Prop where
  | turnedAway (hmisses : fw'.node.counters.storeMisses = fw.node.counters.storeMisses)
      (hsent : Extends fw.node.journal.sent fw'.node.journal.sent fun t =>
        t.packet.isAnswer = true)
      (hwaiting : ∀ token, fw'.node.waitingIn token = fw.node.waitingIn token)
      (hmade : ∀ token e, fw'.node.tables.pit.get? token = some e →
        fw.node.tables.pit.get? token = none →
          e.interest = (fw.node.arrival ingress i).untagged)
  | takenIn {token : PitToken} {e e' : PitEntry}
      (htaken : TakesIn fw fw' ingress (fw.node.arrival ingress i) now token e e')

variable {fw fw' : Forwarder} {now : Timestamp} {ingress : FaceEndpoint} {i : Interest}

/-- Work on an entry that leaves its records alone changes nobody's waiting. -/
theorem waitingIn_release {n : Node} {token : PitToken} {e : PitEntry} {f : Focus}
    (hget : n.tables.pit.get? token = some e) (hkeeps : Focus.Keeps ⟨n, token, e⟩ f)
    (hin : f.entry.inRecords = e.inRecords) (u : PitToken) :
    f.release.waitingIn u = n.waitingIn u := by
  have hlive : Focus.Live ⟨n, token, e⟩ := ⟨e, hget, rfl⟩
  by_cases hown : u = token
  · subst hown
    have hself := Focus.get?_release_self (hkeeps.live hlive)
    rw [hkeeps.token] at hself
    rw [Node.waitingIn_of_get? hself, hin, Node.waitingIn_of_get? hget]
  · have hother := hkeeps.get?_release_of_ne hlive hown
    rw [Node.release_focus hget] at hother
    exact Node.waitingIn_congr hother

/-- The entry of an Interest is found, or it is made and changes nothing else. -/
theorem finds_findOrInsert {n : Node} (hindexed : n.tables.Indexed) {arrived : Interest}
    {token : PitToken} {isNew : Bool} {tables : Tables} {e : PitEntry}
    (hfound : n.tables.findOrInsert arrived = .ok ((token, isNew), tables))
    (hget : tables.pit.get? token = some e) :
    Finds n token e arrived ∧ e.interest.sameSelectors arrived = true ∧
      (∀ u, u ≠ token → tables.pit.get? u = n.tables.pit.get? u) ∧
      ∀ u, Node.waitingIn { n with tables } u = n.waitingIn u := by
  rcases Tables.findOrInsert_eq_ok hfound with ⟨-, rfl, hfind⟩ | ⟨pit, -, hfind, hinsert, rfl⟩
  · obtain ⟨e', hget', hsame⟩ := Tables.findPending_eq_some hfind
    have hentry : e' = e := Option.some.inj (hget'.symm.trans hget)
    exact ⟨.old hget, hentry ▸ hsame, fun _ _ => rfl, fun _ => rfl⟩
  · have hpit : ∀ u, pit.get? u = if u = token then some { interest := arrived.untagged }
        else n.tables.pit.get? u := Arena.get?_insert hinsert
    have hfree := Arena.get?_of_insert hinsert
    have hentry : e = { interest := arrived.untagged } := by
      have hself := hpit token
      rw [if_pos rfl] at hself
      exact Option.some.inj (Eq.trans (Eq.symm hget) hself)
    refine ⟨.new hfree (hindexed.none_of_findPending hfind) hentry, ?_, ?_, ?_⟩
    · rw [hentry]
      simp [Interest.sameSelectors, Interest.untagged]
    · intro u hu
      exact (hpit u).trans (if_neg hu)
    · intro u
      by_cases hown : u = token
      · subst hown
        rw [Node.waitingIn_of_none hfree]
        exact (Node.waitingIn_of_get? hget).trans (by rw [hentry])
      · have hsame : pit.get? u = n.tables.pit.get? u := (hpit u).trans (if_neg hown)
        simp only [Node.waitingIn]
        exact congrArg (fun o => (Option.map PitEntry.inRecords o).getD []) hsame

theorem reception_missed (h : fw.Valid) {m : Node} {token : PitToken} {isNew : Bool}
    {tables : Tables} {e : PitEntry} {f : Focus} {store : ContentStore} {arrived : Interest}
    (hquiet : (noteInterest now ingress i fw.node).Quiet m)
    (hmisses : m.counters.storeMisses = fw.node.counters.storeMisses)
    (hfound : m.tables.findOrInsert arrived = .ok ((token, isNew), tables))
    (hget : tables.pit.get? token = some e)
    (hmoves : (awaitData ingress arrived ⟨noteMiss arrived { m with tables }, token, e⟩).Moves f)
    (hgoesOn : GoesOn ingress arrived
      (awaitData ingress arrived ⟨noteMiss arrived { m with tables }, token, e⟩) f) :
    TakesIn fw { fw with node := f.release, store } ingress arrived now token e f.entry := by
  have hindexed : m.tables.Indexed := hquiet.tables ▸ h.node.indexed
  obtain ⟨hfinds, hsame, hothers, -⟩ := finds_findOrInsert hindexed hfound hget
  let waiting := awaitData ingress arrived ⟨noteMiss arrived { m with tables }, token, e⟩
  have hkeeps : Focus.Keeps ⟨{ m with tables }, token, e⟩ f := keeps_of_missed hmoves
  have hlive : Focus.Live ⟨{ m with tables }, token, e⟩ := ⟨e, hget, rfl⟩
  have hnow : m.now = now := hquiet.now
  have hpit : m.tables.pit = fw.node.tables.pit := congrArg Tables.pit hquiet.tables
  have hstart : waiting.node.journal.sent = fw.node.journal.sent := hquiet.sent
  have hcontains : waiting.node.faces.contains = fw.node.faces.contains :=
    FaceTable.contains_congr hquiet.info?
  have hroute : waiting.nextHops = fw.node.route e.interest := by
    have hhops : tables.nextHops = fw.node.tables.nextHops :=
      (Tables.nextHops_findOrInsert hindexed hfound).trans
        (congrArg Tables.nextHops hquiet.tables)
    exact (Focus.nextHops_eq_route waiting).trans
      (Node.route_of_tables (n := fw.node) (m := waiting.node) hhops hquiet.regions e.interest)
  have hafter := Focus.get?_release_self (hkeeps.live hlive)
  rw [hkeeps.token] at hafter
  refine ⟨?_, ?_, hsame, hafter, hkeeps.interest, ?_, ?_⟩
  · have hcount : m.counters.storeMisses + 1 ≤ f.node.counters.storeMisses :=
      hmoves.keeps.storeMisses
    exact hmisses ▸ hcount
  · cases hfinds with
    | old hold => exact .old (hpit ▸ hold)
    | new hfree hnone hentry => exact .new (hpit ▸ hfree) (hpit ▸ hnone) hentry
  · intro u hu
    have hkept := hkeeps.get?_release_of_ne hlive hu
    rw [Node.release_focus (n := { m with tables }) hget] at hkept
    exact (hkept.trans (hothers u hu)).trans (by rw [hpit])
  · have hrecord : waiting.entry.inRecords = (e.recordIn ingress arrived now).inRecords :=
      congrArg (fun t => (e.recordIn ingress arrived t).inRecords) hnow
    rcases hgoesOn.passes with ⟨hin, hsent⟩ | ⟨hr, hin, hsent⟩
    · left
      rw [hcontains, hroute, hstart] at hsent
      exact ⟨hin.trans hrecord, hsent⟩
    · right
      have hown : waiting.entry.inRecord? ingress.face =
          some (PitEntry.inRecordOf ingress arrived m.now) :=
        PitEntry.inRecord?_recordIn e ingress arrived m.now
      rw [hown, Option.some.injEq] at hr
      subst hr
      exact ⟨hin.trans (by rw [hrecord]), _, _, hsent.trans (by rw [hstart]; rfl)⟩

/-- No entry was even looked for. -/
theorem reception_of_tables {n : Node} (htables : n.tables = fw.node.tables)
    (hmisses : n.counters.storeMisses = fw.node.counters.storeMisses)
    (hsent : Extends fw.node.journal.sent n.journal.sent fun t => t.packet.isAnswer = true) :
    Reception fw now ingress i { fw with node := n } := by
  refine .turnedAway hmisses hsent ?_ ?_
  · exact fun token => Node.waitingIn_congr (by rw [htables])
  · intro token e hget hfree
    have hkept : n.tables.pit.get? token = none := by rwa [htables]
    cases hkept.symm.trans hget

/-- An entry was found or made, but nobody's waiting changed. -/
theorem reception_of_entry (h : fw.Valid) {m : Node} {token : PitToken} {isNew : Bool}
    {tables : Tables} {e : PitEntry} {f : Focus} {store : ContentStore}
    (hsame : m.tables = fw.node.tables)
    (hfound : m.tables.findOrInsert (fw.node.arrival ingress i) = .ok ((token, isNew), tables))
    (hget : tables.pit.get? token = some e) (hkeeps : Focus.Keeps ⟨{ m with tables }, token, e⟩ f)
    (hin : f.entry.inRecords = e.inRecords)
    (hmisses : f.node.counters.storeMisses = fw.node.counters.storeMisses)
    (hsent : Extends fw.node.journal.sent f.node.journal.sent fun t => t.packet.isAnswer = true) :
    Reception fw now ingress i { fw with node := f.release, store } := by
  obtain ⟨hfinds, -, hothers, hwaiting⟩ :=
    finds_findOrInsert (hsame ▸ h.node.indexed) hfound hget
  have hpit : m.tables.pit = fw.node.tables.pit := congrArg Tables.pit hsame
  refine .turnedAway hmisses hsent ?_ ?_
  · intro u
    calc f.release.waitingIn u
        = Node.waitingIn { m with tables } u := waitingIn_release hget hkeeps hin u
      _ = m.waitingIn u := hwaiting u
      _ = fw.node.waitingIn u := Node.waitingIn_congr (by rw [hpit])
  · intro u e' hget' hfree
    obtain ⟨e₀, hget₀, hinterest⟩ := interest_release hget hkeeps hget'
    rw [← hinterest]
    exact hfinds.made hget rfl hothers hget₀ (hpit ▸ hfree)

/-- An Interest that comes in is turned away or taken in. -/
theorem receiveInterest_reception (h : fw.Valid)
    (hreceive : fw.receiveInterest now ingress i = .ok fw') : Reception fw now ingress i fw' := by
  cases receiveInterest_cases h.builtIn hreceive with
  | unknownFace n _ hquiet hmisses =>
      exact reception_of_tables hquiet.tables hmisses (.of_eq hquiet.sent)
  | dropped n info _ hmoved hsent _ hmisses =>
      exact reception_of_tables hmoved.tables hmisses (answers_nacked hsent)
  | admitted m n info hint token isNew tables e store _ hquiet hmisses hfound hget hadmission _
      hhint =>
      subst hhint
      have hsame : m.tables = fw.node.tables := hquiet.tables
      cases hadmission with
      | looped k _ hmoved hsent htold =>
          obtain ⟨notice, rfl⟩ := htold
          have hcount := congrArg Counters.storeMisses
            (counters_tellLoop ingress info (fw.node.arrival ingress i) { m with tables })
          have hkeeps : Focus.Keeps ⟨{ m with tables }, token, e⟩ ⟨_, token, e⟩ :=
            Focus.keeps_of_unmoved hmoved rfl
          exact reception_of_entry h hsame hfound hget hkeeps rfl (hcount.trans hmisses)
            (hquiet.sent ▸ answers_nacked hsent)
      | hit g data _ hempty hquietHit hmissesHit =>
          let served := g.sendData ingress { data with incomingFace := some .contentStore }
          have hcount := (Node.storeMisses_sendData g.node ingress
            { data with incomingFace := some .contentStore }).trans (hmissesHit.trans hmisses)
          have hbefore : g.node.journal.sent = fw.node.journal.sent :=
            hquietHit.node.sent.trans hquiet.sent
          have hnobody : g.entry.inRecords = [] := by
            rw [hquietHit.entry]
            exact hempty
          have hin : served.entry.inRecords = e.inRecords := by
            have hafter : served.entry.inRecords =
                g.entry.inRecords.eraseP fun r => r.face = ingress.face := rfl
            rw [hafter, hnobody, hempty]
            rfl
          exact reception_of_entry h hsame hfound hget (keeps_of_hit hquietHit ingress _) hin hcount
            (hbefore ▸ answers_sendData g.node ingress _)
      | missed f _ hanswer hgoesOn =>
          exact .takenIn (reception_missed h hquiet hmisses hfound hget hanswer.moves hgoesOn)

end Forwarder

end NamedData
