import NamedData.Proofs.LoopDecision
import NamedData.Proofs.Receptions

/-!
What becomes of an Interest that is let in and does not loop. The content store is asked only if
nobody waits in its entry. If it answers, the entry is satisfied and due, and nothing is sent but
the Data; otherwise the Interest waits in the entry, whose timer then fires when the last of those
who wait gives up, and the strategy or the tag takes over.
-/

namespace NamedData

open Forwarder

/-- The Interest was answered from the content store: its entry is satisfied and due, no other entry
changed, and nothing was sent but the Data, where it may go out of the face. -/
structure Node.AnswersFromStore (n m : Node) (now : Timestamp) (ingress : FaceEndpoint)
    (info : FaceInfo) (token : PitToken) (e : PitEntry) (data : Data) : Prop where
  entry : ∃ id, m.tables.pit.get? token = some { e with
      satisfied := true, dataFreshness := data.freshness, expiryTimer := some id } ∧
    Timer.mk now id token ∈ m.timers.timers
  others : ∀ u, u ≠ token → m.tables.pit.get? u = n.tables.pit.get? u
  answered : info.isLocal = true ∨ data.name.isLocalhost = false → ∃ isTaken,
    m.journal.sent = n.journal.sent ++
      [⟨ingress, .data { data with incomingFace := some .contentStore }, isTaken⟩]
  withheld : info.isLocal = false → data.name.isLocalhost = true →
    m.journal.sent = n.journal.sent

/-- The Interest waits in the entry at hand, which otherwise is as it was, and ends with the last of
those who wait. -/
structure Focus.TakesUp (f : Focus) (now : Timestamp) (ingress : FaceEndpoint) (i : Interest)
    (token : PitToken) (e : PitEntry) : Prop where
  token : f.token = token
  entry : f.entry = { e with
    inRecords := f.entry.inRecords, expiryTimer := f.entry.expiryTimer }
  inRecords : ∀ r, r ∈ f.entry.inRecords ↔
    r = { face := ingress.face, endpoint := ingress.endpoint, nonce := i.nonce, renewed := now
          expiry := now.adding i.lifetime, interest := i } ∨
      r ∈ e.inRecords ∧ r.face ≠ ingress.face
  endsWithLast : f.EndsWithLast

/-- The entry at hand when the content store has no answer: that is noted, and the Interest waits.
This is what the strategy or the tag works on. -/
def Node.unanswered (n : Node) (ingress : FaceEndpoint) (i : Interest) (token : PitToken)
    (e : PitEntry) : Focus :=
  awaitData ingress i ⟨noteMiss i n, token, e⟩

namespace Forwarder

variable {fw fw' : Forwarder} {now : Timestamp} {ingress : FaceEndpoint} {info : FaceInfo}
  {i : Interest} {n : Node} {token : PitToken} {e : PitEntry}

theorem Follows.unique {f f' f'' : Focus} (h : fw.Follows ingress i f f')
    (h' : fw.Follows ingress i f f'') : f' = f'' := by
  rcases h with ⟨hop, htag, rfl⟩ | ⟨htag, s, hs, rfl⟩
  · rcases h' with ⟨hop', htag', rfl⟩ | ⟨htag', -⟩
    · rw [Option.some.inj (htag.symm.trans htag')]
    · cases htag.symm.trans htag'
  · rcases h' with ⟨hop', htag', -⟩ | ⟨-, s', hs', rfl⟩
    · cases htag.symm.trans htag'
    · rw [Option.some.inj (hs.symm.trans hs')]

/-- The Interest waits in its entry, and only then is anything done with it. -/
structure Waits (fw fw' : Forwarder) (now : Timestamp) (ingress : FaceEndpoint) (i : Interest)
    (n : Node) (token : PitToken) (e : PitEntry) : Prop where
  takesUp : (n.unanswered ingress i token e).TakesUp now ingress i token e
  sent : (n.unanswered ingress i token e).node.journal.sent = fw.node.journal.sent
  goesOn : ∃ f, fw.Follows ingress i (n.unanswered ingress i token e) f ∧ fw'.node = f.release

/-- What the pipeline does with the entry of an Interest that does not loop. -/
def goOn (fw : Forwarder) (ingress : FaceEndpoint) (i : Interest) (token : PitToken)
    (e : PitEntry) : Except Fault Forwarder :=
  if e.hasInRecords then fw.onStoreMiss ingress token i
  else match fw.findStored i with
    | (some data, fw) => fw.onStoreHit ingress token i data
    | (none, fw) => fw.onStoreMiss ingress token i

theorem arrive_withStore (fw : Forwarder) (store : ContentStore) (ingress : FaceEndpoint)
    (i : Interest) : arrive { fw with store } ingress i =
      ({ (arrive fw ingress i).1 with store }, (arrive fw ingress i).2) := by
  simp only [arrive]
  split <;> rfl

theorem admitInterest_eq_goOn {isNew : Bool} {tables : Tables}
    (hfound : fw.node.tables.findOrInsert i = .ok ((token, isNew), tables))
    (hget : tables.pit.get? token = some e)
    (hloop : isLoop info (e.findNonce i.nonce ingress.face) = false) :
    fw.admitInterest ingress info i =
      goOn { fw with node := { fw.node with tables } } ingress i token e := by
  have hfocus : (fw.onNode fun n => { n with tables }).node.focus token =
      .ok ⟨{ fw.node with tables }, token, e⟩ := Node.focus_eq_ok.mpr ⟨e, hget, rfl⟩
  simp only [admitInterest, hfound, bind, Except.bind, hfocus, hloop, Bool.false_eq_true,
    ↓reduceIte]
  rfl

/-- The node has noted an Interest and has its entry at hand, which was there or was made for it.
Nothing else has changed: other entries, next hops and strategies are as they were. -/
structure Opens (fw : Forwarder) (now : Timestamp) (ingress : FaceEndpoint) (i : Interest)
    (n : Node) (token : PitToken) (e : PitEntry) : Prop where
  arrived : n = { noteAdmitted now ingress i fw.node with tables := n.tables }
  found : ∃ isNew, fw.node.tables.findOrInsert (fw.node.arrival ingress i) =
    .ok ((token, isNew), n.tables)
  finds : Finds fw.node token e (fw.node.arrival ingress i)
  asks : e.interest.sameSelectors i = true
  here : n.tables.pit.get? token = some e
  others : ∀ u, u ≠ token → n.tables.pit.get? u = fw.node.tables.pit.get? u
  nextHops : n.tables.nextHops = fw.node.tables.nextHops
  effective : n.tables.effectiveStrategy = fw.node.tables.effectiveStrategy
  focus : Focus.Orderly ⟨n, token, e⟩ fw.strategies.length

/-- Everything that can have changed when the entry is at hand. -/
theorem Opens.node_eq (ho : fw.Opens now ingress i n token e) : ∃ notices, n =
    { fw.node with
      tables := n.tables
      now
      counters := { fw.node.counters with inInterests := fw.node.counters.inInterests + 1 }
      journal := { fw.node.journal with notices := fw.node.journal.notices ++ notices } } := by
  obtain ⟨notices, hnoted⟩ := noteAdmitted_eq now ingress i fw.node
  have hnode := ho.arrived
  rw [hnoted] at hnode
  exact ⟨notices, hnode⟩

theorem Opens.faces (ho : fw.Opens now ingress i n token e) : n.faces = fw.node.faces :=
  ho.node_eq.elim fun _ hnode => by rw [hnode]

theorem Opens.regions (ho : fw.Opens now ingress i n token e) : n.regions = fw.node.regions :=
  ho.node_eq.elim fun _ hnode => by rw [hnode]

theorem Opens.deadNonces (ho : fw.Opens now ingress i n token e) :
    n.deadNonces = fw.node.deadNonces :=
  ho.node_eq.elim fun _ hnode => by rw [hnode]

theorem Opens.disconnected (ho : fw.Opens now ingress i n token e) :
    n.disconnected = fw.node.disconnected :=
  ho.node_eq.elim fun _ hnode => by rw [hnode]

theorem Opens.counters (ho : fw.Opens now ingress i n token e) : n.counters =
    { fw.node.counters with inInterests := fw.node.counters.inInterests + 1 } :=
  ho.node_eq.elim fun _ hnode => by rw [hnode]

theorem Opens.clock (ho : fw.Opens now ingress i n token e) : n.now = now :=
  ho.node_eq.elim fun _ hnode => by rw [hnode]

theorem Opens.sent (ho : fw.Opens now ingress i n token e) :
    n.journal.sent = fw.node.journal.sent :=
  ho.node_eq.elim fun _ hnode => by rw [hnode]

theorem Orderly.opens (h : fw.Orderly) {isNew : Bool} {tables : Tables}
    (hfound : fw.node.tables.findOrInsert (fw.node.arrival ingress i) =
      .ok ((token, isNew), tables))
    (hget : tables.pit.get? token = some e) :
    fw.Opens now ingress i { noteAdmitted now ingress i fw.node with tables } token e := by
  let m := noteAdmitted now ingress i fw.node
  have hquiet := quiet_noteAdmitted now ingress i fw.node
  have hsame : m.tables = fw.node.tables := hquiet.tables
  have hnoted : (noteInterest now ingress i fw.node).Orderly fw.strategies.length :=
    ⟨h.node.valid.congr rfl rfl rfl, h.node.distinguished, h.node.hasRoom⟩
  have hm : m.Orderly fw.strategies.length := hnoted.unmoved hquiet.toUnmoved
  obtain ⟨hfinds, hasks, hothers, -⟩ := finds_findOrInsert h.node.valid.indexed hfound hget
  exact {
    arrived := rfl
    found := ⟨isNew, hfound⟩
    finds := hfinds
    asks := hasks
    here := hget
    others := hothers
    nextHops := Tables.nextHops_findOrInsert h.node.valid.indexed hfound
    effective := Tables.effectiveStrategy_findOrInsert h.node.valid.indexed hfound
    focus := (hm.findOrInsert (hsame ▸ hfound) hget).1 }

/-- An Interest that is let in and does not loop has an entry, and the pipeline goes on with it
there, whatever the content store is. -/
theorem Orderly.receiveInterest_goesOn (h : fw.Orderly)
    (hinfo : fw.node.faces.info? ingress.face = some info)
    (hscope : info.isLocal = true ∨ i.name.isLocalhost = false)
    (hnew : ¬ fw.node.Loops now info ingress.face i) :
    ∃ n token e, fw.Opens now ingress i n token e ∧
      ∀ store, Forwarder.receiveInterest { fw with store } now ingress i =
        goOn { fw with node := n, store } ingress (fw.node.arrival ingress i) token e := by
  have hlets := not_violates hscope
  have hremembered : fw.node.deadNonces.has i.name i.nonce now = false :=
    Bool.eq_false_iff.mpr fun hhas => hnew (.inl hhas)
  obtain ⟨token, isNew, tables, e, hfound, hget⟩ :=
    h.node.findOrInsert_ok (fw.node.arrival ingress i)
  have hloop : isLoop info (e.findNonce i.nonce ingress.face) = false := by
    rw [← turnsAway_of_found h.node.valid.indexed h.node.distinguished hinfo hlets hremembered
      hfound hget, Bool.eq_false_iff]
    exact fun hturned => hnew ((turnsAway_iff hinfo hscope).mp hturned)
  let m := noteAdmitted now ingress i fw.node
  have hsame : m.tables = fw.node.tables := (quiet_noteAdmitted now ingress i fw.node).tables
  refine ⟨{ m with tables }, token, e, h.opens hfound hget, fun store => ?_⟩
  let stocked : Forwarder := { fw with store }
  have hstocked : stocked.node.faces.info? ingress.face = some info := hinfo
  have hknown : stocked.receiveInterest now ingress i = _ := receiveInterest_of_known hstocked i
  have harrived := arrive_withStore (fw.onNode (noteInterest now ingress i)) store ingress
    { i with incomingFace := some ingress.face }
  rw [arrive_noteInterest] at harrived
  rw [hknown, hlets, if_neg Bool.false_ne_true, hremembered, if_neg Bool.false_ne_true]
  dsimp only
  let arrived : Forwarder := { fw with node := m, store }
  have hentry : arrived.node.tables.findOrInsert (fw.node.arrival ingress i) =
      .ok ((token, isNew), tables) := hsame ▸ hfound
  exact (congrArg (fun a : Forwarder × Interest => a.1.admitInterest ingress info a.2)
    harrived).trans (admitInterest_eq_goOn hentry hget hloop)

/-! ### Without an answer from the content store -/

theorem takesUp_unanswered (h : Focus.Sound ⟨noteMiss i n, token, e⟩) (ingress : FaceEndpoint) :
    (n.unanswered ingress i token e).TakesUp n.now ingress i token e where
  token := rfl
  entry := rfl
  inRecords _ := PitEntry.mem_inRecords_recordIn h.distinct.inFaces
  endsWithLast := Focus.endsWithLast_awaitData h ingress i

/-- The entry at hand is sound when it is noted that the content store has no answer. -/
theorem Opens.sound_noteMiss (ho : fw.Opens now ingress i n token e) (arrived : Interest) :
    Focus.Sound ⟨noteMiss arrived n, token, e⟩ := by
  have hquiet : Focus.Quiet ⟨n, token, e⟩ ⟨noteMiss arrived n, token, e⟩ :=
    ⟨quiet_noteMiss arrived n, rfl, rfl⟩
  exact (ho.focus.quiet hquiet).valid.sound

theorem Opens.takesUp (ho : fw.Opens now ingress i n token e) (arrived : Interest) :
    (n.unanswered ingress arrived token e).TakesUp now ingress arrived token e := by
  have htakes := takesUp_unanswered (ho.sound_noteMiss arrived) ingress
  rwa [ho.clock] at htakes

/-- An Interest that is not answered waits, and the content store has no part in that. -/
theorem Opens.waits (ho : fw.Opens now ingress i n token e) (h : fw.Staffed) :
    ∃ f' : Focus, ∀ store,
      Forwarder.onStoreMiss { fw with node := n, store } ingress token
          (fw.node.arrival ingress i) = .ok { fw with node := f'.release, store } ∧
        fw.Waits { fw with node := f'.release, store } now ingress (fw.node.arrival ingress i)
          n token e := by
  let arrived := fw.node.arrival ingress i
  let opened (store : ContentStore) : Forwarder := { fw with node := n, store }
  have hstaffed (store : ContentStore) : (opened store).Staffed := ⟨h.lawful, h.hasStrategy⟩
  have hmiss (store : ContentStore) :=
    (hstaffed store).onStoreMiss_follows ho.here ho.focus.valid.registered ingress arrived
  obtain ⟨f', -, hfollows⟩ := hmiss fw.store
  refine ⟨f', fun store => ⟨?_, ho.takesUp arrived, ho.sent, f', hfollows, rfl⟩⟩
  obtain ⟨f'', hmissed, hfollows'⟩ := hmiss store
  have hlikewise : fw.Follows ingress arrived (n.unanswered ingress arrived token e) f'' :=
    hfollows'
  have hsame : f'' = f' := hlikewise.unique hfollows
  exact hsame ▸ hmissed

/-! ### With an answer from the content store -/

theorem answersFromStore_onStoreHit {data : Data} (hbuiltIn : fw.BuiltInOnly)
    (hsound : Focus.Sound ⟨fw.node, token, e⟩) (hget : fw.node.tables.pit.get? token = some e)
    (hempty : e.inRecords = []) (hinfo : fw.node.faces.info? ingress.face = some info)
    (h : fw.onStoreHit ingress token i data = .ok fw') :
    fw.node.AnswersFromStore fw'.node fw.node.now ingress info token e data := by
  obtain ⟨e', g, hget', hquiet, -, rfl⟩ := onStoreHit_cases hbuiltIn h
  obtain rfl : e' = e := Option.some.inj (hget'.symm.trans hget)
  let sent : Data := { data with incomingFace := some .contentStore }
  let settled := settle data ⟨noteHit i data fw.node, token, e'⟩
  have hnoted : Focus.Keeps ⟨fw.node, token, e'⟩ ⟨noteHit i data fw.node, token, e'⟩ :=
    Focus.keeps_of_unmoved (quiet_noteHit i data fw.node).toUnmoved rfl
  have htimed : settled.Timed :=
    Focus.timed_of_keeps hsound.timed (hnoted.trans (Focus.keeps_onEntry rfl)) rfl rfl
  have hkeeps := keeps_of_hit hquiet ingress sent
  have hentry : (g.sendData ingress sent).entry = (settled.setExpiry 0).entry := by
    have hnobody : g.entry.inRecords = [] := by
      rw [hquiet.entry]
      exact hempty
    rw [← hquiet.entry]
    change g.entry.deleteIn ingress.face = g.entry
    rw [PitEntry.deleteIn, hnobody, List.eraseP_nil, ← hnobody]
  have hdated : (settled.setExpiry 0).entry = { e' with
      satisfied := true, dataFreshness := data.freshness
      expiryTimer := some fw.node.timers.nextId } := by
    have htimer : (settled.setExpiry 0).entry.expiryTimer = some fw.node.timers.nextId :=
      settled.expiryTimer_setExpiry 0
    rw [← htimer]
    rfl
  have hafter := Focus.get?_release_self (hkeeps.live hsound.live)
  rw [hkeeps.token, hentry, hdated] at hafter
  have hlets : g.node.lets sent ingress.face = (info.isLocal || !data.name.isLocalhost) := by
    have hknown : g.node.faces.info? ingress.face = some info := by
      rw [hquiet.node.info?]
      exact hinfo
    rw [Node.lets, hknown, Option.any_some]
  refine ⟨⟨fw.node.timers.nextId, hafter, ?_⟩, fun u hu => ?_, fun hscope => ?_,
    fun hlocal hname => ?_⟩
  · have hdue := (Focus.mem_timers_setExpiry htimed 0).mpr (.inl rfl)
    rw [Timestamp.adding_zero] at hdue
    have htimers : (g.sendData ingress sent).node.timers = (settled.setExpiry 0).node.timers :=
      (g.node.unmoved_sendData ingress sent).timers.trans hquiet.node.timers
    exact htimers ▸ hdue
  · have hother := hkeeps.get?_release_of_ne hsound.live hu
    rwa [Node.release_focus hget] at hother
  · have hgoes : g.node.lets sent ingress.face = true := by
      rw [hlets]
      rcases hscope with h | h <;> rw [h] <;> simp
    obtain ⟨isTaken, hsent⟩ := Node.sent_sendData_of_lets hgoes
    exact ⟨isTaken, hsent.trans (congrArg (· ++ _) hquiet.node.sent)⟩
  · have hstays : g.node.lets sent ingress.face = false := by
      rw [hlets, hlocal, hname]
      rfl
    exact (Node.sent_sendData_of_not_lets hstays).trans hquiet.node.sent

/-- An Interest for which the content store has Data is answered. -/
theorem Opens.answers (ho : fw.Opens now ingress i n token e) (h : fw.Staffed)
    (hbuiltIn : fw.BuiltInOnly) (hinfo : fw.node.faces.info? ingress.face = some info)
    (hempty : e.inRecords = []) (store : ContentStore) (data : Data) :
    ∃ m, Forwarder.onStoreHit { fw with node := n, store } ingress token
        (fw.node.arrival ingress i) data = .ok { fw with node := m, store } ∧
      fw.node.AnswersFromStore m now ingress info token e data := by
  let opened : Forwarder := { fw with node := n, store }
  have hstaffed : opened.Staffed := ⟨h.lawful, h.hasStrategy⟩
  have hhere : opened.node.tables.pit.get? token = some e := ho.here
  obtain ⟨m, hhit, -⟩ :=
    hstaffed.onStoreHit_orderly hhere ho.focus ingress (fw.node.arrival ingress i) data
  have hknown : opened.node.faces.info? ingress.face = some info := by
    rw [ho.faces]
    exact hinfo
  have hlisted : opened.BuiltInOnly := hbuiltIn
  have hanswers := answersFromStore_onStoreHit hlisted ho.focus.valid.sound hhere hempty hknown hhit
  rw [ho.clock] at hanswers
  exact ⟨m, hhit, hanswers.entry, fun u hu => (hanswers.others u hu).trans (ho.others u hu),
    fun hlets => ho.sent ▸ hanswers.answered hlets,
    fun hlocal hname => (hanswers.withheld hlocal hname).trans ho.sent⟩

/-- The content store is asked where nobody waits. -/
theorem goOn_of_nobody (fw : Forwarder) (ingress : FaceEndpoint) (i : Interest) (token : PitToken)
    (hempty : e.inRecords = []) : fw.goOn ingress i token e =
      match (fw.store.find i fw.node.now).1 with
      | some data => Forwarder.onStoreHit { fw with store := (fw.store.find i fw.node.now).2 }
          ingress token i data
      | none => Forwarder.onStoreMiss { fw with store := (fw.store.find i fw.node.now).2 }
          ingress token i := by
  have hnobody : e.hasInRecords = false := by
    rw [PitEntry.hasInRecords, hempty]
    rfl
  rw [goOn, hnobody, if_neg Bool.false_ne_true, findStored]
  rcases fw.store.find i fw.node.now with ⟨_ | data, store⟩ <;> rfl

theorem goOn_of_somebody (fw : Forwarder) (ingress : FaceEndpoint) (i : Interest)
    (token : PitToken) (hwaiting : e.inRecords ≠ []) :
    fw.goOn ingress i token e = fw.onStoreMiss ingress token i := by
  have hsomebody : e.hasInRecords = true := by
    rw [PitEntry.hasInRecords, Bool.not_eq_true', List.isEmpty_eq_false_iff]
    exact hwaiting
  rw [goOn, if_pos hsomebody]

end Forwarder

section Outcome

variable {settings : Settings} {store : ContentStore} {hash : HashFunction} {fw : Forwarder}
  {ingress : FaceEndpoint} {info : FaceInfo} {i : Interest}

/-- With built-in strategies, an Interest that is let in and does not loop has an entry, which was
there or is made for it. If somebody waits in the entry, the content store is not even asked, and
the Interest waits too. If nobody does, the content store is asked once, at the time of the call; if
it answers, the Data goes to the sender and to nobody else, and if it does not, the Interest waits.
-/
theorem accepted_interest_outcome (reached : Reachable settings store hash fw)
    (hbuiltIn : fw.BuiltInOnly) (now : Timestamp)
    (hinfo : fw.node.faces.info? ingress.face = some info)
    (hscope : info.isLocal = true ∨ i.name.isLocalhost = false)
    (hnew : ¬ fw.node.Loops now info ingress.face i) :
    ∃ fw' n token e, fw.receiveInterest now ingress i = .ok fw' ∧
      fw.Opens now ingress i n token e ∧
      (e.inRecords ≠ [] →
        (∀ other, Forwarder.receiveInterest { fw with store := other } now ingress i =
          .ok { fw' with store := other }) ∧
        fw.Waits fw' now ingress (fw.node.arrival ingress i) n token e) ∧
      (e.inRecords = [] → fw'.store = (fw.store.find (fw.node.arrival ingress i) now).2 ∧
        (∀ data, (fw.store.find (fw.node.arrival ingress i) now).1 = some data →
          fw.node.AnswersFromStore fw'.node now ingress info token e data) ∧
        ((fw.store.find (fw.node.arrival ingress i) now).1 = none →
          fw.Waits fw' now ingress (fw.node.arrival ingress i) n token e)) := by
  have h := reached.orderly
  obtain ⟨n, token, e, hopens, hgoesOn⟩ := h.receiveInterest_goesOn hinfo hscope hnew
  obtain ⟨f', hwaits⟩ := hopens.waits h.toStaffed
  by_cases hempty : e.inRecords = []
  · have hreceive := hgoesOn fw.store
    rw [goOn_of_nobody _ _ _ _ hempty, hopens.clock] at hreceive
    let asked := (fw.store.find (fw.node.arrival ingress i) now).2
    cases hfound : (fw.store.find (fw.node.arrival ingress i) now).1 with
    | none =>
        rw [hfound] at hreceive
        exact ⟨_, n, token, e, hreceive.trans (hwaits asked).1, hopens,
          fun hsome => absurd hempty hsome, fun _ => ⟨rfl, nofun, fun _ => (hwaits asked).2⟩⟩
    | some data =>
        rw [hfound] at hreceive
        obtain ⟨m, hhit, hanswers⟩ := hopens.answers h.toStaffed hbuiltIn hinfo hempty asked data
        refine ⟨_, n, token, e, hreceive.trans hhit, hopens,
          fun hsome => absurd hempty hsome, fun _ => ⟨rfl, fun data' hdata => ?_, nofun⟩⟩
        exact Option.some.inj hdata ▸ hanswers
  · have hreceive (store : ContentStore) :
        Forwarder.receiveInterest { fw with store } now ingress i =
          .ok { fw with node := f'.release, store } := by
      rw [hgoesOn, goOn_of_somebody _ _ _ _ hempty]
      exact (hwaits store).1
    exact ⟨_, n, token, e, hreceive fw.store, hopens,
      fun _ => ⟨hreceive, (hwaits fw.store).2⟩, fun hnone => absurd hnone hempty⟩

end Outcome

namespace Sample

/-- The first face asked, Data came back and was stored, and the entry has ended. -/
def stocked : Forwarder :=
  reached { start with store := storeFor {} }
    ([.runTimers ⟨4⟩, reply ⟨3⟩, ask ⟨2⟩ ⟨1⟩] ++ setup)

/-- The same Interest with another nonce. -/
def again : Interest where
  name := name
  nonce := ⟨2⟩

end Sample

/-- The first face asks again, and is answered from the content store. -/
theorem accepted_interest_answered : ∃ info fw' token e data,
    Reachable {} (storeFor {}) (fun _ => ⟨List.replicate 32 0, rfl⟩) Sample.stocked ∧
      Sample.stocked.node.faces.info? ⟨256⟩ = some info ∧
      ¬ Sample.stocked.node.Loops ⟨5⟩ info ⟨256⟩ Sample.again ∧
      Sample.stocked.receiveInterest ⟨5⟩ ⟨⟨256⟩, 0⟩ Sample.again = .ok fw' ∧ e.inRecords = [] ∧
      Sample.stocked.node.AnswersFromStore fw'.node ⟨5⟩ ⟨⟨256⟩, 0⟩ info token e data := by
  have run : Run { Sample.start with store := storeFor {} } _ Sample.stocked :=
    Run.reached _ _ (by decide +kernel)
  obtain ⟨info, hinfo⟩ := Option.isSome_iff_exists.mp
    (show (Sample.stocked.node.faces.info? ⟨256⟩).isSome = true by decide +kernel)
  obtain ⟨data, hdata⟩ := Option.isSome_iff_exists.mp
    (show (Sample.stocked.store.find (Sample.stocked.node.arrival ⟨⟨256⟩, 0⟩ Sample.again)
      ⟨5⟩).1.isSome = true by decide +kernel)
  have hscope : info.isLocal = true ∨ Sample.again.name.isLocalhost = false := .inr (by decide)
  have hkept : Sample.stocked.turnsAway ⟨5⟩ ⟨⟨256⟩, 0⟩ Sample.again = false := by decide +kernel
  let ingress : FaceEndpoint := ⟨⟨256⟩, 0⟩
  have hknown : Sample.stocked.node.faces.info? ingress.face = some info := hinfo
  have hnew : ¬ Sample.stocked.node.Loops ⟨5⟩ info ⟨256⟩ Sample.again := fun hloops => by
    cases hkept.symm.trans ((turnsAway_iff hknown hscope).mpr hloops)
  have hover : Sample.stocked.node.tables.pit.tokens = [] := by decide +kernel
  obtain ⟨fw', _, token, e, hreceive, hopens, -, hasked⟩ := accepted_interest_outcome
    run.reachable run.valid.builtIn ⟨5⟩ hknown hscope hnew
  have hempty : e.inRecords = [] := by
    cases hopens.finds with
    | old hget =>
        have hlisted := Arena.mem_tokens.mpr ⟨e, hget⟩
        rw [hover] at hlisted
        cases hlisted
    | new _ _ hentry => rw [hentry]
  exact ⟨info, fw', token, e, data, run.reachable, hinfo, hnew, hreceive, hempty,
    (hasked hempty).2.1 data hdata⟩

end NamedData
