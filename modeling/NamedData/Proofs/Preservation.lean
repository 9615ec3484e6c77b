import NamedData.Proofs.Validity

/-!
Every pipeline keeps the invariant of a forwarder. The argument is the same each time: the node with
an entry at hand has the invariant, whatever is done to the entry keeps it, and the entry has a
timer when it is put back.
-/

namespace NamedData

namespace Forwarder

/-- The invariant of a forwarder between operations. -/
structure Valid (fw : Forwarder) : Prop where
  builtIn : fw.BuiltInOnly
  hasStrategy : 0 < fw.strategies.length
  node : fw.node.Valid fw.strategies.length

theorem valid_new (settings : Settings) (store : ContentStore) (hash : HashFunction) :
    (new settings store hash).Valid := by
  have hpit (token : PitToken) : (new settings store hash).node.tables.pit.get? token = none := rfl
  constructor
  · intro s hs
    have hcases : s = .bestRoute {} ∨ s = .multicast {} := by
      simpa [new, builtInStrategies] using hs
    rcases hcases with rfl | rfl
    · exact ⟨.bestRoute {}, rfl⟩
    · exact ⟨.multicast {}, rfl⟩
  · exact Nat.zero_lt_two
  · constructor
    · exact Tables.indexed_new 0
    · exact Tables.hopsListed_new 0
    · exact Tables.registered_new Nat.zero_lt_two
    · intro token e hget
      rw [hpit] at hget
      cases hget
    · refine ⟨List.nodup_nil, ?_, ?_, ?_, List.Pairwise.nil⟩
      · intro t ht
        cases ht
      · intro t ht
        cases ht
      · intro token e id hget
        rw [hpit] at hget
        cases hget
    · intro token e hget
      rw [hpit] at hget
      cases hget

namespace Valid

variable {fw fw' : Forwarder} {now : Timestamp} {ingress : FaceEndpoint} {token : PitToken}

/-- The store, the policy and the hash function do not matter. -/
theorem of_node (h : fw.Valid) (hstrategies : fw'.strategies = fw.strategies)
    (hnode : fw'.node.Valid fw.strategies.length) : fw'.Valid where
  builtIn := by
    rw [BuiltInOnly, hstrategies]
    exact h.builtIn
  hasStrategy := hstrategies ▸ h.hasStrategy
  node := hstrategies ▸ hnode

theorem tick (h : fw.Valid) (now : Timestamp) : (fw.tick now).Valid :=
  h.of_node rfl (h.node.congr rfl rfl rfl)

/-! ### Packets -/

theorem receiveInterest (h : fw.Valid) {interest : Interest}
    (hreceive : fw.receiveInterest now ingress interest = .ok fw') : fw'.Valid := by
  have hnoted : (noteInterest now ingress interest fw.node).Valid fw.strategies.length :=
    h.node.congr rfl rfl rfl
  cases receiveInterest_cases h.builtIn hreceive with
  | unknownFace n hinfo hquiet => exact h.of_node rfl ((h.tick now).node.unmoved hquiet.toUnmoved)
  | dropped n info hinfo hmoved hsent => exact h.of_node rfl (hnoted.unmoved hmoved)
  | admitted m n info hint token isNew tables e store hinfo hquiet hmisses hfound hget hadmission =>
      obtain ⟨hfocus, horigin⟩ := (hnoted.unmoved hquiet.toUnmoved).findOrInsert hfound hget
      have hknown : m.faces.contains ingress.face = true := by
        rw [FaceTable.contains_eq, hquiet.info?]
        exact Option.isSome_iff_exists.mpr ⟨info, hinfo⟩
      have horigin' : e.expiryTimer.isSome ∨ ∃ i, e = { interest := i } :=
        horigin.imp And.right fun hnew => ⟨_, hnew⟩
      exact h.of_node rfl (hadmission.valid hfocus horigin' hknown)

theorem satisfyAmong (h : fw.Valid) {data : Data} {peers peers' : List FaceEndpoint}
    (hsatisfy : Forwarder.satisfyAmong ingress data (fw, peers) token = .ok (fw', peers')) :
    fw'.Valid := by
  obtain ⟨e, g, hget, hquiet, _, rfl⟩ := satisfyAmong_cases h.builtIn hsatisfy
  have hclosed := (((h.node.focus hget).setExpiry 0).quiet hquiet).closeEntry ingress data
  have htimer : (closeEntry ingress data g).entry.expiryTimer.isSome := by
    rw [expiryTimer_closeEntry, hquiet.entry, Focus.expiryTimer_setExpiry]
    rfl
  have hcleared : Focus.Valid ((closeEntry ingress data g).onEntry PitEntry.clearIn)
      fw.strategies.length :=
    hclosed.onEntry rfl rfl (hclosed.wellKept.of_shrinks (PitEntry.shrinks_clearIn _))
  exact h.of_node rfl (hcleared.release htimer)

theorem receiveData (h : fw.Valid) {data : Data}
    (hreceive : fw.receiveData now ingress data = .ok fw') : fw'.Valid := by
  have hnoted : (noteData now ingress data fw.node).Valid fw.strategies.length :=
    h.node.congr rfl rfl rfl
  cases receiveData_cases h.builtIn hreceive with
  | unknownFace n hinfo hquiet => exact h.of_node rfl ((h.tick now).node.unmoved hquiet.toUnmoved)
  | violation n info hinfo hscope hquiet => exact h.of_node rfl (hnoted.unmoved hquiet.toUnmoved)
  | unsolicited n store info compared hinfo hanswered hquiet =>
      exact h.of_node rfl (hnoted.unmoved hquiet.toUnmoved)
  | one store info token compared e g hinfo hanswered hget hquiet =>
      have hannounced := ((hnoted.focus hget).setExpiry 0).quiet hquiet
      have hmoves := Focus.moves_sendDataToAll hannounced.wellKept.distinct ingress
        { data with incomingFace := some ingress.face }
      have hclosed := (hannounced.moves hmoves).closeEntry ingress
        { data with incomingFace := some ingress.face }
      refine h.of_node rfl ?_
      apply hclosed.release
      rw [expiryTimer_closeEntry]
      apply hmoves.hasTimer
      rw [hquiet.entry, Focus.expiryTimer_setExpiry]
      rfl
  | several store info tokens compared last peers hinfo hanswered htokens =>
      have hstart : Valid { fw with node := noteData now ingress data fw.node, store } :=
        h.of_node rfl hnoted
      have hlast : last.Valid :=
        foldlM_preserve (P := fun s => s.1.Valid)
          (fun s token s' hstep hvalid => hvalid.satisfyAmong hstep) htokens hstart
      exact hlast.of_node rfl (hlast.node.unmoved (unmoved_sendDataEach _ _ _))

theorem receiveNack (h : fw.Valid) {nack : Nack}
    (hreceive : fw.receiveNack now ingress nack = .ok fw') : fw'.Valid := by
  have hnoted : (noteNack now fw.node).Valid fw.strategies.length := h.node.congr rfl rfl rfl
  cases receiveNack_cases h.builtIn hreceive with
  | ignored n hquiet => exact h.of_node rfl ((h.tick now).node.unmoved hquiet.toUnmoved)
  | refused token e g hget hquiet =>
      have hfocus := (hnoted.focus hget).quiet hquiet
      refine h.of_node rfl ?_
      apply hfocus.release
      rw [hquiet.entry]
      exact h.node.hasTimer token e hget
  | accepted token e g f hget harrival hquiet hmoves =>
      have hfocus := (hnoted.focus hget).quiet hquiet
      refine h.of_node rfl ?_
      apply ((hfocus.recordNack ingress.face nack.reason).moves hmoves).release
      apply hmoves.hasTimer
      apply hasTimer_recordNack
      rw [hquiet.entry]
      exact h.node.hasTimer token e hget

/-! ### Routes and faces -/

theorem offer (h : fw.Valid) {hop : NextHop}
    (hoffer : (fw.atEntry token fun f =>
      fw.consult f fun s f => s.afterNewNextHop hop f) = .ok fw') : fw'.Valid := by
  obtain ⟨e, f, hget, hmoves, rfl⟩ := offer_cases h.builtIn hoffer
  refine h.of_node rfl ?_
  exact ((h.node.focus hget).moves hmoves).release (hmoves.hasTimer (h.node.hasTimer token e hget))

theorem addRoute (h : fw.Valid) {stem : Name} {face : FaceId} {cost : Nat} {isAdded : Bool}
    (hadd : fw.addRoute now stem face cost = .ok (isAdded, fw')) : fw'.Valid := by
  rcases addRoute_cases hadd with rfl | ⟨n, tokens, _, hquiet, hfold⟩
  · exact h.of_node rfl (h.node.congr rfl rfl rfl)
  · have htree : Node.Valid
        { fw.node with tables := (fw.node.tables.addNextHop stem face cost).2 }
        fw.strategies.length := by
      apply h.node.withTree
      · exact h.node.indexed.change stem fun _ => rfl
      · exact h.node.hopsListed.change h.node.indexed.ordered stem fun _ hlisted =>
          hlisted.add face cost
      · exact h.node.registered.change h.node.indexed.ordered stem fun _ _ hid => .inl hid
      · rfl
    have hticked : Node.Valid
        { fw.node with now, tables := (fw.node.tables.addNextHop stem face cost).2 }
        fw.strategies.length := htree.congr rfl rfl rfl
    have hstart : Valid { fw with node := n } :=
      h.of_node rfl (hticked.unmoved hquiet.toUnmoved)
    exact foldlM_preserve (fun s token s' hstep hvalid => offer hvalid hstep) hfold hstart

/-- What is left to be done while a face is forgotten. The entries still to come may name it, so
that the node has its invariant only when it is seen with the old faces. -/
structure Forgetting (old : FaceTable) (count : Nat) (rest : List PitToken) (n : Node) : Prop where
  valid : Node.Valid { n with faces := old } count
  done : ∀ token e, n.tables.pit.get? token = some e → token ∉ rest → e.WellKept n.faces

/-- An entry that has forgotten a face is well kept by a table that lost only this face. -/
theorem wellKept_forgetFace {old : FaceTable} {face : FaceId} {n : Node} {e : PitEntry}
    (h : e.WellKept old)
    (hfaces : ∀ g, old.contains g = true → n.faces.contains g = true ∨ g = face) :
    (forgetFace face ⟨n, token, e⟩).entry.WellKept n.faces := by
  have hwithin : e.Within fun g => n.faces.contains g = true ∨ g = face :=
    ⟨fun g member => hfaces g (h.known.inFaces g member),
      fun g member => hfaces g (h.known.outFaces g member)⟩
  obtain ⟨hin, hout⟩ := records_forgetFace face ⟨n, token, e⟩
  have hrecords := PitEntry.shrinks_of_records hin hout
  constructor
  · exact (h.distinct.of_shrinks (e.shrinks_forgetFace face)).of_shrinks hrecords
  · exact (PitEntry.within_forgetFace hwithin).of_shrinks hrecords

theorem forgetting_step {old : FaceTable} {count : Nat} {face : FaceId} {n : Node}
    {rest : List PitToken} {e : PitEntry} (h : Forgetting old count (token :: rest) n)
    (hfaces : ∀ g, old.contains g = true → n.faces.contains g = true ∨ g = face)
    (hget : n.tables.pit.get? token = some e) :
    Forgetting old count rest (forgetFace face ⟨n, token, e⟩).release := by
  have hfocus : Focus.Valid ⟨{ n with faces := old }, token, e⟩ count := h.valid.focus hget
  have hkeeps := keeps_forgetFace face ⟨n, token, e⟩
  have hlive : (forgetFace face ⟨n, token, e⟩).Live := hkeeps.live ⟨e, hget, rfl⟩
  constructor
  · have hrelease := (hfocus.forgetFace face).release
      (hasTimer_forgetFace (f := ⟨{ n with faces := old }, token, e⟩)
        (h.valid.hasTimer token e hget) face)
    have hswap : forgetFace face ⟨{ n with faces := old }, token, e⟩ =
        (forgetFace face ⟨n, token, e⟩).onNode fun n => { n with faces := old } :=
      forgetFace_withFaces face old ⟨n, token, e⟩
    rwa [hswap] at hrelease
  · intro u e' hentry hnot
    rw [Focus.get?_release hlive] at hentry
    have hsame : (forgetFace face ⟨n, token, e⟩).release.faces = n.faces :=
      faces_forgetFace face ⟨n, token, e⟩
    rw [hsame]
    by_cases htoken : u = token
    · have hown : (forgetFace face ⟨n, token, e⟩).entryOf? u =
          some (forgetFace face ⟨n, token, e⟩).entry := by
        have htarget : u = (forgetFace face ⟨n, token, e⟩).token :=
          htoken.trans hkeeps.token.symm
        rw [htarget, Focus.entryOf?_self]
      rw [hown, Option.some.injEq] at hentry
      rw [← hentry]
      exact wellKept_forgetFace (h.valid.wellKept token e hget) hfaces
    · rw [hkeeps.entryOf?_of_ne htoken, Focus.entryOf?_of_ne _ htoken] at hentry
      apply h.done u e' hentry
      simp [htoken, hnot]

/-- Removing a face keeps the invariant of the node, whatever the strategies are. -/
theorem node_removeFace {count : Nat} (h : fw.node.Valid count) {face : FaceId} {isRemoved : Bool}
    (hremove : fw.removeFace now face = .ok (isRemoved, fw')) :
    fw'.node.Valid count ∧ fw'.strategies = fw.strategies := by
  rcases removeFace_cases hremove with rfl | ⟨faces, n, last, htable, hquiet, hfold, rfl⟩
  · exact ⟨h.congr rfl rfl rfl, rfl⟩
  · have hcontains := FaceTable.contains_remove htable
    have htree : Node.Valid { fw.node with tables := fw.node.tables.forgetNextHop face } count := by
      apply h.withTree
      · exact h.indexed.forgetNextHop face
      · exact h.hopsListed.forgetNextHop h.indexed.ordered face
      · exact h.registered.forgetNextHop h.indexed.ordered face
      · rfl
    have hinfo : n.faces.info? = faces.info? := hquiet.info?
    have hstart : Forgetting fw.node.faces count n.tables.pit.tokens n := by
      constructor
      · exact htree.congr hquiet.tables hquiet.timers rfl
      · intro token e hget hnot
        exact absurd (Arena.mem_tokens.mpr ⟨e, hget⟩) hnot
    -- At the start every entry is still to come; at the end none is, and all are well kept by the
    -- new table.
    have hend := foldlM_consume
      (P := fun rest s => s.strategies = fw.strategies ∧ s.node.faces = n.faces ∧
        Forgetting fw.node.faces count rest s.node)
      (fun s token rest s' hstep hs => by
        obtain ⟨e, f, hget, hwork, rfl⟩ := atEntry_eq_ok.mp hstep
        cases hwork
        obtain ⟨hstrategies, hsame, hforgetting⟩ := hs
        refine ⟨hstrategies, (faces_forgetFace face _).trans hsame, ?_⟩
        apply forgetting_step hforgetting _ hget
        intro g hg
        rw [hsame, FaceTable.contains_congr hinfo, hcontains]
        exact (em (g = face)).symm.imp_left fun hne => ⟨hg, hne⟩) hfold ⟨rfl, rfl, hstart⟩
    obtain ⟨hstrategies, hsame, hvalid, hdone⟩ := hend
    refine ⟨?_, hstrategies⟩
    constructor
    · exact hvalid.indexed
    · exact hvalid.hopsListed
    · exact hvalid.registered
    · intro token e hget
      exact hdone token e hget List.not_mem_nil
    · exact hvalid.timed
    · exact hvalid.hasTimer

theorem removeFace (h : fw.Valid) {face : FaceId} {isRemoved : Bool}
    (hremove : fw.removeFace now face = .ok (isRemoved, fw')) : fw'.Valid :=
  h.of_node (node_removeFace h.node hremove).2 (node_removeFace h.node hremove).1

end Valid

/-! ### Timers -/

/-- The node with some timers put back in front of the others. -/
def rearm (due : List (Timer PitToken)) (n : Node) : Node :=
  { n with timers := { n.timers with timers := due ++ n.timers.timers } }

theorem valid_of_ended {n m : Node} {count : Nat} {timer : Timer PitToken}
    {rest : List (Timer PitToken)} (h : (rearm (timer :: rest) n).Valid count)
    (hend : Ended n m timer.entry) : (rearm rest m).Valid count := by
  obtain ⟨e, herase⟩ := hend.tables
  have hget := Tables.get?_of_erase herase
  have hold (token : PitToken) (e' : PitEntry) (hget' : m.tables.pit.get? token = some e') :
      n.tables.pit.get? token = some e' := by
    rw [hget] at hget'
    split at hget'
    · cases hget'
    · exact hget'
  constructor
  · exact h.indexed.erase herase
  · exact Tables.HopsListed.erase (t := n.tables) h.hopsListed h.indexed.ordered herase
  · obtain ⟨pit, _, htables⟩ := Tables.erase_eq_some.mp herase
    have hregistered : Tables.Registered { n.tables with pit } count :=
      Tables.Registered.congr (t := n.tables) h.registered rfl
    have htree : (rearm rest m).tables = _ := htables
    rw [htree]
    exact hregistered.change h.indexed.ordered _ fun _ _ hid => .inl hid
  · intro token e' hget'
    exact (h.wellKept token e' (hold token e' hget')).congr hend.info?
  · have htimers : (rearm rest m).timers = { n.timers with timers := rest ++ n.timers.timers } := by
      rw [rearm, hend.timers]
    rw [htimers]
    exact Timed.erase h.timed hget
  · intro token e' hget'
    exact h.hasTimer token e' (hold token e' hget')

/-- Every timer that is due ends its entry; none of them was given up before. -/
theorem endings_of_due {fw : Forwarder} {due : List (Timer PitToken)} {count : Nat}
    (h : (rearm due fw.node).Valid count) (ended : Nat) :
    ∃ n, Endings due fw.node n ∧ n.Valid count ∧
      due.foldl (fun (count, fw) timer =>
        let (ended, fw) := Forwarder.fire fw timer
        (if ended then count + 1 else count, fw)) (ended, fw) =
          (ended + due.length, { fw with node := n }) := by
  -- The queue has given up all due timers at once while their entries end one by one: the invariant
  -- holds of the node with those put back that have not fired yet.
  induction due generalizing fw ended with
  | nil => exact ⟨fw.node, .nil _, h, rfl⟩
  | cons timer rest ih =>
      obtain ⟨e, hget, hid⟩ := h.timed.owned timer List.mem_cons_self
      obtain ⟨m, hfire, hend⟩ := fire_cases hget hid
      have hrest : (rearm rest ({ fw with node := m } : Forwarder).node).Valid count :=
        valid_of_ended h hend
      obtain ⟨n, hendings, hvalid, hfold⟩ := ih hrest (ended + 1)
      refine ⟨n, .cons hend hendings, hvalid, ?_⟩
      have hlength : ended + (timer :: rest).length = ended + 1 + rest.length := by
        rw [List.length_cons]
        omega
      rw [hlength, ← hfold]
      simp only [List.foldl_cons, hfire, ↓reduceIte]

/-- Running the timers ends exactly the entries whose timers are due. -/
theorem runTimers_ends {fw : Forwarder} {count : Nat} (h : fw.node.Valid count)
    (now : Timestamp) :
    ∃ n, Endings (fw.node.timers.takeDue now).1
        { fw.node with now, timers := (fw.node.timers.takeDue now).2 } n ∧ n.Valid count ∧
      fw.runTimers now = ((fw.node.timers.takeDue now).1.length, { fw with node := n }) := by
  have hqueue : rearm (fw.node.timers.takeDue now).1
      { fw.node with now, timers := (fw.node.timers.takeDue now).2 } = { fw.node with now } := by
    rw [rearm]
    simp only [TimerQueue.takeDue_append]
    rfl
  let start : Forwarder := { fw with
    node := { fw.node with now, timers := (fw.node.timers.takeDue now).2 } }
  have hrearmed : (rearm (fw.node.timers.takeDue now).1 start.node).Valid count := by
    rw [hqueue]
    exact h.congr rfl rfl rfl
  obtain ⟨n, hendings, hvalid, hfold⟩ := endings_of_due hrearmed 0
  refine ⟨n, hendings, hvalid, ?_⟩
  rw [Nat.zero_add] at hfold
  exact hfold

theorem runTimers_cases {fw : Forwarder} (h : fw.Valid) (now : Timestamp) :
    ∃ n, Endings (fw.node.timers.takeDue now).1
        { fw.node with now, timers := (fw.node.timers.takeDue now).2 } n ∧
      n.Valid fw.strategies.length ∧
      fw.runTimers now = ((fw.node.timers.takeDue now).1.length, { fw with node := n }) :=
  runTimers_ends h.node now

end Forwarder

end NamedData
