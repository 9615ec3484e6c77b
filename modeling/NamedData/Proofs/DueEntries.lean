import NamedData.Proofs.Aggregation
import NamedData.Proofs.Reachability
import NamedData.Proofs.Tally

/-!
What running the timers does to a node in any state that it reaches. The entries whose time has come
end, each once and in the order in which their timers fire; whatever else the node has stays as it
is, and no timer is left whose time has come. Taking all due timers at once and then firing them is
the same as taking one timer after another until none is due.
-/

namespace NamedData

open Forwarder

/-! ### The end of entries -/

/-- The second node is the first one after the entries of some tokens have ended. -/
structure Node.Outlives (n m : Node) (tokens : List PitToken) : Prop where
  entries : ∀ token, m.tables.pit.get? token =
    if token ∈ tokens then none else n.tables.pit.get? token
  records : ∀ name, m.tables.recordAt name = { n.tables.recordAt name with
    pending := (n.tables.recordAt name).pending.filter (· ∉ tokens) }
  notices : m.journal.notices = n.journal.notices ++
    (n.entriesAt tokens).map fun e => .finalized e.name e.satisfied
  sent : m.journal.sent = n.journal.sent
  timers : m.timers = n.timers
  faces : m.faces = n.faces
  regions : m.regions = n.regions
  disconnected : m.disconnected = n.disconnected
  now : m.now = n.now

namespace Node

variable {n m k : Node} {token : PitToken} {tokens : List PitToken} {e : PitEntry}

theorem Outlives.nil (n : Node) : n.Outlives n [] where
  entries _ := rfl
  records name := by simp
  notices := (List.append_nil _).symm
  sent := rfl
  timers := rfl
  faces := rfl
  regions := rfl
  disconnected := rfl
  now := rfl

/-- First one entry ends, and then some others. -/
theorem Outlives.cons (h : n.Outlives m [token]) (h' : m.Outlives k tokens)
    (hnew : token ∉ tokens) (hget : n.tables.pit.get? token = some e) :
    n.Outlives k (token :: tokens) where
  entries u := by
    rw [h'.entries, h.entries]
    grind
  records name := by
    have hpending : ((n.tables.recordAt name).pending.filter (· ∉ [token])).filter (· ∉ tokens) =
        (n.tables.recordAt name).pending.filter (· ∉ token :: tokens) := by
      rw [List.filter_filter]
      refine List.filter_congr fun u _ => ?_
      simp [Bool.and_comm]
    rw [h'.records, h.records, hpending]
  notices := by
    have hothers : m.entriesAt tokens = n.entriesAt tokens := by
      refine entriesAt_congr fun u hu => ?_
      rw [h.entries, if_neg (by simpa using ne_of_mem_of_not_mem hu hnew)]
    rw [h'.notices, h.notices, hothers, entriesAt_cons hget, entriesAt_cons hget,
      List.append_assoc]
    rfl
  sent := h'.sent.trans h.sent
  timers := h'.timers.trans h.timers
  faces := h'.faces.trans h.faces
  regions := h'.regions.trans h.regions
  disconnected := h'.disconnected.trans h.disconnected
  now := h'.now.trans h.now

end Node

namespace Forwarder

variable {n : Node} {token : PitToken} {e : PitEntry} {count : Nat} {fw : Forwarder}
  {now : Timestamp}

theorem notices_parting (f : Focus) : (parting f).node.journal.notices =
    f.node.journal.notices ++ [.finalized f.entry.name f.entry.satisfied] := by
  rw [parting]
  cases hsatisfied : f.entry.satisfied with
  | true =>
      obtain ⟨deadNonces, hremember⟩ := rememberNonces_eq (f.say (.finalized f.entry.name true))
        (f.say (.finalized f.entry.name true)).entry.outRecords
      simp only [↓reduceIte, hremember]
      rfl
  | false =>
      obtain ⟨deadNonces, hremember⟩ := rememberNonces_eq
        ((f.say (.finalized f.entry.name false)).report
          (.expire (f.say (.finalized f.entry.name false)).entry))
        ((f.say (.finalized f.entry.name false)).report
          (.expire (f.say (.finalized f.entry.name false)).entry)).entry.outRecords
      simp only [Bool.false_eq_true, ↓reduceIte, hremember]
      rfl

theorem erase_of_get? {t : Tables} (hget : t.pit.get? token = some e) :
    ∃ tables, t.erase token = some (e, tables) := by
  obtain ⟨pit, hremove⟩ := Arena.remove_of_get? hget
  exact ⟨_, Tables.erase_eq_some.mpr ⟨pit, hremove, rfl⟩⟩

theorem ending_eq {tables : Tables} (herase : n.tables.erase token = some (e, tables)) :
    n.ending token e = { (parting ⟨n, token, e.untimed⟩).node with tables } :=
  finalize_eq (f := ⟨n, token, e.untimed⟩) herase

/-- One entry ends. -/
theorem outlives_ending (h : n.tables.Indexed) (hget : n.tables.pit.get? token = some e) :
    n.Outlives (n.ending token e) [token] := by
  obtain ⟨tables, herase⟩ := erase_of_get? hget
  have hends := ending_eq herase
  have hnotices := notices_parting ⟨n, token, e.untimed⟩
  obtain ⟨deadNonces, counters, journal, hparting, hsent, -⟩ := parting_cases ⟨n, token, e.untimed⟩
  rw [hparting] at hends hnotices
  rw [hends]
  constructor
  case entries =>
    intro u
    simp only [Tables.get?_of_erase herase, List.mem_singleton]
  case records =>
    intro name
    simp only [h.recordAt_erase herase, List.mem_singleton]
  case notices =>
    rw [Node.entriesAt_cons hget]
    exact hnotices
  case sent => exact hsent
  all_goals rfl

/-- The entries of timers that fire end, each once. -/
theorem outlives_endingEach {due : List (Timer PitToken)} (h : (rearm due n).Valid count) :
    n.Outlives (endingEach n due) (due.map Timer.entry) := by
  induction due generalizing n with
  | nil => exact .nil n
  | cons timer rest ih =>
      obtain ⟨e, hget, _⟩ := h.timed.owned timer List.mem_cons_self
      have hlive : n.tables.pit.get? timer.entry = some e := hget
      have hnodup : ((timer :: rest).map Timer.entry).Nodup := by
        have harmed := h.timer_entries_nodup
        rw [rearm, List.map_append] at harmed
        exact (List.nodup_append'.mp harmed).1
      have hnew : timer.entry ∉ rest.map Timer.entry := (List.nodup_cons.mp hnodup).1
      have hindexed : n.tables.Indexed := h.indexed
      have hends := outlives_ending hindexed hlive
      have hrest := ih (valid_of_ended h (Node.ended_ending hlive))
      rw [endingEach_cons hlive]
      exact hends.cons hrest hnew hlive

/-! ### One timer after another -/

/-- One timer after another is taken and fires until none is due, which ends so many entries. -/
inductive FiresInTurn (now : Timestamp) : Forwarder → Nat → Forwarder → Prop where
  | done {fw : Forwarder} (hnone : fw.node.timers.popDue now = none) : FiresInTurn now fw 0 fw
  | next {fw fired last : Forwarder} {timer : Timer PitToken} {timers : TimerQueue PitToken}
      {ended : Bool} {count : Nat} (hpop : fw.node.timers.popDue now = some (timer, timers))
      (hfire : (fw.onNode fun n => { n with timers }).fire timer = (ended, fired))
      (hrest : FiresInTurn now fired count last) : FiresInTurn now fw (count + ended.toNat) last

/-- What is remembered of an entry does not depend on the timers. -/
theorem rememberNonces_withTimers (f : Focus) (timers : TimerQueue PitToken) :
    (f.onNode fun n => { n with timers }).rememberNonces f.entry.outRecords =
      (f.rememberNonces f.entry.outRecords).onNode fun n => { n with timers } := by
  have hsame : (f.onNode fun n => { n with timers }).remembersNonces = f.remembersNonces := rfl
  rw [Focus.rememberNonces, Focus.rememberNonces, hsame]
  split <;> rfl

theorem parting_withTimers (f : Focus) (timers : TimerQueue PitToken) :
    parting (f.onNode fun n => { n with timers }) =
      (parting f).onNode fun n => { n with timers } := by
  have hentry : (f.onNode fun n => { n with timers }).entry = f.entry := rfl
  rw [parting, parting, hentry]
  cases f.entry.satisfied with
  | true =>
      have hremember := rememberNonces_withTimers (f.say (.finalized f.entry.name true)) timers
      exact congrArg (fun g : Focus =>
        g.onNode fun n => n.count fun c => { c with satisfied := c.satisfied + 1 }) hremember
  | false =>
      have hremember := rememberNonces_withTimers
        ((f.say (.finalized f.entry.name false)).report (.expire f.entry)) timers
      exact congrArg (fun g : Focus =>
        g.onNode fun n => n.count fun c => { c with unsatisfied := c.unsatisfied + 1 }) hremember

/-- The end of an entry neither reads the timers nor changes them. -/
theorem ending_withTimers (hget : n.tables.pit.get? token = some e)
    (timers : TimerQueue PitToken) :
    Node.ending { n with timers } token e = { n.ending token e with timers } := by
  obtain ⟨tables, herase⟩ := erase_of_get? hget
  have hparting := congrArg Focus.node (parting_withTimers ⟨n, token, e.untimed⟩ timers)
  calc Node.ending { n with timers } token e
      = { (parting ⟨{ n with timers }, token, e.untimed⟩).node with tables } :=
        finalize_eq (f := ⟨{ n with timers }, token, e.untimed⟩) herase
    _ = { (parting ⟨n, token, e.untimed⟩).node with timers, tables } :=
        congrArg (fun m : Node => { m with tables }) hparting
    _ = { n.ending token e with timers } := by rw [ending_eq herase]

theorem popDue_eq_none_of {q : TimerQueue PitToken} (h : ∀ t ∈ q.timers, now < t.deadline) :
    q.popDue now = none := by
  cases htimers : q.timers with
  | nil => simp [TimerQueue.popDue, htimers]
  | cons first rest =>
      have hlater : ¬ first.deadline ≤ now :=
        Nat.not_le.mpr (h first (htimers ▸ List.mem_cons_self))
      simp [TimerQueue.popDue, htimers, hlater]

/-- Timers that are put back in front of the others fire in turn. -/
theorem firesInTurn_rearmed {due : List (Timer PitToken)} (h : (rearm due fw.node).Valid count)
    (hdue : ∀ t ∈ due, t.deadline ≤ now) (hlater : ∀ t ∈ fw.node.timers.timers, now < t.deadline) :
    FiresInTurn now { fw with node := rearm due fw.node } due.length
      { fw with node := endingEach fw.node due } := by
  induction due generalizing fw with
  | nil => exact .done (popDue_eq_none_of hlater)
  | cons timer rest ih =>
      obtain ⟨e, hget, hid⟩ := h.timed.owned timer List.mem_cons_self
      have hlive : fw.node.tables.pit.get? timer.entry = some e := hget
      let start : Forwarder := { fw with node := rearm (timer :: rest) fw.node }
      have hpop : start.node.timers.popDue now = some (timer, (rearm rest fw.node).timers) := by
        rw [TimerQueue.popDue]
        exact if_pos (hdue timer List.mem_cons_self)
      let taken : Forwarder := { fw with node := rearm rest fw.node }
      let fired : Forwarder := { fw with node := fw.node.ending timer.entry e }
      have hended : Ended fw.node fired.node timer.entry := Node.ended_ending hlive
      have hfire : taken.fire timer = (true, { fired with node := rearm rest fired.node }) := by
        have hrearm : (rearm rest fw.node).ending timer.entry e =
            rearm rest (fw.node.ending timer.entry e) := by
          rw [rearm, ending_withTimers hlive, rearm, hended.timers]
        have hfires : taken.fire timer = (true, { taken with
            node := (rearm rest fw.node).ending timer.entry e }) := fire_eq hlive hid
        rwa [hrearm] at hfires
      have hrest : FiresInTurn now { fired with node := rearm rest fired.node } rest.length
          { fired with node := endingEach fired.node rest } :=
        ih (valid_of_ended h hended) (fun t ht => hdue t (List.mem_cons_of_mem timer ht))
          (hended.timers ▸ hlater)
      rw [endingEach_cons hlive]
      exact .next hpop hfire hrest

/-! ### Running the timers -/

/-- The timers whose time has come, in the order they fire. -/
def dueTimers (fw : Forwarder) (now : Timestamp) : List (Timer PitToken) :=
  fw.node.timers.timers.filter fun t => t.deadline ≤ now

/-- A run of the timers at some time ends so many entries, all that are due and no others. -/
structure EndsDue (fw : Forwarder) (now : Timestamp) (count : Nat) (fw' : Forwarder) : Prop where
  inOrder : (fw.dueTimers now).Pairwise fun t u =>
    t.deadline < u.deadline ∨ t.deadline = u.deadline ∧ t.id < u.id
  once : ((fw.dueTimers now).map Timer.entry).Nodup
  count_eq : count = (fw.dueTimers now).length
  inTurn : FiresInTurn now (fw.tick now) count fw'
  notices : fw'.node.journal.notices = fw.node.journal.notices ++
    (fw.node.entriesAt ((fw.dueTimers now).map Timer.entry)).map fun e =>
      .finalized e.name e.satisfied
  entries : ∀ token e, fw.node.tables.pit.get? token = some e → ∃ deadline,
    EndsAt fw.node.timers.timers token e deadline ∧
    (∀ d, EndsAt fw.node.timers.timers token e d → d = deadline) ∧
    (deadline ≤ now → token ∈ (fw.dueTimers now).map Timer.entry ∧
      fw'.node.tables.pit.get? token = none) ∧
    (now < deadline → fw'.node.tables.pit.get? token = some e ∧
      EndsAt fw'.node.timers.timers token e deadline)
  noneNew : ∀ token, fw.node.tables.pit.get? token = none →
    fw'.node.tables.pit.get? token = none
  timers : fw'.node.timers = { fw.node.timers with
    timers := fw.node.timers.timers.filter fun t => now < t.deadline }
  records : ∀ name, fw'.node.tables.recordAt name = { fw.node.tables.recordAt name with
    pending := (fw.node.tables.recordAt name).pending.filter
      (· ∉ (fw.dueTimers now).map Timer.entry) }
  sent : fw'.node.journal.sent = fw.node.journal.sent
  faces : fw'.node.faces = fw.node.faces
  regions : fw'.node.regions = fw.node.regions
  disconnected : fw'.node.disconnected = fw.node.disconnected
  now_eq : fw'.node.now = now
  /-- The content store and everything else apart from the node is as it was. -/
  others : fw' = { fw with node := fw'.node }
  noneLeft : fw'.nextDeadline? = none ↔ fw'.node.tables.pit.tokens = []
  laterLeft : ∀ deadline, fw'.nextDeadline? = some deadline → now < deadline

theorem takeDue_eq_dueTimers (h : fw.node.Valid count) (now : Timestamp) :
    fw.node.timers.takeDue now = (fw.dueTimers now, { fw.node.timers with
      timers := fw.node.timers.timers.filter fun t => now < t.deadline }) :=
  TimerQueue.takeDue_eq h.timed.byDeadline now

/-- No timer is left exactly if no entry is. -/
theorem nextDeadline?_eq_none_iff (h : fw.node.Valid count) :
    fw.nextDeadline? = none ↔ fw.node.tables.pit.tokens = [] := by
  have hperm := h.timersMatchEntries.bijection
  rw [nextDeadline?, TimerQueue.nextDeadline?, Option.map_eq_none_iff, List.head?_eq_none_iff]
  constructor
  · intro hnone
    rw [hnone] at hperm
    exact List.nil_perm.mp hperm
  · intro hnone
    rw [hnone] at hperm
    exact List.map_eq_nil_iff.mp hperm.eq_nil

/-- Some entry is due exactly if the next deadline has come. -/
theorem dueTimers_pos_iff (h : fw.node.Valid count) {deadline : Timestamp}
    (hnext : fw.nextDeadline? = some deadline) :
    0 < (fw.dueTimers now).length ↔ deadline ≤ now := by
  obtain ⟨first, hfirst, rfl⟩ := Option.map_eq_some_iff.mp hnext
  have hmem : first ∈ fw.node.timers.timers := List.mem_of_head? hfirst
  rw [List.length_pos_iff_exists_mem]
  constructor
  · rintro ⟨t, ht⟩
    obtain ⟨harmed, hdue⟩ := List.mem_filter.mp ht
    have hle : first.deadline ≤ t.deadline := by
      obtain ⟨rest, hrest⟩ := List.head?_eq_some_iff.mp hfirst
      have hordered := h.timed.byDeadline
      rw [hrest] at harmed hordered
      rcases List.mem_cons.mp harmed with rfl | hlater
      · exact Nat.le_refl _
      · exact (List.pairwise_cons.mp hordered).1 t hlater
    exact Nat.le_trans hle (of_decide_eq_true hdue)
  · intro hdue
    exact ⟨first, List.mem_filter.mpr ⟨hmem, decide_eq_true hdue⟩⟩

/-- The entries that end are those whose timers are due. -/
theorem mem_dueTimers_iff (h : fw.node.Valid count) {deadline : Timestamp}
    (hget : fw.node.tables.pit.get? token = some e)
    (hends : EndsAt fw.node.timers.timers token e deadline) :
    token ∈ (fw.dueTimers now).map Timer.entry ↔ deadline ≤ now := by
  obtain ⟨id, hid, harmed⟩ := hends
  constructor
  · intro hmem
    obtain ⟨t, ht, rfl⟩ := List.mem_map.mp hmem
    obtain ⟨hold, hdue⟩ := List.mem_filter.mp ht
    have hsame : t.id = id := (h.timed.id_eq_iff hget hid hold).mpr rfl
    have htimer := h.timed.eq_of_id hold harmed hsame
    have hdeadline : t.deadline = deadline := by rw [htimer]
    exact hdeadline ▸ of_decide_eq_true hdue
  · intro hdue
    exact List.mem_map.mpr ⟨_, List.mem_filter.mpr ⟨harmed, decide_eq_true hdue⟩, rfl⟩

/-- The timers that are not due are left when the others were taken. -/
theorem timers_disarmed (h : fw.node.Valid count) (now : Timestamp) :
    (fw.disarmed now).timers = { fw.node.timers with
      timers := fw.node.timers.timers.filter fun t => now < t.deadline } := by
  rw [disarmed, takeDue_eq_dueTimers h now]

/-- Firing the due timers together is firing them in turn. -/
theorem firesInTurn_dueTimers (h : fw.node.Valid count) (now : Timestamp) :
    FiresInTurn now (fw.tick now) (fw.dueTimers now).length
      { fw with node := endingEach (fw.disarmed now) (fw.dueTimers now) } := by
  let taken : Forwarder := { fw with node := fw.disarmed now }
  have hrearmed := valid_disarmed h now
  have hrearm := rearm_disarmed fw now
  rw [takeDue_eq_dueTimers h now] at hrearmed hrearm
  have hstart : fw.tick now = { taken with node := rearm (fw.dueTimers now) taken.node } := by
    rw [hrearm]
    rfl
  have hkept : ∀ t ∈ taken.node.timers.timers, now < t.deadline := by
    intro t ht
    rw [timers_disarmed h now] at ht
    exact of_decide_eq_true (List.mem_filter.mp ht).2
  rw [hstart]
  exact firesInTurn_rearmed hrearmed (fun t ht => of_decide_eq_true (List.mem_filter.mp ht).2) hkept

/-- An entry has one deadline, and after the due entries have ended it is there, with the deadline
it had, exactly if that has not come. -/
theorem ends_or_stays (h : fw.node.Valid count)
    (houtlives : (fw.disarmed now).Outlives n ((fw.dueTimers now).map Timer.entry))
    (hget : fw.node.tables.pit.get? token = some e) : ∃ deadline,
      EndsAt fw.node.timers.timers token e deadline ∧
      (∀ d, EndsAt fw.node.timers.timers token e d → d = deadline) ∧
      (deadline ≤ now → token ∈ (fw.dueTimers now).map Timer.entry ∧
        n.tables.pit.get? token = none) ∧
      (now < deadline → n.tables.pit.get? token = some e ∧
        EndsAt n.timers.timers token e deadline) := by
  obtain ⟨id, hid⟩ := Option.isSome_iff_exists.mp (h.hasTimer token e hget)
  obtain ⟨deadline, harmed⟩ := h.timed.armed token e id hget hid
  have hends : EndsAt fw.node.timers.timers token e deadline := ⟨id, hid, harmed⟩
  have hdue : token ∈ (fw.dueTimers now).map Timer.entry ↔ deadline ≤ now :=
    mem_dueTimers_iff h hget hends
  have hafter := houtlives.entries token
  refine ⟨deadline, hends, fun d hd => h.timed.endsAt_unique hd hends, fun hle => ?_,
    fun hlt => ⟨?_, id, hid, ?_⟩⟩
  · exact ⟨hdue.mpr hle, by rw [hafter, if_pos (hdue.mpr hle)]⟩
  · rw [hafter, if_neg fun hmem => Nat.not_le.mpr hlt (hdue.mp hmem)]
    exact hget
  · rw [houtlives.timers, timers_disarmed h now]
    exact List.mem_filter.mpr ⟨harmed, decide_eq_true hlt⟩

theorem endsDue_runTimers (h : fw.node.Valid count) (now : Timestamp) :
    fw.EndsDue now (fw.runTimers now).1 (fw.runTimers now).2 := by
  have htake := takeDue_eq_dueTimers h now
  obtain ⟨n, -, hvalid, hrun⟩ := runTimers_ends h now
  have hnode : n = endingEach (fw.disarmed now) (fw.dueTimers now) := by
    have hboth := (congrArg Prod.snd hrun).symm.trans (runTimers_eq h now)
    rw [htake] at hboth
    exact congrArg Forwarder.node hboth
  have hrearmed : (rearm (fw.dueTimers now) (fw.disarmed now)).Valid count := by
    have hdisarmed := valid_disarmed h now
    rwa [htake] at hdisarmed
  have houtlives := hnode ▸ outlives_endingEach hrearmed
  have htimers := houtlives.timers.trans (timers_disarmed h now)
  rw [hrun, htake]
  constructor
  case inOrder =>
    exact (h.timed.ordered.sublist List.filter_sublist).imp Timer.firesBefore_iff.mp
  case once => exact h.timer_entries_nodup.sublist (List.filter_sublist.map _)
  case count_eq => rfl
  case inTurn => exact hnode ▸ firesInTurn_dueTimers h now
  case notices => exact houtlives.notices
  case entries => exact fun token e hget => ends_or_stays h houtlives hget
  case noneNew =>
    intro token hnone
    rw [houtlives.entries]
    exact ite_eq_left_iff.mpr fun _ => hnone
  case timers => exact htimers
  case records => exact houtlives.records
  case sent => exact houtlives.sent
  case faces => exact houtlives.faces
  case regions => exact houtlives.regions
  case disconnected => exact houtlives.disconnected
  case now_eq => exact houtlives.now
  case others => rfl
  case noneLeft =>
    let last : Forwarder := { fw with node := n }
    have hlast : last.node.Valid count := hvalid
    exact nextDeadline?_eq_none_iff hlast
  case laterLeft =>
    intro deadline hnext
    obtain ⟨first, hfirst, rfl⟩ := Option.map_eq_some_iff.mp hnext
    have hleft : first ∈ n.timers.timers := List.mem_of_head? hfirst
    rw [htimers] at hleft
    exact of_decide_eq_true (List.mem_filter.mp hleft).2

end Forwarder

variable {settings : Settings} {store : ContentStore} {hash : HashFunction} {fw : Forwarder}

/-- Running the timers in any state that is reached ends exactly the entries that are due, in the
order of their timers, and changes nothing else; some entry ends exactly if the deadline that was
told next has come. -/
theorem due_entries_end (reached : Reachable settings store hash fw) (now : Timestamp) :
    fw.EndsDue now (fw.runTimers now).1 (fw.runTimers now).2 ∧
    ∀ deadline, fw.nextDeadline? = some deadline →
      (0 < (fw.runTimers now).1 ↔ deadline ≤ now) := by
  have hvalid := reached.orderly.node.valid
  have hends := Forwarder.endsDue_runTimers hvalid now
  refine ⟨hends, fun deadline hnext => ?_⟩
  rw [hends.count_eq]
  exact Forwarder.dueTimers_pos_iff hvalid hnext

namespace Sample

/-- A face waits for two Interests, for the one until 4002 and for the other until 4010. -/
def twoWaiting : Forwarder :=
  reached start (askWide ⟨10⟩ ⟨2⟩ :: ask ⟨2⟩ ⟨1⟩ :: setup)

theorem run_twoWaiting :
    Run start (historyOf start (askWide ⟨10⟩ ⟨2⟩ :: ask ⟨2⟩ ⟨1⟩ :: setup)) twoWaiting :=
  Run.reached start _ (by decide +kernel)

end Sample

open Sample

/-- Of two entries the first one to end is gone at 4005, and the timer of the other is next. -/
theorem due_entries_end_first_of_two :
    twoWaiting.nextDeadline? = some ⟨4002⟩ ∧
      twoWaiting.EndsDue ⟨4005⟩ 1 (twoWaiting.runTimers ⟨4005⟩).2 ∧
      (twoWaiting.runTimers ⟨4005⟩).2.nextDeadline? = some ⟨4010⟩ := by
  have hends := (due_entries_end run_twoWaiting.reachable ⟨4005⟩).1
  have hone : (twoWaiting.runTimers ⟨4005⟩).1 = 1 := by decide +kernel
  rw [hone] at hends
  exact ⟨by decide +kernel, hends, by decide +kernel⟩

end NamedData
