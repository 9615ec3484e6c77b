import NamedData.Proofs.Tally

/-!
Pending Interests and what is counted of them are conserved. Every entry that was ever opened has
been counted at its end or is still there; observers were told of each hit and miss of the content
store, of each entry that ended unsatisfied, and of each entry that Data was found for, as often as
it is counted and no oftener; and every Interest that was counted was looked up in the content store
or turned away. Each step has one posting that accounts for all of it.
-/

namespace NamedData

open Forwarder

namespace Event

def isStoreHit : Event → Bool
  | storeHit .. => true
  | _ => false

def isStoreMiss : Event → Bool
  | storeMiss .. => true
  | _ => false

def isSatisfy : Event → Bool
  | satisfy .. => true
  | _ => false

def isExpire : Event → Bool
  | expire .. => true
  | _ => false

end Event

/-! ### Postings balance -/

namespace Posting

def isTurnedAway : Posting → Bool
  | turnedAway => true
  | _ => false

/-- The entries for which Data came in from a face. -/
def answeredEntries : Posting → List PitEntry
  | answered entries _ _ => entries
  | _ => []

def endedEntries : Posting → List PitEntry
  | ended entries => entries
  | _ => []

/-- Data that is reported for some entries is the Data that came in. -/
def IsFrom (operation : Operation) : Posting → Prop
  | answered _ ingress data => ∃ now peer received,
      operation = .receive now peer (.data received) ∧ ingress = peer.face ∧
        data = received.arrived peer.face
  | _ => True

end Posting

namespace Tally

/-- The counts agree with the reports, where some entries have ended, Data came in for an entry some
times, and some Interests were turned away. -/
structure Balanced (t : Tally) (ended answered turnedAway : Nat) : Prop where
  ended : t.satisfied + t.unsatisfied = ended
  expired : t.events.countP Event.isExpire = t.unsatisfied
  hits : t.events.countP Event.isStoreHit = t.storeHits
  misses : t.events.countP Event.isStoreMiss = t.storeMisses
  answered : t.events.countP Event.isSatisfy = t.storeHits + answered
  interests : t.inInterests = t.storeHits + t.storeMisses + turnedAway

theorem countP_told {t : Tally} {kind : Event → Bool} {events : List Event} {before new : Nat}
    (h : t.events.countP kind = before) (hnew : events.countP kind = new) :
    (t.told events).events.countP kind = before + new := by
  rw [told, List.countP_append, h, hnew]

theorem Balanced.post {t : Tally} {ended answered turnedAway : Nat}
    (h : t.Balanced ended answered turnedAway) (p : Posting) :
    (t.post p).Balanced (ended + p.endedEntries.length) (answered + p.answeredEntries.length)
      (turnedAway + p.isTurnedAway.toNat) := by
  obtain ⟨hended, hexpired, hhits, hmisses, hanswered, hinterests⟩ := h
  cases p with
  | nothing => exact ⟨hended, hexpired, hhits, hmisses, hanswered, hinterests⟩
  | turnedAway =>
      exact ⟨hended, hexpired, hhits, hmisses, hanswered, congrArg (· + 1) hinterests⟩
  | hit interest data entry =>
      refine ⟨hended, countP_told hexpired rfl, countP_told hhits rfl, countP_told hmisses rfl,
        (countP_told hanswered rfl).trans (Nat.add_right_comm _ _ _), ?_⟩
      change t.inInterests + 1 = t.storeHits + 1 + t.storeMisses + turnedAway
      omega
  | miss interest =>
      refine ⟨hended, countP_told hexpired rfl, countP_told hhits rfl, countP_told hmisses rfl,
        (countP_told hanswered rfl).trans rfl, ?_⟩
      change t.inInterests + 1 = t.storeHits + (t.storeMisses + 1) + turnedAway
      omega
  | answered entries ingress data =>
      have hother {kind : Event → Bool}
          (hkind : (kind ∘ fun e => Event.satisfy e ingress data) = fun _ => false) :
          (entries.map fun e => Event.satisfy e ingress data).countP kind = 0 := by
        rw [List.countP_map, hkind, List.countP_false]
        rfl
      exact ⟨hended, countP_told hexpired (hother rfl), countP_told hhits (hother rfl),
        countP_told hmisses (hother rfl),
        (countP_told hanswered (List.countP_map.trans (congrFun List.countP_true _))).trans
          (Nat.add_assoc _ _ _), hinterests⟩
  | ended entries =>
      have hother {kind : Event → Bool} (hkind : (kind ∘ Event.expire) = fun _ => false) :
          ((entries.filter fun e => !e.satisfied).map Event.expire).countP kind = 0 := by
        rw [List.countP_map, hkind, List.countP_false]
        rfl
      have hunsatisfied : ((entries.filter fun e => !e.satisfied).map Event.expire).countP
          Event.isExpire = entries.countP fun e => !e.satisfied :=
        (List.countP_map.trans (congrFun List.countP_true _)).trans
          List.countP_eq_length_filter.symm
      have hall : entries.length = (entries.countP fun e => e.satisfied) +
          entries.countP fun e => !e.satisfied := by
        rw [List.length_eq_countP_add_countP fun e => e.satisfied]
        simp
      refine ⟨?_, countP_told hexpired hunsatisfied, countP_told hhits (hother rfl),
        countP_told hmisses (hother rfl), (countP_told hanswered (hother rfl)).trans rfl, hinterests⟩
      change t.satisfied + (entries.countP fun e => e.satisfied) +
        (t.unsatisfied + entries.countP fun e => !e.satisfied) = ended + entries.length
      omega

end Tally

/-! ### What a step posts -/

namespace Step

/-- The entries that are there after the step and were not before. -/
def opened (s : Step) : List PitToken :=
  s.after.node.tables.pit.tokens.filter fun token => token ∉ s.before.node.tables.pit.tokens

/-- The entries that were there before the step and are not any more. -/
def closed (s : Step) : List PitToken :=
  s.before.node.tables.pit.tokens.filter fun token => token ∉ s.after.node.tables.pit.tokens

/-- The entries that are answered by Data that comes in. -/
def matched (s : Step) : List PitToken :=
  match s.operation with
  | .receive _ ingress (.data data) => s.before.matching ingress data
  | _ => []

/-- Whether an Interest comes in and is dropped or treated as a loop. -/
def turnsAway (s : Step) : Bool :=
  match s.operation with
  | .receive now ingress (.interest i) => s.before.turnsAway now ingress i
  | _ => false

/-- The posting of a step, and how it accounts for the entries and the Interest of the step. An
entry is posted as it was before the step, apart from its timer. -/
structure Posts (s : Step) (p : Posting) : Prop where
  tally : s.after.node.tally = s.before.node.tally.post p
  turnsAway : s.turnsAway = p.isTurnedAway
  matched : ∃ tokens, tokens.Perm s.matched ∧
    p.answeredEntries.map PitEntry.untimed = s.before.node.entriesAt tokens
  isFrom : p.IsFrom s.operation
  closed : ∃ tokens, tokens.Perm s.closed ∧
    p.endedEntries.map PitEntry.untimed = s.before.node.entriesAt tokens

variable {s : Step} {p : Posting}

theorem mem_closed {token : PitToken} : token ∈ s.closed ↔
    (∃ e, s.before.node.tables.pit.get? token = some e) ∧
      s.after.node.tables.pit.get? token = none := by
  rw [closed, List.mem_filter, Arena.mem_tokens, decide_eq_true_iff, Arena.mem_tokens,
    ← Option.isSome_iff_exists, ← Option.isSome_iff_exists, Option.not_isSome_iff_eq_none]

theorem nodup_closed (s : Step) : s.closed.Nodup :=
  (Arena.tokens_nodup _).filter _

/-- Each entry that the posting names is one of the step. -/
theorem Posts.length_matched (h : s.Posts p) : p.answeredEntries.length = s.matched.length := by
  obtain ⟨tokens, hperm, hentries⟩ := h.matched
  have hlive : ∀ token ∈ tokens, ∃ e, s.before.node.tables.pit.get? token = some e := by
    intro token hmem
    have hmatched := hperm.mem_iff.mp hmem
    rw [Step.matched] at hmatched
    split at hmatched
    · rw [matching] at hmatched
      split at hmatched
      · exact Arena.mem_tokens.mp (List.mem_filter.mp hmatched).1
      · cases hmatched
    · cases hmatched
  rw [← hperm.length_eq, ← Node.length_entriesAt hlive, ← hentries, List.length_map]

theorem Posts.length_closed (h : s.Posts p) : p.endedEntries.length = s.closed.length := by
  obtain ⟨tokens, hperm, hentries⟩ := h.closed
  have hlive : ∀ token ∈ tokens, ∃ e, s.before.node.tables.pit.get? token = some e :=
    fun token hmem => (mem_closed.mp (hperm.mem_iff.mp hmem)).1
  rw [← hperm.length_eq, ← Node.length_entriesAt hlive, ← hentries, List.length_map]

/-- What has come and what has stayed is what there is. -/
theorem length_opened (s : Step) :
    s.opened.length + s.before.node.tables.pit.tokens.length =
      s.closed.length + s.after.node.tables.pit.tokens.length := by
  let old := s.before.node.tables.pit.tokens
  let new := s.after.node.tables.pit.tokens
  have hsplit (l m : List PitToken) : l.length =
      (l.filter fun token => token ∈ m).length + (l.filter fun token => token ∉ m).length := by
    rw [List.length_eq_length_filter_add fun token => decide (token ∈ m)]
    simp
  have hstayed : (old.filter fun token => token ∈ new).Perm
      (new.filter fun token => token ∈ old) := by
    refine (List.perm_ext_iff_of_nodup ((Arena.tokens_nodup _).filter _)
      ((Arena.tokens_nodup _).filter _)).mpr fun token => ?_
    rw [List.mem_filter, List.mem_filter, decide_eq_true_iff, decide_eq_true_iff]
    exact and_comm
  have hlength := hstayed.length_eq
  have hold := hsplit old new
  have hnew := hsplit new old
  change (new.filter fun token => token ∉ old).length + old.length =
    (old.filter fun token => token ∉ new).length + new.length
  omega

/-- A step without Data and without an end of entries. -/
theorem posts_of_open (htally : s.after.node.tally = s.before.node.tally.post p)
    (hturned : s.turnsAway = p.isTurnedAway) (hclosed : s.closed = []) (hfrom : p.IsFrom s.operation)
    (hmatched : s.matched = []) (hanswered : p.answeredEntries = [])
    (hended : p.endedEntries = []) : s.Posts p where
  tally := htally
  turnsAway := hturned
  matched := ⟨[], by rw [hmatched], by rw [hanswered]; rfl⟩
  isFrom := hfrom
  closed := ⟨[], by rw [hclosed], by rw [hended]; rfl⟩

end Step

namespace Forwarder

variable {fw fw' : Forwarder} {operation : Operation} {now : Timestamp} {ingress : FaceEndpoint}

theorem closed_eq_nil (h : fw.Valid) (hperform : fw.perform operation = .ok fw')
    (hother : ∀ now, operation ≠ .runTimers now) : (Step.mk fw operation fw').closed = [] := by
  refine List.eq_nil_iff_forall_not_mem.mpr fun token hmem => ?_
  obtain ⟨⟨e, hget⟩, hgone⟩ := Step.mem_closed.mp hmem
  obtain ⟨e', hget'⟩ := get?_perform h hperform hother hget
  cases hgone.symm.trans hget'

theorem untimed_entriesAt (n : Node) (tokens : List PitToken) :
    (n.entriesAt tokens).map PitEntry.untimed = n.entriesAt tokens := by
  rw [Node.entriesAt, List.map_map]
  rfl

theorem step_posts_runTimers (h : fw.Valid) (now : Timestamp) :
    ∃ p, (Step.mk fw (.runTimers now) (fw.runTimers now).2).Posts p := by
  let due := (fw.node.timers.takeDue now).1.map Timer.entry
  have hlive : ∀ token ∈ due, ∃ e, fw.node.tables.pit.get? token = some e := by
    intro token hmem
    obtain ⟨timer, htimer, rfl⟩ := List.mem_map.mp hmem
    obtain ⟨e, hget, _⟩ := (valid_disarmed h.node now).timed.owned timer
      (List.mem_append_left _ htimer)
    exact ⟨e, hget⟩
  have hnodup : due.Nodup := by
    have harmed := (valid_disarmed h.node now).timer_entries_nodup
    rw [rearm, List.map_append] at harmed
    exact (List.nodup_append'.mp harmed).1
  have hperm : due.Perm (Step.mk fw (.runTimers now) (fw.runTimers now).2).closed := by
    refine (List.perm_ext_iff_of_nodup hnodup (Step.nodup_closed _)).mpr fun token => ?_
    rw [Step.mem_closed]
    constructor
    · intro hmem
      obtain ⟨e, hget⟩ := hlive token hmem
      exact ⟨⟨e, hget⟩, (gone_runTimers_iff h hget).mpr hmem⟩
    · rintro ⟨⟨e, hget⟩, hgone⟩
      exact (gone_runTimers_iff h hget).mp hgone
  exact ⟨.ended (fw.node.entriesAt due), posts_runTimers h.node now, rfl, ⟨[], .nil, rfl⟩, trivial,
    due, hperm, untimed_entriesAt _ _⟩

theorem step_posts_interest (h : fw.Valid) (hdistinguished : fw.node.Distinguished)
    {i : Interest} (hperform : fw.perform (.receive now ingress (.interest i)) = .ok fw') :
    ∃ p, (Step.mk fw (.receive now ingress (.interest i)) fw').Posts p := by
  have hclosed := closed_eq_nil h hperform (by rintro now ⟨⟩)
  have hposts := posts_receiveInterest h hdistinguished hperform
  split at hposts
  next hturned =>
    exact ⟨.turnedAway, Step.posts_of_open hposts hturned hclosed trivial rfl rfl rfl⟩
  next hlet =>
    rw [Bool.not_eq_true] at hlet
    obtain htally | ⟨arrived, htally | ⟨data, e, htally⟩⟩ := hposts
    · exact ⟨.nothing, Step.posts_of_open htally hlet hclosed trivial rfl rfl rfl⟩
    · exact ⟨.miss arrived, Step.posts_of_open htally hlet hclosed trivial rfl rfl rfl⟩
    · exact ⟨.hit arrived data e, Step.posts_of_open htally hlet hclosed trivial rfl rfl rfl⟩

theorem step_posts_data (h : fw.Valid) {data : Data}
    (hperform : fw.perform (.receive now ingress (.data data)) = .ok fw') :
    ∃ p, (Step.mk fw (.receive now ingress (.data data)) fw').Posts p := by
  have hclosed := closed_eq_nil h hperform (by rintro now ⟨⟩)
  obtain ⟨tokens, entries, hperm, htally, hentries⟩ := posts_receiveData h hperform
  exact ⟨.answered entries ingress.face (data.arrived ingress.face), htally, rfl,
    ⟨tokens, hperm, hentries⟩, ⟨now, ingress, data, rfl, rfl, rfl⟩, [], by rw [hclosed], rfl⟩

/-- Every step has a posting. -/
theorem step_posts (h : fw.Valid) (hdistinguished : fw.node.Distinguished)
    (hperform : fw.perform operation = .ok fw') : ∃ p, (Step.mk fw operation fw').Posts p := by
  have hnothing (hother : ∀ now, operation ≠ .runTimers now)
      (hpacket : ∀ now ingress packet, operation = .receive now ingress packet →
        ∃ nack, packet = .nack nack)
      (htally : fw'.node.tally = fw.node.tally) : ∃ p, (Step.mk fw operation fw').Posts p := by
    refine ⟨.nothing, Step.posts_of_open htally ?_ (closed_eq_nil h hperform hother) trivial ?_
      rfl rfl⟩
    · rw [Step.turnsAway]
      split
      · obtain ⟨nack, hnack⟩ := hpacket _ _ _ ‹_›
        cases hnack
      · rfl
    · rw [Step.matched]
      split
      · obtain ⟨nack, hnack⟩ := hpacket _ _ _ ‹_›
        cases hnack
      · rfl
  cases operation with
  | runTimers now =>
      cases hperform
      exact step_posts_runTimers h now
  | receive now ingress packet =>
      cases packet with
      | interest i => exact step_posts_interest h hdistinguished hperform
      | data d => exact step_posts_data h hperform
      | nack k =>
          refine hnothing (by rintro now ⟨⟩) ?_ (tally_receiveNack h.builtIn hperform)
          rintro _ _ _ ⟨⟩
          exact ⟨k, rfl⟩
  | addRoute now stem face cost =>
      obtain ⟨⟨isAdded, last⟩, hadd, rfl⟩ := map_eq_ok.mp hperform
      exact hnothing (by rintro now ⟨⟩) (by rintro _ _ _ ⟨⟩) (tally_addRoute h.builtIn hadd)
  | removeFace now face =>
      obtain ⟨⟨isRemoved, last⟩, hremove, rfl⟩ := map_eq_ok.mp hperform
      exact hnothing (by rintro now ⟨⟩) (by rintro _ _ _ ⟨⟩) (tally_removeFace h.builtIn hremove)
  | dropInterest now egress interest =>
      exact hnothing (by rintro now ⟨⟩) (by rintro _ _ _ ⟨⟩)
        (tally_onDroppedInterest h.builtIn hperform)
  | addFace takes scope link =>
      cases hperform
      exact hnothing (by rintro now ⟨⟩) (by rintro _ _ _ ⟨⟩) (tally_addFace fw takes scope link)
  | setStrategy stem id =>
      cases hperform
      exact hnothing (by rintro now ⟨⟩) (by rintro _ _ _ ⟨⟩) (tally_setStrategy fw stem id)
  | unsetStrategy stem =>
      cases hperform
      exact hnothing (by rintro now ⟨⟩) (by rintro _ _ _ ⟨⟩) (tally_unsetStrategy fw stem)
  | _ =>
      cases hperform
      exact hnothing (by rintro now ⟨⟩) (by rintro _ _ _ ⟨⟩) rfl

end Forwarder

/-! ### Whole runs -/

/-- Pending Interests and what is counted of them, in a run with the given history. -/
structure Conserved (history : List Step) (fw : Forwarder) : Prop where
  entries : (history.map fun s => s.opened.length).sum =
    fw.node.counters.satisfied + fw.node.counters.unsatisfied + fw.node.tables.pit.tokens.length
  expired : fw.node.journal.events.countP Event.isExpire = fw.node.counters.unsatisfied
  hits : fw.node.journal.events.countP Event.isStoreHit = fw.node.counters.storeHits
  misses : fw.node.journal.events.countP Event.isStoreMiss = fw.node.counters.storeMisses
  answered : fw.node.journal.events.countP Event.isSatisfy =
    fw.node.counters.storeHits + (history.map fun s => s.matched.length).sum
  interests : fw.node.counters.inInterests =
    fw.node.counters.storeHits + fw.node.counters.storeMisses + history.countP Step.turnsAway

section Runs

variable {settings : Settings} {store : ContentStore} {hash : HashFunction} {history : List Step}
  {fw : Forwarder}

theorem Run.posts (run : Run (Forwarder.new settings store hash) history fw) {s : Step}
    (hs : s ∈ history) : ∃ p, s.Posts p := by
  obtain ⟨earlier, hrun, hperform⟩ := run.mem hs
  exact step_posts hrun.valid hrun.distinguished.1 hperform

/-- The postings of a run balance. -/
theorem Run.balanced (run : Run (Forwarder.new settings store hash) history fw) :
    fw.node.tally.Balanced (history.map fun s => s.closed.length).sum
      (history.map fun s => s.matched.length).sum (history.countP Step.turnsAway) := by
  induction run with
  | start => exact ⟨rfl, rfl, rfl, rfl, rfl, rfl⟩
  | @step history fw fw' run operation hperform ih =>
      obtain ⟨p, hposts⟩ := step_posts run.valid run.distinguished.1 hperform
      have hbalanced := ih.post p
      rw [← hposts.tally, hposts.length_closed, hposts.length_matched, ← hposts.turnsAway]
        at hbalanced
      have hcount : (⟨fw, operation, fw'⟩ :: history).countP Step.turnsAway =
          history.countP Step.turnsAway + (Step.mk fw operation fw').turnsAway.toNat := by
        rw [List.countP_cons]
        cases (Step.mk fw operation fw').turnsAway <;> rfl
      rw [List.map_cons, List.map_cons, List.sum_cons, List.sum_cons, hcount, Nat.add_comm,
        Nat.add_comm (Step.matched _).length]
      exact hbalanced

/-- Entries that were opened have ended or are there. -/
theorem Run.sum_opened (run : Run (Forwarder.new settings store hash) history fw) :
    (history.map fun s => s.opened.length).sum =
      (history.map fun s => s.closed.length).sum + fw.node.tables.pit.tokens.length := by
  induction run with
  | start => rfl
  | @step history fw fw' run operation hperform ih =>
      have hstep := Step.length_opened ⟨fw, operation, fw'⟩
      rw [List.map_cons, List.map_cons, List.sum_cons, List.sum_cons]
      simp only at hstep
      omega

/-- Pending Interests and the counts of a node are conserved over every run, and every step has one
posting that accounts for what was counted and reported in it. -/
theorem metrics_conserved (run : Run (Forwarder.new settings store hash) history fw) :
    Conserved history fw ∧ ∀ s ∈ history, ∃ p, s.Posts p := by
  obtain ⟨hended, hexpired, hhits, hmisses, hanswered, hinterests⟩ := run.balanced
  refine ⟨⟨?_, hexpired, hhits, hmisses, hanswered, hinterests⟩, fun s hs => run.posts hs⟩
  rw [run.sum_opened, ← hended]
  rfl

end Runs

/-! ### A run with a posting of every kind -/

namespace Sample

/-- A forwarder with a content store. -/
def caching : Forwarder :=
  { start with store := Forwarder.storeFor {} }

/-- An Interest is answered and then answered again from the content store, one has no route and
ends, and one waits while the same comes in from elsewhere. -/
def everyPosting : List Operation :=
  [.receive ⟨10⟩ ⟨⟨257⟩, 0⟩ (.interest { name, nonce := ⟨4⟩, mustBeFresh := true }),
    .receive ⟨9⟩ ⟨⟨256⟩, 0⟩ (.interest { name, nonce := ⟨4⟩, mustBeFresh := true }),
    .runTimers ⟨8⟩, .receive ⟨7⟩ ⟨⟨256⟩, 0⟩ (.interest { name := [.generic [98]], nonce := ⟨3⟩ }),
    .runTimers ⟨6⟩, ask ⟨5⟩ ⟨2⟩, .runTimers ⟨4⟩, reply ⟨3⟩, ask ⟨2⟩ ⟨1⟩] ++ setup

end Sample

theorem metrics_conserved_everyPosting : ∃ history fw, Run Sample.caching history fw ∧
    Conserved history fw ∧ (∀ s ∈ history, ∃ p, s.Posts p) ∧
    fw.node.counters.inInterests = 5 ∧ fw.node.counters.storeHits = 1 ∧
    fw.node.counters.storeMisses = 3 ∧ fw.node.counters.satisfied = 2 ∧
    fw.node.counters.unsatisfied = 1 ∧ fw.node.tables.pit.tokens.length = 1 := by
  have hrun := Run.reached Sample.caching Sample.everyPosting (by decide +kernel)
  obtain ⟨hconserved, hposts⟩ := metrics_conserved hrun
  exact ⟨_, _, hrun, hconserved, hposts, by decide +kernel⟩

end NamedData
