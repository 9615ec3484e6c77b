import NamedData.Proofs.DeadNoncePolicy

/-!
What a node has counted of pending Interests, next to what it has told its observers about them. The
two are kept in different places and never compared; but whatever an operation does to either is one
posting to both, and this module finds the posting of every operation. Strategies post nothing, nor
does anything that is sent.
-/

namespace NamedData

open Forwarder

/-- The entry without the number of its timer. -/
def PitEntry.untimed (e : PitEntry) : PitEntry :=
  { e with expiryTimer := none }

/-- What a node has counted of pending Interests and told its observers. -/
structure Tally where
  inInterests : Nat
  storeHits : Nat
  storeMisses : Nat
  satisfied : Nat
  unsatisfied : Nat
  events : List Event

/-- What an operation adds to a tally. -/
inductive Posting where
  | nothing
  /-- An Interest is dropped where it comes in, or is treated as a loop. -/
  | turnedAway
  | hit (interest : Interest) (data : Data) (entry : PitEntry)
  | miss (interest : Interest)
  /-- Data comes in from a face for some entries. -/
  | answered (entries : List PitEntry) (ingress : FaceId) (data : Data)
  | ended (entries : List PitEntry)

namespace Tally

def told (t : Tally) (events : List Event) : Tally :=
  { t with events := t.events ++ events }

def counted (t : Tally) : Tally :=
  { t with inInterests := t.inInterests + 1 }

def hit (t : Tally) (interest : Interest) (data : Data) (entry : PitEntry) : Tally :=
  told { t with storeHits := t.storeHits + 1 }
    [.storeHit interest data,
      .satisfy entry .contentStore { data with incomingFace := some .contentStore }]

def miss (t : Tally) (interest : Interest) : Tally :=
  told { t with storeMisses := t.storeMisses + 1 } [.storeMiss interest]

def answered (t : Tally) (entries : List PitEntry) (ingress : FaceId) (data : Data) : Tally :=
  t.told (entries.map fun e => .satisfy e ingress data)

/-- Each entry that ends is counted, and those that were not satisfied are reported. -/
def ended (t : Tally) (entries : List PitEntry) : Tally :=
  told { t with
    satisfied := t.satisfied + entries.countP fun e => e.satisfied
    unsatisfied := t.unsatisfied + entries.countP fun e => !e.satisfied }
    ((entries.filter fun e => !e.satisfied).map .expire)

def post (t : Tally) : Posting → Tally
  | .nothing => t
  | .turnedAway => t.counted
  | .hit interest data entry => t.counted.hit interest data entry
  | .miss interest => t.counted.miss interest
  | .answered entries ingress data => t.answered entries ingress data
  | .ended entries => t.ended entries

theorem answered_append (t : Tally) (first second : List PitEntry) (ingress : FaceId)
    (data : Data) : (t.answered first ingress data).answered second ingress data =
      t.answered (first ++ second) ingress data := by
  simp [answered, told]

theorem ended_append (t : Tally) (first second : List PitEntry) :
    (t.ended first).ended second = t.ended (first ++ second) := by
  simp [ended, told, Nat.add_assoc]

end Tally

/-! ### Nothing is posted where something is sent -/

namespace Node

def tally (n : Node) : Tally where
  inInterests := n.counters.inInterests
  storeHits := n.counters.storeHits
  storeMisses := n.counters.storeMisses
  satisfied := n.counters.satisfied
  unsatisfied := n.counters.unsatisfied
  events := n.journal.events

theorem tally_transmit (n : Node) (peer : FaceEndpoint) (packet : Packet) :
    (n.transmit peer packet).tally = n.tally := by
  rw [transmit]
  split
  · rfl
  · split
    · rfl
    · rw [noteDisconnected]
      split <;> rfl

theorem tally_sendData (n : Node) (egress : FaceEndpoint) (data : Data) :
    (n.sendData egress data).tally = n.tally := by
  rw [sendData]
  split
  · rfl
  · split
    · rfl
    · exact (n.say _).tally_transmit egress (.data data)

theorem tally_sendDataEach (data : Data) (peers : List FaceEndpoint) (n : Node) :
    (peers.foldl (fun n egress => n.sendData egress data) n).tally = n.tally := by
  induction peers generalizing n with
  | nil => rfl
  | cons p rest ih => exact (ih _).trans (n.tally_sendData p data)

/-- The entries of some tokens, apart from their timers. -/
def entriesAt (n : Node) (tokens : List PitToken) : List PitEntry :=
  (tokens.filterMap n.tables.pit.get?).map PitEntry.untimed

theorem entriesAt_cons {n : Node} {token : PitToken} {e : PitEntry}
    (hget : n.tables.pit.get? token = some e) (tokens : List PitToken) :
    n.entriesAt (token :: tokens) = e.untimed :: n.entriesAt tokens := by
  rw [entriesAt, List.filterMap_cons_some hget, List.map_cons, entriesAt]

theorem entriesAt_congr {n m : Node} {tokens : List PitToken}
    (h : ∀ token ∈ tokens, m.tables.pit.get? token = n.tables.pit.get? token) :
    m.entriesAt tokens = n.entriesAt tokens := by
  rw [entriesAt, entriesAt, List.filterMap_congr h]

/-- Live tokens have one entry each. -/
theorem length_entriesAt {n : Node} {tokens : List PitToken}
    (h : ∀ token ∈ tokens, ∃ e, n.tables.pit.get? token = some e) :
    (n.entriesAt tokens).length = tokens.length := by
  induction tokens with
  | nil => rfl
  | cons token tokens ih =>
      obtain ⟨e, hget⟩ := h token List.mem_cons_self
      rw [entriesAt_cons hget, List.length_cons, List.length_cons,
        ih fun u hu => h u (List.mem_cons_of_mem token hu)]

end Node

namespace Focus

theorem tally_sendDataToAll (f : Focus) (ingress : FaceEndpoint) (data : Data) :
    (f.sendDataToAll ingress data).node.tally = f.node.tally := by
  have heach (peers : List FaceEndpoint) (g : Focus) :
      (peers.foldl (fun g egress => g.sendData egress data) g).node.tally = g.node.tally := by
    induction peers generalizing g with
    | nil => rfl
    | cons p rest ih => exact (ih _).trans (g.node.tally_sendData p data)
  exact heach (f.waiting ingress.face) f

/-- A move posts nothing. -/
theorem Move.tally {f f' : Focus} (h : Move f f') : f'.node.tally = f.node.tally := by
  cases h with
  | say notice => rfl
  | mark decision now => rfl
  | forward egress interest info hinfo _ =>
      rw [sendInterest_of_known (FaceTable.contains_of_info? hinfo)]
      exact (f.node.say _).tally_transmit egress _
  | answer egress data _ => exact f.node.tally_sendData egress data
  | handBack egress reason =>
      rcases f.sendNack_cases egress reason with ⟨notice, hsay⟩ | ⟨_, _, _, _, _, hsent⟩
      · rw [hsay]
        rfl
      · rw [hsent]
        exact (f.node.say _).tally_transmit egress _
  | giveUp => rfl

theorem Moves.tally {f f' : Focus} (h : f.Moves f') : f'.node.tally = f.node.tally :=
  Moves.preserve (P := fun g => g.node.tally = f.node.tally)
    (fun _ _ step hsame => step.tally.trans hsame) h rfl

end Focus

namespace Forwarder

variable {fw fw' : Forwarder} {now : Timestamp} {ingress : FaceEndpoint} {token : PitToken}

/-! ### Interests -/

theorem tally_tellLoop (ingress : FaceEndpoint) (info : FaceInfo) (i : Interest) (n : Node) :
    (tellLoop ingress info i n).tally = n.tally := by
  rw [tellLoop]
  split
  · exact (n.say _).tally_transmit ingress _
  · rfl

theorem tally_onStoreMiss (hbuiltIn : fw.BuiltInOnly) {i : Interest}
    (h : fw.onStoreMiss ingress token i = .ok fw') :
    fw'.node.tally = fw.node.tally.miss i := by
  obtain ⟨e, f, _, hgoesOn, rfl⟩ := onStoreMiss_cases hbuiltIn h
  exact hgoesOn.sendsOnOrEnds.moves.tally

theorem tally_onStoreHit (hbuiltIn : fw.BuiltInOnly) {i : Interest} {data : Data}
    (h : fw.onStoreHit ingress token i data = .ok fw') :
    ∃ e, fw'.node.tally = fw.node.tally.hit i data e := by
  have hlisted : BuiltInOnly (fw.onNode (noteHit i data)) := hbuiltIn
  obtain ⟨e, f, _, hwork, rfl⟩ := atEntry_eq_ok.mp h
  obtain ⟨b, rfl⟩ := consult_builtIn hlisted hwork
  rw [b.afterStoreHit_eq, b.beforeSatisfy_eq]
  refine ⟨((settle data ⟨noteHit i data fw.node, token, e⟩).setExpiry 0).entry, ?_⟩
  refine (Node.tally_sendData _ ingress _).trans ?_
  simp [Node.tally, Tally.hit, Tally.told, Focus.say, Focus.report, Focus.onNode, Focus.onEntry,
    Focus.setExpiry, Node.say, Node.report, Node.count, StandardHook.beforeSatisfy, settle,
    Forwarder.onNode, noteHit]

/-- An Interest that is not known to have been resolved before loops in its entry, or is looked up
in the content store. -/
theorem tally_admitInterest (hbuiltIn : fw.BuiltInOnly) {info : FaceInfo} {i : Interest}
    (h : fw.admitInterest ingress info i = .ok fw') :
    ∃ token isNew tables e, fw.node.tables.findOrInsert i = .ok ((token, isNew), tables) ∧
      tables.pit.get? token = some e ∧
      (isLoop info (e.findNonce i.nonce ingress.face) = true ∧ fw'.node.tally = fw.node.tally ∨
        isLoop info (e.findNonce i.nonce ingress.face) = false ∧
          (fw'.node.tally = fw.node.tally.miss i ∨
            ∃ data e', fw'.node.tally = fw.node.tally.hit i data e')) := by
  rw [admitInterest] at h
  obtain ⟨⟨⟨token, isNew⟩, tables⟩, hfound, hrest⟩ := bind_eq_ok.mp h
  obtain ⟨f, hfocus, hentry⟩ := bind_eq_ok.mp hrest
  obtain ⟨e, hget, rfl⟩ := Node.focus_eq_ok.mp hfocus
  refine ⟨token, isNew, tables, e, hfound, hget, ?_⟩
  dsimp only at hentry
  split at hentry
  next hloop =>
    rw [rejectLoop_eq] at hentry
    obtain ⟨_, f, _, hwork, rfl⟩ := atEntry_eq_ok.mp hentry
    have hlisted : BuiltInOnly
        ((fw.onNode fun n => { n with tables }).onNode (tellLoop ingress info i)) := hbuiltIn
    obtain ⟨b, rfl⟩ := consult_builtIn hlisted hwork
    rw [b.afterLoop_eq]
    exact .inl ⟨hloop, tally_tellLoop ingress info i { fw.node with tables }⟩
  next hnew =>
    refine .inr ⟨by simpa using hnew, ?_⟩
    have hlisted : BuiltInOnly (fw.onNode fun n => { n with tables }) := hbuiltIn
    have hmiss (store : ContentStore)
        (hmissed : Forwarder.onStoreMiss { (fw.onNode fun n => { n with tables }) with store }
          ingress token i = .ok fw') : fw'.node.tally = fw.node.tally.miss i :=
      tally_onStoreMiss (hlisted.withStore store) hmissed
    split at hentry
    · exact .inl (hmiss fw.store hentry)
    · split at hentry
      next data stored hstored =>
        obtain ⟨store, rfl⟩ := findStored_cases hstored
        obtain ⟨e', htally⟩ := tally_onStoreHit (hlisted.withStore store) hentry
        exact .inr ⟨data, e', htally⟩
      next stored hstored =>
        obtain ⟨store, rfl⟩ := findStored_cases hstored
        exact .inl (hmiss store hentry)

/-- Whether an Interest from a known face is dropped or treated as a loop: it may not come from
there, its name and nonce are remembered, or its nonce loops in the entry that asks for the same. -/
def turnsAway (fw : Forwarder) (now : Timestamp) (ingress : FaceEndpoint) (i : Interest) : Bool :=
  (fw.node.faces.info? ingress.face).any fun info =>
    !info.isLocal && i.name.isLocalhost || fw.node.deadNonces.has i.name i.nonce now ||
      fw.node.tables.pit.tokens.any fun token => (fw.node.tables.pit.get? token).any fun e =>
        e.interest.sameSelectors i && isLoop info (e.findNonce i.nonce ingress.face)

/-- An Interest that is let in and not remembered is turned away if it loops in the entry that is
found or opened for it. -/
theorem turnsAway_of_found (hindexed : fw.node.tables.Indexed)
    (hdistinguished : fw.node.Distinguished) {i : Interest} {info : FaceInfo} {hint : List Name}
    {isNew : Bool} {tables : Tables} {e : PitEntry}
    (hinfo : fw.node.faces.info? ingress.face = some info)
    (hscope : (!info.isLocal && i.name.isLocalhost) = false)
    (hremembered : fw.node.deadNonces.has i.name i.nonce now = false)
    (hfound : fw.node.tables.findOrInsert (i.arrived ingress.face hint) =
      .ok ((token, isNew), tables))
    (hget : tables.pit.get? token = some e) :
    fw.turnsAway now ingress i = isLoop info (e.findNonce i.nonce ingress.face) := by
  rw [turnsAway, hinfo, Option.any_some, hscope, hremembered, Bool.or_self, Bool.false_or]
  rcases Tables.findOrInsert_eq_ok hfound with ⟨-, rfl, hfind⟩ | ⟨pit, -, hfind, hinsert, rfl⟩
  · rw [Interest.arrived, findPending_hinted] at hfind
    obtain ⟨old, hold, hsame⟩ := Tables.findPending_eq_some hfind
    obtain rfl : old = e := Option.some.inj (hold.symm.trans hget)
    -- the other entries ask for something else
    rw [Bool.eq_iff_iff, List.any_eq_true]
    constructor
    · rintro ⟨u, _, hloops⟩
      obtain ⟨e', hget', hboth⟩ := Option.any_eq_true _ _ |>.mp hloops
      obtain ⟨hsame', hloop⟩ := (Bool.and_eq_true _ _).mp hboth
      have hfind' := hdistinguished.findPending hindexed hget' hsame'
      obtain rfl : u = token :=
        Option.some.inj (Except.ok.inj (hfind'.symm.trans hfind))
      obtain rfl : e' = old := Option.some.inj (hget'.symm.trans hget)
      exact hloop
    · intro hloop
      refine ⟨token, Arena.mem_tokens.mpr ⟨old, hget⟩, ?_⟩
      rw [hget, Option.any_some, hsame, Bool.true_and, hloop]
  · rw [Interest.arrived, findPending_hinted] at hfind
    have hnone := hindexed.none_of_findPending hfind
    have hself := Arena.get?_insert hinsert token
    rw [if_pos rfl] at hself
    obtain rfl := Option.some.inj (hself.symm.trans hget)
    have hfresh : isLoop info (PitEntry.findNonce
        { interest := (i.arrived ingress.face hint).untagged } i.nonce ingress.face) = false := rfl
    rw [hfresh, List.any_eq_false]
    intro u _
    rw [Option.any_eq_true]
    rintro ⟨e', hget', hboth⟩
    rw [hnone u e' hget'] at hboth
    cases hboth

/-- What an Interest posts. -/
theorem posts_receiveInterest (h : fw.Valid) (hdistinguished : fw.node.Distinguished)
    {i : Interest} (hreceive : fw.receiveInterest now ingress i = .ok fw') :
    if fw.turnsAway now ingress i then fw'.node.tally = fw.node.tally.post .turnedAway
    else fw'.node.tally = fw.node.tally ∨
      ∃ arrived, fw'.node.tally = fw.node.tally.post (.miss arrived) ∨
        ∃ data e, fw'.node.tally = fw.node.tally.post (.hit arrived data e) := by
  cases hinfo : fw.node.faces.info? ingress.face with
  | none =>
      have htick : (fw.tick now).node.faces.info? ingress.face = none := hinfo
      have hturned : fw.turnsAway now ingress i = false := by rw [turnsAway, hinfo, Option.any_none]
      simp only [receiveInterest, htick] at hreceive
      cases hreceive
      rw [hturned, if_neg Bool.false_ne_true]
      exact .inl rfl
  | some info =>
      rw [receiveInterest_of_known hinfo] at hreceive
      split at hreceive
      next hscope =>
        cases hreceive
        have hturned : fw.turnsAway now ingress i = true := by
          rw [turnsAway, hinfo, Option.any_some, hscope, Bool.true_or, Bool.true_or]
        rw [if_pos hturned]
        rfl
      next hscope =>
        rw [Bool.not_eq_true] at hscope
        split at hreceive
        next hremembered =>
          cases hreceive
          have hturned : fw.turnsAway now ingress i = true := by
            rw [turnsAway, hinfo, Option.any_some, hremembered, Bool.or_true, Bool.true_or]
          rw [if_pos hturned]
          exact tally_tellLoop ingress info _ (noteInterest now ingress i fw.node)
        next hnew =>
          rw [Bool.not_eq_true] at hnew
          obtain ⟨m, hint, harrive, hquiet, -⟩ := arrive_cases fw now ingress i
          have hsaid : (arrive (fw.onNode (noteInterest now ingress i)) ingress
              { i with incomingFace := some ingress.face }).1.node.tally =
                fw.node.tally.counted := by
            rw [arrive]
            split <;> rfl
          dsimp only at hreceive
          rw [harrive] at hreceive hsaid
          have hlisted : BuiltInOnly { fw with node := m } := h.builtIn
          obtain ⟨token, isNew, tables, e, hfound, hget, hposts⟩ :=
            tally_admitInterest hlisted hreceive
          have hsame : m.tables = fw.node.tables := hquiet.tables
          have hturned := turnsAway_of_found h.node.indexed hdistinguished hinfo hscope hnew
            (hsame ▸ hfound) hget
          rcases hposts with ⟨hloop, htally⟩ | ⟨hloop, htally⟩
          · rw [if_pos (hturned.trans hloop)]
            exact htally.trans hsaid
          · have hlets : ¬ fw.turnsAway now ingress i = true := by
              rw [hturned]
              exact Bool.not_eq_true _ |>.mpr hloop
            rw [if_neg hlets]
            right
            refine ⟨i.arrived ingress.face hint, ?_⟩
            rw [hsaid] at htally
            exact htally

/-! ### Data -/

theorem tally_rememberNonces (f : Focus) (records : List OutRecord) :
    (f.rememberNonces records).node.tally = f.node.tally := by
  obtain ⟨deadNonces, hremember⟩ := rememberNonces_eq f records
  rw [hremember]
  rfl

theorem tally_closeEntry (ingress : FaceEndpoint) (data : Data) (f : Focus) :
    (closeEntry ingress data f).node.tally = f.node.tally :=
  tally_rememberNonces (settle data f) _

/-- Data for a single entry. -/
theorem tally_satisfyOne (hbuiltIn : fw.BuiltInOnly) {data : Data}
    (h : fw.satisfyOne ingress data token = .ok fw') :
    ∃ entries, fw'.node.tally = fw.node.tally.answered entries ingress.face data ∧
      entries.map PitEntry.untimed = fw.node.entriesAt [token] := by
  obtain ⟨e, f, hget, hwork, rfl⟩ := atEntry_eq_ok.mp h
  obtain ⟨f', hconsult, hclose⟩ := bind_eq_ok.mp hwork
  cases hclose
  obtain ⟨b, rfl⟩ := consult_builtIn hbuiltIn hconsult
  rw [b.afterData_eq, b.beforeSatisfy_eq]
  refine ⟨[(Focus.setExpiry ⟨fw.node, token, e⟩ 0).entry], ?_, ?_⟩
  · exact (tally_closeEntry ingress data _).trans (Focus.tally_sendDataToAll _ ingress data)
  · rw [Node.entriesAt_cons hget]
    rfl

/-- Data for several entries, one after another: each is as it was before the Data came in, apart
from its timer. -/
theorem tally_satisfyEach (hbuiltIn : fw.BuiltInOnly) (data : Data) {tokens : List PitToken}
    (hnodup : tokens.Nodup) {peers collected : List FaceEndpoint}
    (hfold : tokens.foldlM (satisfyAmong ingress data) (fw, peers) = .ok (fw', collected)) :
    ∃ entries, fw'.node.tally = fw.node.tally.answered entries ingress.face data ∧
      entries.map PitEntry.untimed = fw.node.entriesAt tokens := by
  induction tokens generalizing fw peers with
  | nil =>
      cases hfold
      exact ⟨[], by simp [Tally.answered, Tally.told], rfl⟩
  | cons token rest ih =>
      obtain ⟨hnew, hrest⟩ := List.nodup_cons.mp hnodup
      rw [List.foldlM_cons] at hfold
      obtain ⟨⟨first, peers'⟩, hstep, hlater⟩ := bind_eq_ok.mp hfold
      obtain ⟨f, hfocus, hwork⟩ := bind_eq_ok.mp hstep
      obtain ⟨e, hget, rfl⟩ := Node.focus_eq_ok.mp hfocus
      obtain ⟨g, hconsult, hresult⟩ := bind_eq_ok.mp hwork
      cases hresult
      obtain ⟨b, rfl⟩ := consult_builtIn hbuiltIn hconsult
      rw [b.beforeSatisfy_eq] at hlater
      let announced := StandardHook.beforeSatisfy data ingress
        (announce ingress data (sayMatching ingress data ⟨fw.node, token, e⟩))
      have hquiet : (Focus.setExpiry ⟨fw.node, token, e⟩ 0).Quiet announced :=
        (quiet_announce ingress data _).trans (Focus.quiet_say _ _)
      have hkeeps := keeps_among hquiet ingress data
      have hlive : Focus.Live ⟨fw.node, token, e⟩ := ⟨e, hget, rfl⟩
      have hlisted : BuiltInOnly { fw with
          node := ((closeEntry ingress data announced).onEntry PitEntry.clearIn).release } :=
        hbuiltIn
      obtain ⟨entries, htally, hentries⟩ := ih hlisted hrest hlater
      have hone : (closeEntry ingress data announced).node.tally = fw.node.tally.answered
          [(Focus.setExpiry ⟨fw.node, token, e⟩ 0).entry] ingress.face data :=
        tally_closeEntry ingress data announced
      refine ⟨(Focus.setExpiry ⟨fw.node, token, e⟩ 0).entry :: entries, ?_, ?_⟩
      · refine htally.trans ?_
        change ((closeEntry ingress data announced).node.tally).answered entries ingress.face data = _
        rw [hone, Tally.answered_append, List.singleton_append]
      · have hothers : ∀ u ∈ rest,
            ((closeEntry ingress data announced).onEntry PitEntry.clearIn).release.tables.pit.get? u =
              fw.node.tables.pit.get? u := by
          intro u hu
          rw [hkeeps.get?_release_of_ne hlive (ne_of_mem_of_not_mem hu hnew),
            Node.release_focus hget]
        rw [List.map_cons, hentries, Node.entriesAt_congr hothers, Node.entriesAt_cons hget]
        rfl

/-- The entries that Data answers, if it is let in at all. -/
def matching (fw : Forwarder) (ingress : FaceEndpoint) (data : Data) : List PitToken :=
  if fw.node.lets data ingress.face then
    fw.node.tables.pit.tokens.filter fun token => (fw.node.tables.pit.get? token).any fun e =>
      e.interest.isAnsweredBy data.name (data.implicitDigest fw.hash)
  else []

theorem matching_of_not_lets {data : Data} (hlets : fw.node.lets data ingress.face = false) :
    fw.matching ingress data = [] := by
  rw [matching, hlets, if_neg Bool.false_ne_true]

/-- The entries that are found for Data are those that it answers. -/
theorem perm_matching (h : fw.Valid) {data : Data}
    (hlets : fw.node.lets data ingress.face = true) :
    ∃ tokens compared, fw.node.tables.answeredBy data.name (data.implicitDigest fw.hash) =
      .ok (tokens, compared) ∧ tokens.Nodup ∧ tokens.Perm (fw.matching ingress data) := by
  obtain ⟨tokens, compared, hanswered, hnodup, hmem⟩ :=
    Tables.answeredBy_ok h.node.indexed data.name (data.implicitDigest fw.hash)
  refine ⟨tokens, compared, hanswered, hnodup, ?_⟩
  rw [matching, if_pos hlets]
  refine (List.perm_ext_iff_of_nodup hnodup ((Arena.tokens_nodup _).filter _)).mpr fun token => ?_
  rw [hmem, List.mem_filter, Arena.mem_tokens, Option.any_eq_true]
  constructor
  · rintro ⟨e, hget, hanswers⟩
    exact ⟨⟨e, hget⟩, e, hget, hanswers⟩
  · rintro ⟨_, e, hget, hanswers⟩
    exact ⟨e, hget, hanswers⟩

theorem receiveData_of_not_lets (now : Timestamp) {data : Data}
    (hlets : fw.node.lets data ingress.face = false) :
    ∃ notice, fw.receiveData now ingress data = .ok ((fw.tick now).say notice) ∨
      fw.receiveData now ingress data =
        .ok ((fw.onNode (noteData now ingress data)).say notice) := by
  rw [Node.lets] at hlets
  cases hinfo : fw.node.faces.info? ingress.face with
  | none =>
      have htick : (fw.tick now).node.faces.info? ingress.face = none := hinfo
      refine ⟨.incomingData ingress.face data.name .unknownFace, .inl ?_⟩
      simp only [receiveData, htick]
  | some info =>
      have htick : (fw.tick now).node.faces.info? ingress.face = some info := hinfo
      have hscope : (!info.isLocal && data.name.isLocalhost) = true := by
        simpa [hinfo] using hlets
      refine ⟨.incomingData ingress.face data.name .violatesLocalhost, .inr ?_⟩
      simp only [receiveData, htick, hscope, ↓reduceIte]
      rfl

theorem receiveData_none {data : Data} {info : FaceInfo}
    (hinfo : fw.node.faces.info? ingress.face = some info)
    (hscope : (!info.isLocal && data.name.isLocalhost) = false) {compared : Nat}
    (hanswered : fw.node.tables.answeredBy data.name (data.implicitDigest fw.hash) =
      .ok ([], compared)) :
    fw.receiveData now ingress data = .ok ((fw.onNode (noteData now ingress data)).onUnsolicited
      ingress info { data with incomingFace := some ingress.face }) := by
  have htick : (fw.tick now).node.faces.info? ingress.face = some info := hinfo
  simp only [receiveData, htick, hscope, Bool.false_eq_true, ↓reduceIte]
  change fw.node.tables.answeredBy data.name (data.implicitDigest fw.hash) >>= _ = _
  rw [hanswered]
  rfl

/-- What Data posts: one report for each entry that it answers. -/
theorem posts_receiveData (h : fw.Valid) {data : Data}
    (hreceive : fw.receiveData now ingress data = .ok fw') :
    ∃ tokens entries, tokens.Perm (fw.matching ingress data) ∧
      fw'.node.tally =
        fw.node.tally.answered entries ingress.face (data.arrived ingress.face) ∧
      entries.map PitEntry.untimed = fw.node.entriesAt tokens := by
  have hnothing : fw.node.tally =
      fw.node.tally.answered [] ingress.face (data.arrived ingress.face) := by
    simp [Tally.answered, Tally.told]
  cases hlets : fw.node.lets data ingress.face with
  | false =>
      refine ⟨[], [], by rw [matching_of_not_lets hlets], ?_, rfl⟩
      rw [← hnothing]
      obtain ⟨notice, hresult | hresult⟩ := receiveData_of_not_lets now hlets
      · cases hreceive.symm.trans hresult
        rfl
      · cases hreceive.symm.trans hresult
        rfl
  | true =>
      obtain ⟨tokens, compared, hanswered, hnodup, hperm⟩ := perm_matching h hlets
      rw [Node.lets, Option.any_eq_true] at hlets
      obtain ⟨info, hinfo, hlocal⟩ := hlets
      have hscope : (!info.isLocal && data.name.isLocalhost) = false := by
        cases hlink : info.isLocal <;> simp_all
      have hkept : (fw.kept now ingress data).Valid := h.kept now ingress data
      obtain _ | ⟨token, _ | ⟨second, rest⟩⟩ := tokens
      · refine ⟨[], [], hperm, ?_, rfl⟩
        rw [receiveData_none hinfo hscope hanswered] at hreceive
        cases hreceive
        rw [← hnothing, onUnsolicited]
        split <;> rfl
      · rw [receiveData_one hinfo hscope hanswered] at hreceive
        obtain ⟨entries, htally, hentries⟩ := tally_satisfyOne hkept.builtIn hreceive
        exact ⟨[token], entries, hperm, htally, hentries⟩
      · rw [receiveData_several hinfo hscope hanswered] at hreceive
        obtain ⟨⟨last, peers⟩, hfold, hresult⟩ := bind_eq_ok.mp hreceive
        cases hresult
        obtain ⟨entries, htally, hentries⟩ :=
          tally_satisfyEach hkept.builtIn (data.arrived ingress.face) hnodup hfold
        exact ⟨_, entries, hperm, (Node.tally_sendDataEach _ _ last.node).trans htally, hentries⟩

/-! ### Nacks, routes and faces -/

theorem tally_receiveNack (hbuiltIn : fw.BuiltInOnly) {nack : Nack}
    (h : fw.receiveNack now ingress nack = .ok fw') : fw'.node.tally = fw.node.tally := by
  simp only [receiveNack] at h
  split at h
  · cases h
    rfl
  · split at h
    · obtain ⟨found, _, hrest⟩ := bind_eq_ok.mp h
      cases found with
      | none =>
          cases hrest
          rfl
      | some token =>
          obtain ⟨e, f, _, hwork, rfl⟩ := atEntry_eq_ok.mp hrest
          split at hwork
          · have hlisted : BuiltInOnly (fw.onNode (noteNack now)) := hbuiltIn
            obtain ⟨b, rfl⟩ := consult_builtIn hlisted hwork
            rw [b.afterNack_eq]
            refine (Focus.moves_passNackOn _ ingress _).tally.trans ?_
            rw [recordNack]
            split <;> rfl
          · cases hwork
            rfl
    · cases h
      rfl

/-- Work on one entry after another posts nothing if each work posts nothing. -/
theorem tally_atEach {work : Forwarder → Focus → Except Fault Focus} {tokens : List PitToken}
    (hfold : tokens.foldlM (fun k token => k.atEntry token (work k)) fw = .ok fw')
    (hbuiltIn : fw.BuiltInOnly)
    (hwork : ∀ (k : Forwarder) f f', k.BuiltInOnly → work k f = .ok f' →
      f'.node.tally = f.node.tally) :
    fw'.node.tally = fw.node.tally := by
  have hend : fw'.BuiltInOnly ∧ fw'.node.tally = fw.node.tally := by
    refine foldlM_preserve (P := fun k : Forwarder =>
      k.BuiltInOnly ∧ k.node.tally = fw.node.tally) ?_ hfold ⟨hbuiltIn, rfl⟩
    rintro k token k' hstep ⟨hlisted, hsame⟩
    obtain ⟨e, f, _, hdone, rfl⟩ := atEntry_eq_ok.mp hstep
    exact ⟨hlisted, (hwork k _ f hlisted hdone).trans hsame⟩
  exact hend.2

theorem tally_addRoute (hbuiltIn : fw.BuiltInOnly) {stem : Name} {face : FaceId} {cost : Nat}
    {isAdded : Bool} (h : fw.addRoute now stem face cost = .ok (isAdded, fw')) :
    fw'.node.tally = fw.node.tally := by
  rw [addRoute] at h
  split at h
  · dsimp only at h
    split at h
    · obtain ⟨last, hfold, hresult⟩ := bind_eq_ok.mp h
      cases hresult
      have hoffered (k : Forwarder) (f f' : Focus) (hlisted : k.BuiltInOnly)
          (hwork : (k.consult f fun s f => s.afterNewNextHop { cost, face } f) = .ok f') :
          f'.node.tally = f.node.tally := by
        obtain ⟨b, rfl⟩ := consult_builtIn hlisted hwork
        exact (b.moves_afterNewNextHop _ f).tally
      have hkept := tally_atEach hfold hbuiltIn hoffered
      exact hkept
    · cases h
      rfl
  · cases h
    rfl

theorem tally_removeFace (hbuiltIn : fw.BuiltInOnly) {face : FaceId} {isRemoved : Bool}
    (h : fw.removeFace now face = .ok (isRemoved, fw')) : fw'.node.tally = fw.node.tally := by
  simp only [removeFace] at h
  split at h
  · cases h
    rfl
  · obtain ⟨last, hfold, hresult⟩ := bind_eq_ok.mp h
    cases hresult
    have hforgets (k : Forwarder) (f f' : Focus) (_ : k.BuiltInOnly)
        (hwork : Except.ok (forgetFace face f) = (.ok f' : Except Fault Focus)) :
        f'.node.tally = f.node.tally := by
      cases hwork
      rcases forgetFace_cases face f with ⟨_, hsame⟩ | ⟨_, hsame | hsame⟩ <;> rw [hsame] <;> rfl
    have hkept := tally_atEach hfold hbuiltIn hforgets
    exact hkept

theorem tally_onDroppedInterest (hbuiltIn : fw.BuiltInOnly) {egress : FaceEndpoint}
    {i : Interest} (h : fw.onDroppedInterest now egress i = .ok fw') :
    fw'.node.tally = fw.node.tally := by
  obtain ⟨s, hs, hresult⟩ := bind_eq_ok.mp h
  cases hresult
  obtain ⟨b, rfl⟩ := hbuiltIn s (List.mem_of_getElem? (strategy_eq_ok.mp hs))
  rw [b.afterDrop_eq]
  rfl

/-! ### Timers -/

theorem tally_parting (f : Focus) :
    (parting f).node.tally = f.node.tally.ended [f.entry] := by
  rw [parting]
  cases hsatisfied : f.entry.satisfied with
  | true =>
      obtain ⟨deadNonces, hremember⟩ := rememberNonces_eq (f.say (.finalized f.entry.name true))
        (f.say (.finalized f.entry.name true)).entry.outRecords
      simp only [↓reduceIte, hremember]
      simp [Node.tally, Tally.ended, Tally.told, hsatisfied, Focus.onNode, Focus.say, Node.say,
        Node.count]
  | false =>
      obtain ⟨deadNonces, hremember⟩ := rememberNonces_eq
        ((f.say (.finalized f.entry.name false)).report
          (.expire (f.say (.finalized f.entry.name false)).entry))
        ((f.say (.finalized f.entry.name false)).report
          (.expire (f.say (.finalized f.entry.name false)).entry)).entry.outRecords
      simp only [Bool.false_eq_true, ↓reduceIte, hremember]
      simp [Node.tally, Tally.ended, Tally.told, hsatisfied, Focus.onNode, Focus.say, Focus.report,
        Node.say, Node.report, Node.count]

theorem tally_ending {n : Node} {e : PitEntry} (hget : n.tables.pit.get? token = some e) :
    (n.ending token e).tally = n.tally.ended [e.untimed] := by
  obtain ⟨pit, hremove⟩ := Arena.remove_of_get? hget
  have herase := Tables.erase_eq_some.mpr ⟨pit, hremove, rfl⟩
  rw [Node.ending, finalize_eq (f := ⟨n, token, { e with expiryTimer := none }⟩) herase]
  exact tally_parting ⟨n, token, e.untimed⟩

/-- The entries of timers that fire are as they were before the first one fired. -/
theorem tally_endingEach {n : Node} {due : List (Timer PitToken)} {count : Nat}
    (h : (rearm due n).Valid count) : (endingEach n due).tally =
      n.tally.ended (n.entriesAt (due.map Timer.entry)) := by
  induction due generalizing n with
  | nil => simp [endingEach, Node.entriesAt, Tally.ended, Tally.told]
  | cons timer rest ih =>
      obtain ⟨e, hget, _⟩ := h.timed.owned timer List.mem_cons_self
      have hlive : n.tables.pit.get? timer.entry = some e := hget
      have hended := Node.ended_ending hlive
      obtain ⟨old, herase⟩ := hended.tables
      have hnodup : ((timer :: rest).map Timer.entry).Nodup := by
        have harmed := h.timer_entries_nodup
        rw [rearm, List.map_append] at harmed
        exact (List.nodup_append'.mp harmed).1
      have hothers : ∀ u ∈ rest.map Timer.entry,
          (n.ending timer.entry e).tables.pit.get? u = n.tables.pit.get? u := by
        intro u hu
        rw [Tables.get?_of_erase herase,
          if_neg (ne_of_mem_of_not_mem hu (List.nodup_cons.mp hnodup).1)]
      rw [endingEach_cons hlive, ih (valid_of_ended h hended), Node.entriesAt_congr hothers,
        tally_ending hlive, Tally.ended_append, List.map_cons, Node.entriesAt_cons hlive,
        List.singleton_append]

/-- What the timers post: the end of each entry whose timer is due. -/
theorem posts_runTimers {count : Nat} (h : fw.node.Valid count) (now : Timestamp) :
    (fw.runTimers now).2.node.tally = fw.node.tally.ended
      (fw.node.entriesAt ((fw.node.timers.takeDue now).1.map Timer.entry)) := by
  rw [runTimers_eq h now]
  exact tally_endingEach (valid_disarmed h now)

/-! ### Operations without a posting -/

theorem tally_addFace (fw : Forwarder) (takes : Nat → Bool) (scope : FaceScope) (link : LinkType) :
    (((fw.addFace takes scope link).map Prod.snd).getD fw).node.tally = fw.node.tally := by
  unfold Forwarder.addFace
  cases fw.node.faces.add takes scope link <;> rfl

theorem tally_setStrategy (fw : Forwarder) (stem : Name) (id : Nat) :
    (fw.setStrategy stem id).2.node.tally = fw.node.tally := by
  rw [setStrategy]
  split <;> rfl

theorem tally_unsetStrategy (fw : Forwarder) (stem : Name) :
    (fw.unsetStrategy stem).2.node.tally = fw.node.tally := by
  unfold Forwarder.unsetStrategy Tables.unsetStrategy
  cases stem.isEmpty <;> rfl

end Forwarder

end NamedData
