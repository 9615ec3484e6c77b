import NamedData.Proofs.EntryTimers
import NamedData.Proofs.LoopSuppression
import NamedData.Proofs.Patience

/-!
What is added to the memory of nonces, and when. An entry that ends adds the nonces it was sent
with, unless it was satisfied by Data that stays fresh for long or that need not be fresh; Data that
comes in adds the nonce that its entry was sent with to the face it came from, if the Data is
required to be fresh and is so for a short time only. Nothing else is ever added.
-/

namespace NamedData

open Forwarder

/-- The memory with some names and nonces more, added at one time in the given order. -/
def DeadNonceList.bury (l : DeadNonceList) (pairs : List (Name × Nonce)) (now : Timestamp) :
    DeadNonceList :=
  pairs.foldl (fun l p => l.add p.1 p.2 now) l

namespace DeadNonceList

theorem bury_append (l : DeadNonceList) (first second : List (Name × Nonce)) (now : Timestamp) :
    l.bury (first ++ second) now = (l.bury first now).bury second now :=
  List.foldl_append

theorem bury_eq_addAll (l : DeadNonceList) (pairs : List (Name × Nonce)) (now : Timestamp) :
    l.bury pairs now = l.addAll (pairs.map fun p => NonceHash.hash p.1 p.2) now := by
  rw [bury, addAll, List.foldl_map]
  rfl

@[simp] theorem lifetime_bury (l : DeadNonceList) (pairs : List (Name × Nonce)) (now : Timestamp) :
    (l.bury pairs now).lifetime = l.lifetime := by
  rw [bury_eq_addAll, lifetime_addAll]

end DeadNonceList

/-! ### What an entry adds -/

namespace PitEntry

/-- The names and nonces of some records of the entry. -/
def pairs (e : PitEntry) (records : List OutRecord) : List (Name × Nonce) :=
  records.map fun r => (e.name, r.nonce)

/-- What the entry adds to the memory when it ends. -/
def buriedAtEnd (e : PitEntry) (lifetime : Millis) : List (Name × Nonce) :=
  if !e.satisfied || (e.interest.mustBeFresh && e.dataFreshness < lifetime) then
    e.pairs e.outRecords
  else []

/-- What the entry adds to the memory when Data of the given freshness comes in from a face. -/
def buriedByData (e : PitEntry) (face : FaceId) (freshness lifetime : Millis) :
    List (Name × Nonce) :=
  if e.interest.mustBeFresh && freshness < lifetime then e.pairs (e.outRecord? face).toList else []

theorem mem_buriedAtEnd {e : PitEntry} {lifetime : Millis} {name : Name} {nonce : Nonce} :
    (name, nonce) ∈ e.buriedAtEnd lifetime ↔
      (e.satisfied = false ∨ e.interest.mustBeFresh = true ∧ e.dataFreshness < lifetime) ∧
        ∃ r ∈ e.outRecords, e.name = name ∧ r.nonce = nonce := by
  rw [buriedAtEnd, List.mem_ite_nil_right]
  simp [pairs]

theorem mem_buriedByData {e : PitEntry} {face : FaceId} {freshness lifetime : Millis} {name : Name}
    {nonce : Nonce} : (name, nonce) ∈ e.buriedByData face freshness lifetime ↔
      e.interest.mustBeFresh = true ∧ freshness < lifetime ∧
        ∃ r, e.outRecord? face = some r ∧ e.name = name ∧ r.nonce = nonce := by
  rw [buriedByData, List.mem_ite_nil_right]
  simp [pairs, and_assoc]

end PitEntry

/-! ### Entries that end -/

namespace Node

variable {n : Node} {token : PitToken} {e : PitEntry}

/-- What some entries add one after another, if each adds what is given. -/
def buriedBy (n : Node) (adds : PitEntry → Millis → List (Name × Nonce))
    (tokens : List PitToken) : List (Name × Nonce) :=
  tokens.flatMap fun token =>
    (n.tables.pit.get? token).toList.flatMap fun e => adds e n.deadNonces.lifetime

/-- What some entries add when they end. -/
def buriedAtEnd (n : Node) (tokens : List PitToken) : List (Name × Nonce) :=
  n.buriedBy PitEntry.buriedAtEnd tokens

/-- What some entries add when Data comes in for them. -/
def buriedByData (n : Node) (face : FaceId) (freshness : Millis) (tokens : List PitToken) :
    List (Name × Nonce) :=
  n.buriedBy (fun e => e.buriedByData face freshness) tokens

variable {adds : PitEntry → Millis → List (Name × Nonce)} {tokens : List PitToken}

theorem buriedBy_cons (hget : n.tables.pit.get? token = some e) :
    n.buriedBy adds (token :: tokens) =
      adds e n.deadNonces.lifetime ++ n.buriedBy adds tokens := by
  rw [buriedBy, List.flatMap_cons, hget, Option.toList_some, List.flatMap_singleton]
  rfl

theorem mem_buriedBy {pair : Name × Nonce} : pair ∈ n.buriedBy adds tokens ↔
    ∃ token ∈ tokens, ∃ e, n.tables.pit.get? token = some e ∧
      pair ∈ adds e n.deadNonces.lifetime := by
  simp [buriedBy]

/-- After the first entry has added its part, the others add what they would have added at the
start, since only the first one has changed. -/
theorem bury_cons {m : Node} (hget : n.tables.pit.get? token = some e)
    (hburied : m.deadNonces = n.deadNonces.bury (adds e n.deadNonces.lifetime) n.now)
    (hnow : m.now = n.now)
    (hothers : ∀ u ≠ token, m.tables.pit.get? u = n.tables.pit.get? u) (hnew : token ∉ tokens) :
    m.deadNonces.bury (m.buriedBy adds tokens) m.now =
      n.deadNonces.bury (n.buriedBy adds (token :: tokens)) n.now := by
  have hlifetime : m.deadNonces.lifetime = n.deadNonces.lifetime := by
    rw [hburied, DeadNonceList.lifetime_bury]
  have hsame : m.buriedBy adds tokens = n.buriedBy adds tokens := by
    refine List.flatMap_congr fun u member => ?_
    rw [hothers u (ne_of_mem_of_not_mem member hnew), hlifetime]
  rw [hsame, buriedBy_cons hget, DeadNonceList.bury_append, ← hburied, hnow]

theorem rememberedAfter_eq (n : Node) (token : PitToken) (e : PitEntry) :
    n.rememberedAfter token e = n.deadNonces.bury (e.buriedAtEnd n.deadNonces.lifetime) n.now := by
  rw [rememberedAfter, PitEntry.buriedAtEnd, Focus.remembersNonces]
  split
  · rw [DeadNonceList.bury_eq_addAll, PitEntry.pairs, List.map_map]
    rfl
  · rfl

end Node

namespace Forwarder

/-- The entries of timers that fire are as they were before the first one fired. -/
theorem deadNonces_endingEach {n : Node} {due : List (Timer PitToken)} {count : Nat}
    (h : (rearm due n).Valid count) : (endingEach n due).deadNonces =
      n.deadNonces.bury (n.buriedAtEnd (due.map Timer.entry)) n.now := by
  induction due generalizing n with
  | nil => rfl
  | cons timer rest ih =>
      obtain ⟨e, hget, _⟩ := h.timed.owned timer List.mem_cons_self
      have hlive : n.tables.pit.get? timer.entry = some e := hget
      have hended := Node.ended_ending hlive
      have hburied : (n.ending timer.entry e).deadNonces =
          n.deadNonces.bury (e.buriedAtEnd n.deadNonces.lifetime) n.now :=
        (Node.deadNonces_ending hlive).trans (n.rememberedAfter_eq timer.entry e)
      obtain ⟨old, herase⟩ := hended.tables
      have hothers : ∀ u ≠ timer.entry,
          (n.ending timer.entry e).tables.pit.get? u = n.tables.pit.get? u := by
        intro u hother
        rw [Tables.get?_of_erase herase, if_neg hother]
      have hnodup : ((timer :: rest).map Timer.entry).Nodup := by
        have harmed := h.timer_entries_nodup
        rw [rearm, List.map_append] at harmed
        exact (List.nodup_append'.mp harmed).1
      rw [endingEach_cons hlive, ih (valid_of_ended h hended)]
      exact Node.bury_cons hlive hburied hended.now hothers (List.nodup_cons.mp hnodup).1

theorem deadNonces_runTimers {fw : Forwarder} (h : fw.Valid) (now : Timestamp) :
    (fw.runTimers now).2.node.deadNonces = fw.node.deadNonces.bury
      (fw.node.buriedAtEnd ((fw.node.timers.takeDue now).1.map Timer.entry)) now := by
  rw [runTimers_eq h.node now]
  exact deadNonces_endingEach (valid_disarmed h.node now)

/-! ### Data that comes in -/

variable {fw fw' : Forwarder} {now : Timestamp} {ingress : FaceEndpoint} {token : PitToken}
  {data : Data} {e : PitEntry}

theorem deadNonces_closeEntry (ingress : FaceEndpoint) (data : Data) (f : Focus) :
    (closeEntry ingress data f).node.deadNonces = f.node.deadNonces.bury
      (f.entry.buriedByData ingress.face data.freshness f.node.deadNonces.lifetime)
      f.node.now := by
  -- the entry is satisfied by now, so that the freshness of the Data decides
  have hworth : (settle data f).remembersNonces = (f.entry.interest.mustBeFresh &&
      decide (data.freshness < f.node.deadNonces.lifetime)) := rfl
  rw [closeEntry_eq, PitEntry.buriedByData, Focus.rememberNonces, hworth]
  split
  · rw [DeadNonceList.bury, PitEntry.pairs, List.foldl_map]
    rfl
  · rfl

/-- Work on the entry before it is closed makes no difference for what is added. -/
theorem deadNonces_closeEntry_of_announced {n : Node} {g : Focus}
    (hkeeps : Focus.Keeps ⟨n, token, e⟩ g) (hout : g.entry.outRecords = e.outRecords)
    (hdead : g.node.deadNonces = n.deadNonces) (ingress : FaceEndpoint) (data : Data) :
    (closeEntry ingress data g).node.deadNonces = n.deadNonces.bury
      (e.buriedByData ingress.face data.freshness n.deadNonces.lifetime) n.now := by
  have hinterest : g.entry.interest = e.interest := hkeeps.interest
  have hsame (face : FaceId) (lifetime : Millis) :
      g.entry.buriedByData face data.freshness lifetime =
        e.buriedByData face data.freshness lifetime := by
    simp only [PitEntry.buriedByData, PitEntry.pairs, PitEntry.name, PitEntry.outRecord?,
      hinterest, hout]
  rw [deadNonces_closeEntry, hsame, hdead, hkeeps.now]

/-- Data for a single entry. -/
theorem deadNonces_one {n : Node} {g : Focus} {count : Nat} (h : n.Valid count)
    (hget : n.tables.pit.get? token = some e)
    (hquiet : (Focus.setExpiry ⟨n, token, e⟩ 0).Quiet g) (sent : Data) :
    (closeEntry ingress data (g.sendDataToAll ingress sent)).release.deadNonces =
      n.deadNonces.bury (e.buriedByData ingress.face data.freshness n.deadNonces.lifetime)
        n.now := by
  have hall := Focus.sendDataToAll_eq (distinct_of_quiet h hget hquiet) ingress sent
  have hkeeps := (keeps_of_announced hquiet).trans (g.keeps_sendDataToAll ingress sent)
  refine deadNonces_closeEntry_of_announced hkeeps ?_ ?_ ingress data
  · rw [hall, hquiet.entry]
    rfl
  · rw [hall]
    exact (unmoved_sendDataEach sent _ g.node).deadNonces.trans hquiet.node.deadNonces

/-- Data for several entries, one after another: each is as it was before the Data came in. -/
theorem deadNonces_satisfyEach (data : Data) {tokens : List PitToken} (h : fw.Valid)
    (hnodup : tokens.Nodup) {peers collected : List FaceEndpoint}
    (hfold : tokens.foldlM (satisfyAmong ingress data) (fw, peers) = .ok (fw', collected)) :
    fw'.node.deadNonces = fw.node.deadNonces.bury
      (fw.node.buriedByData ingress.face data.freshness tokens) fw.node.now := by
  induction tokens generalizing fw peers with
  | nil =>
      cases hfold
      rfl
  | cons token rest ih =>
      obtain ⟨hnew, hrest⟩ := List.nodup_cons.mp hnodup
      rw [List.foldlM_cons] at hfold
      obtain ⟨⟨first, peers'⟩, hstep, hlater⟩ := bind_eq_ok.mp hfold
      have hvalid := h.satisfyAmong hstep
      obtain ⟨e, g, hget, hquiet, rfl, rfl⟩ := satisfyAmong_cases h.builtIn hstep
      have hkeeps := keeps_among hquiet ingress data
      have hburied : ((closeEntry ingress data g).onEntry PitEntry.clearIn).release.deadNonces =
          fw.node.deadNonces.bury
            (e.buriedByData ingress.face data.freshness fw.node.deadNonces.lifetime)
            fw.node.now :=
        deadNonces_closeEntry_of_announced (keeps_of_announced hquiet)
          (by rw [hquiet.entry]; rfl) hquiet.node.deadNonces ingress data
      have hlive : Focus.Live ⟨fw.node, token, e⟩ := ⟨e, hget, rfl⟩
      have hothers : ∀ u ≠ token,
          ((closeEntry ingress data g).onEntry PitEntry.clearIn).release.tables.pit.get? u =
            fw.node.tables.pit.get? u := by
        intro u hother
        rw [hkeeps.get?_release_of_ne hlive hother, Node.release_focus hget]
      rw [ih hvalid hrest hlater]
      exact Node.bury_cons hget hburied hkeeps.now hothers hnew

/-- What Data adds: nothing if it comes from an unknown face or must not come from there, and
otherwise what it adds for the entries that it answers. -/
def buriedByData (fw : Forwarder) (ingress : FaceEndpoint) (data : Data) : List (Name × Nonce) :=
  if fw.node.lets data ingress.face then
    match fw.node.tables.answeredBy data.name (data.implicitDigest fw.hash) with
    | .ok (tokens, _) => fw.node.buriedByData ingress.face data.freshness tokens
    | .error _ => []
  else []

theorem buriedByData_of_lets {info : FaceInfo}
    (hinfo : fw.node.faces.info? ingress.face = some info)
    (hscope : (!info.isLocal && data.name.isLocalhost) = false) {tokens : List PitToken}
    {compared : Nat}
    (hanswered : fw.node.tables.answeredBy data.name (data.implicitDigest fw.hash) =
      .ok (tokens, compared)) : fw.buriedByData ingress data =
        fw.node.buriedByData ingress.face data.freshness tokens := by
  have hlets : fw.node.lets data ingress.face = true := by
    simpa [Node.lets, hinfo, or_iff_not_imp_left] using hscope
  rw [buriedByData, if_pos hlets, hanswered]

theorem buriedByData_of_not_lets (hlets : fw.node.lets data ingress.face = false) :
    fw.buriedByData ingress data = [] := by
  rw [buriedByData, hlets, if_neg Bool.false_ne_true]

theorem deadNonces_receiveData (h : fw.Valid)
    (hreceive : fw.receiveData now ingress data = .ok fw') :
    fw'.node.deadNonces = fw.node.deadNonces.bury (fw.buriedByData ingress data) now := by
  cases receiveData_cases h.builtIn hreceive with
  | unknownFace n hinfo hquiet =>
      have hlets : fw.node.lets data ingress.face = false := by simp [Node.lets, hinfo]
      rw [buriedByData_of_not_lets hlets]
      exact hquiet.deadNonces
  | violation n info hinfo hscope hquiet =>
      have hlets : fw.node.lets data ingress.face = false := by
        simpa [Node.lets, hinfo] using hscope
      rw [buriedByData_of_not_lets hlets]
      exact hquiet.deadNonces
  | unsolicited n store info compared hinfo hanswered hquiet hscope =>
      rw [buriedByData_of_lets hinfo hscope hanswered]
      exact hquiet.deadNonces
  | one store info token compared e g hinfo hanswered hget hquiet hscope =>
      have hnoted : (noteData now ingress data fw.node).Valid fw.strategies.length :=
        h.node.congr rfl rfl rfl
      rw [buriedByData_of_lets hinfo hscope hanswered, Node.buriedByData,
        Node.buriedBy_cons hget, Node.buriedBy, List.flatMap_nil, List.append_nil]
      exact deadNonces_one hnoted hget hquiet _
  | several store info tokens compared last peers hinfo hanswered htokens hscope =>
      obtain ⟨found, _, hfound, hnodup, _⟩ :=
        Tables.answeredBy_ok h.node.indexed data.name (data.implicitDigest fw.hash)
      rw [hanswered] at hfound
      cases hfound
      have hstart : Valid { fw with node := noteData now ingress data fw.node, store } :=
        h.of_node rfl (h.node.congr rfl rfl rfl)
      rw [buriedByData_of_lets hinfo hscope hanswered]
      exact (unmoved_sendDataEach _ _ last.node).deadNonces.trans
        (deadNonces_satisfyEach (data.arrived ingress.face) hstart hnodup htokens)

theorem mem_buriedByData (h : fw.Valid) {name : Name} {nonce : Nonce} :
    (name, nonce) ∈ fw.buriedByData ingress data ↔
      (∃ info, fw.node.faces.info? ingress.face = some info ∧
        (info.isLocal = true ∨ data.name.isLocalhost = false)) ∧
      ∃ token e, fw.node.tables.pit.get? token = some e ∧
        e.interest.isAnsweredBy data.name (data.implicitDigest fw.hash) = true ∧
        (name, nonce) ∈ e.buriedByData ingress.face data.freshness fw.node.deadNonces.lifetime := by
  obtain ⟨tokens, compared, hanswered, _, hmem⟩ :=
    Tables.answeredBy_ok h.node.indexed data.name (data.implicitDigest fw.hash)
  have hlets : fw.node.lets data ingress.face = true ↔
      ∃ info, fw.node.faces.info? ingress.face = some info ∧
        (info.isLocal = true ∨ data.name.isLocalhost = false) := by
    simp [Node.lets, Option.any_eq_true]
  rw [buriedByData, List.mem_ite_nil_right, hanswered, hlets]
  dsimp only
  rw [Node.buriedByData, Node.mem_buriedBy]
  apply and_congr_right
  intro _
  constructor
  · rintro ⟨token, member, e, hget, hpair⟩
    obtain ⟨e', hget', hanswer⟩ := (hmem token).mp member
    rw [hget, Option.some.injEq] at hget'
    exact ⟨token, e, hget, hget' ▸ hanswer, hpair⟩
  · rintro ⟨token, e, hget, hanswer, hpair⟩
    exact ⟨token, (hmem token).mpr ⟨e, hget, hanswer⟩, e, hget, hpair⟩

/-! ### Every operation -/

/-- Entries go only when timers are run. -/
theorem get?_perform {operation : Operation} (h : fw.Valid)
    (hperform : fw.perform operation = .ok fw') (hother : ∀ now, operation ≠ .runTimers now)
    (hget : fw.node.tables.pit.get? token = some e) :
    ∃ e', fw'.node.tables.pit.get? token = some e' := by
  obtain ⟨n, hbegun, hdeeds⟩ := deeds_perform h hperform
  have hstart : n.tables.pit.get? token = some e := by
    rcases hbegun with rfl | ⟨_, _, rfl⟩ <;> exact hget
  have hend := hdeeds.entry (P := fun _ => True) (L := fun _ => False) (fun _ _ _ => id)
    (fun _ _ _ _ _ _ => .inl trivial) (fun _ _ _ now _ _ _ hcall _ _ _ => hother now hcall)
    hstart trivial
  obtain ⟨e', hget', _⟩ := hend.resolve_right id
  exact ⟨e', hget'⟩

end Forwarder

/-! ### The policy -/

namespace Step

/-- What the step adds to the memory, in this order. -/
def buried (s : Step) : List (Name × Nonce) :=
  match s.operation with
  | .runTimers now =>
    s.before.node.buriedAtEnd ((s.before.node.timers.takeDue now).1.map Timer.entry)
  | .receive _ ingress (.data data) => s.before.buriedByData ingress data
  | _ => []

/-- The policy: when a name and a nonce are added in a step. -/
inductive Buries (s : Step) (name : Name) (nonce : Nonce) : Prop where
  /-- An entry ends, unsatisfied or with short-lived Data for an Interest in fresh Data. The nonce
  is the last one in one of its out-records. -/
  | finalized {token : PitToken} {e : PitEntry} {r : OutRecord}
      (hlive : s.before.node.tables.pit.get? token = some e)
      (hgone : s.after.node.tables.pit.get? token = none)
      (hworth : e.satisfied = false ∨
        e.interest.mustBeFresh = true ∧ e.dataFreshness < s.before.node.deadNonces.lifetime)
      (hrecord : r ∈ e.outRecords) (hname : e.name = name) (hnonce : r.nonce = nonce)
  /-- Short-lived Data comes in for an entry, alone or among several, whose Interest is one in
  fresh Data. The nonce is the last one in the out-record of the face that the Data came from. -/
  | matched {now : Timestamp} {ingress : FaceEndpoint} {data : Data} {token : PitToken}
      {e : PitEntry} {r : OutRecord} {info : FaceInfo}
      (hcall : s.operation = .receive now ingress (.data data))
      (hinfo : s.before.node.faces.info? ingress.face = some info)
      (hscope : info.isLocal = true ∨ data.name.isLocalhost = false)
      (hlive : s.before.node.tables.pit.get? token = some e)
      (hanswers :
        e.interest.isAnsweredBy data.name (data.implicitDigest s.before.hash) = true)
      (hfresh : e.interest.mustBeFresh = true)
      (hshort : data.freshness < s.before.node.deadNonces.lifetime)
      (hrecord : e.outRecord? ingress.face = some r) (hname : e.name = name)
      (hnonce : r.nonce = nonce)

end Step

section Steps

variable {fw fw' : Forwarder} {operation : Operation} {name : Name} {nonce : Nonce}

/-- An operation adds what its step says, at its time, and nothing else. -/
theorem deadNonces_perform (h : fw.Valid) (hperform : fw.perform operation = .ok fw') :
    fw'.node.deadNonces =
      fw.node.deadNonces.bury (Step.mk fw operation fw').buried fw'.node.now := by
  have hothers (hother : operation.buries = false) :
      fw'.node.deadNonces = fw.node.deadNonces := by
    obtain ⟨n, hbegun, hdeeds⟩ := deeds_perform h hperform
    rw [hdeeds.deadNonces_of_other hother]
    rcases hbegun with rfl | ⟨_, _, rfl⟩ <;> rfl
  cases operation with
  | runTimers now =>
      cases hperform
      have hdeeds : Node.Deeds fw.hash (.runTimers now) { fw.node with now }
          (fw.runTimers now).2.node := deeds_runTimers h rfl
      rw [hdeeds.now]
      exact deadNonces_runTimers h now
  | receive now ingress packet =>
      cases packet with
      | data d =>
          rw [(deeds_receiveData h rfl hperform).now]
          exact deadNonces_receiveData h hperform
      | interest i => exact hothers rfl
      | nack k => exact hothers rfl
  | _ => exact hothers rfl

/-- What a step adds is what the policy says. -/
theorem mem_buried_iff (h : fw.Valid) (hperform : fw.perform operation = .ok fw') :
    (name, nonce) ∈ (Step.mk fw operation fw').buried ↔
      (Step.mk fw operation fw').Buries name nonce := by
  constructor
  · intro member
    cases operation with
    | runTimers now =>
        cases hperform
        obtain ⟨token, hdue, e, hget, hpair⟩ := Node.mem_buriedBy.mp member
        obtain ⟨hworth, r, hr, hname, hnonce⟩ := PitEntry.mem_buriedAtEnd.mp hpair
        exact .finalized hget ((gone_runTimers_iff h hget).mpr hdue) hworth hr hname hnonce
    | receive now ingress packet =>
        cases packet with
        | data d =>
            obtain ⟨⟨info, hinfo, hscope⟩, token, e, hget, hanswers, hpair⟩ :=
              (mem_buriedByData h).mp member
            obtain ⟨hfresh, hshort, r, hr, hname, hnonce⟩ := PitEntry.mem_buriedByData.mp hpair
            exact .matched rfl hinfo hscope hget hanswers hfresh hshort hr hname hnonce
        | interest i => cases member
        | nack k => cases member
    | _ => cases member
  · rintro (⟨hget, hgone, hworth, hr, hname, hnonce⟩ |
      ⟨hcall, hinfo, hscope, hget, hanswers, hfresh, hshort, hr, hname, hnonce⟩)
    · by_cases htimers : ∃ now, operation = .runTimers now
      · obtain ⟨now, rfl⟩ := htimers
        cases hperform
        exact Node.mem_buriedBy.mpr ⟨_, (gone_runTimers_iff h hget).mp hgone, _, hget,
          PitEntry.mem_buriedAtEnd.mpr ⟨hworth, _, hr, hname, hnonce⟩⟩
      · have hother : ∀ now, operation ≠ .runTimers now := fun now hcall => htimers ⟨now, hcall⟩
        obtain ⟨e', hget'⟩ := get?_perform h hperform hother hget
        cases hgone.symm.trans hget'
    · cases hcall
      exact (mem_buriedByData h).mpr ⟨⟨_, hinfo, hscope⟩, _, _, hget, hanswers,
        PitEntry.mem_buriedByData.mpr ⟨hfresh, hshort, _, hr, hname, hnonce⟩⟩

end Steps

/-- The memory of nonces is what the steps of the run have added, and nothing else: every step adds
some names and nonces at its time, namely those that the policy says. Data that is dropped when it
arrives, from an unknown face or under `/localhost` from a face that is not local, is looked up in
no entry. -/
theorem buries_by_policy {settings : Settings} {store : ContentStore} {hash : HashFunction}
    {history : List Step} {fw : Forwarder}
    (run : Run (Forwarder.new settings store hash) history fw) :
    fw.node.deadNonces = history.foldr (fun s l => l.bury s.buried s.after.node.now)
      (.new settings.deadNonceLifetime) ∧
    ∀ s ∈ history,
      s.after.node.deadNonces = s.before.node.deadNonces.bury s.buried s.after.node.now ∧
      ∀ name nonce, (name, nonce) ∈ s.buried ↔ s.Buries name nonce := by
  constructor
  · induction run with
    | start => rfl
    | step run operation hperform ih =>
        rw [List.foldr_cons, ← ih]
        exact deadNonces_perform run.valid hperform
  · intro s hs
    obtain ⟨earlier, hrun, hperform⟩ := run.mem hs
    exact ⟨deadNonces_perform hrun.valid hperform, fun _ _ => mem_buried_iff hrun.valid hperform⟩

/-- A fresh answer that is short-lived adds the nonce at once, so that the end of the entry adds
nothing; an entry without an answer adds its nonce at its end. -/
theorem buries_by_policy_twice : ∃ history fw, Run Sample.start history fw ∧
    history.map Step.buried =
      [[(Sample.name, ⟨2⟩)], [], [], [(Sample.name, ⟨1⟩)], [], [], [], []] ∧
    fw.node.deadNonces = history.foldr (fun s l => l.bury s.buried s.after.node.now)
      (.new DeadNonceList.defaultLifetime) ∧
    ∀ s ∈ history, ∀ name nonce, (name, nonce) ∈ s.buried ↔ s.Buries name nonce := by
  have hrun := Run.reached Sample.start
    (.runTimers ⟨100000⟩ :: Sample.ask ⟨5⟩ ⟨2⟩ :: .runTimers ⟨4⟩ :: Sample.reply ⟨3⟩ ::
      .receive ⟨2⟩ ⟨⟨256⟩, 0⟩
        (.interest { name := Sample.name, nonce := ⟨1⟩, mustBeFresh := true }) :: Sample.setup)
    (by decide +kernel)
  obtain ⟨hmemory, hsteps⟩ := buries_by_policy hrun
  exact ⟨_, _, hrun, by decide +kernel, hmemory, fun s hs => (hsteps s hs).2⟩

end NamedData
