import NamedData.Proofs.Lookup
import NamedData.Proofs.Tokens

/-!
Runs of the tables. Whoever holds the tables may call any operation at any time, and may change a
pending entry in any way that leaves its Interest. Each call does one of four things to the pending
entries, so that what the tables keep to is shown for each of the four and then for every run; no
call of a run ends with a fault.
-/

namespace NamedData

/-- A call of the tables. -/
inductive TableCall where
  | addNextHop (stem : Name) (face : FaceId) (cost : Nat)
  | removeNextHop (stem : Name) (face : FaceId)
  | forgetNextHop (face : FaceId)
  | setStrategy (stem : Name) (strategy : Nat)
  | unsetStrategy (stem : Name)
  | findOrInsert (i : Interest)
  | revise (token : PitToken) (change : PitEntry → PitEntry)
  | erase (token : PitToken)

/-- Whether the call is about pending Interests. -/
def TableCall.isPending : TableCall → Bool
  | findOrInsert _ => true
  | revise _ _ => true
  | erase _ => true
  | _ => false

/-- What a call returns. -/
inductive TableReply where
  | done
  | said (answer : Bool)
  | pending (token : PitToken) (isNew : Bool)
  | ended (removed? : Option PitEntry)
deriving DecidableEq

namespace Tables

/-- Changes a pending entry in a way that leaves its Interest. -/
def revise (t : Tables) (token : PitToken) (change : PitEntry → PitEntry) : Tables :=
  { t with pit := t.pit.modify token fun e => { change e with interest := e.interest } }

def call (t : Tables) : TableCall → Except Fault (TableReply × Tables)
  | .addNextHop stem face cost =>
    let (isNew, t) := t.addNextHop stem face cost
    .ok (.said isNew, t)
  | .removeNextHop stem face =>
    let (wasThere, t) := t.removeNextHop stem face
    .ok (.said wasThere, t)
  | .forgetNextHop face => .ok (.done, t.forgetNextHop face)
  | .setStrategy stem strategy => .ok (.done, t.setStrategy stem strategy)
  | .unsetStrategy stem =>
    let (wasThere, t) := t.unsetStrategy stem
    .ok (.said wasThere, t)
  | .findOrInsert i => do
    let ((token, isNew), t) ← t.findOrInsert i
    .ok (.pending token isNew, t)
  | .revise token change => .ok (.done, t.revise token change)
  | .erase token =>
    match t.erase token with
    | some (e, t) => .ok (.ended (some e), t)
    | none => .ok (.ended none, t)

end Tables

/-- The token of the entry that a call made. -/
def TableReply.opened? : TableReply → Option PitToken
  | pending token true => some token
  | _ => none

/-- The token of the entry that a call with this reply ended. -/
def TableCall.ended? : TableCall → TableReply → Option PitToken
  | erase token, .ended (some _) => some token
  | _, _ => none

/-- One call with its reply and the tables before and after it. -/
structure TableStep where
  before : Tables
  call : TableCall
  reply : TableReply
  after : Tables

/-- The tokens that a history gave out, the latest first. -/
def opened (history : List TableStep) : List PitToken :=
  history.filterMap fun s => s.reply.opened?

/-- The tokens whose entries a history ended, the latest first. -/
def ended (history : List TableStep) : List PitToken :=
  history.filterMap fun s => s.call.ended? s.reply

@[simp] theorem opened_cons (s : TableStep) (history : List TableStep) :
    opened (s :: history) = s.reply.opened?.toList ++ opened history := by
  rw [opened, List.filterMap_cons]
  cases s.reply.opened? <;> rfl

@[simp] theorem ended_cons (s : TableStep) (history : List TableStep) :
    ended (s :: history) = (s.call.ended? s.reply).toList ++ ended history := by
  rw [ended, List.filterMap_cons]
  cases s.call.ended? s.reply <;> rfl

namespace Tables

/-- Performs one call after another, the latest first, and keeps the history. -/
def record (start : Tables) : List TableCall → Except Fault (List TableStep × Tables)
  | [] => .ok ([], start)
  | k :: earlier => do
    let (history, t) ← record start earlier
    let (reply, t') ← t.call k
    .ok ({ before := t, call := k, reply, after := t' } :: history, t')

/-! ### What a call does to the pending entries -/

/-- What a call makes of the pending entries: nothing, a new entry, a change of one that leaves its
Interest, or the end of one. -/
inductive PendingEffect (t : Tables) : TableCall → TableReply → Tables → Prop where
  | same {k : TableCall} {reply : TableReply} {t' : Tables} (hordered : t'.tree.Ordered)
      (hpit : t'.pit = t.pit) (hpending : ∀ n, (t'.recordAt n).pending = (t.recordAt n).pending)
      (hopened : reply.opened? = none) (hended : k.ended? reply = none) : PendingEffect t k reply t'
  | opened {i : Interest} {token : PitToken} {pit : Arena PitEntry}
      (hfind : t.findPending i = .ok none)
      (hinsert : t.pit.insert { interest := i.untagged } = .ok (token, pit)) :
      PendingEffect t (.findOrInsert i) (.pending token true) (Tables.change { t with pit } i.name
        fun r => { r with pending := r.pending ++ [token] })
  | revised {token : PitToken} {change : PitEntry → PitEntry} {e : PitEntry}
      (hget : t.pit.get? token = some e) :
      PendingEffect t (.revise token change) .done
        { t with pit := t.pit.set token { change e with interest := e.interest } }
  | ended {token : PitToken} {e : PitEntry} {t' : Tables} (herase : t.erase token = some (e, t')) :
      PendingEffect t (.erase token) (.ended (some e)) t'

variable {t t' : Tables} {k : TableCall} {reply : TableReply} {i : Interest} {token : PitToken}
  {e : PitEntry} {count : Nat}

theorem call_findOrInsert (h : t.call (.findOrInsert i) = .ok (reply, t')) :
    ∃ token isNew, reply = .pending token isNew ∧ t.findOrInsert i = .ok ((token, isNew), t') := by
  obtain ⟨⟨⟨token, isNew⟩, last⟩, hfound, hresult⟩ := bind_eq_ok.mp h
  cases hresult
  exact ⟨token, isNew, rfl, hfound⟩

theorem call_erase (h : t.call (.erase token) = .ok (reply, t')) :
    (reply = .ended none ∧ t' = t) ∨
      ∃ e, reply = .ended (some e) ∧ t.erase token = some (e, t') := by
  rw [call] at h
  cases herase : t.erase token with
  | none =>
      rw [herase] at h
      cases h
      exact .inl ⟨rfl, rfl⟩
  | some removed =>
      rw [herase] at h
      cases h
      exact .inr ⟨removed.1, rfl, rfl⟩

/-- A change at one name that leaves the list of pending entries there. -/
theorem pendingEffect_change (h : t.tree.Ordered) (stem : Name) {f : NameRecord → NameRecord}
    (hf : ∀ r, (f r).pending = r.pending) (hopened : reply.opened? = none)
    (hended : k.ended? reply = none) : t.PendingEffect k reply (t.change stem f) := by
  refine .same (NameTree.ordered_alter h stem f) rfl (fun n => ?_) hopened hended
  rw [recordAt_change h]
  split
  next same => rw [hf, same]
  next => rfl

theorem pendingEffect_self (h : t.tree.Ordered) (hopened : reply.opened? = none)
    (hended : k.ended? reply = none) : t.PendingEffect k reply t :=
  .same h rfl (fun _ => rfl) hopened hended

theorem unsetStrategy_effect (h : t.tree.Ordered) (stem : Name) :
    t.PendingEffect (.unsetStrategy stem) (.said (t.unsetStrategy stem).1)
      (t.unsetStrategy stem).2 := by
  rcases t.unsetStrategy_cases stem with hsame | hchanged
  · rw [hsame]
    exact pendingEffect_self h rfl rfl
  · rw [hchanged]
    exact pendingEffect_change h stem (fun _ => rfl) rfl rfl

theorem findOrInsert_effect (h : t.tree.Ordered) {isNew : Bool}
    (hcall : t.findOrInsert i = .ok ((token, isNew), t')) :
    t.PendingEffect (.findOrInsert i) (.pending token isNew) t' := by
  rcases findOrInsert_eq_ok hcall with ⟨rfl, rfl, -⟩ | ⟨pit, rfl, hfind, hinsert, rfl⟩
  · exact pendingEffect_self h rfl rfl
  · exact .opened hfind hinsert

theorem revise_effect (h : t.tree.Ordered) (token : PitToken) (change : PitEntry → PitEntry) :
    t.PendingEffect (.revise token change) .done (t.revise token change) := by
  rw [revise, Arena.modify]
  cases hget : t.pit.get? token with
  | none => exact pendingEffect_self h rfl rfl
  | some e => exact .revised hget

theorem call_effect (h : t.tree.Ordered) (hcall : t.call k = .ok (reply, t')) :
    t.PendingEffect k reply t' := by
  cases k with
  | addNextHop stem face cost =>
      cases hcall
      exact pendingEffect_change h stem (fun _ => rfl) rfl rfl
  | removeNextHop stem face =>
      cases hcall
      exact pendingEffect_change h stem (fun _ => rfl) rfl rfl
  | forgetNextHop face =>
      cases hcall
      refine .same (NameTree.ordered_mapValues h _) rfl (fun n => ?_) rfl rfl
      rw [recordAt_forgetNextHop h]
  | setStrategy stem strategy =>
      cases hcall
      exact pendingEffect_change h stem (fun _ => rfl) rfl rfl
  | unsetStrategy stem =>
      cases hcall
      exact unsetStrategy_effect h stem
  | findOrInsert i =>
      obtain ⟨token, isNew, rfl, hfound⟩ := call_findOrInsert hcall
      exact findOrInsert_effect h hfound
  | revise token change =>
      cases hcall
      exact revise_effect h token change
  | erase token =>
      rcases call_erase hcall with ⟨rfl, rfl⟩ | ⟨e, rfl, herase⟩
      · exact pendingEffect_self h rfl rfl
      · exact .ended herase

/-! ### What the tables keep to -/

/-- What holds of the tables when the given number of entries has been made. -/
structure Sound (t : Tables) (count : Nat) : Prop where
  indexed : t.Indexed
  distinguished : t.Distinguished
  pit : t.pit.Sound count

theorem sound_new (strategy : Nat) : (new strategy).Sound 0 where
  indexed := indexed_new strategy
  distinguished u _ _ _ hget _ _ := by cases (get?_new strategy u).symm.trans hget
  pit := Arena.sound_empty

theorem Sound.opened (h : t.Sound count) (hfind : t.findPending i = .ok none)
    {pit : Arena PitEntry} (hinsert : t.pit.insert { interest := i.untagged } = .ok (token, pit)) :
    (Tables.change { t with pit } i.name fun r =>
      { r with pending := r.pending ++ [token] }).Sound (count + 1) := by
  have hnone : ∀ u e, t.pit.get? u = some e → e.interest.sameSelectors i.untagged = false :=
    h.indexed.none_of_findPending (i := i) hfind
  refine ⟨h.indexed.insert hinsert, ?_, h.pit.insert hinsert⟩
  exact h.distinguished.of_new hnone (Arena.get?_insert hinsert)

theorem Sound.revised (h : t.Sound count) (hget : t.pit.get? token = some e) {revised : PitEntry}
    (hinterest : revised.interest = e.interest) :
    Sound { t with pit := t.pit.set token revised } count := by
  have hset := Arena.get?_set hget revised
  refine ⟨h.indexed.congr h.indexed.ordered (fun _ => rfl) ?_, ?_, h.pit.set hget revised⟩
  · intro u
    rw [hset]
    split
    next same => rw [same, hget, Option.map_some, Option.map_some, PitEntry.name, hinterest]; rfl
    next => rfl
  · refine h.distinguished.of_old fun u e' hu => ?_
    rw [hset] at hu
    split at hu
    next same =>
      cases hu
      exact ⟨e, same ▸ hget, hinterest.symm⟩
    next => exact ⟨e', hu, rfl⟩

theorem Sound.ended (h : t.Sound count) (herase : t.erase token = some (e, t')) :
    t'.Sound count := by
  refine ⟨h.indexed.erase herase, h.distinguished.of_gone (get?_of_erase herase), ?_⟩
  obtain ⟨pit, hremove, rfl⟩ := erase_eq_some.mp herase
  exact h.pit.remove hremove

theorem Sound.call (h : t.Sound count) (hcall : t.call k = .ok (reply, t')) :
    t'.Sound (count + reply.opened?.toList.length) := by
  cases call_effect h.indexed.ordered hcall with
  | same hordered hpit hpending hopened _ =>
      rw [hopened]
      refine ⟨h.indexed.congr hordered hpending fun u => by rw [hpit], ?_, hpit ▸ h.pit⟩
      exact h.distinguished.of_old fun u e' hu => ⟨e', hpit ▸ hu, rfl⟩
  | opened hfind hinsert => exact h.opened hfind hinsert
  | revised hget => exact h.revised hget rfl
  | ended herase => exact h.ended herase

/-! ### Every call succeeds -/

/-- An entry is found or made. -/
theorem Sound.findOrInsert_ok (h : t.Sound count) (i : Interest) :
    ∃ token isNew t', t.findOrInsert i = .ok ((token, isNew), t') := by
  obtain ⟨found, hfind, -⟩ := h.indexed.findPending_ok i
  cases found with
  | some old => exact ⟨old, false, t, bind_eq_ok.mpr ⟨some old, hfind, rfl⟩⟩
  | none =>
      obtain ⟨token, pit, hinsert⟩ := h.pit.insert_ok { interest := i.untagged }
      exact ⟨token, true, _,
        bind_eq_ok.mpr ⟨none, hfind, bind_eq_ok.mpr ⟨(token, pit), hinsert, rfl⟩⟩⟩

theorem Sound.call_ok (h : t.Sound count) (k : TableCall) :
    ∃ reply t', t.call k = .ok (reply, t') := by
  cases k with
  | findOrInsert i =>
      obtain ⟨token, isNew, t', hfound⟩ := h.findOrInsert_ok i
      exact ⟨.pending token isNew, t', bind_eq_ok.mpr ⟨_, hfound, rfl⟩⟩
  | erase token =>
      rw [Tables.call]
      cases t.erase token with
      | none => exact ⟨_, _, rfl⟩
      | some removed => exact ⟨_, _, rfl⟩
  | _ => exact ⟨_, _, rfl⟩

/-- The tables are sound after every list of calls, and what holds of new tables and is kept by each
call of sound ones holds too. -/
theorem record_induction (strategy : Nat) {P : List TableStep → Tables → Prop}
    (hstart : P [] (new strategy))
    (hstep : ∀ history t k reply t', t.Sound (opened history).length → P history t →
      t.call k = .ok (reply, t') →
      P ({ before := t, call := k, reply, after := t' } :: history) t') (calls : List TableCall) :
    ∃ history t, record (new strategy) calls = .ok (history, t) ∧
      history.map TableStep.call = calls ∧ t.Sound (opened history).length ∧ P history t := by
  induction calls with
  | nil => exact ⟨[], new strategy, rfl, rfl, sound_new strategy, hstart⟩
  | cons k earlier ih =>
      obtain ⟨history, t, hrecord, hcalls, hsound, hP⟩ := ih
      obtain ⟨reply, t', hcall⟩ := hsound.call_ok k
      refine ⟨{ before := t, call := k, reply, after := t' } :: history, t', ?_, ?_, ?_, ?_⟩
      · exact bind_eq_ok.mpr ⟨(history, t), hrecord, bind_eq_ok.mpr ⟨(reply, t'), hcall, rfl⟩⟩
      · rw [List.map_cons, hcalls]
      · have hafter := hsound.call hcall
        rwa [opened_cons, List.length_append, Nat.add_comm]
      · exact hstep history t k reply t' hsound hP hcall

theorem record_sound (strategy : Nat) (calls : List TableCall) : ∃ history t,
    record (new strategy) calls = .ok (history, t) ∧ t.Sound (opened history).length := by
  obtain ⟨history, t, hrecord, -, hsound, -⟩ := record_induction strategy
    (P := fun _ _ => True) trivial (fun _ _ _ _ _ _ _ _ => trivial) calls
  exact ⟨history, t, hrecord, hsound⟩

end Tables

end NamedData
