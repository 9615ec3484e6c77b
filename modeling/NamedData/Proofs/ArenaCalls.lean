import Mathlib.Logic.Function.Basic
import NamedData.Proofs.Tokens

/-!
An arena as a map. Whoever holds it may store, remove, change and look up values in any order; the
map has a value for each token that was given out and not taken back, and the arena has just these.
Every call is answered from the map, however often slots are used again, as long as there are
generations left: the token of a removed value reaches nothing any more, and no token is given out
twice.
-/

namespace NamedData

/-- A call of an arena. -/
inductive ArenaCall (α : Type) where
  | insert (value : α)
  | remove (t : PitToken)
  | get (t : PitToken)
  | modify (t : PitToken) (change : α → α)

/-- What a call returns. -/
inductive ArenaReply (α : Type) where
  | stored (t : PitToken)
  | removed (value? : Option α)
  | found (value? : Option α)
deriving DecidableEq

variable {α : Type}

namespace ArenaCall

def isInsert : ArenaCall α → Bool
  | insert _ => true
  | _ => false

/-- The token that a call with this reply took back. -/
def removed? : ArenaCall α → ArenaReply α → Option PitToken
  | remove t, .removed (some _) => some t
  | _, _ => none

/-- The map after a call with this reply. -/
def revise (held : PitToken → Option α) : ArenaCall α → ArenaReply α → PitToken → Option α
  | insert value, .stored t => Function.update held t (some value)
  | remove t, _ => Function.update held t none
  | modify t change, _ => Function.update held t ((held t).map change)
  | _, _ => held

/-- The reply is the one that the map gives: a new token reached nothing, and any other call finds
what its token reaches. -/
def Answers (held : PitToken → Option α) : ArenaCall α → ArenaReply α → Prop
  | insert _, .stored t => held t = none
  | remove t, .removed value? => value? = held t
  | get t, .found value? => value? = held t
  | modify t _, .found value? => value? = held t
  | _, _ => False

end ArenaCall

/-- The token that a reply gave out. -/
def ArenaReply.stored? : ArenaReply α → Option PitToken
  | stored t => some t
  | _ => none

namespace Arena

/-- The tokens that were given out, the latest first. -/
def stored (history : List (ArenaCall α × ArenaReply α)) : List PitToken :=
  history.filterMap fun p => p.2.stored?

/-- The tokens that were taken back, the latest first. -/
def removed (history : List (ArenaCall α × ArenaReply α)) : List PitToken :=
  history.filterMap fun p => p.1.removed? p.2

/-- What each token reaches by the calls so far. -/
def held : List (ArenaCall α × ArenaReply α) → PitToken → Option α
  | [] => fun _ => none
  | (k, reply) :: earlier => k.revise (held earlier) reply

def call (a : Arena α) : ArenaCall α → Except Fault (ArenaReply α × Arena α)
  | .insert value => do
    let (t, a) ← a.insert value
    .ok (.stored t, a)
  | .remove t =>
    match a.remove t with
    | some (value, a) => .ok (.removed (some value), a)
    | none => .ok (.removed none, a)
  | .get t => .ok (.found (a.get? t), a)
  | .modify t change => .ok (.found (a.get? t), a.modify t change)

/-- Makes one call after another of an empty arena, the latest first, and keeps the history. -/
def record : List (ArenaCall α) → Except Fault (List (ArenaCall α × ArenaReply α) × Arena α)
  | [] => .ok ([], {})
  | k :: earlier => do
    let (history, a) ← record earlier
    let (reply, a') ← a.call k
    .ok ((k, reply) :: history, a')

/-- The arena after a history is the map, and nothing is lost or kept beside it. -/
structure Follows (a : Arena α) (history : List (ArenaCall α × ArenaReply α)) : Prop where
  /-- Each call was answered from the map as it was then. -/
  answers : ∀ k reply earlier, (k, reply) :: earlier <:+ history → k.Answers (held earlier) reply
  /-- A token reaches what was stored under it, with the changes since. -/
  get?_eq : ∀ t, a.get? t = held history t
  /-- A token reaches a value from when it is given out until it is taken back, and never again. -/
  contains_iff : ∀ t, a.contains t = true ↔ t ∈ stored history ∧ t ∉ removed history
  /-- No token is given out twice. -/
  stored_nodup : (stored history).Nodup
  /-- The tokens of an arena are those that reach a value. -/
  mem_tokens : ∀ t, t ∈ a.tokens ↔ t ∈ stored history ∧ t ∉ removed history
  tokens_nodup : a.tokens.Nodup
  size_eq : a.size = a.tokens.length
  /-- The number of a slot fits in thirty-two bits. -/
  index_lt : ∀ t ∈ stored history, t.index < 2 ^ 32

variable {a b : Arena α} {t u : PitToken} {value : α} {change : α → α}
  {history : List (ArenaCall α × ArenaReply α)} {k : ArenaCall α} {reply : ArenaReply α}

/-! ### Sizes -/

/-- One thing is read off each slot with a value. -/
theorem length_filterMap_zipIdx {read : Slot α × Nat → Option PitToken}
    (hread : ∀ s index, (read (s, index)).isSome = s.value?.isSome) (slots : List (Slot α)) :
    (slots.zipIdx.filterMap read).length = (slots.filterMap Slot.value?).length := by
  have hfun : (fun p => (read p).isSome) = (fun s : Slot α => s.value?.isSome) ∘ Prod.fst :=
    funext fun p => hread p.1 p.2
  rw [List.length_filterMap_eq_countP, List.length_filterMap_eq_countP, hfun, ← List.countP_map,
    List.zipIdx_map_fst]

/-- There are as many tokens as values. -/
theorem length_tokens (a : Arena α) : a.tokens.length = a.total fun _ => 1 := by
  rw [tokens, total, values, List.map_const', List.sum_replicate,
    length_filterMap_zipIdx fun s _ => by cases s <;> rfl]
  simp

theorem size_insert (h : a.insert value = .ok (t, b)) : b.size = a.size + 1 := by
  rw [insert] at h
  split at h
  · split at h <;> cases h
    rfl
  · cases h
    rfl

theorem size_remove (h : a.remove t = some (value, b)) : b.size = a.size - 1 := by
  rw [remove, get?_of_remove h] at h
  cases h
  rfl

theorem size_set (a : Arena α) (t : PitToken) (value : α) : (a.set t value).size = a.size := by
  rw [set]
  split <;> rfl

/-- An insertion adds one slot at most. -/
theorem length_slots_insert (h : a.insert value = .ok (t, b)) :
    b.slots.length ≤ a.slots.length + 1 := by
  rcases insert_cases h with ⟨_, _, _, _, _, _, hslots⟩ | ⟨_, _, _, _, hslots⟩
  · rw [hslots, List.length_set]
    exact Nat.le_succ _
  · have hlength : b.slots.length = a.slots.length + 1 := by
      rw [hslots, List.length_append, List.length_singleton]
    exact Nat.le_of_eq hlength

/-! ### One call -/

/-- What a call does: it stores a value, removes or changes the one that its token reaches, or
leaves the arena as it is. -/
inductive Effect (a : Arena α) : ArenaCall α → ArenaReply α → Arena α → Prop where
  | stored {value : α} {t : PitToken} {b : Arena α} (hinsert : a.insert value = .ok (t, b)) :
      Effect a (.insert value) (.stored t) b
  | removed {t : PitToken} {value : α} {b : Arena α} (hremove : a.remove t = some (value, b)) :
      Effect a (.remove t) (.removed (some value)) b
  | changed {t : PitToken} {value : α} {change : α → α} (hget : a.get? t = some value) :
      Effect a (.modify t change) (.found (some value)) (a.set t (change value))
  | read (t : PitToken) : Effect a (.get t) (.found (a.get? t)) a
  | gone {t : PitToken} (hnone : a.get? t = none) : Effect a (.remove t) (.removed none) a
  | missed {t : PitToken} {change : α → α} (hnone : a.get? t = none) :
      Effect a (.modify t change) (.found none) a

theorem call_effect (h : a.call k = .ok (reply, b)) : a.Effect k reply b := by
  cases k with
  | insert value =>
      obtain ⟨⟨t, last⟩, hinsert, hresult⟩ := bind_eq_ok.mp h
      cases hresult
      exact .stored hinsert
  | remove t =>
      rw [call] at h
      cases hget : a.get? t with
      | none =>
          have hremove : a.remove t = none := by rw [remove, hget]
          rw [hremove] at h
          cases h
          exact .gone hget
      | some value =>
          obtain ⟨last, hremove⟩ := remove_of_get? hget
          rw [hremove] at h
          cases h
          exact .removed hremove
  | get t =>
      cases h
      exact .read t
  | modify t change =>
      rw [call, modify] at h
      cases hget : a.get? t with
      | none =>
          rw [hget] at h
          cases h
          exact .missed hget
      | some value =>
          rw [hget] at h
          cases h
          exact .changed hget

/-- Of sound storage every call succeeds. -/
theorem Sound.call_ok {count : Nat} (h : a.Sound count) (k : ArenaCall α) :
    ∃ reply b, a.call k = .ok (reply, b) := by
  cases k with
  | insert value =>
      obtain ⟨t, b, hinsert⟩ := h.insert_ok value
      exact ⟨.stored t, b, bind_eq_ok.mpr ⟨(t, b), hinsert, rfl⟩⟩
  | remove t =>
      rw [call]
      cases a.remove t with
      | none => exact ⟨_, _, rfl⟩
      | some removed => exact ⟨_, _, rfl⟩
  | get t => exact ⟨_, _, rfl⟩
  | modify t change => exact ⟨_, _, rfl⟩

/-! ### Any calls -/

/-- What the arena and its tokens keep to along a history. -/
structure Accounts (a : Arena α) (history : List (ArenaCall α × ArenaReply α)) : Prop where
  sound : a.Sound (stored history).length
  answers : ∀ k reply earlier, (k, reply) :: earlier <:+ history → k.Answers (held earlier) reply
  get?_eq : ∀ t, a.get? t = held history t
  live : ∀ t, (∃ value, a.get? t = some value) ↔ t ∈ stored history ∧ t ∉ removed history
  spent : ∀ t ∈ removed history, a.Spent t
  nodup : (stored history).Nodup
  size_eq : a.size = a.total fun _ => 1
  slots_le : a.slots.length ≤ (stored history).length

theorem accounts_empty : ({} : Arena α).Accounts [] where
  sound := sound_empty
  answers k reply earlier hsuffix := by simp at hsuffix
  get?_eq _ := rfl
  live t := by simp [stored, get?]
  spent := nofun
  nodup := List.nodup_nil
  size_eq := rfl
  slots_le := Nat.le_refl 0

/-- One more answer from the map. -/
theorem Accounts.answers_cons (h : a.Accounts history) (hanswer : k.Answers (held history) reply) :
    ∀ k' reply' earlier, (k', reply') :: earlier <:+ (k, reply) :: history →
      k'.Answers (held earlier) reply' := by
  intro k' reply' earlier hsuffix
  rcases List.suffix_cons_iff.mp hsuffix with same | hearlier
  · cases same
    exact hanswer
  · exact h.answers k' reply' earlier hearlier

/-- A call that leaves the arena and the map as they are. -/
theorem Accounts.same (h : a.Accounts history) (hanswer : k.Answers (held history) reply)
    (hheld : k.revise (held history) reply = held history) (hstored : reply.stored? = none)
    (hremoved : k.removed? reply = none) : a.Accounts ((k, reply) :: history) := by
  have hgiven : stored ((k, reply) :: history) = stored history :=
    List.filterMap_cons_none hstored
  have htaken : removed ((k, reply) :: history) = removed history :=
    List.filterMap_cons_none hremoved
  refine ⟨hgiven ▸ h.sound, h.answers_cons hanswer, fun t => ?_, ?_, ?_, hgiven ▸ h.nodup,
    h.size_eq, hgiven ▸ h.slots_le⟩
  · rw [held, hheld, h.get?_eq]
  · rw [hgiven, htaken]
    exact h.live
  · rw [htaken]
    exact h.spent

theorem Accounts.insert (h : a.Accounts history) (few : (stored history).length < 2 ^ 32)
    (hinsert : a.insert value = .ok (t, b)) :
    b.Accounts ((.insert value, .stored t) :: history) := by
  have hget := get?_insert hinsert
  have hfresh := get?_of_insert hinsert
  have hnever : t ∉ removed history := fun member =>
    (h.spent t member).ne_inserted h.sound few hinsert rfl
  have hnew : t ∉ stored history := fun member => by
    obtain ⟨old, hold⟩ := (h.live t).mpr ⟨member, hnever⟩
    cases hfresh.symm.trans hold
  have hgiven : stored ((ArenaCall.insert value, .stored t) :: history) = t :: stored history := rfl
  have htaken : removed ((ArenaCall.insert value, .stored t) :: history) = removed history := rfl
  constructor
  · exact h.sound.insert hinsert
  · exact h.answers_cons ((h.get?_eq t).symm.trans hfresh)
  · intro u
    rw [hget, held, ArenaCall.revise, Function.update_apply, h.get?_eq]
  · intro u
    rw [hget, hgiven, htaken, List.mem_cons]
    by_cases hown : u = t
    · subst hown
      simpa using hnever
    · simpa [hown] using h.live u
  · exact fun u hu => (h.spent u hu).insert h.sound few hinsert
  · exact List.nodup_cons.mpr ⟨hnew, h.nodup⟩
  · rw [size_insert hinsert, total_insert _ hinsert, h.size_eq]
  · exact Nat.le_trans (length_slots_insert hinsert) (Nat.succ_le_succ h.slots_le)

theorem Accounts.remove (h : a.Accounts history) (hremove : a.remove t = some (value, b)) :
    b.Accounts ((.remove t, .removed (some value)) :: history) := by
  have hget := get?_remove hremove
  have hgiven : stored ((ArenaCall.remove t, .removed (some value)) :: history) =
      stored history := rfl
  have htaken : removed ((ArenaCall.remove t, .removed (some value)) :: history) =
      t :: removed history := rfl
  constructor
  · exact h.sound.remove hremove
  · exact h.answers_cons ((get?_of_remove hremove).symm.trans (h.get?_eq t))
  · intro u
    rw [hget, held, ArenaCall.revise, Function.update_apply, h.get?_eq]
  · intro u
    have hlive := h.live u
    rw [hget, hgiven, htaken, List.mem_cons, not_or]
    by_cases hown : u = t
    · simp [hown]
    · simpa [hown] using hlive
  · intro u hu
    rcases List.mem_cons.mp (htaken ▸ hu) with rfl | hold
    · exact spent_of_remove hremove
    · exact (h.spent u hold).remove hremove
  · exact h.nodup
  · have htotal := total_remove (fun _ => 1) hremove
    rw [size_remove hremove, h.size_eq, ← htotal, Nat.add_sub_cancel]
  · rw [(remove_cases hremove).2.1, List.length_set]
    exact h.slots_le

theorem Accounts.modify (h : a.Accounts history) (hget : a.get? t = some value) :
    (a.set t (change value)).Accounts ((.modify t change, .found (some value)) :: history) := by
  have hset := get?_set hget (change value)
  constructor
  · exact h.sound.set hget _
  · exact h.answers_cons (hget.symm.trans (h.get?_eq t))
  · intro u
    rw [hset, held, ArenaCall.revise, Function.update_apply, ← h.get?_eq, ← h.get?_eq, hget]
    rfl
  · intro u
    refine Iff.trans ?_ (h.live u)
    rw [hset]
    by_cases hown : u = t
    · simp [hown, hget]
    · simp [hown]
  · exact fun u hu => (h.spent u hu).set hget _
  · exact h.nodup
  · have htotal := total_set (fun _ => 1) hget (change value)
    rw [size_set, h.size_eq]
    omega
  · rw [slots_set hget, List.length_set]
    exact h.slots_le

theorem Accounts.step (h : a.Accounts history) (few : (stored history).length < 2 ^ 32)
    (hcall : a.call k = .ok (reply, b)) : b.Accounts ((k, reply) :: history) := by
  cases call_effect hcall with
  | stored hinsert => exact h.insert few hinsert
  | removed hremove => exact h.remove hremove
  | changed hget => exact h.modify hget
  | read t => exact h.same (h.get?_eq t) rfl rfl rfl
  | @gone t hnone =>
      have hheld : held history t = none := (h.get?_eq t).symm.trans hnone
      refine h.same hheld.symm ?_ rfl rfl
      rw [ArenaCall.revise, ← hheld, Function.update_eq_self]
  | @missed t change hnone =>
      have hheld : held history t = none := (h.get?_eq t).symm.trans hnone
      refine h.same hheld.symm ?_ rfl rfl
      rw [ArenaCall.revise, hheld, Option.map_none, ← hheld, Function.update_eq_self]

/-- Each insertion gives out one token. -/
theorem length_stored_cons (k : ArenaCall α) (hcall : a.call k = .ok (reply, b))
    (history : List (ArenaCall α × ArenaReply α)) :
    (stored ((k, reply) :: history)).length =
      (stored history).length + if k.isInsert then 1 else 0 := by
  cases call_effect hcall <;> rfl

theorem accounts_record {calls : List (ArenaCall α)}
    (few : calls.countP ArenaCall.isInsert < 2 ^ 32) :
    ∃ history a, record calls = .ok (history, a) ∧
      (stored history).length = calls.countP ArenaCall.isInsert ∧ a.Accounts history := by
  induction calls with
  | nil => exact ⟨[], {}, rfl, rfl, accounts_empty⟩
  | cons k earlier ih =>
      rw [List.countP_cons] at few ⊢
      obtain ⟨history, a, hrecord, hcount, haccounts⟩ := ih (by omega)
      obtain ⟨reply, b, hcall⟩ := haccounts.sound.call_ok k
      refine ⟨(k, reply) :: history, b, ?_, ?_, ?_⟩
      · exact bind_eq_ok.mpr ⟨(history, a), hrecord, bind_eq_ok.mpr ⟨(reply, b), hcall, rfl⟩⟩
      · rw [length_stored_cons k hcall, hcount]
      · exact haccounts.step (by omega) hcall

theorem Accounts.follows (h : a.Accounts history) (few : (stored history).length < 2 ^ 32) :
    a.Follows history where
  answers := h.answers
  get?_eq := h.get?_eq
  contains_iff t := Arena.contains_iff.trans (h.live t)
  stored_nodup := h.nodup
  mem_tokens t := Arena.mem_tokens.trans (h.live t)
  tokens_nodup := a.tokens_nodup
  size_eq := h.size_eq.trans a.length_tokens.symm
  index_lt t ht := by
    have hslot : t.index < a.slots.length := by
      by_cases hgone : t ∈ removed history
      · obtain ⟨s, hslot, -⟩ := h.spent t hgone
        exact (List.getElem?_eq_some_iff.mp hslot).1
      · obtain ⟨value, hget⟩ := (h.live t).mpr ⟨ht, hgone⟩
        exact index_lt_of_get? hget
    have hslots := h.slots_le
    omega

end Arena

/-- Fewer than 2^32 insertions, with any removals, changes and lookups between them, all succeed,
and so does the next one. The arena is then the map from each token that was given out and not taken
back to its value: every call was answered from it, and the tokens and the size are its own. -/
theorem tokens_reach_their_own {calls : List (ArenaCall α)}
    (few : calls.countP ArenaCall.isInsert < 2 ^ 32) :
    ∃ history a, Arena.record calls = .ok (history, a) ∧ a.Follows history ∧
      ∀ value, ∃ t b, a.insert value = .ok (t, b) := by
  obtain ⟨history, a, hrecord, hcount, haccounts⟩ := Arena.accounts_record few
  exact ⟨history, a, hrecord, haccounts.follows (by omega), haccounts.sound.insert_ok⟩

namespace Sample

/-- A value is removed, another one takes its slot, and the old token is looked up. -/
def reusedSlot : List (ArenaCall Nat) :=
  [.get ⟨0, 0⟩, .insert 8, .remove ⟨0, 0⟩, .insert 7]

end Sample

/-- The slot of a removed value is used again, and the token of that value does not reach the new
one. -/
theorem tokens_reach_their_own_after_reuse :
    ∃ history a, Arena.record Sample.reusedSlot = .ok (history, a) ∧
      Sample.reusedSlot.countP ArenaCall.isInsert < 2 ^ 32 ∧
      Arena.stored history = [⟨0, 1⟩, ⟨0, 0⟩] ∧ Arena.removed history = [⟨0, 0⟩] ∧
      a.get? ⟨0, 1⟩ = some 8 ∧ a.contains ⟨0, 0⟩ = false ∧ a.tokens = [⟨0, 1⟩] := by
  have few : Sample.reusedSlot.countP ArenaCall.isInsert < 2 ^ 32 := by decide
  obtain ⟨history, a, hrecord, hfollows, -⟩ := tokens_reach_their_own few
  obtain ⟨hstored, hremoved, htokens⟩ : Arena.stored history = [⟨0, 1⟩, ⟨0, 0⟩] ∧
      Arena.removed history = [⟨0, 0⟩] ∧ a.tokens = [⟨0, 1⟩] := by
    cases hrecord
    exact ⟨rfl, rfl, rfl⟩
  refine ⟨history, a, hrecord, few, hstored, hremoved, ?_, ?_, htokens⟩
  · rw [hfollows.get?_eq]
    cases hrecord
    rfl
  · rw [Bool.eq_false_iff, ne_eq, hfollows.contains_iff, hremoved]
    exact fun h => h.2 (List.mem_singleton_self _)

end NamedData
