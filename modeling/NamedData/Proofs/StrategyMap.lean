import Mathlib.Logic.Function.Basic
import NamedData.Proofs.TableRuns
import NamedData.Proofs.TreeWalks

/-!
The choices of strategies as a map. By the calls so far some prefixes have a strategy of their own,
and the root always has one, which can be replaced but not taken back. The tables hold just that,
whatever is made and pruned in the tree they share with next hops and pending Interests: the
strategy in effect at a name is that of the longest prefix with one, and so is the strategy that a
walk shows at each name it sees, wherever it started and whatever turned it back.
-/

namespace NamedData

/-- The strategy of each prefix that has one of its own. -/
abbrev Choices := Name → Option Nat

namespace Choices

def call (m : Choices) : TableCall → Choices
  | .setStrategy stem strategy => Function.update m stem (some strategy)
  | .unsetStrategy stem => if stem = [] then m else Function.update m stem none
  | _ => m

/-- The map after some calls, the latest first, with the given strategy at the root at first. -/
def after (strategy : Nat) : List TableCall → Choices
  | [] => Function.update (fun _ => none) [] (some strategy)
  | k :: earlier => (after strategy earlier).call k

/-- The strategy is that of a prefix of the name, and no longer prefix has one. -/
def Gives (m : Choices) (n : Name) (strategy : Nat) : Prop :=
  ∃ p, p <+: n ∧ m p = some strategy ∧ ∀ q, q <+: n → m q ≠ none → q.length ≤ p.length

variable {m : Choices} {n : Name} {c : Component} {strategy : Nat}

/-- The root always has a strategy. -/
theorem after_root (strategy : Nat) (calls : List TableCall) : after strategy calls [] ≠ none := by
  induction calls with
  | nil => nofun
  | cons k earlier ih =>
      rw [after]
      cases k with
      | setStrategy stem strategy =>
          rw [call, Function.update_apply]
          split
          · nofun
          · exact ih
      | unsetStrategy stem =>
          rw [call]
          split
          next => exact ih
          next hne => rwa [Function.update_of_ne (Ne.symm hne)]
      | _ => exact ih

/-- A name with a strategy of its own is its longest prefix with one. -/
theorem gives_self (h : m n = some strategy) : m.Gives n strategy :=
  ⟨n, List.prefix_rfl, h, fun _ hq _ => hq.length_le⟩

/-- A component without a strategy of its own changes nothing. -/
theorem Gives.concat (h : m.Gives n strategy) (hnone : m (n ++ [c]) = none) :
    m.Gives (n ++ [c]) strategy := by
  obtain ⟨p, hp, hchosen, hlongest⟩ := h
  refine ⟨p, hp.trans (List.prefix_append n [c]), hchosen, fun q hq hsome => ?_⟩
  rcases List.prefix_concat_iff.mp hq with rfl | hshorter
  · exact absurd hnone hsome
  · exact hlongest q hshorter hsome

end Choices

namespace Tables

variable {t t' : Tables} {k : TableCall} {reply : TableReply} {m : Choices}

/-- The tables have the strategies that the map has. -/
def Chosen (t : Tables) (m : Choices) : Prop :=
  ∀ n, (t.recordAt n).strategy? = m n

theorem chosen_new (strategy : Nat) : (new strategy).Chosen (Choices.after strategy []) := by
  intro n
  cases n with
  | nil => rfl
  | cons _ _ => rfl

/-- A change of the record of one prefix. -/
theorem Chosen.change (h : t.Chosen m) (hordered : t.tree.Ordered) (stem : Name)
    {f : NameRecord → NameRecord} {choice : Option Nat}
    (hf : (f (t.recordAt stem)).strategy? = choice) :
    (t.change stem f).Chosen (Function.update m stem choice) := by
  intro n
  rw [recordAt_change hordered, Function.update_apply]
  split
  next => exact hf
  next => exact h n

/-- A change of anything else at a prefix. -/
theorem Chosen.change_other (h : t.Chosen m) (hordered : t.tree.Ordered) (stem : Name)
    {f : NameRecord → NameRecord} (hf : ∀ r, (f r).strategy? = r.strategy?) :
    (t.change stem f).Chosen m := by
  have hchange := h.change hordered stem ((hf (t.recordAt stem)).trans (h stem))
  rwa [Function.update_eq_self] at hchange

/-- A choice is taken back unless it is that of the root. -/
theorem Chosen.unset (h : t.Chosen m) (hordered : t.tree.Ordered) (stem : Name) :
    (t.unsetStrategy stem).2.Chosen (m.call (.unsetStrategy stem)) := by
  rw [Choices.call, unsetStrategy]
  by_cases hroot : stem = []
  · rw [if_pos hroot, if_pos (List.isEmpty_iff.mpr hroot)]
    exact h
  · rw [if_neg hroot, if_neg (mt List.isEmpty_iff.mp hroot)]
    exact h.change hordered stem rfl

theorem Chosen.call (h : t.Chosen m) (hordered : t.tree.Ordered)
    (hcall : t.call k = .ok (reply, t')) : t'.Chosen (m.call k) := by
  cases k with
  | addNextHop stem face cost =>
      cases hcall
      exact h.change_other hordered stem fun _ => rfl
  | removeNextHop stem face =>
      cases hcall
      exact h.change_other hordered stem fun _ => rfl
  | forgetNextHop face =>
      cases hcall
      intro n
      rw [recordAt_forgetNextHop hordered]
      exact h n
  | setStrategy stem strategy =>
      cases hcall
      exact h.change hordered stem rfl
  | unsetStrategy stem =>
      cases hcall
      exact h.unset hordered stem
  | findOrInsert i =>
      obtain ⟨token, isNew, -, hfound⟩ := call_findOrInsert hcall
      rcases findOrInsert_cases hfound with ⟨rfl, _⟩ | ⟨pit, _, rfl⟩
      · exact h
      · exact Chosen.change_other (t := { t with pit }) h hordered i.name fun _ => rfl
  | revise token change =>
      cases hcall
      exact h
  | erase token =>
      rcases call_erase hcall with ⟨-, rfl⟩ | ⟨e, -, herase⟩
      · exact h
      · obtain ⟨pit, _, rfl⟩ := erase_eq_some.mp herase
        exact Chosen.change_other (t := { t with pit }) h hordered e.name fun _ => rfl

/-- What taking back a choice reports. -/
theorem Chosen.unset_iff (h : t.Chosen m) (stem : Name) :
    (t.unsetStrategy stem).1 = true ↔ stem ≠ [] ∧ m stem ≠ none := by
  rw [unsetStrategy, ← h stem]
  by_cases hroot : stem = []
  · rw [if_pos (List.isEmpty_iff.mpr hroot)]
    exact iff_of_false Bool.false_ne_true fun hboth => hboth.1 hroot
  · rw [if_neg (mt List.isEmpty_iff.mp hroot), Option.isSome_iff_ne_none]
    exact (and_iff_right hroot).symm

/-- The strategy in effect is the one that the map gives. -/
theorem Chosen.gives (h : t.Chosen m) (hroot : m [] ≠ none) (n : Name) :
    m.Gives n (t.effectiveStrategy n) := by
  -- From the end of the name: its longest prefix with a strategy is the name itself or one of the
  -- name without its last component, and the root has one in any case.
  induction n using List.reverseRecOn with
  | nil =>
      obtain ⟨strategy, hchosen⟩ := Option.ne_none_iff_exists'.mp hroot
      have heffective := t.getD_effectiveStrategy []
      rw [h [], hchosen, Option.getD_some] at heffective
      rw [← heffective]
      exact Choices.gives_self hchosen
  | append_singleton n c ih =>
      rw [effectiveStrategy_concat, h]
      cases hchosen : m (n ++ [c]) with
      | none => exact ih.concat hchosen
      | some strategy => exact Choices.gives_self hchosen

/-! ### What a walk shows -/

variable {stem : Name} {descend : NameVisit → Bool} {v : NameVisit}

/-- A walk shows at each name the strategy in effect there. -/
theorem context_of_mem_walk (h : t.tree.Ordered) (hv : v ∈ t.walk stem descend) :
    stem <+: v.name ∧ v.context = t.effectiveStrategy v.name := by
  obtain ⟨rest, rfl, -, -⟩ := (mem_walk_iff h stem).mp hv
  exact ⟨List.prefix_append stem rest, rfl⟩

/-- A walk that never turns back sees every name with anything at it. -/
theorem view_mem_walk (h : t.tree.Ordered) {n : Name} (hn : stem <+: n)
    (hfull : t.recordAt n ≠ Blank.blank) : t.view n ∈ t.walk stem fun _ => true := by
  obtain ⟨rest, rfl⟩ := hn
  exact (mem_walk_iff h stem).mpr
    ⟨rest, rfl, exists_node hfull List.prefix_rfl, fun _ _ _ => rfl⟩

end Tables

/-- After any calls the strategy in effect at a name is the one that the map has for the longest
prefix with any, of which the root is always one. Taking back a choice tells whether the map had it
for a prefix other than the root. A walk from any prefix, wherever it turns back, shows at each name
it sees the strategy in effect at the full name, and it misses no name with anything at it unless it
turns back. -/
theorem effectiveStrategy_refines_choices (strategy : Nat) (calls : List TableCall) :
    ∃ history t, Tables.record (Tables.new strategy) calls = .ok (history, t) ∧
      Choices.after strategy calls [] ≠ none ∧
      (∀ n, (Choices.after strategy calls).Gives n (t.effectiveStrategy n)) ∧
      (∀ stem, (t.unsetStrategy stem).1 = true ↔
        stem ≠ [] ∧ Choices.after strategy calls stem ≠ none) ∧
      (∀ stem descend, ∀ v ∈ t.walk stem descend,
        stem <+: v.name ∧ v.context = t.effectiveStrategy v.name) ∧
      ∀ stem n, stem <+: n → t.recordAt n ≠ Blank.blank →
        t.view n ∈ t.walk stem fun _ => true := by
  have hchoices : ∃ history t, Tables.record (Tables.new strategy) calls = .ok (history, t) ∧
      history.map TableStep.call = calls ∧ t.Sound (opened history).length ∧
        t.Chosen (Choices.after strategy (history.map TableStep.call)) :=
    Tables.record_induction strategy (Tables.chosen_new strategy)
      (fun history t k reply t' hsound h hcall => h.call hsound.indexed.ordered hcall) calls
  obtain ⟨history, t, hrecord, hcalls, hsound, hchosen⟩ := hchoices
  rw [hcalls] at hchosen
  have hroot := Choices.after_root strategy calls
  have hordered := hsound.indexed.ordered
  exact ⟨history, t, hrecord, hroot, hchosen.gives hroot, hchosen.unset_iff,
    fun stem descend v hv => Tables.context_of_mem_walk hordered hv,
    fun stem n hn hfull => Tables.view_mem_walk hordered hn hfull⟩

end NamedData
