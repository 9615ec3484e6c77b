import Mathlib.Logic.Function.Basic
import NamedData.Proofs.TableRuns

/-!
The next hops as a map. By the calls so far every prefix has a cost for each of its faces, and the
tables hold just that: the lists are those of the map, cheapest first, and a lookup gives the list
of the longest prefix of the name that has any. Strategies and pending Interests, which share the
tree with the next hops, leave them alone.
-/

namespace NamedData

namespace NextHop

variable {a b c : NextHop}

theorem before_trans (h : a.before b = true) (h' : b.before c = true) : a.before c = true := by
  simp only [before, Bool.or_eq_true, Bool.and_eq_true, decide_eq_true_eq] at *
  omega

/-- Of next hops with different faces one comes before the other. -/
theorem before_of_not_before (h : a.before b = false) (hne : a.face ≠ b.face) :
    b.before a = true := by
  have hid : a.face.id ≠ b.face.id := fun same => hne (by
    cases hface : a.face
    cases hface' : b.face
    simpa [hface, hface'] using same)
  simp only [before, Bool.or_eq_false_iff, Bool.and_eq_false_iff, decide_eq_false_iff_not,
    Bool.or_eq_true, Bool.and_eq_true, decide_eq_true_eq] at *
  omega

theorem not_before_self (a : NextHop) : a.before a = false := by
  simp [before]

end NextHop

/-! ### The list of one prefix -/

/-- The list holds the faces that have a cost, each once, in order. -/
structure Lists (hops : List NextHop) (costs : FaceId → Option Nat) : Prop where
  ordered : hops.Pairwise fun a b => a.before b = true
  single : (hops.map NextHop.face).Nodup
  mem : ∀ face cost, NextHop.mk cost face ∈ hops ↔ costs face = some cost

namespace Lists

variable {hops : List NextHop} {costs : FaceId → Option Nat}

/-- An ordered list of the faces that have a cost has each of them once. -/
theorem of_ordered (hordered : hops.Pairwise fun a b => a.before b = true)
    (hmem : ∀ face cost, NextHop.mk cost face ∈ hops ↔ costs face = some cost) :
    Lists hops costs where
  ordered := hordered
  single := by
    have hnodup : hops.Nodup := hordered.imp fun {a b} hbefore => by
      rintro rfl
      cases hbefore.symm.trans a.not_before_self
    refine hnodup.map_on fun a ha b hb hface => ?_
    have hcost := ((hmem a.face a.cost).mp ha).symm.trans
      (hface ▸ (hmem b.face b.cost).mp hb)
    cases a
    cases b
    simp_all
  mem := hmem

theorem nil : Lists [] fun _ => none :=
  of_ordered .nil fun _ _ => ⟨nofun, nofun⟩

theorem eq_nil_iff (h : Lists hops costs) : hops = [] ↔ costs = fun _ => none := by
  constructor
  · rintro rfl
    funext face
    exact Option.eq_none_iff_forall_ne_some.mpr fun cost hcost =>
      List.not_mem_nil ((h.mem face cost).mpr hcost)
  · rintro rfl
    exact List.eq_nil_iff_forall_not_mem.mpr fun hop hhop =>
      nomatch (h.mem hop.face hop.cost).mp hhop

theorem any_iff (h : Lists hops costs) (face : FaceId) :
    (hops.any fun hop => hop.face = face) = true ↔ costs face ≠ none := by
  rw [List.any_eq_true, Option.ne_none_iff_exists']
  constructor
  · rintro ⟨hop, hhop, hface⟩
    exact ⟨hop.cost, of_decide_eq_true hface ▸ (h.mem hop.face hop.cost).mp hhop⟩
  · rintro ⟨cost, hcost⟩
    exact ⟨⟨cost, face⟩, (h.mem face cost).mpr hcost, decide_eq_true rfl⟩

theorem remove (h : Lists hops costs) (face : FaceId) :
    Lists (hops.filter fun hop => hop.face ≠ face) (Function.update costs face none) := by
  refine of_ordered (h.ordered.sublist List.filter_sublist) fun other cost => ?_
  rw [List.mem_filter, h.mem, Function.update_apply]
  split
  next same => simp [same]
  next hne => simp [hne]

/-- A face takes its place by cost, wherever it stood before. -/
theorem add (h : Lists hops costs) (face : FaceId) (cost : Nat) :
    Lists (insertOrdered NextHop.before { cost, face } (hops.filter fun hop => hop.face ≠ face))
      (Function.update costs face (some cost)) := by
  have hrest := h.remove face
  refine of_ordered ?_ fun other price => ?_
  · have htrans (a b c : NextHop) (h : a.before b = true) (h' : b.before c = true) :
        a.before c = true := NextHop.before_trans h h'
    refine pairwise_insertOrdered htrans hrest.ordered (fun _ _ hbefore => hbefore) ?_
    intro hop hhop hnot
    exact NextHop.before_of_not_before hnot (of_decide_eq_true (List.mem_filter.mp hhop).2)
  · rw [mem_insertOrdered, hrest.mem, Function.update_apply, Function.update_apply]
    split
    next same => simp [same, eq_comm]
    next hne => simp [hne]

end Lists

/-- The next hops are in order, each face once. -/
def Listed (hops : List NextHop) : Prop :=
  ∃ costs, Lists hops costs

namespace Listed

variable {hops : List NextHop}

theorem nil : Listed [] :=
  ⟨_, Lists.nil⟩

theorem remove (h : Listed hops) (face : FaceId) :
    Listed (hops.filter fun hop => hop.face ≠ face) :=
  h.elim fun _ hlists => ⟨_, hlists.remove face⟩

theorem add (h : Listed hops) (face : FaceId) (cost : Nat) :
    Listed (insertOrdered NextHop.before { cost, face }
      (hops.filter fun hop => hop.face ≠ face)) :=
  h.elim fun _ hlists => ⟨_, hlists.add face cost⟩

theorem ordered (h : Listed hops) : hops.Pairwise fun a b => a.before b = true :=
  h.elim fun _ hlists => hlists.ordered

theorem single (h : Listed hops) : (hops.map NextHop.face).Nodup :=
  h.elim fun _ hlists => hlists.single

end Listed

/-! ### The map -/

/-- The cost of each face that is a next hop of a prefix. -/
abbrev Routes := Name → FaceId → Option Nat

namespace Routes

def call (m : Routes) : TableCall → Routes
  | .addNextHop stem face cost =>
    Function.update m stem (Function.update (m stem) face (some cost))
  | .removeNextHop stem face => Function.update m stem (Function.update (m stem) face none)
  | .forgetNextHop face => fun stem => Function.update (m stem) face none
  | _ => m

/-- The map after some calls, the latest first. -/
def after : List TableCall → Routes
  | [] => fun _ _ => none
  | k :: earlier => (after earlier).call k

/-- The prefix has next hops, and no longer one of the name has any. -/
structure IsLongest (m : Routes) (n p : Name) : Prop where
  begins : p <+: n
  routed : ∃ face, m p face ≠ none
  longest : ∀ q, q <+: n → (∃ face, m q face ≠ none) → q.length ≤ p.length

/-- What a lookup of a name is to give. -/
def Gives (m : Routes) (n : Name) (hops : List NextHop) : Prop :=
  (∃ p, m.IsLongest n p ∧ Lists hops (m p)) ∨ (∀ p, p <+: n → ∀ face, m p face = none) ∧ hops = []

end Routes

/-- Whether the call is about next hops. -/
def TableCall.isRoute : TableCall → Bool
  | addNextHop .. => true
  | removeNextHop .. => true
  | forgetNextHop _ => true
  | _ => false

namespace Tables

variable {t t' : Tables} {k : TableCall} {reply : TableReply} {m : Routes}

/-- The tables list the next hops of every prefix as the map has them. -/
def Routed (t : Tables) (m : Routes) : Prop :=
  ∀ stem, Lists (t.recordAt stem).nextHops (m stem)

theorem routed_new (strategy : Nat) : (new strategy).Routed (Routes.after []) := by
  intro stem
  have hnone : ((new strategy).recordAt stem).nextHops = [] := by
    cases stem <;> rfl
  rw [hnone]
  exact Lists.nil

/-- Calls about anything else leave the next hops alone. -/
theorem nextHops_call (h : t.tree.Ordered) (hother : k.isRoute = false)
    (hcall : t.call k = .ok (reply, t')) (n : Name) :
    (t'.recordAt n).nextHops = (t.recordAt n).nextHops := by
  cases k with
  | addNextHop stem face cost => cases hother
  | removeNextHop stem face => cases hother
  | forgetNextHop face => cases hother
  | setStrategy stem strategy =>
      cases hcall
      refine nextHops_change h stem ?_ n
      exact fun _ => rfl
  | unsetStrategy stem =>
      cases hcall
      change ((t.unsetStrategy stem).2.recordAt n).nextHops = _
      rcases t.unsetStrategy_cases stem with hsame | hchanged
      · rw [hsame]
      · rw [hchanged]
        refine nextHops_change h stem ?_ n
        exact fun _ => rfl
  | findOrInsert i =>
      obtain ⟨token, isNew, -, hfound⟩ := call_findOrInsert hcall
      rcases findOrInsert_cases hfound with ⟨rfl, _⟩ | ⟨pit, _, rfl⟩
      · rfl
      · refine nextHops_change (t := { t with pit }) h i.name ?_ n
        exact fun _ => rfl
  | revise token change =>
      cases hcall
      rfl
  | erase token =>
      rcases call_erase hcall with ⟨-, rfl⟩ | ⟨e, -, herase⟩
      · rfl
      · obtain ⟨pit, _, rfl⟩ := erase_eq_some.mp herase
        refine nextHops_change (t := { t with pit }) h e.name ?_ n
        exact fun _ => rfl

/-- A change of the next hops of one prefix. -/
theorem Routed.change (h : t.Routed m) (hordered : t.tree.Ordered) (stem : Name)
    {f : NameRecord → NameRecord} {costs : FaceId → Option Nat}
    (hf : Lists (f (t.recordAt stem)).nextHops costs) :
    (t.change stem f).Routed (Function.update m stem costs) := by
  intro n
  rw [recordAt_change hordered, Function.update_apply]
  split
  next => exact hf
  next => exact h n

theorem Routed.call (h : t.Routed m) (hordered : t.tree.Ordered)
    (hcall : t.call k = .ok (reply, t')) : t'.Routed (m.call k) := by
  cases k with
  | addNextHop stem face cost =>
      cases hcall
      exact h.change hordered stem ((h stem).add face cost)
  | removeNextHop stem face =>
      cases hcall
      exact h.change hordered stem ((h stem).remove face)
  | forgetNextHop face =>
      cases hcall
      intro n
      rw [recordAt_forgetNextHop hordered]
      exact (h n).remove face
  | _ =>
      intro n
      rw [nextHops_call hordered rfl hcall]
      exact h n

/-! ### The lists of all prefixes -/

/-- At every name the next hops are listed in order. -/
def HopsListed (t : Tables) : Prop :=
  ∀ n, Listed (t.recordAt n).nextHops

theorem hopsListed_new (strategy : Nat) : (new strategy).HopsListed :=
  fun n => ⟨_, routed_new strategy n⟩

theorem HopsListed.congr (h : t.HopsListed)
    (hsame : ∀ n, (t'.recordAt n).nextHops = (t.recordAt n).nextHops) : t'.HopsListed :=
  fun n => hsame n ▸ h n

/-- A change at one name that leaves the next hops there in order. -/
theorem HopsListed.change (h : t.HopsListed) (hordered : t.tree.Ordered) (stem : Name)
    {f : NameRecord → NameRecord} (hf : ∀ r, Listed r.nextHops → Listed (f r).nextHops) :
    (t.change stem f).HopsListed := by
  intro n
  rw [recordAt_change hordered]
  split
  next => exact hf _ (h stem)
  next => exact h n

theorem HopsListed.forgetNextHop (h : t.HopsListed) (hordered : t.tree.Ordered) (face : FaceId) :
    (t.forgetNextHop face).HopsListed := by
  intro n
  rw [recordAt_forgetNextHop hordered]
  exact (h n).remove face

theorem HopsListed.erase (h : t.HopsListed) (hordered : t.tree.Ordered) {token : PitToken}
    {e : PitEntry} (herase : t.erase token = some (e, t')) : t'.HopsListed := by
  obtain ⟨pit, _, rfl⟩ := erase_eq_some.mp herase
  exact HopsListed.change (t := { t with pit }) h hordered e.name fun _ => id

/-! ### Lookup -/

theorem nextHops_nil (t : Tables) : t.nextHops [] = (t.recordAt []).nextHops := by
  rw [nextHops_eq_prefixes]
  cases hhops : (t.recordAt []).nextHops <;> simp [hhops]

/-- One more component gives the next hops there, if any. -/
theorem nextHops_concat (t : Tables) (n : Name) (c : Component) :
    t.nextHops (n ++ [c]) = if (t.recordAt (n ++ [c])).nextHops = [] then t.nextHops n
      else (t.recordAt (n ++ [c])).nextHops := by
  rw [nextHops_eq_prefixes, nextHops_eq_prefixes, List.inits_append]
  cases hhops : (t.recordAt (n ++ [c])).nextHops <;> simp [hhops, List.filter_append]

end Tables

namespace Routes

variable {m : Routes} {n : Name} {c : Component} {hops : List NextHop}

/-- A name with next hops of its own is its longest prefix with any. -/
theorem gives_self (h : Lists hops (m n)) (hne : hops ≠ []) : m.Gives n hops := by
  refine .inl ⟨n, ⟨List.prefix_rfl, ?_, fun q hq _ => hq.length_le⟩, h⟩
  by_contra hnone
  exact hne (h.eq_nil_iff.mpr (funext fun face => not_not.mp (not_exists.mp hnone face)))

/-- A component without next hops adds nothing. -/
theorem Gives.concat (h : m.Gives n hops) (hnone : m (n ++ [c]) = fun _ => none) :
    m.Gives (n ++ [c]) hops := by
  rcases h with ⟨p, hp, hlists⟩ | ⟨hall, rfl⟩
  · refine .inl ⟨p, ⟨hp.begins.trans (List.prefix_append n [c]), hp.routed, ?_⟩, hlists⟩
    intro q hq hrouted
    rcases List.prefix_concat_iff.mp hq with rfl | hshorter
    · obtain ⟨face, hface⟩ := hrouted
      exact absurd (congrFun hnone face) hface
    · exact hp.longest q hshorter hrouted
  · refine .inr ⟨fun p hp => ?_, rfl⟩
    rcases List.prefix_concat_iff.mp hp with rfl | hshorter
    · exact congrFun hnone
    · exact hall p hshorter

end Routes

theorem Tables.Routed.gives {t : Tables} {m : Routes} (h : t.Routed m) (n : Name) :
    m.Gives n (t.nextHops n) := by
  -- From the end of the name: the longest prefix with next hops is the name itself or one of the
  -- name without its last component.
  induction n using List.reverseRecOn with
  | nil =>
      rw [nextHops_nil]
      by_cases hempty : (t.recordAt []).nextHops = []
      · refine .inr ⟨fun p hp => ?_, hempty⟩
        rw [List.prefix_nil.mp hp]
        exact congrFun ((h []).eq_nil_iff.mp hempty)
      · exact Routes.gives_self (h []) hempty
  | append_singleton n c ih =>
      rw [nextHops_concat]
      split
      next hempty => exact ih.concat ((h _).eq_nil_iff.mp hempty)
      next hne => exact Routes.gives_self (h _) hne

/-- After any calls a lookup gives the next hops, by cost and face and each face once, that the map
has for the longest prefix with any. Adding and removing a next hop tell whether the map had it,
removing a face takes it from every prefix and changes nothing else, and calls about anything but
next hops change no lookup. -/
theorem nextHops_refine_routes (strategy : Nat) (calls : List TableCall) :
    ∃ history t, Tables.record (Tables.new strategy) calls = .ok (history, t) ∧
      t.Routed (Routes.after calls) ∧
      (∀ n, (Routes.after calls).Gives n (t.nextHops n)) ∧
      (∀ stem face cost, (t.addNextHop stem face cost).1 = true ↔
        Routes.after calls stem face = none) ∧
      (∀ stem face, (t.removeNextHop stem face).1 = true ↔
        Routes.after calls stem face ≠ none) ∧
      (∀ face n, (t.forgetNextHop face).recordAt n = { t.recordAt n with
        nextHops := (t.recordAt n).nextHops.filter fun hop => hop.face ≠ face }) ∧
      ∀ k, k.isRoute = false → ∃ reply t', t.call k = .ok (reply, t') ∧
        t'.nextHops = t.nextHops := by
  have hroutes : ∃ history t, Tables.record (Tables.new strategy) calls = .ok (history, t) ∧
      history.map TableStep.call = calls ∧ t.Sound (opened history).length ∧
        t.Routed (Routes.after (history.map TableStep.call)) :=
    Tables.record_induction strategy (Tables.routed_new strategy)
      (fun history t k reply t' hsound h hcall => h.call hsound.indexed.ordered hcall) calls
  obtain ⟨history, t, hrecord, hcalls, hsound, hrouted⟩ := hroutes
  rw [hcalls] at hrouted
  refine ⟨history, t, hrecord, hrouted, hrouted.gives, fun stem face cost => ?_,
    fun stem face => (hrouted stem).any_iff face,
    Tables.recordAt_forgetNextHop hsound.indexed.ordered, fun k hother => ?_⟩
  · have hany := (hrouted stem).any_iff face
    rw [Tables.addNextHop, Bool.not_eq_true', ← Bool.not_eq_true, hany, not_not]
  · obtain ⟨reply, t', hcall⟩ := hsound.call_ok k
    exact ⟨reply, t', hcall,
      Tables.nextHops_congr (Tables.nextHops_call hsound.indexed.ordered hother hcall)⟩

end NamedData
