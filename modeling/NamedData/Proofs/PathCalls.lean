import NamedData.Proofs.Records
import NamedData.Proofs.RouteMap
import NamedData.Proofs.TreeRoutines

/-!
The tables called by paths. Each call plants the path of its name or follows it, does its part at
the node it comes to, and prunes what it may have left empty; next hops are set where they stand and
the list is sorted again. On tables that keep to their order this gives the reply and the tables of
the call that changes a name in one step.
-/

namespace NamedData

/-! ### A list that is sorted again -/

namespace NextHop

variable {a b c : NextHop} {hops : List NextHop} {costs : FaceId → Option Nat}

/-- Whether a sorted list may have the first in front of the second. -/
def atMost (a b : NextHop) : Bool :=
  !b.before a

theorem atMost_trans (h : a.atMost b = true) (h' : b.atMost c = true) : a.atMost c = true := by
  simp only [atMost, before, Bool.not_eq_true', Bool.or_eq_false_iff, Bool.and_eq_false_iff,
    decide_eq_false_iff_not] at *
  omega

theorem atMost_total (a b : NextHop) : (a.atMost b || b.atMost a) = true := by
  simp only [atMost, before, Bool.or_eq_true, Bool.not_eq_true', Bool.or_eq_false_iff,
    Bool.and_eq_false_iff, decide_eq_false_iff_not]
  omega

theorem atMost_iff : a.atMost b = true ↔ b.before a = false := by
  rw [atMost, Bool.not_eq_true']

theorem atMost_of_before (h : a.before b = true) : a.atMost b = true := by
  rw [atMost_iff]
  by_contra hafter
  cases (before_trans h (Bool.of_not_eq_false hafter)).symm.trans a.not_before_self

theorem eq_of_atMost (h : a.atMost b = true) (h' : b.atMost a = true) : a = b := by
  rw [atMost_iff] at h h'
  have hface : a.face = b.face := by
    by_contra hne
    cases h'.symm.trans (before_of_not_before h (Ne.symm hne))
  have hcost : a.cost = b.cost := by
    simp only [before, Bool.or_eq_false_iff, decide_eq_false_iff_not] at h h'
    omega
  cases a
  cases b
  cases hface
  cases hcost
  rfl

/-- Sets the cost of a face where it stands, or else adds it at the end, and sorts the list. -/
def relist (hops : List NextHop) (face : FaceId) (cost : Nat) : List NextHop :=
  (PitEntry.upsert (fun hop => hop.face = face) { cost, face } hops).mergeSort atMost

theorem upsert_ne_nil {ρ : Type} (isOld : ρ → Bool) (record : ρ) (l : List ρ) :
    PitEntry.upsert isOld record l ≠ [] := by
  cases l with
  | nil => exact List.cons_ne_nil record []
  | cons r rest =>
      rw [PitEntry.upsert]
      split <;> exact List.cons_ne_nil _ _

theorem relist_ne_nil (hops : List NextHop) (face : FaceId) (cost : Nat) :
    relist hops face cost ≠ [] := by
  intro hnil
  have hperm := List.mergeSort_perm
    (PitEntry.upsert (fun hop => hop.face = face) { cost, face } hops) atMost
  rw [← relist, hnil] at hperm
  exact upsert_ne_nil _ _ _ hperm.nil_eq.symm

/-- With each face once, setting a cost is taking the face out and adding it again. -/
theorem upsert_perm (h : (hops.map NextHop.face).Nodup) (face : FaceId) (cost : Nat) :
    (PitEntry.upsert (fun hop => hop.face = face) { cost, face } hops).Perm
      ({ cost, face } :: hops.filter fun hop => hop.face ≠ face) := by
  have hleft : ((PitEntry.upsert (fun hop => decide (hop.face = face)) { cost, face } hops).map
      NextHop.face).Nodup := by
    rw [PitEntry.map_upsert NextHop.face (k := face) rfl]
    exact PitEntry.nodup_upserted h face
  have hright : (NextHop.mk cost face :: hops.filter fun hop => hop.face ≠ face).Nodup :=
    List.nodup_cons.mpr ⟨by simp, (List.Nodup.of_map _ h).filter _⟩
  refine (List.perm_ext_iff_of_nodup (List.Nodup.of_map _ hleft) hright).mpr fun hop => ?_
  rw [PitEntry.mem_upsert h, List.mem_cons, List.mem_filter, decide_eq_true_iff]

theorem relist_eq (h : Lists hops costs) (face : FaceId) (cost : Nat) :
    relist hops face cost =
      insertOrdered before { cost, face } (hops.filter fun hop => hop.face ≠ face) := by
  have hsorted : (relist hops face cost).Pairwise fun a b => a.atMost b = true :=
    @List.pairwise_mergeSort _ atMost (fun _ _ _ => atMost_trans) atMost_total _
  have hordered := (h.add face cost).ordered.imp fun hbefore => atMost_of_before hbefore
  refine List.Perm.eq_of_pairwise (fun _ _ _ _ => eq_of_atMost) hsorted hordered ?_
  calc (relist hops face cost).Perm
        (PitEntry.upsert (fun hop => hop.face = face) { cost, face } hops) :=
      List.mergeSort_perm _ _
    List.Perm _ ({ cost, face } :: hops.filter fun hop => hop.face ≠ face) :=
      upsert_perm h.single face cost
    List.Perm _ (insertOrdered before { cost, face } (hops.filter fun hop => hop.face ≠ face)) :=
      (insertOrdered_perm before _ _).symm

end NextHop

namespace NameRecord

variable {r : NameRecord} {costs : FaceId → Option Nat}

/-- The record with the cost of a face set in its list. -/
def relist (r : NameRecord) (face : FaceId) (cost : Nat) : NameRecord :=
  { r with nextHops := NextHop.relist r.nextHops face cost }

theorem relist_eq (h : Lists r.nextHops costs) (face : FaceId) (cost : Nat) :
    r.relist face cost = { r with nextHops := insertOrdered NextHop.before { cost, face }
                                    (r.nextHops.filter fun hop => hop.face ≠ face) } := by
  rw [relist, NextHop.relist_eq h]

/-- The record without a face in its list. -/
def without (r : NameRecord) (face : FaceId) : NameRecord :=
  { r with nextHops := r.nextHops.filter fun hop => hop.face ≠ face }

/-- The list is shorter without a face if the face was in it. -/
theorem length_without_ne_iff (r : NameRecord) (face : FaceId) :
    (r.without face).nextHops.length ≠ r.nextHops.length ↔
      (r.nextHops.any fun hop => hop.face = face) = true := by
  have hle : (r.without face).nextHops.length ≤ r.nextHops.length := List.length_filter_le _ _
  rw [← hle.lt_iff_ne, without, List.length_filter_lt_length_iff_exists, List.any_eq_true]
  simp

theorem relist_ne_blank (r : NameRecord) (face : FaceId) (cost : Nat) :
    r.relist face cost ≠ Blank.blank := by
  intro hblank
  exact NextHop.relist_ne_nil r.nextHops face cost (congrArg nextHops hblank)

end NameRecord

/-! ### The calls -/

/-- The value at the end of a path, blank if there is no node. -/
def NameTree.found {α : Type} [Blank α] (t : NameTree α) (n : Name) : α :=
  ((t.descend? n).map NameTree.value).getD Blank.blank

namespace Tables

def addNextHopByPath (t : Tables) (stem : Name) (face : FaceId) (cost : Nat) : Bool × Tables :=
  let planted := t.tree.plant id stem
  let wasThere := (planted.found stem).nextHops.any fun hop => hop.face = face
  (!wasThere, { t with tree := planted.amend (fun r => r.relist face cost) stem })

def removeNextHopByPath (t : Tables) (stem : Name) (face : FaceId) : Bool × Tables :=
  match t.tree.descend? stem with
  -- A path that ends early is not pruned either.
  | none => (false, t)
  | some node =>
    let amended := t.tree.amend (fun r => r.without face) stem
    ((node.value.without face).nextHops.length ≠ node.value.nextHops.length,
      { t with tree := amended.prune stem })

def forgetNextHopByPath (t : Tables) (face : FaceId) : Tables :=
  { t with tree := t.tree.sweep fun r => r.without face }

def setStrategyByPath (t : Tables) (stem : Name) (strategy : Nat) : Tables :=
  { t with tree := t.tree.plant (fun r => { r with strategy? := some strategy }) stem }

def unsetStrategyByPath (t : Tables) (stem : Name) : Bool × Tables :=
  if stem.isEmpty then (false, t)
  else
    let wasThere := (t.tree.descend? stem).any fun node => node.value.strategy?.isSome
    let amended := t.tree.amend (fun r => { r with strategy? := none }) stem
    (wasThere, { t with tree := amended.prune stem })

def findOrInsertByPath (t : Tables) (i : Interest) : Except Fault ((PitToken × Bool) × Tables) := do
  let planted := t.tree.plant id i.name
  match ← t.firstAsking i (planted.found i.name).pending with
  | some token => .ok ((token, false), { t with tree := planted })
  | none =>
    let (token, pit) ← t.pit.insert { interest := i.untagged }
    let amended := planted.amend (fun r => { r with pending := r.pending ++ [token] }) i.name
    .ok ((token, true), { tree := amended, pit })

def eraseByPath (t : Tables) (token : PitToken) : Option (PitEntry × Tables) :=
  match t.pit.remove token with
  | some (entry, pit) =>
    let amended := t.tree.amend (fun r => { r with pending := r.pending.filter (· ≠ token) })
      entry.name
    some (entry, { tree := amended.prune entry.name, pit })
  | none => none

def callByPath (t : Tables) : TableCall → Except Fault (TableReply × Tables)
  | .addNextHop stem face cost =>
    let (isNew, t) := t.addNextHopByPath stem face cost
    .ok (.said isNew, t)
  | .removeNextHop stem face =>
    let (wasThere, t) := t.removeNextHopByPath stem face
    .ok (.said wasThere, t)
  | .forgetNextHop face => .ok (.done, t.forgetNextHopByPath face)
  | .setStrategy stem strategy => .ok (.done, t.setStrategyByPath stem strategy)
  | .unsetStrategy stem =>
    let (wasThere, t) := t.unsetStrategyByPath stem
    .ok (.said wasThere, t)
  | .findOrInsert i => do
    let ((token, isNew), t) ← t.findOrInsertByPath i
    .ok (.pending token isNew, t)
  | .revise token change => .ok (.done, t.revise token change)
  | .erase token =>
    match t.eraseByPath token with
    | some (e, t) => .ok (.ended (some e), t)
    | none => .ok (.ended none, t)

/-- What the calls by path rely on. -/
structure Tidy (t : Tables) : Prop where
  ordered : t.tree.Ordered
  filled : t.tree.Filled
  listed : t.HopsListed

namespace Tidy

variable {t : Tables}

/-- A path leads to what is held at its name. -/
theorem recordAt_eq_found (h : t.Tidy) (n : Name) : t.recordAt n = t.tree.found n := by
  rw [NameTree.found, NameTree.descend?_eq_subtree? h.ordered]
  rfl

theorem found_plant (h : t.Tidy) (n : Name) : (t.tree.plant id n).found n = t.recordAt n := by
  obtain ⟨node, hnode, hvalue⟩ := NameTree.descend?_plant h.ordered id n
  rw [NameTree.found, hnode, Option.map_some, Option.getD_some, hvalue]
  rfl

/-- A path that is planted and then changed at its end, where something is left. -/
theorem amend_plant (h : t.Tidy) {f : NameRecord → NameRecord} {n : Name}
    (hleft : f (t.recordAt n) ≠ Blank.blank) :
    (t.tree.plant id n).amend f n = t.tree.alter n f :=
  (NameTree.amend_plant h.ordered f n).trans (NameTree.plant_eq_alter h.ordered hleft)

theorem addNextHopByPath_eq (h : t.Tidy) (stem : Name) (face : FaceId) (cost : Nat) :
    t.addNextHopByPath stem face cost = t.addNextHop stem face cost := by
  obtain ⟨costs, hlists⟩ := h.listed stem
  have htree : (t.tree.plant id stem).amend (fun r => r.relist face cost) stem =
      t.tree.alter stem fun r => { r with nextHops := insertOrdered NextHop.before { cost, face }
                                            (r.nextHops.filter fun hop => hop.face ≠ face) } :=
    (h.amend_plant (NameRecord.relist_ne_blank _ face cost)).trans
      (NameTree.alter_congr h.filled h.ordered (NameRecord.relist_eq hlists face cost))
  rw [addNextHopByPath, h.found_plant, htree]
  rfl

theorem removeNextHopByPath_eq (h : t.Tidy) (stem : Name) (face : FaceId) :
    t.removeNextHopByPath stem face = t.removeNextHop stem face := by
  have hcall : t.removeNextHop stem face = ((t.recordAt stem).nextHops.any fun hop =>
      hop.face = face, t.change stem fun r => r.without face) := rfl
  have hfound := h.recordAt_eq_found stem
  rw [hcall, removeNextHopByPath]
  cases hnode : t.tree.descend? stem with
  | none =>
      have hblank : t.recordAt stem = Blank.blank := by rw [hfound, NameTree.found, hnode]; rfl
      have hsame : t.tree.alter stem (fun r => r.without face) = t.tree :=
        NameTree.alter_eq_self h.filled h.ordered (by rw [← recordAt, hblank]; rfl)
      rw [change, hsame, hblank]
      rfl
  | some node =>
      have hvalue : t.recordAt stem = node.value := by rw [hfound, NameTree.found, hnode]; rfl
      have hreply : decide ((node.value.without face).nextHops.length ≠
          node.value.nextHops.length) = node.value.nextHops.any fun hop => hop.face = face :=
        Bool.eq_iff_iff.mpr (decide_eq_true_iff.trans (node.value.length_without_ne_iff face))
      rw [change, hvalue, ← NameTree.prune_amend h.ordered rfl, ← hreply]

theorem forgetNextHopByPath_eq (t : Tables) (face : FaceId) :
    t.forgetNextHopByPath face = t.forgetNextHop face := by
  rw [forgetNextHopByPath, NameTree.sweep_eq_mapValues]
  rfl

theorem setStrategyByPath_eq (h : t.Tidy) (stem : Name) (strategy : Nat) :
    t.setStrategyByPath stem strategy = t.setStrategy stem strategy := by
  have hleft : { t.recordAt stem with strategy? := some strategy } ≠ Blank.blank :=
    fun hblank => Option.some_ne_none strategy (congrArg NameRecord.strategy? hblank)
  rw [setStrategyByPath, setStrategy, change, NameTree.plant_eq_alter h.ordered hleft]

theorem unsetStrategyByPath_eq (h : t.Tidy) (stem : Name) :
    t.unsetStrategyByPath stem = t.unsetStrategy stem := by
  have hreply : ((t.tree.descend? stem).any fun node => node.value.strategy?.isSome) =
      (t.recordAt stem).strategy?.isSome := by
    rw [h.recordAt_eq_found, NameTree.found]
    cases t.tree.descend? stem <;> rfl
  simp only [unsetStrategyByPath, unsetStrategy, change, hreply]
  rw [NameTree.prune_amend h.ordered rfl]

theorem eraseByPath_eq (h : t.Tidy) (token : PitToken) :
    t.eraseByPath token = t.erase token := by
  rw [eraseByPath, erase]
  cases t.pit.remove token with
  | none => rfl
  | some removed =>
      simp only [change]
      rw [NameTree.prune_amend h.ordered rfl]

theorem findOrInsertByPath_eq (h : t.Tidy) (i : Interest) :
    t.findOrInsertByPath i = t.findOrInsert i := by
  rw [findOrInsertByPath, findOrInsert, h.found_plant, ← findPending]
  cases hfind : t.findPending i with
  | error fault => rfl
  | ok found =>
      cases found with
      | some token =>
          have hpath : t.tree.plant id i.name = t.tree := by
            refine NameTree.plant_id h.ordered fun hblank => ?_
            have hlisted : token ∈ (t.tree.get i.name).pending := (firstAsking_eq_some hfind).1
            rw [hblank] at hlisted
            cases hlisted
          change Except.ok ((token, false), { t with tree := t.tree.plant id i.name }) =
            Except.ok ((token, false), t)
          rw [hpath]
      | none =>
          have hleft (token : PitToken) : { t.recordAt i.name with
              pending := (t.recordAt i.name).pending ++ [token] } ≠ Blank.blank := by
            intro hblank
            have hnil : (t.recordAt i.name).pending ++ [token] = [] :=
              congrArg NameRecord.pending hblank
            exact List.append_ne_nil_of_right_ne_nil _ (List.cons_ne_nil token []) hnil
          have htree (token : PitToken) := h.amend_plant (n := i.name)
            (f := fun r => { r with pending := r.pending ++ [token] }) (hleft token)
          cases hinsert : t.pit.insert { interest := i.untagged } with
          | error fault => rfl
          | ok added =>
              exact congrArg (fun tree => Except.ok ((added.1, true), Tables.mk tree added.2))
                (htree added.1)

/-- A call by path is the call. -/
theorem callByPath_eq (h : t.Tidy) (k : TableCall) : t.callByPath k = t.call k := by
  cases k with
  | addNextHop stem face cost => rw [callByPath, call, h.addNextHopByPath_eq]
  | removeNextHop stem face => rw [callByPath, call, h.removeNextHopByPath_eq]
  | forgetNextHop face => rw [callByPath, call, forgetNextHopByPath_eq]
  | setStrategy stem strategy => rw [callByPath, call, h.setStrategyByPath_eq]
  | unsetStrategy stem => rw [callByPath, call, h.unsetStrategyByPath_eq]
  | findOrInsert i => rw [callByPath, call, h.findOrInsertByPath_eq]
  | revise token change => rfl
  | erase token =>
      have hsame := h.eraseByPath_eq token
      cases herase : t.erase token with
      | none => simp only [callByPath, call, hsame, herase]
      | some removed => simp only [callByPath, call, hsame, herase]

end Tidy

end Tables

end NamedData
