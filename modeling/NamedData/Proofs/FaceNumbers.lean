import NamedData.Proofs.FaceRemoval
import NamedData.Proofs.Histories
import NamedData.Proofs.KeyedLists

/-!
The face table and its numbers. Faces are added, removed, handed packets and lose their far ends in
any order; a number is given once, in increasing order, and stands for the same face from then until
that face is removed. The table is ordered by number, so that a search by halves finds each face.
-/

namespace NamedData

/-- A call of a face table. -/
inductive FaceCall where
  | add (takes : Nat → Bool) (scope : FaceScope) (link : LinkType)
  | remove (face : FaceId)
  | handOver (face : FaceId)
  | hangUp (face : FaceId)

/-- What a call returns. -/
inductive FaceReply where
  | added (face? : Option FaceId)
  | removed (done : Bool)
  | handedOver (taken? : Option Bool)
  | hungUp
deriving DecidableEq

namespace FaceCall

/-- The face that a call with this reply added. -/
def added? : FaceCall → FaceReply → Option FaceInfo
  | add _ scope link, .added (some face) => some { face, scope, link }
  | _, _ => none

/-- The face that a call with this reply removed. -/
def removed? : FaceCall → FaceReply → Option FaceId
  | remove face, .removed true => some face
  | _, _ => none

end FaceCall

namespace FaceTable

/-- The faces that were added, the latest first. -/
def added (history : List (FaceCall × FaceReply)) : List FaceInfo :=
  history.filterMap fun p => p.1.added? p.2

/-- The faces that were removed, the latest first. -/
def removed (history : List (FaceCall × FaceReply)) : List FaceId :=
  history.filterMap fun p => p.1.removed? p.2

/-- The faces that were added and not removed. -/
def standing (history : List (FaceCall × FaceReply)) : List FaceInfo :=
  (added history).filter fun info => info.face ∉ removed history

def call (t : FaceTable) : FaceCall → FaceReply × FaceTable
  | .add takes scope link =>
    match t.add takes scope link with
    | some (face, t) => (.added (some face), t)
    | none => (.added none, t)
  | .remove face =>
    let (done, t) := t.remove face
    (.removed done, t)
  | .handOver face =>
    match t.handOver face with
    | some (isTaken, t) => (.handedOver (some isTaken), t)
    | none => (.handedOver none, t)
  | .hangUp face => (.hungUp, t.hangUp face)

/-- The place of a face in the table, found by halves. -/
def index? (t : FaceTable) (face : FaceId) : Option Nat :=
  indexByHalves? (fun f => compare f.info.face.id face.id) t.faces

/-- Removes a face from its place. -/
def removeAt (t : FaceTable) (face : FaceId) : Bool × FaceTable :=
  if face.id < FaceId.firstDynamic then (false, t)
  else
    match t.index? face with
    | some i => (true, { t with faces := t.faces.eraseIdx i })
    | none => (false, t)

/-- The table after a history: which numbers were given, and which faces are there. -/
structure Follows (t : FaceTable) (history : List (FaceCall × FaceReply)) : Prop where
  /-- The numbers are given one after another. -/
  numbered : (added history).map (fun info => info.face.id) =
    (List.range' FaceId.firstDynamic (added history).length).reverse
  /-- Only faces that were added are removed, and no face is removed twice. -/
  removed_added : ∀ face ∈ removed history, ∃ info ∈ added history, info.face = face
  removed_nodup : (removed history).Nodup
  /-- The faces are that of the content store and those that were added and not removed, each as it
  was added. -/
  infos : t.faces.map Face.info = contentStoreFace.info :: (standing history).reverse
  info?_iff : ∀ face info, t.info? face = some info ↔
    info.face = face ∧ (info = contentStoreFace.info ∨ info ∈ standing history)
  contains_iff : ∀ face, t.contains face = true ↔
    face = .contentStore ∨ ∃ info ∈ standing history, info.face = face
  handOver_iff : ∀ face, (t.handOver face).isSome = true ↔
    face = .contentStore ∨ ∃ info ∈ standing history, info.face = face
  /-- Only what was added can be removed, and no face with a reserved number. -/
  remove_iff : ∀ face, (t.remove face).1 = true ↔ ∃ info ∈ standing history, info.face = face
  reserved : ∀ face, face.id < FaceId.firstDynamic → t.remove face = (false, t)
  /-- Only when all numbers were given no face can be added, and the table stays as it is. -/
  exhausted : ∀ takes scope link, t.call (.add takes scope link) = (.added none, t) ↔
    (added history).length = 2 ^ 32 - FaceId.firstDynamic
  /-- A search by halves finds the place of each face. -/
  find?_eq : ∀ face, t.find? face = (t.index? face).bind (t.faces[·]?)
  remove_eq : ∀ face, t.remove face = t.removeAt face

variable {t u : FaceTable} {face : FaceId} {info : FaceInfo} {takes : Nat → Bool}
  {scope : FaceScope} {link : LinkType} {history : List (FaceCall × FaceReply)} {k : FaceCall}
  {reply : FaceReply}

/-! ### One call -/

theorem call_add_of_lt (h : t.latest < lastId) : t.call (.add takes scope link) =
    (.added (some ⟨t.latest + 1⟩),
      { faces := t.faces ++ [{ info := { face := ⟨t.latest + 1⟩, scope, link }, takes }]
        latest := t.latest + 1 }) := by
  rw [call, add, if_pos h]

theorem call_add_of_le (h : lastId ≤ t.latest) :
    t.call (.add takes scope link) = (.added none, t) := by
  rw [call, add, if_neg (Nat.not_lt.mpr h)]

theorem call_remove_of_contains (hdynamic : FaceId.firstDynamic ≤ face.id)
    (h : t.contains face = true) : t.call (.remove face) =
      (.removed true, { t with faces := t.faces.filter fun f => f.info.face ≠ face }) := by
  rw [call, remove, if_neg (Nat.not_lt.mpr hdynamic), if_pos h]

theorem call_remove_of_not (h : face.id < FaceId.firstDynamic ∨ t.contains face = false) :
    t.call (.remove face) = (.removed false, t) := by
  have hremove : t.remove face = (false, t) := by
    rw [remove]
    rcases h with hreserved | hunknown
    · rw [if_pos hreserved]
    · rw [hunknown, if_neg Bool.false_ne_true, ite_self]
  rw [call, hremove]

/-- The use of a link leaves what is known of the faces. -/
theorem map_info_modify (t : FaceTable) (face : FaceId) {change : Face → Face}
    (h : ∀ f, (change f).info = f.info) :
    (t.modify face change).faces.map Face.info = t.faces.map Face.info := by
  rw [modify, List.map_map]
  refine List.map_congr_left fun f _ => ?_
  rw [Function.comp_apply]
  split
  · exact h f
  · rfl

theorem handOver_isSome (t : FaceTable) (face : FaceId) :
    (t.handOver face).isSome = t.contains face := by
  rw [handOver, contains]
  cases t.find? face <;> rfl

theorem infos_handOver {isTaken : Bool} (h : t.handOver face = some (isTaken, u)) :
    u.faces.map Face.info = t.faces.map Face.info ∧ u.latest = t.latest := by
  rw [handOver] at h
  split at h
  · cases h
    exact ⟨map_info_modify t face fun _ => rfl, rfl⟩
  · cases h

/-! ### Tables in order -/

/-- The numbers increase. -/
def Ordered (t : FaceTable) : Prop :=
  t.faces.Pairwise fun f g => f.info.face.id < g.info.face.id

namespace Ordered

/-- What is known of a face is found by its number. -/
theorem info?_eq_some (h : t.Ordered) :
    t.info? face = some info ↔ info ∈ t.faces.map Face.info ∧ info.face = face := by
  have hnodup : (t.faces.map fun f => f.info.face).Nodup :=
    List.pairwise_map.mpr (h.imp fun hlt same => Nat.ne_of_lt hlt (congrArg FaceId.id same))
  constructor
  · intro hinfo
    obtain ⟨f, hfind, rfl⟩ := Option.map_eq_some_iff.mp hinfo
    have hface : f.info.face = face := by simpa using List.find?_some hfind
    exact ⟨List.mem_map_of_mem (List.mem_of_find?_eq_some hfind), hface⟩
  · rintro ⟨member, rfl⟩
    obtain ⟨f, hf, rfl⟩ := List.mem_map.mp member
    obtain ⟨g, hfind⟩ := Option.isSome_iff_exists.mp (contains_iff.mpr ⟨f, hf, rfl⟩)
    have hface : g.info.face = f.info.face := by simpa using List.find?_some hfind
    have same : g = f :=
      List.inj_on_of_nodup_map hnodup (List.mem_of_find?_eq_some hfind) hf hface
    rw [info?, hfind, same, Option.map_some]

theorem placedBy (h : t.Ordered) (face : FaceId) :
    PlacedBy (fun f => compare f.info.face.id face.id) t.faces := by
  refine h.imp fun {f g} hlt hplace => ?_
  rw [ne_eq, Nat.compare_eq_lt, Nat.not_lt] at hplace
  exact Nat.compare_eq_gt.mpr (Nat.lt_of_le_of_lt hplace hlt)

/-- A face lies where its number does. -/
theorem decide_place (f : Face) (face : FaceId) :
    decide (compare f.info.face.id face.id = .eq) = decide (f.info.face = face) :=
  decide_eq_decide.mpr (Nat.compare_eq_eq.trans ⟨congrArg FaceId.mk, congrArg FaceId.id⟩)

/-- The search by halves finds a place as a search from the front does. -/
theorem index?_eq (h : t.Ordered) (face : FaceId) :
    t.index? face = t.faces.findIdx? fun f => f.info.face = face := by
  rw [index?, (h.placedBy face).indexByHalves?_eq]
  simp only [decide_place]

theorem find?_eq (h : t.Ordered) (face : FaceId) :
    t.find? face = (t.index? face).bind (t.faces[·]?) := by
  rw [h.index?_eq, ← find?_eq_bind_findIdx?, find?]

theorem isSome_index? (h : t.Ordered) (face : FaceId) :
    (t.index? face).isSome = t.contains face := by
  rw [h.index?_eq, List.findIdx?_isSome, contains, find?, List.isSome_find?]

/-- Removal by place takes away what has the number. -/
theorem remove_eq (h : t.Ordered) (face : FaceId) : t.remove face = t.removeAt face := by
  rw [remove, removeAt, ← h.isSome_index?]
  cases hindex : t.index? face with
  | none => rfl
  | some i =>
      have herase := (h.placedBy face).eraseIdx_eq hindex
      simp only [ne_eq, decide_not, decide_place] at herase
      simp only [herase, ne_eq, decide_not, Option.isSome_some, if_true]

end Ordered

/-! ### Any calls -/

/-- What the table keeps to along a history. -/
structure Accounts (t : FaceTable) (history : List (FaceCall × FaceReply)) : Prop where
  numbered : (added history).map (fun info => info.face.id) =
    (List.range' FaceId.firstDynamic (added history).length).reverse
  removed_added : ∀ face ∈ removed history, ∃ info ∈ added history, info.face = face
  removed_nodup : (removed history).Nodup
  infos : t.faces.map Face.info = contentStoreFace.info :: (standing history).reverse
  latest_eq : t.latest + 1 = FaceId.firstDynamic + (added history).length
  latest_le : t.latest ≤ lastId

theorem accounts_initial : Accounts initial [] where
  numbered := rfl
  removed_added := nofun
  removed_nodup := List.nodup_nil
  infos := rfl
  latest_eq := rfl
  latest_le := by decide

namespace Accounts

/-- An added face has a number among those that were given. -/
theorem id_added (h : t.Accounts history) (hinfo : info ∈ added history) :
    FaceId.firstDynamic ≤ info.face.id ∧ info.face.id ≤ t.latest := by
  have hnumber := List.mem_map_of_mem (f := fun info : FaceInfo => info.face.id) hinfo
  rw [h.numbered, List.mem_reverse, List.mem_range'_1] at hnumber
  have hlatest := h.latest_eq
  omega

theorem ordered (h : t.Accounts history) : t.Ordered := by
  have hids : (t.faces.map fun f => f.info.face.id) =
      FaceId.contentStore.id :: ((standing history).map fun info => info.face.id).reverse := by
    have hmap := congrArg (List.map fun info => info.face.id) h.infos
    rwa [List.map_map, List.map_cons, List.map_reverse] at hmap
  have hsub : ((standing history).map fun info => info.face.id).reverse.Sublist
      (List.range' FaceId.firstDynamic (added history).length) := by
    rw [← List.reverse_reverse (List.range' _ _), ← h.numbered]
    exact (List.filter_sublist.map _).reverse
  have hincreasing : (t.faces.map fun f => f.info.face.id).Pairwise (· < ·) := by
    rw [hids]
    refine List.pairwise_cons.mpr ⟨fun id hid => ?_, (List.pairwise_lt_range' 1).sublist hsub⟩
    have hdynamic : 256 ≤ id := (List.mem_range'_1.mp (hsub.subset hid)).1
    exact Nat.lt_of_lt_of_le (by decide) hdynamic
  exact List.pairwise_map.mp hincreasing

/-- A number that was not given yet. -/
theorem not_added (h : t.Accounts history) : ∀ info ∈ added history, info.face.id ≠ t.latest + 1 :=
  fun _ hinfo => Nat.ne_of_lt (Nat.lt_succ_of_le (h.id_added hinfo).2)

/-- The faces as the table lists them. -/
theorem mem_infos (h : t.Accounts history) :
    info ∈ t.faces.map Face.info ↔ info = contentStoreFace.info ∨ info ∈ standing history := by
  rw [h.infos, List.mem_cons, List.mem_reverse]

theorem contains_iff (h : t.Accounts history) (face : FaceId) : t.contains face = true ↔
    face = .contentStore ∨ ∃ info ∈ standing history, info.face = face := by
  rw [FaceTable.contains_iff]
  have hmem : (∃ f ∈ t.faces, f.info.face = face) ↔
      ∃ info ∈ t.faces.map Face.info, info.face = face := by simp
  rw [hmem]
  simp only [h.mem_infos]
  constructor
  · rintro ⟨info, rfl | hstanding, rfl⟩
    · exact .inl rfl
    · exact .inr ⟨info, hstanding, rfl⟩
  · rintro (rfl | ⟨info, hstanding, rfl⟩)
    · exact ⟨_, .inl rfl, rfl⟩
    · exact ⟨info, .inr hstanding, rfl⟩

/-- Of the faces that are there, those can be removed that were added. -/
theorem remove_iff (h : t.Accounts history) (face : FaceId) :
    (t.remove face).1 = true ↔ ∃ info ∈ standing history, info.face = face := by
  rw [Forwarder.remove_fst, h.contains_iff]
  constructor
  · rintro ⟨hdynamic, rfl | hstanding⟩
    · exact absurd hdynamic (by decide)
    · exact hstanding
  · rintro ⟨info, hstanding, rfl⟩
    exact ⟨(h.id_added (List.mem_of_mem_filter hstanding)).1, .inr ⟨info, hstanding, rfl⟩⟩

/-- A call that adds and removes nothing. -/
theorem same (h : t.Accounts history) (hinfos : u.faces.map Face.info = t.faces.map Face.info)
    (hlatest : u.latest = t.latest) (hadded : k.added? reply = none)
    (hremoved : k.removed? reply = none) : u.Accounts ((k, reply) :: history) := by
  have hgiven : added ((k, reply) :: history) = added history :=
    List.filterMap_cons_none hadded
  have htaken : removed ((k, reply) :: history) = removed history :=
    List.filterMap_cons_none hremoved
  have hstanding : standing ((k, reply) :: history) = standing history := by
    rw [standing, hgiven, htaken, standing]
  constructor
  · rw [hgiven]
    exact h.numbered
  · rw [hgiven, htaken]
    exact h.removed_added
  · rw [htaken]
    exact h.removed_nodup
  · rw [hinfos, hstanding]
    exact h.infos
  · rw [hlatest, hgiven]
    exact h.latest_eq
  · exact hlatest ▸ h.latest_le

theorem add (h : t.Accounts history) (hlt : t.latest < lastId) :
    FaceTable.Accounts
      { faces := t.faces ++ [{ info := { face := ⟨t.latest + 1⟩, scope, link }, takes }]
        latest := t.latest + 1 }
      ((.add takes scope link, .added (some ⟨t.latest + 1⟩)) :: history) := by
  have hgiven : added ((.add takes scope link, .added (some ⟨t.latest + 1⟩)) :: history) =
      { face := ⟨t.latest + 1⟩, scope, link } :: added history := rfl
  have htaken : removed ((.add takes scope link, .added (some ⟨t.latest + 1⟩)) :: history) =
      removed history := rfl
  have hnever : (⟨t.latest + 1⟩ : FaceId) ∉ removed history := by
    intro member
    obtain ⟨info, hinfo, hface⟩ := h.removed_added _ member
    exact h.not_added info hinfo (congrArg FaceId.id hface)
  have hstanding :
      standing ((.add takes scope link, .added (some ⟨t.latest + 1⟩)) :: history) =
        { face := ⟨t.latest + 1⟩, scope, link } :: standing history :=
    List.filter_cons_of_pos (decide_eq_true hnever)
  have hlatest := h.latest_eq
  constructor
  · rw [hgiven, List.map_cons, h.numbered, List.length_cons, List.range'_1_concat,
      List.reverse_append, ← hlatest]
    rfl
  · intro face member
    obtain ⟨info, hinfo, hface⟩ := h.removed_added face (htaken ▸ member)
    exact ⟨info, List.mem_cons_of_mem _ hinfo, hface⟩
  · exact h.removed_nodup
  · rw [List.map_append, h.infos, hstanding, List.reverse_cons]
    rfl
  · rw [hgiven, List.length_cons]
    exact congrArg (· + 1) hlatest
  · exact hlt

theorem remove (h : t.Accounts history) (hdynamic : FaceId.firstDynamic ≤ face.id)
    (hknown : t.contains face = true) :
    FaceTable.Accounts { t with faces := t.faces.filter fun f => f.info.face ≠ face }
      ((.remove face, .removed true) :: history) := by
  have hgiven : added ((FaceCall.remove face, .removed true) :: history) = added history := rfl
  have htaken : removed ((FaceCall.remove face, .removed true) :: history) =
      face :: removed history := rfl
  have hstanding : standing ((FaceCall.remove face, .removed true) :: history) =
      (standing history).filter fun info => info.face ≠ face := by
    rw [standing, hgiven, htaken, standing, List.filter_filter]
    refine List.filter_congr fun info _ => ?_
    simp
  obtain ⟨info, hinfo, rfl⟩ : ∃ info ∈ standing history, info.face = face :=
    (h.remove_iff face).mp (Forwarder.remove_fst.mpr ⟨hdynamic, hknown⟩)
  obtain ⟨hadded, hstill⟩ := List.mem_filter.mp hinfo
  constructor
  · exact h.numbered
  · rw [htaken]
    exact List.forall_mem_cons.mpr ⟨⟨info, hadded, rfl⟩, h.removed_added⟩
  · exact List.nodup_cons.mpr ⟨of_decide_eq_true hstill, h.removed_nodup⟩
  · have hstore : decide (contentStoreFace.info.face ≠ info.face) = true :=
      decide_eq_true fun same => absurd (same ▸ hdynamic) (by decide)
    have hfilter := congrArg (List.filter fun i => decide (i.face ≠ info.face)) h.infos
    rw [List.filter_map, List.filter_cons, if_pos hstore, List.filter_reverse, ← hstanding]
      at hfilter
    exact hfilter
  · exact h.latest_eq
  · exact h.latest_le

theorem call (h : t.Accounts history) (k : FaceCall) :
    (t.call k).2.Accounts ((k, (t.call k).1) :: history) := by
  cases k with
  | add takes scope link =>
      by_cases hlt : t.latest < lastId
      · rw [call_add_of_lt hlt]
        exact h.add hlt
      · rw [call_add_of_le (Nat.le_of_not_lt hlt)]
        exact h.same rfl rfl rfl rfl
  | remove face =>
      by_cases hreserved : face.id < FaceId.firstDynamic
      · rw [call_remove_of_not (.inl hreserved)]
        exact h.same rfl rfl rfl rfl
      · cases hknown : t.contains face with
        | false =>
            rw [call_remove_of_not (.inr hknown)]
            exact h.same rfl rfl rfl rfl
        | true =>
            rw [call_remove_of_contains (Nat.le_of_not_lt hreserved) hknown]
            exact h.remove (Nat.le_of_not_lt hreserved) hknown
  | handOver face =>
      rw [FaceTable.call]
      cases hhand : t.handOver face with
      | none => exact h.same rfl rfl rfl rfl
      | some result =>
          obtain ⟨hinfos, hlatest⟩ := infos_handOver hhand
          exact h.same hinfos hlatest rfl rfl
  | hangUp face => exact h.same (map_info_modify t face fun _ => rfl) rfl rfl rfl

theorem follows (h : t.Accounts history) : t.Follows history where
  numbered := h.numbered
  removed_added := h.removed_added
  removed_nodup := h.removed_nodup
  infos := h.infos
  info?_iff face info := by
    rw [h.ordered.info?_eq_some, h.mem_infos, and_comm]
  contains_iff := h.contains_iff
  handOver_iff face := by
    rw [handOver_isSome, h.contains_iff]
  remove_iff := h.remove_iff
  reserved face hreserved := by
    rw [FaceTable.remove, if_pos hreserved]
  exhausted takes scope link := by
    have hlatest := h.latest_eq
    have hlast : lastId + 1 = 2 ^ 32 := rfl
    have hdynamic : FaceId.firstDynamic ≤ 2 ^ 32 := by decide
    by_cases hlt : t.latest < lastId
    · rw [call_add_of_lt hlt]
      refine iff_of_false (by simp) ?_
      omega
    · rw [call_add_of_le (Nat.le_of_not_lt hlt)]
      have hle := h.latest_le
      refine iff_of_true rfl ?_
      omega
  find?_eq := h.ordered.find?_eq
  remove_eq := h.ordered.remove_eq

end Accounts

end FaceTable

/-- After any calls to a face table, the faces that are there are that of the content store and
those that were added and not removed since; each is found by its number, as it was added. The
numbers are given one after another, and when the last one was given no face is added any more. A
table that is searched by halves does the same. -/
theorem faces_keep_their_numbers (calls : List FaceCall) :
    let (history, t) := recordCalls FaceTable.call FaceTable.initial calls
    t.Follows history :=
  (recordCalls_induction FaceTable.accounts_initial
    (P := fun history (t : FaceTable) => t.Accounts history) (fun _ _ k h => h.call k)
    calls).follows

end NamedData
