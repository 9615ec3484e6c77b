import Mathlib.Data.List.Nodup
import NamedData.Pit.Entry

/-!
The records of a pending Interest, seen through the faces they name. No face has two records on the
same side, whatever is noted, answered or forgotten; with that, deleting the record of a face leaves
no record of it.
-/

namespace NamedData

namespace PitEntry

/-- The faces that wait, in the order of their records. -/
def inFaces (e : PitEntry) : List FaceId :=
  e.inRecords.map InRecord.face

/-- The faces that the Interest was sent to, in the order of their records. -/
def outFaces (e : PitEntry) : List FaceId :=
  e.outRecords.map OutRecord.face

/-- A face has at most one record on either side. -/
structure Distinct (e : PitEntry) : Prop where
  inFaces : e.inFaces.Nodup
  outFaces : e.outFaces.Nodup

/-- Every record names a face for which the test holds. -/
structure Within (e : PitEntry) (known : FaceId → Prop) : Prop where
  inFaces : ∀ face ∈ e.inFaces, known face
  outFaces : ∀ face ∈ e.outFaces, known face

/-- The record that an Interest leaves when it comes in. -/
def inRecordOf (ingress : FaceEndpoint) (interest : Interest) (now : Timestamp) : InRecord where
  face := ingress.face
  endpoint := ingress.endpoint
  nonce := interest.nonce
  renewed := now
  expiry := now.adding interest.lifetime
  interest := interest

/-- The record that an Interest leaves when it is sent. -/
def outRecordOf (egress : FaceEndpoint) (interest : Interest) (now : Timestamp) : OutRecord where
  face := egress.face
  endpoint := egress.endpoint
  nonce := interest.nonce
  renewed := now
  expiry := now.adding interest.lifetime

/-! ### Notes of a face -/

theorem map_upsert {ρ κ : Type} [DecidableEq κ] (key : ρ → κ) {k : κ} {record : ρ}
    (hrecord : key record = k) (l : List ρ) :
    (upsert (fun r => key r = k) record l).map key =
      if k ∈ l.map key then l.map key else l.map key ++ [k] := by
  induction l with
  | nil => simp [upsert, hrecord]
  | cons r rest ih =>
      by_cases same : key r = k
      · simp [upsert, same, hrecord]
      · simp only [upsert, same, decide_false, Bool.false_eq_true, ↓reduceIte, List.map_cons, ih,
          List.mem_cons, Ne.symm same, false_or]
        split <;> simp

/-- A note of a key takes the place of the one note of this key that there was. -/
theorem mem_upsert {ρ κ : Type} [DecidableEq κ] {key : ρ → κ} {k : κ} {record : ρ} {l : List ρ}
    (hnodup : (l.map key).Nodup) {r : ρ} :
    r ∈ upsert (fun r => key r = k) record l ↔ r = record ∨ r ∈ l ∧ key r ≠ k := by
  induction l with
  | nil => simp [upsert]
  | cons first rest ih =>
      rw [List.map_cons, List.nodup_cons] at hnodup
      have hrest := ih hnodup.2
      by_cases same : key first = k
      · have hlater : ∀ r ∈ rest, key r ≠ k := by
          intro r hr hkey
          exact hnodup.1 (same.trans hkey.symm ▸ List.mem_map_of_mem hr)
        simp only [upsert, same, decide_true, ↓reduceIte, List.mem_cons]
        grind
      · simp only [upsert, same, decide_false, Bool.false_eq_true, ↓reduceIte, List.mem_cons, hrest]
        grind

theorem inFaces_recordIn (e : PitEntry) (ingress : FaceEndpoint) (interest : Interest)
    (now : Timestamp) : (e.recordIn ingress interest now).inFaces =
      if ingress.face ∈ e.inFaces then e.inFaces else e.inFaces ++ [ingress.face] := by
  simp only [inFaces, recordIn]
  exact map_upsert InRecord.face (k := ingress.face) rfl e.inRecords

theorem outFaces_recordOut (e : PitEntry) (egress : FaceEndpoint) (interest : Interest)
    (now : Timestamp) : (e.recordOut egress interest now).outFaces =
      if egress.face ∈ e.outFaces then e.outFaces else e.outFaces ++ [egress.face] := by
  simp only [outFaces, recordOut]
  exact map_upsert OutRecord.face (k := egress.face) rfl e.outRecords

theorem map_eraseP {ρ κ : Type} [DecidableEq κ] (key : ρ → κ) (k : κ) (l : List ρ) :
    (l.eraseP fun r => key r = k).map key = (l.map key).erase k := by
  induction l with
  | nil => rfl
  | cons r rest ih =>
      by_cases same : key r = k
      · simp [same]
      · simp [same, ih]

theorem inFaces_deleteIn (e : PitEntry) (face : FaceId) :
    (e.deleteIn face).inFaces = e.inFaces.erase face :=
  map_eraseP InRecord.face face e.inRecords

theorem outFaces_deleteOut (e : PitEntry) (face : FaceId) :
    (e.deleteOut face).outFaces = e.outFaces.erase face :=
  map_eraseP OutRecord.face face e.outRecords

theorem outFaces_recordNack (e : PitEntry) (face : FaceId) (reason : NackReason) :
    (e.recordNack face reason).outFaces = e.outFaces := by
  simp only [outFaces, recordNack, List.map_map]
  apply List.map_congr_left
  intro r _
  simp only [Function.comp_apply]
  split <;> rfl

theorem mem_inFaces {e : PitEntry} {face : FaceId} :
    face ∈ e.inFaces ↔ ∃ r ∈ e.inRecords, r.face = face := by
  simp [inFaces]

theorem mem_outFaces {e : PitEntry} {face : FaceId} :
    face ∈ e.outFaces ↔ ∃ r ∈ e.outRecords, r.face = face := by
  simp [outFaces]

theorem inRecord?_isSome {e : PitEntry} {face : FaceId} :
    (e.inRecord? face).isSome ↔ face ∈ e.inFaces := by
  simp [inRecord?, mem_inFaces]

/-- An Interest that comes in takes the place of the earlier one from its face. -/
theorem mem_inRecords_recordIn {e : PitEntry} (h : e.inFaces.Nodup) {ingress : FaceEndpoint}
    {interest : Interest} {now : Timestamp} {r : InRecord} :
    r ∈ (e.recordIn ingress interest now).inRecords ↔
      r = inRecordOf ingress interest now ∨ r ∈ e.inRecords ∧ r.face ≠ ingress.face :=
  mem_upsert h

/-- An Interest that is sent takes the place of the earlier one to its face. -/
theorem mem_outRecords_recordOut {e : PitEntry} (h : e.outFaces.Nodup) {egress : FaceEndpoint}
    {interest : Interest} {now : Timestamp} {r : OutRecord} :
    r ∈ (e.recordOut egress interest now).outRecords ↔
      r = outRecordOf egress interest now ∨ r ∈ e.outRecords ∧ r.face ≠ egress.face :=
  mem_upsert h

theorem outRecordOf_mem_recordOut {e : PitEntry} (h : e.outFaces.Nodup) (egress : FaceEndpoint)
    (interest : Interest) (now : Timestamp) :
    outRecordOf egress interest now ∈ (e.recordOut egress interest now).outRecords :=
  (mem_outRecords_recordOut h).mpr (.inl rfl)

/-! ### Records that go away -/

/-- The second entry names no face that the first does not name on the same side, and names it no
more often. -/
structure Shrinks (e e' : PitEntry) : Prop where
  inFaces : e'.inFaces.Sublist e.inFaces
  outFaces : e'.outFaces.Sublist e.outFaces

theorem Shrinks.refl (e : PitEntry) : e.Shrinks e :=
  ⟨List.Sublist.refl _, List.Sublist.refl _⟩

theorem shrinks_deleteIn (e : PitEntry) (face : FaceId) : e.Shrinks (e.deleteIn face) where
  inFaces := by
    rw [inFaces_deleteIn]
    exact List.erase_sublist
  outFaces := List.Sublist.refl _

theorem shrinks_deleteOut (e : PitEntry) (face : FaceId) : e.Shrinks (e.deleteOut face) where
  inFaces := List.Sublist.refl _
  outFaces := by
    rw [outFaces_deleteOut]
    exact List.erase_sublist

theorem shrinks_clearIn (e : PitEntry) : e.Shrinks e.clearIn where
  inFaces := List.nil_sublist _
  outFaces := List.Sublist.refl _

theorem shrinks_recordNack (e : PitEntry) (face : FaceId) (reason : NackReason) :
    e.Shrinks (e.recordNack face reason) where
  inFaces := List.Sublist.refl _
  outFaces := by
    rw [outFaces_recordNack]

theorem shrinks_forgetFace (e : PitEntry) (face : FaceId) : e.Shrinks (e.forgetFace face) where
  inFaces := List.filter_sublist.map _
  outFaces := List.filter_sublist.map _

/-! ### Distinct faces -/

theorem nodup_upserted {faces : List FaceId} (h : faces.Nodup) (face : FaceId) :
    (if face ∈ faces then faces else faces ++ [face]).Nodup := by
  split
  · exact h
  next hnew => exact List.nodup_append'.mpr ⟨h, List.nodup_singleton face, by simpa using hnew⟩

theorem Distinct.recordIn {e : PitEntry} (h : e.Distinct) (ingress : FaceEndpoint)
    (interest : Interest) (now : Timestamp) : (e.recordIn ingress interest now).Distinct where
  inFaces := by
    rw [inFaces_recordIn]
    exact nodup_upserted h.inFaces ingress.face
  outFaces := h.outFaces

theorem Distinct.recordOut {e : PitEntry} (h : e.Distinct) (egress : FaceEndpoint)
    (interest : Interest) (now : Timestamp) : (e.recordOut egress interest now).Distinct where
  inFaces := h.inFaces
  outFaces := by
    rw [outFaces_recordOut]
    exact nodup_upserted h.outFaces egress.face

theorem Distinct.of_shrinks {e e' : PitEntry} (h : e.Distinct) (hs : e.Shrinks e') :
    e'.Distinct where
  inFaces := h.inFaces.sublist hs.inFaces
  outFaces := h.outFaces.sublist hs.outFaces

/-! ### Known faces -/

theorem forall_upserted {faces : List FaceId} {known : FaceId → Prop}
    (h : ∀ face ∈ faces, known face) {new : FaceId} (hnew : known new) :
    ∀ face ∈ (if new ∈ faces then faces else faces ++ [new]), known face := by
  intro face member
  split at member
  · exact h face member
  · rcases List.mem_append.mp member with old | last
    · exact h face old
    · rw [List.mem_singleton.mp last]
      exact hnew

theorem Within.of_shrinks {e e' : PitEntry} {known : FaceId → Prop} (h : e.Within known)
    (hs : e.Shrinks e') : e'.Within known where
  inFaces face member := h.inFaces face (hs.inFaces.subset member)
  outFaces face member := h.outFaces face (hs.outFaces.subset member)

theorem shrinks_of_records {e e' : PitEntry} (hin : e'.inRecords = e.inRecords)
    (hout : e'.outRecords = e.outRecords) : e.Shrinks e' where
  inFaces := by
    rw [inFaces, hin]
    exact List.Sublist.refl _
  outFaces := by
    rw [outFaces, hout]
    exact List.Sublist.refl _

variable {known : FaceId → Prop}

theorem Within.recordIn {e : PitEntry} (h : e.Within known) {ingress : FaceEndpoint}
    (hingress : known ingress.face) (interest : Interest) (now : Timestamp) :
    (e.recordIn ingress interest now).Within known where
  inFaces := by
    rw [inFaces_recordIn]
    exact forall_upserted h.inFaces hingress
  outFaces := h.outFaces

theorem Within.recordOut {e : PitEntry} (h : e.Within known) {egress : FaceEndpoint}
    (hegress : known egress.face) (interest : Interest) (now : Timestamp) :
    (e.recordOut egress interest now).Within known where
  inFaces := h.inFaces
  outFaces := by
    rw [outFaces_recordOut]
    exact forall_upserted h.outFaces hegress

theorem within_forgetFace {e : PitEntry} {face : FaceId}
    (h : e.Within fun g => known g ∨ g = face) : (e.forgetFace face).Within known where
  inFaces := by
    intro g member
    obtain ⟨r, hr, rfl⟩ := mem_inFaces.mp member
    obtain ⟨hrecord, hother⟩ := List.mem_filter.mp hr
    have hne : ¬ r.face = face := by simpa using hother
    exact (h.inFaces r.face (mem_inFaces.mpr ⟨r, hrecord, rfl⟩)).resolve_right hne
  outFaces := by
    intro g member
    obtain ⟨r, hr, rfl⟩ := mem_outFaces.mp member
    obtain ⟨hrecord, hother⟩ := List.mem_filter.mp hr
    exact (h.outFaces r.face (mem_outFaces.mpr ⟨r, hrecord, rfl⟩)).resolve_right
      (by simpa using hother)

end PitEntry

end NamedData
