import Mathlib.Data.List.Nodup
import NamedData.Proofs.Arena
import NamedData.Proofs.NameTree
import NamedData.Tables.Basic

/-!
The pending Interests as the tables find them. Every name lists the tokens of its pending entries,
each once and no other, whatever is inserted, ended or registered; with that, the entries looked at
for Data are all that it can answer.
-/

namespace NamedData

theorem nodup_inits {α : Type} (l : List α) : l.inits.Nodup := by
  induction l with
  | nil => simp
  | cons a rest ih =>
      rw [List.inits_cons, List.nodup_cons]
      constructor
      · simp
      · exact List.Nodup.map List.cons_injective ih

namespace Interest

variable {i j k : Interest}

theorem sameSelectors_iff : i.sameSelectors j = true ↔
    i.name = j.name ∧ i.canBePrefix = j.canBePrefix ∧ i.mustBeFresh = j.mustBeFresh := by
  simp [sameSelectors, and_assoc]

theorem sameSelectors_comm (i j : Interest) : i.sameSelectors j = j.sameSelectors i := by
  rw [Bool.eq_iff_iff, sameSelectors_iff, sameSelectors_iff]
  grind

theorem sameSelectors_trans (h : i.sameSelectors j = true) (h' : j.sameSelectors k = true) :
    i.sameSelectors k = true := by
  rw [sameSelectors_iff] at *
  grind

end Interest

namespace Tables

/-- Every name lists exactly the tokens of its pending entries. -/
structure Indexed (t : Tables) : Prop where
  ordered : t.tree.Ordered
  listed : ∀ n token, token ∈ (t.recordAt n).pending ↔
    ∃ e, t.pit.get? token = some e ∧ e.name = n
  nodup : ∀ n, (t.recordAt n).pending.Nodup

/-! ### What keeps the lists -/

theorem recordAt_change {t : Tables} (h : t.tree.Ordered) (n : Name) (f : NameRecord → NameRecord)
    (m : Name) : (t.change n f).recordAt m = if m = n then f (t.recordAt n) else t.recordAt m :=
  NameTree.get_alter h n f m

@[simp] theorem recordAt_withPit (t : Tables) (pit : Arena PitEntry) (n : Name) :
    Tables.recordAt { t with pit } n = t.recordAt n := rfl

/-- New tables have no entries. -/
@[simp] theorem get?_new (strategy : Nat) (token : PitToken) :
    (new strategy).pit.get? token = none := rfl

theorem indexed_new (strategy : Nat) : (new strategy).Indexed where
  ordered := NameTree.ordered_root _
  listed n token := by
    have hpending : ((new strategy).recordAt n).pending = [] := by
      cases n with
      | nil => rfl
      | cons _ _ => rfl
    simp [hpending]
  nodup n := by
    cases n with
    | nil => exact List.nodup_nil
    | cons _ _ => exact List.nodup_nil

theorem recordAt_forgetNextHop {t : Tables} (h : t.tree.Ordered) (face : FaceId) (n : Name) :
    (t.forgetNextHop face).recordAt n = { t.recordAt n with
      nextHops := (t.recordAt n).nextHops.filter fun hop => hop.face ≠ face } := by
  let forget (r : NameRecord) : NameRecord :=
    { r with nextHops := r.nextHops.filter fun hop => hop.face ≠ face }
  have hblank : forget Blank.blank = Blank.blank := rfl
  exact NameTree.get_mapValues h hblank n

/-- Tables with the same lists and the same names of entries. -/
theorem Indexed.congr {t t' : Tables} (h : t.Indexed) (hordered : t'.tree.Ordered)
    (hpending : ∀ n, (t'.recordAt n).pending = (t.recordAt n).pending)
    (hname : ∀ token, (t'.pit.get? token).map PitEntry.name =
      (t.pit.get? token).map PitEntry.name) : t'.Indexed where
  ordered := hordered
  listed n token := by
    have hmap (o : Option PitEntry) : (∃ e, o = some e ∧ e.name = n) ↔
        o.map PitEntry.name = some n := by
      cases o <;> simp
    rw [hpending, h.listed, hmap, hmap, hname]
  nodup n := by
    rw [hpending]
    exact h.nodup n

theorem Indexed.change {t : Tables} (h : t.Indexed) (stem : Name) {f : NameRecord → NameRecord}
    (hf : ∀ r, (f r).pending = r.pending) : (t.change stem f).Indexed := by
  apply h.congr
  · exact NameTree.ordered_alter h.ordered stem f
  · intro n
    rw [recordAt_change h.ordered]
    split
    next same => rw [hf, same]
    next => rfl
  · intro token
    rfl

theorem Indexed.forgetNextHop {t : Tables} (h : t.Indexed) (face : FaceId) :
    (t.forgetNextHop face).Indexed := by
  apply h.congr
  · exact NameTree.ordered_mapValues h.ordered _
  · intro n
    rw [recordAt_forgetNextHop h.ordered]
  · intro token
    rfl

/-- A new entry is listed at its name. -/
theorem Indexed.insert {t : Tables} (h : t.Indexed) {e : PitEntry} {token : PitToken}
    {pit : Arena PitEntry} (hinsert : t.pit.insert e = .ok (token, pit)) :
    (Tables.change { t with pit } e.name fun r =>
      { r with pending := r.pending ++ [token] }).Indexed where
  ordered := NameTree.ordered_alter h.ordered _ _
  listed n u := by
    have hget : ∀ u, pit.get? u = if u = token then some e else t.pit.get? u :=
      Arena.get?_insert hinsert
    have hfresh : t.pit.get? token = none := Arena.get?_of_insert hinsert
    have hlisted : u ∈ (t.recordAt n).pending ↔ ∃ e, t.pit.get? u = some e ∧ e.name = n :=
      h.listed n u
    rw [recordAt_change (t := { t with pit }) h.ordered]
    change u ∈ (if n = e.name then _ else _ : NameRecord).pending ↔
      ∃ e', pit.get? u = some e' ∧ e'.name = n
    rw [hget]
    by_cases hu : u = token
    · subst hu
      have hnot : u ∉ (t.recordAt n).pending := by
        rw [hlisted, hfresh]
        simp
      split
      next same => simp [same]
      next hne => simpa [Ne.symm hne] using hnot
    · rw [if_neg hu, ← hlisted]
      split
      next same =>
        subst same
        simp [recordAt, hu]
      next => rfl
  nodup n := by
    have hfresh : t.pit.get? token = none := Arena.get?_of_insert hinsert
    rw [recordAt_change (t := { t with pit }) h.ordered]
    split
    · have hnot : token ∉ (t.recordAt e.name).pending := by
        rw [h.listed, hfresh]
        simp
      exact List.nodup_append'.mpr ⟨h.nodup e.name, List.nodup_singleton token, by simpa using hnot⟩
    · exact h.nodup n

theorem erase_eq_some {t t' : Tables} {token : PitToken} {e : PitEntry} :
    t.erase token = some (e, t') ↔ ∃ pit, t.pit.remove token = some (e, pit) ∧
      t' = Tables.change { t with pit } e.name fun r =>
        { r with pending := r.pending.filter (· ≠ token) } := by
  rw [erase]
  cases t.pit.remove token with
  | none => simp
  | some removed =>
      constructor
      · intro h
        cases h
        exact ⟨removed.2, rfl, rfl⟩
      · rintro ⟨pit, hremove, rfl⟩
        cases hremove
        rfl

theorem get?_of_erase {t t' : Tables} {token : PitToken} {e : PitEntry}
    (h : t.erase token = some (e, t')) (u : PitToken) :
    t'.pit.get? u = if u = token then none else t.pit.get? u := by
  obtain ⟨pit, hremove, rfl⟩ := erase_eq_some.mp h
  exact Arena.get?_remove hremove u

/-- An entry that ends is listed no more. -/
theorem Indexed.erase {t t' : Tables} (h : t.Indexed) {token : PitToken} {e : PitEntry}
    (herase : t.erase token = some (e, t')) : t'.Indexed := by
  obtain ⟨pit, hremove, rfl⟩ := erase_eq_some.mp herase
  have hget : t.pit.get? token = some e := Arena.get?_of_remove hremove
  have hpit : ∀ u, pit.get? u = if u = token then none else t.pit.get? u :=
    Arena.get?_remove hremove
  have hrecord (n : Name) : (Tables.change { t with pit } e.name fun r =>
      { r with pending := r.pending.filter (· ≠ token) }).recordAt n =
      if n = e.name then { t.recordAt e.name with
        pending := (t.recordAt e.name).pending.filter (· ≠ token) } else t.recordAt n :=
    recordAt_change (t := { t with pit }) h.ordered e.name _ n
  constructor
  · exact NameTree.ordered_alter h.ordered _ _
  · intro n u
    have hlisted : u ∈ (t.recordAt n).pending ↔ ∃ e, t.pit.get? u = some e ∧ e.name = n :=
      h.listed n u
    rw [hrecord]
    change _ ↔ ∃ e', pit.get? u = some e' ∧ e'.name = n
    rw [hpit]
    by_cases hu : u = token
    · subst hu
      split
      next same => simp
      next hne =>
        rw [hlisted, hget]
        simp [Ne.symm hne]
    · rw [if_neg hu, ← hlisted]
      split
      next same =>
        subst same
        simp [hu]
      next => rfl
  · intro n
    rw [hrecord]
    split
    · exact (h.nodup e.name).filter _
    · exact h.nodup n

/-! ### Finding the entry of an Interest -/

/-- The entry of a token asks for the same as the Interest. -/
def Awaits (t : Tables) (i : Interest) (token : PitToken) : Prop :=
  ∃ e, t.pit.get? token = some e ∧ e.interest.sameSelectors i = true

/-- No two entries ask for the same. -/
def Distinguished (t : Tables) : Prop :=
  ∀ u v e e', t.pit.get? u = some e → t.pit.get? v = some e' →
    e.interest.sameSelectors e'.interest = true → u = v

theorem firstAsking_eq_some {t : Tables} {i : Interest} {tokens : List PitToken} {token : PitToken}
    (h : t.firstAsking i tokens = .ok (some token)) :
    token ∈ tokens ∧ ∃ e, t.pit.get? token = some e ∧ e.interest.sameSelectors i = true := by
  induction tokens with
  | nil => simp [firstAsking] at h
  | cons first rest ih =>
      rw [firstAsking] at h
      obtain ⟨e, hget, hrest⟩ := bind_eq_ok.mp h
      split at hrest
      next hsame =>
        cases hrest
        exact ⟨List.mem_cons_self, e, Arena.get_eq_ok.mp hget, hsame⟩
      next =>
        obtain ⟨member, hentry⟩ := ih hrest
        exact ⟨List.mem_cons_of_mem _ member, hentry⟩

theorem findPending_eq_some {t : Tables} {i : Interest} {token : PitToken}
    (h : t.findPending i = .ok (some token)) :
    ∃ e, t.pit.get? token = some e ∧ e.interest.sameSelectors i = true :=
  (firstAsking_eq_some h).2

theorem firstAsking_ok {t : Tables} (i : Interest) {tokens : List PitToken}
    (h : ∀ token ∈ tokens, ∃ e, t.pit.get? token = some e) :
    ∃ found, t.firstAsking i tokens = .ok found ∧ (found = none → ∀ token ∈ tokens, ∀ e,
      t.pit.get? token = some e → e.interest.sameSelectors i = false) := by
  induction tokens with
  | nil => exact ⟨none, rfl, by simp⟩
  | cons first rest ih =>
      obtain ⟨e, hget⟩ := h first List.mem_cons_self
      have hentry := Arena.get_eq_ok.mpr hget
      cases hsame : e.interest.sameSelectors i with
      | true =>
          refine ⟨some first, ?_, by simp⟩
          rw [firstAsking]
          exact bind_eq_ok.mpr ⟨e, hentry, by rw [if_pos hsame]⟩
      | false =>
          obtain ⟨found, hfound, hnone⟩ := ih fun token ht => h token (List.mem_cons_of_mem _ ht)
          refine ⟨found, ?_, ?_⟩
          · rw [firstAsking]
            exact bind_eq_ok.mpr ⟨e, hentry, by rw [hsame]; exact hfound⟩
          · intro hempty token member e' hget'
            rcases List.mem_cons.mp member with rfl | later
            · rw [hget, Option.some.injEq] at hget'
              exact hget' ▸ hsame
            · exact hnone hempty token later e' hget'

/-- The entry for an Interest is found if there is one. -/
theorem Indexed.findPending_ok {t : Tables} (h : t.Indexed) (i : Interest) :
    ∃ found, t.findPending i = .ok found ∧ (found = none → ∀ token e,
      t.pit.get? token = some e → e.interest.sameSelectors i = false) := by
  have hlive : ∀ token ∈ (t.recordAt i.name).pending, ∃ e, t.pit.get? token = some e := by
    intro token member
    obtain ⟨e, hget, _⟩ := (h.listed i.name token).mp member
    exact ⟨e, hget⟩
  obtain ⟨found, hfound, hnone⟩ := firstAsking_ok i hlive
  refine ⟨found, hfound, ?_⟩
  intro hempty token e hget
  by_cases hname : e.name = i.name
  · exact hnone hempty token ((h.listed i.name token).mpr ⟨e, hget, hname⟩) e hget
  · have hdiffers : e.interest.name ≠ i.name := hname
    simp [Interest.sameSelectors, hdiffers]

/-- An Interest has one entry at most. -/
theorem Distinguished.awaits_unique {t : Tables} (h : t.Distinguished) {i : Interest}
    {token other : PitToken} (hfirst : t.Awaits i token) (hsecond : t.Awaits i other) :
    token = other := by
  obtain ⟨e, hget, hsame⟩ := hfirst
  obtain ⟨e', hget', hsame'⟩ := hsecond
  rw [Interest.sameSelectors_comm] at hsame'
  exact h token other e e' hget hget' (Interest.sameSelectors_trans hsame hsame')

/-- What is found for an Interest is the token of the entry that asks for the same. -/
theorem Indexed.findPending_iff {t : Tables} (h : t.Indexed) (hdistinct : t.Distinguished)
    (i : Interest) : ∃ found, t.findPending i = .ok found ∧
      ∀ token, found = some token ↔ t.Awaits i token := by
  obtain ⟨found, hfound, hnone⟩ := h.findPending_ok i
  refine ⟨found, hfound, fun token => ⟨?_, ?_⟩⟩
  · rintro rfl
    exact findPending_eq_some hfound
  · intro hawaits
    cases found with
    | none =>
        obtain ⟨e, hget, hsame⟩ := hawaits
        cases hsame.symm.trans (hnone rfl token e hget)
    | some other => rw [hdistinct.awaits_unique (findPending_eq_some hfound) hawaits]

/-- What is found for an Interest depends on the entries alone. -/
theorem Indexed.findPending_eq {t : Tables} (h : t.Indexed) (hdistinct : t.Distinguished)
    {i : Interest} {found : Option PitToken}
    (hfound : ∀ token, found = some token ↔ t.Awaits i token) : t.findPending i = .ok found := by
  obtain ⟨found', hfind, hawaits⟩ := h.findPending_iff hdistinct i
  rw [hfind, Option.ext fun token => (hawaits token).trans (hfound token).symm]

/-- Entries that each come from one with the same Interest ask for different things. -/
theorem Distinguished.of_old {t t' : Tables} (h : t.Distinguished)
    (hold : ∀ u e', t'.pit.get? u = some e' →
      ∃ e, t.pit.get? u = some e ∧ e.interest = e'.interest) : t'.Distinguished := by
  intro u v e e' hu hv hsame
  obtain ⟨old, hget, hinterest⟩ := hold u e hu
  obtain ⟨old', hget', hinterest'⟩ := hold v e' hv
  exact h u v old old' hget hget' (hinterest ▸ hinterest' ▸ hsame)

theorem Distinguished.of_gone {t t' : Tables} (h : t.Distinguished) {token : PitToken}
    (hpit : ∀ u, t'.pit.get? u = if u = token then none else t.pit.get? u) :
    t'.Distinguished := by
  refine h.of_old fun u e' hget => ⟨e', ?_, rfl⟩
  rw [hpit] at hget
  split at hget
  · cases hget
  · exact hget

/-- A new entry that asks for what no other asks for. -/
theorem Distinguished.of_new {t t' : Tables} (h : t.Distinguished) {token : PitToken}
    {made : PitEntry} (hnone : ∀ u e, t.pit.get? u = some e →
      e.interest.sameSelectors made.interest = false)
    (hpit : ∀ u, t'.pit.get? u = if u = token then some made else t.pit.get? u) :
    t'.Distinguished := by
  have hold : ∀ u e, u ≠ token → t'.pit.get? u = some e → t.pit.get? u = some e := by
    intro u e hne hget
    rwa [hpit, if_neg hne] at hget
  have hnew : ∀ e, t'.pit.get? token = some e → made = e := by
    intro e hget
    rwa [hpit, if_pos rfl, Option.some.injEq] at hget
  intro u v e e' hu hv hsame
  by_cases hown : u = token <;> by_cases hown' : v = token
  · rw [hown, hown']
  · rw [← hnew e (hown ▸ hu), Interest.sameSelectors_comm] at hsame
    cases hsame.symm.trans (hnone v e' (hold v e' hown' hv))
  · rw [← hnew e' (hown' ▸ hv)] at hsame
    cases hsame.symm.trans (hnone u e (hold u e hown hu))
  · exact h u v e e' (hold u e hown hu) (hold v e' hown' hv) hsame

/-- No entry asks for the same as an Interest for which none is found. -/
theorem Indexed.none_of_findPending {t : Tables} (h : t.Indexed) {i : Interest}
    (hfind : t.findPending i = .ok none) :
    ∀ u e, t.pit.get? u = some e → e.interest.sameSelectors i = false := by
  obtain ⟨found, hfound, hnone⟩ := h.findPending_ok i
  exact hnone (Except.ok.inj (hfound.symm.trans hfind))

/-- The entry for an Interest was there, or none was there and it is a new one without records. -/
theorem findOrInsert_eq_ok {t t' : Tables} {i : Interest} {token : PitToken} {isNew : Bool}
    (h : t.findOrInsert i = .ok ((token, isNew), t')) :
    (isNew = false ∧ t' = t ∧ t.findPending i = .ok (some token)) ∨
      ∃ pit, isNew = true ∧ t.findPending i = .ok none ∧
        t.pit.insert { interest := i.untagged } = .ok (token, pit) ∧
        t' = Tables.change { t with pit } i.name fun r =>
          { r with pending := r.pending ++ [token] } := by
  rw [findOrInsert] at h
  obtain ⟨found, hfind, hrest⟩ := bind_eq_ok.mp h
  cases found with
  | some old =>
      cases hrest
      exact .inl ⟨rfl, rfl, hfind⟩
  | none =>
      obtain ⟨added, hinsert, hresult⟩ := bind_eq_ok.mp hrest
      cases hresult
      exact .inr ⟨added.2, rfl, hfind, hinsert, rfl⟩

theorem findOrInsert_cases {t t' : Tables} {i : Interest} {token : PitToken} {isNew : Bool}
    (h : t.findOrInsert i = .ok ((token, isNew), t')) :
    (t' = t ∧ t.findPending i = .ok (some token)) ∨
      ∃ pit, t.pit.insert { interest := i.untagged } = .ok (token, pit) ∧
        t' = Tables.change { t with pit } i.name fun r =>
          { r with pending := r.pending ++ [token] } := by
  rcases findOrInsert_eq_ok h with ⟨-, hfound⟩ | ⟨pit, -, -, hinsert, htables⟩
  · exact .inl hfound
  · exact .inr ⟨pit, hinsert, htables⟩

theorem get?_of_findOrInsert {t t' : Tables} {i : Interest} {token : PitToken} {isNew : Bool}
    (h : t.findOrInsert i = .ok ((token, isNew), t')) : ∃ e, t'.pit.get? token = some e := by
  rcases findOrInsert_cases h with ⟨rfl, hfind⟩ | ⟨pit, hinsert, rfl⟩
  · obtain ⟨e, hget, -⟩ := findPending_eq_some hfind
    exact ⟨e, hget⟩
  · exact ⟨_, (Arena.get?_insert hinsert token).trans (if_pos rfl)⟩

end Tables

end NamedData
