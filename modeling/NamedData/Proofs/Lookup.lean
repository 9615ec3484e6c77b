import NamedData.Proofs.Index

/-!
What the tables find by name: the next hops, which are those of a prefix, the strategy in effect,
which is always one that was chosen, and the pending entries that Data answers, which are all of
them, each once.
-/

namespace NamedData

namespace Tables

/-! ### Next hops -/

/-- The next hops of a name are those of the longest of its prefixes that has any. -/
theorem nextHops_eq_prefixes (t : Tables) (n : Name) :
    t.nextHops n = ((n.inits.map fun p => (t.recordAt p).nextHops).filter
      fun hops => !hops.isEmpty).getLast?.getD [] := by
  obtain ⟨missing, hmissing⟩ := t.tree.map_get_inits n
  have hprefixes : n.inits.map (fun p => (t.recordAt p).nextHops) =
      (t.tree.along n).map NameRecord.nextHops ++ List.replicate missing [] := by
    calc n.inits.map (fun p => (t.recordAt p).nextHops)
        = (n.inits.map t.tree.get).map NameRecord.nextHops := by
          rw [List.map_map]
          rfl
      _ = (t.tree.along n).map NameRecord.nextHops ++ List.replicate missing [] := by
          rw [hmissing, List.map_append, List.map_replicate]
          rfl
  rw [nextHops, hprefixes, List.filter_append]
  simp

/-- The next hops of names are those of their prefixes. -/
theorem nextHops_congr {t t' : Tables}
    (h : ∀ n, (t'.recordAt n).nextHops = (t.recordAt n).nextHops) : t'.nextHops = t.nextHops := by
  funext n
  simp only [nextHops_eq_prefixes, h]

theorem nextHops_change {t : Tables} (h : t.tree.Ordered) (stem : Name)
    {f : NameRecord → NameRecord} (hf : ∀ r, (f r).nextHops = r.nextHops) (n : Name) :
    ((t.change stem f).recordAt n).nextHops = (t.recordAt n).nextHops := by
  rw [recordAt_change h]
  split
  next same => rw [hf, same]
  next => rfl

/-- A new entry changes no next hops. -/
theorem nextHops_findOrInsert {t t' : Tables} (h : t.Indexed) {i : Interest}
    {token : PitToken} {isNew : Bool} (hfound : t.findOrInsert i = .ok ((token, isNew), t')) :
    t'.nextHops = t.nextHops := by
  rcases findOrInsert_cases hfound with ⟨rfl, _⟩ | ⟨pit, _, rfl⟩
  · rfl
  · exact nextHops_congr (nextHops_change (t := { t with pit }) h.ordered i.name fun _ => rfl)

/-! ### Strategies -/

/-- Taking back a choice changes one name at most. -/
theorem unsetStrategy_cases (t : Tables) (stem : Name) : (t.unsetStrategy stem).2 = t ∨
    (t.unsetStrategy stem).2 = t.change stem fun r => { r with strategy? := none } := by
  rw [unsetStrategy]
  split
  · exact .inl rfl
  · exact .inr rfl

/-- Every chosen strategy has a number below the given one. -/
def Registered (t : Tables) (count : Nat) : Prop :=
  ∀ n id, (t.recordAt n).strategy? = some id → id < count

theorem registered_new {count : Nat} (h : 0 < count) : (new 0).Registered count := by
  intro n id hid
  cases n with
  | nil =>
      have hzero : some 0 = some id := hid
      cases hzero
      exact h
  | cons _ _ =>
      have hnone : (none : Option Nat) = some id := hid
      cases hnone

theorem Registered.mono {t : Tables} {count more : Nat} (h : t.Registered count)
    (hle : count ≤ more) : t.Registered more := by
  intro n id hid
  exact Nat.lt_of_lt_of_le (h n id hid) hle

theorem Registered.congr {t t' : Tables} {count : Nat} (h : t.Registered count)
    (hsame : t'.tree = t.tree) : t'.Registered count := by
  intro n id hid
  rw [recordAt, hsame] at hid
  exact h n id hid

/-- A change that chooses registered strategies only. -/
theorem Registered.change {t : Tables} {count : Nat} (h : t.Registered count)
    (hordered : t.tree.Ordered) (stem : Name) {f : NameRecord → NameRecord}
    (hf : ∀ r id, (f r).strategy? = some id → r.strategy? = some id ∨ id < count) :
    (t.change stem f).Registered count := by
  intro n id hid
  rw [recordAt_change hordered] at hid
  split at hid
  · rcases hf _ id hid with hold | hlt
    · exact h stem id hold
    · exact hlt
  · exact h n id hid

theorem Registered.forgetNextHop {t : Tables} {count : Nat} (h : t.Registered count)
    (hordered : t.tree.Ordered) (face : FaceId) : (t.forgetNextHop face).Registered count := by
  intro n id hid
  rw [recordAt_forgetNextHop hordered] at hid
  exact h n id hid

/-- The strategy in effect at a name is that of the longest of its prefixes that has one. -/
theorem effectiveStrategy_eq_prefixes (t : Tables) (n : Name) : t.effectiveStrategy n =
    (n.inits.filterMap fun p => (t.recordAt p).strategy?).getLast?.getD 0 := by
  obtain ⟨missing, hmissing⟩ := t.tree.map_get_inits n
  have hprefixes : n.inits.filterMap (fun p => (t.recordAt p).strategy?) =
      (t.tree.along n).filterMap NameRecord.strategy? := by
    calc n.inits.filterMap (fun p => (t.recordAt p).strategy?)
        = (n.inits.map t.tree.get).filterMap NameRecord.strategy? := by
          rw [List.filterMap_map]
          rfl
      _ = (t.tree.along n).filterMap NameRecord.strategy? := by
          rw [hmissing, List.filterMap_append, List.filterMap_replicate_of_none rfl,
            List.append_nil]
  rw [effectiveStrategy, hprefixes]

/-- The strategies in effect at names are those of their prefixes. -/
theorem effectiveStrategy_congr {t t' : Tables}
    (h : ∀ n, (t'.recordAt n).strategy? = (t.recordAt n).strategy?) :
    t'.effectiveStrategy = t.effectiveStrategy := by
  funext n
  simp only [effectiveStrategy_eq_prefixes, h]

/-- A new entry changes no strategy. -/
theorem effectiveStrategy_findOrInsert {t t' : Tables} (h : t.Indexed) {i : Interest}
    {token : PitToken} {isNew : Bool} (hfound : t.findOrInsert i = .ok ((token, isNew), t')) :
    t'.effectiveStrategy = t.effectiveStrategy := by
  rcases findOrInsert_cases hfound with ⟨rfl, _⟩ | ⟨pit, _, rfl⟩
  · rfl
  · refine effectiveStrategy_congr fun n => ?_
    rw [recordAt_change (t := { t with pit }) h.ordered]
    split
    next same => rw [same]; rfl
    next => rfl

/-- One more component gives the strategy there, if any. -/
theorem effectiveStrategy_concat (t : Tables) (n : Name) (c : Component) :
    t.effectiveStrategy (n ++ [c]) =
      (t.recordAt (n ++ [c])).strategy?.getD (t.effectiveStrategy n) := by
  rw [effectiveStrategy_eq_prefixes, effectiveStrategy_eq_prefixes, List.inits_append]
  cases hchosen : (t.recordAt (n ++ [c])).strategy? <;> simp [hchosen, List.filterMap_append]

/-- A name that has a strategy of its own has no other in effect. -/
theorem getD_effectiveStrategy (t : Tables) (n : Name) :
    (t.recordAt n).strategy?.getD (t.effectiveStrategy n) = t.effectiveStrategy n := by
  cases n using List.reverseRecOn with
  | nil =>
      rw [effectiveStrategy_eq_prefixes]
      cases hchosen : (t.recordAt []).strategy? <;> simp [hchosen]
  | append_singleton n c =>
      rw [effectiveStrategy_concat]
      cases (t.recordAt (n ++ [c])).strategy? <;> rfl

/-- The strategy in effect is registered if the one at the root is. -/
theorem effectiveStrategy_lt {t : Tables} {count : Nat} (h : t.Registered count) (hpos : 0 < count)
    (n : Name) : t.effectiveStrategy n < count := by
  rw [effectiveStrategy_eq_prefixes]
  cases hlast : (n.inits.filterMap fun p => (t.recordAt p).strategy?).getLast? with
  | none => exact hpos
  | some id =>
      obtain ⟨p, _, hid⟩ := List.mem_filterMap.mp (List.mem_of_getLast? hlast)
      exact h p id hid

/-! ### Entries that Data answers -/

/-- The names at which the tables look for entries that Data of the given name answers. -/
def candidateNames (t : Tables) (n : Name) : List Name :=
  n.inits ++ match t.tree.subtree? n with
    | some s => (s.below.heads.filter fun h => h.1.isImplicitDigest).map fun h => n ++ [h.1]
    | none => []

theorem labels_nodup {b : Branches NameRecord} (h : b.Ordered) :
    (b.heads.map Prod.fst).Nodup := by
  induction b with
  | nil => exact List.nodup_nil
  | cons label value below after _ ih =>
      obtain ⟨hlabel, _, hafter⟩ := h
      rw [Branches.heads, List.map_cons, List.nodup_cons]
      constructor
      · intro member
        obtain ⟨head, hhead, same⟩ := List.mem_map.mp member
        exact Component.ne_of_before (hlabel head hhead) same.symm
      · exact ih hafter

theorem candidateNames_nodup {t : Tables} (h : t.Indexed) (n : Name) :
    (t.candidateNames n).Nodup := by
  rw [candidateNames]
  apply List.nodup_append'.mpr
  refine ⟨nodup_inits n, ?_, ?_⟩
  · cases hsub : t.tree.subtree? n with
    | none => exact List.nodup_nil
    | some s =>
        have hlabels := labels_nodup (NameTree.ordered_of_subtree? h.ordered hsub)
        have hchosen : ((s.below.heads.filter fun h => h.1.isImplicitDigest).map Prod.fst).Nodup :=
          hlabels.sublist (List.filter_sublist.map _)
        have hinjective : Function.Injective fun c : Component => n ++ [c] := by
          intro c d same
          simpa using same
        have hnames := hchosen.map hinjective
        rwa [List.map_map] at hnames
  · intro m hinit hbelow
    have hle : m.length ≤ n.length := ((List.mem_inits m n).mp hinit).length_le
    cases hsub : t.tree.subtree? n with
    | none => simp [hsub] at hbelow
    | some s =>
        simp only [hsub, List.mem_map] at hbelow
        obtain ⟨head, _, rfl⟩ := hbelow
        rw [List.length_append, List.length_singleton] at hle
        omega

/-- The tokens looked at are those listed at the names looked at. -/
theorem candidates_eq {t : Tables} (h : t.Indexed) (n : Name) :
    t.candidates n = (t.candidateNames n).flatMap fun m => (t.recordAt m).pending := by
  have hup : (t.tree.along n).flatMap NameRecord.pending =
      n.inits.flatMap fun m => (t.recordAt m).pending :=
    NameTree.flatMap_along (g := NameRecord.pending) rfl t.tree n
  rw [candidates, candidateNames, List.flatMap_append, hup]
  cases hsub : t.tree.subtree? n with
  | none => rfl
  | some s =>
      have hbelow : ∀ head ∈ s.below.heads.filter fun h => h.1.isImplicitDigest,
          head.2.pending = (t.recordAt (n ++ [head.1])).pending := by
        intro head member
        have hget := NameTree.get_of_mem_heads h.ordered hsub (List.mem_filter.mp member).1
        rw [recordAt, hget]
      simp only [List.flatMap_map]
      rw [List.flatMap_congr hbelow]

theorem mem_candidates {t : Tables} (h : t.Indexed) {n : Name} {token : PitToken} :
    token ∈ t.candidates n ↔ ∃ e, t.pit.get? token = some e ∧ e.name ∈ t.candidateNames n := by
  rw [candidates_eq h, List.mem_flatMap]
  constructor
  · rintro ⟨m, hm, member⟩
    obtain ⟨e, hget, hname⟩ := (h.listed m token).mp member
    exact ⟨e, hget, hname ▸ hm⟩
  · rintro ⟨e, hget, hname⟩
    exact ⟨e.name, hname, (h.listed e.name token).mpr ⟨e, hget, rfl⟩⟩

theorem candidates_nodup {t : Tables} (h : t.Indexed) (n : Name) : (t.candidates n).Nodup := by
  rw [candidates_eq h]
  apply List.nodup_flatMap.mpr
  constructor
  · intro m _
    exact h.nodup m
  · apply (candidateNames_nodup h n).imp
    intro m m' hne token hm hm'
    obtain ⟨e, hget, hname⟩ := (h.listed m token).mp hm
    obtain ⟨e', hget', hname'⟩ := (h.listed m' token).mp hm'
    rw [hget, Option.some.injEq] at hget'
    exact hne (by rw [← hname, ← hname', hget'])

/-- An entry that names a digest right below the Data is among those looked at. -/
theorem name_mem_of_digest {t : Tables} (h : t.Indexed) {token : PitToken} {e : PitEntry}
    (hget : t.pit.get? token = some e) {n : Name} (hdigest : e.interest.namesDigestOf n = true) :
    e.name ∈ t.candidateNames n := by
  obtain ⟨c, hc, hadding⟩ := Interest.namesDigestOf_eq_true.mp hdigest
  have hname : e.name = n ++ [c] := hadding
  have hlisted : token ∈ (t.recordAt (n ++ [c])).pending :=
    (h.listed _ token).mpr ⟨e, hget, hname⟩
  have hblank : t.tree.get (n ++ [c]) ≠ Blank.blank := by
    intro hblank
    rw [recordAt, hblank] at hlisted
    cases hlisted
  obtain ⟨s, hsub, hhead⟩ := NameTree.mem_heads_of_get_ne_blank h.ordered hblank
  rw [candidateNames, List.mem_append, hsub, hname]
  exact .inr (List.mem_map.mpr ⟨_, List.mem_filter.mpr ⟨hhead, hc⟩, rfl⟩)

/-- Data answers no entry but those looked at. -/
theorem name_mem_of_answered {t : Tables} (h : t.Indexed) {token : PitToken} {e : PitEntry}
    (hget : t.pit.get? token = some e) {n : Name} {digest : Digest}
    (hanswer : e.interest.isAnsweredBy n digest = true) : e.name ∈ t.candidateNames n := by
  rw [Interest.isAnsweredBy] at hanswer
  split at hanswer
  next => exact name_mem_of_digest h hget ((Bool.and_eq_true _ _).mp hanswer).1
  next =>
    rw [candidateNames, List.mem_append, List.mem_inits]
    left
    split at hanswer
    · exact Name.begins_iff_prefix.mp hanswer
    · have hsame : e.interest.name = n := of_decide_eq_true hanswer
      exact hsame ▸ List.prefix_refl _

theorem withEntries_of_live {t : Tables} {tokens : List PitToken}
    (h : ∀ token ∈ tokens, ∃ e, t.pit.get? token = some e) :
    ∃ entries, t.withEntries tokens = .ok entries ∧ entries.map Prod.fst = tokens ∧
      ∀ p ∈ entries, t.pit.get? p.1 = some p.2 := by
  induction tokens with
  | nil => exact ⟨[], rfl, rfl, by simp⟩
  | cons token rest ih =>
      obtain ⟨e, hget⟩ := h token List.mem_cons_self
      obtain ⟨entries, hentries, hfst, hlive⟩ :=
        ih fun token member => h token (List.mem_cons_of_mem _ member)
      refine ⟨(token, e) :: entries, ?_, by rw [List.map_cons, hfst], ?_⟩
      · have hrest : rest.mapM (fun token => do Except.ok (token, ← t.pit.get token)) =
            .ok entries := hentries
        rw [withEntries, List.mapM_cons, Arena.get_eq_ok.mpr hget]
        simp only [bind, Except.bind, pure, Except.pure] at hrest ⊢
        rw [hrest]
      · intro p hp
        rcases List.mem_cons.mp hp with rfl | hlater
        · exact hget
        · exact hlive p hlater

/-- The tokens of the entries of some kind, each once and no other. -/
def Selects (t : Tables) (kind : PitEntry → Prop) (tokens : List PitToken) : Prop :=
  tokens.Nodup ∧ ∀ token, token ∈ tokens ↔ ∃ e, t.pit.get? token = some e ∧ kind e

/-- The entries looked at for a name can be read, and if all entries of some kind are looked at,
then those of this kind are all there are. -/
theorem withEntries_candidates {t : Tables} (h : t.Indexed) (n : Name) :
    ∃ entries, t.withEntries (t.candidates n) = .ok entries ∧ ∀ kind : PitEntry → Bool,
      (∀ token e, t.pit.get? token = some e → kind e = true → e.name ∈ t.candidateNames n) →
      t.Selects (fun e => kind e = true) ((entries.filter fun p => kind p.2).map Prod.fst) := by
  have hcandidates : ∀ token ∈ t.candidates n, ∃ e, t.pit.get? token = some e := by
    intro token member
    obtain ⟨e, hget, _⟩ := (mem_candidates h).mp member
    exact ⟨e, hget⟩
  obtain ⟨entries, hentries, hfst, hlive⟩ := withEntries_of_live hcandidates
  refine ⟨entries, hentries, fun kind hkind => ⟨?_, fun token => ⟨?_, ?_⟩⟩⟩
  · have hnodup := candidates_nodup h n
    rw [← hfst] at hnodup
    exact hnodup.sublist (List.filter_sublist.map _)
  · intro member
    obtain ⟨p, hp, rfl⟩ := List.mem_map.mp member
    obtain ⟨hentry, hanswer⟩ := List.mem_filter.mp hp
    exact ⟨p.2, hlive p hentry, hanswer⟩
  · rintro ⟨e, hget, hanswer⟩
    have hcandidate : token ∈ t.candidates n :=
      (mem_candidates h).mpr ⟨e, hget, hkind token e hget hanswer⟩
    rw [← hfst] at hcandidate
    obtain ⟨p, hp, rfl⟩ := List.mem_map.mp hcandidate
    have hsame := hlive p hp
    rw [hget, Option.some.injEq] at hsame
    exact List.mem_map.mpr ⟨p, List.mem_filter.mpr ⟨hp, hsame ▸ hanswer⟩, rfl⟩

/-- Data finds every pending entry that it answers once, and no other. -/
theorem answeredBy_ok {t : Tables} (h : t.Indexed) (n : Name) (digest : Digest) :
    ∃ tokens compared, t.answeredBy n digest = .ok (tokens, compared) ∧ tokens.Nodup ∧
      ∀ token, token ∈ tokens ↔
        ∃ e, t.pit.get? token = some e ∧ e.interest.isAnsweredBy n digest = true := by
  obtain ⟨entries, hentries, hkinds⟩ := withEntries_candidates h n
  refine ⟨_, _, bind_eq_ok.mpr ⟨entries, hentries, rfl⟩,
    hkinds (fun e => e.interest.isAnsweredBy n digest) ?_⟩
  intro token e hget hanswer
  exact name_mem_of_answered h hget hanswer

end Tables

end NamedData
