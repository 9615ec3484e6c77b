import NamedData.Proofs.TableRuns

/-!
The search for the entries that Data answers, with a digest that is computed anew each time it is
asked for. It finds what a search through all entries finds, and asks for the digest only where the
outcome depends on it: once for each entry whose name is that of the Data and a digest.
-/

namespace NamedData

variable {σ : Type}

namespace Interest

/-- Whether Data answers the Interest, with a digest that is computed only where it is needed. -/
def isAnsweredWith (i : Interest) (name : Name) (digest : StateM σ Digest) : StateM σ Bool :=
  if i.name.length = name.length + 1 then
    if i.namesDigestOf name then do return i.endsWith (← digest) else return false
  else return if i.canBePrefix then i.name.begins name else i.name = name

/-- The digest is asked for if the Interest names one, and what comes out is as if it had been
given. -/
theorem isAnsweredWith_run (i : Interest) (name : Name) (digest : StateM σ Digest) (s : σ) :
    (i.isAnsweredWith name digest).run s = (i.isAnsweredBy name (digest.run s).1,
      if i.namesDigestOf name then (digest.run s).2 else s) := by
  rw [isAnsweredWith, isAnsweredBy]
  by_cases hlength : i.name.length = name.length + 1
  · rw [if_pos hlength, if_pos hlength]
    cases i.namesDigestOf name <;> rfl
  · have hother : i.namesDigestOf name = false := by simp [namesDigestOf, hlength]
    rw [if_neg hlength, if_neg hlength, hother]
    cases i.canBePrefix <;> rfl

end Interest

namespace Tables

/-- The tokens of those entries that Data answers, looked at one after the other. -/
def answeredAmong (n : Name) (digest : StateM σ Digest) :
    List (PitToken × PitEntry) → StateM σ (List PitToken)
  | [] => return []
  | (token, e) :: rest => do
    let isAnswered ← e.interest.isAnsweredWith n digest
    let later ← answeredAmong n digest rest
    return if isAnswered then token :: later else later

/-- The search for the entries that Data answers. -/
def answeredWith (t : Tables) (n : Name) (digest : StateM σ Digest) (s : σ) :
    Except Fault (List PitToken × σ) := do
  let entries ← t.withEntries (t.candidates n)
  .ok ((answeredAmong n digest entries).run s)

variable {n : Name} {digest : StateM σ Digest}

theorem answeredAmong_cons_run (n : Name) (digest : StateM σ Digest) (token : PitToken)
    (e : PitEntry) (rest : List (PitToken × PitEntry)) (s : σ) :
    (answeredAmong n digest ((token, e) :: rest)).run s =
      let next := if e.interest.namesDigestOf n then (digest.run s).2 else s
      let later := (answeredAmong n digest rest).run next
      (if e.interest.isAnsweredBy n (digest.run s).1 then token :: later.1 else later.1,
        later.2) := by
  rw [answeredAmong, StateT.run_bind, Interest.isAnsweredWith_run]
  rfl

/-- Each entry that names a digest has it computed once, whatever comes out. -/
theorem answeredAmong_run_snd (n : Name) (digest : StateM σ Digest)
    (entries : List (PitToken × PitEntry)) (s : σ) :
    ((answeredAmong n digest entries).run s).2 = (fun s => (digest.run s).2)^[
      entries.countP fun p => p.2.interest.namesDigestOf n] s := by
  induction entries generalizing s with
  | nil => rfl
  | cons p rest ih =>
      obtain ⟨token, e⟩ := p
      rw [answeredAmong_cons_run, List.countP_cons]
      cases hdigest : e.interest.namesDigestOf n with
      | true => simpa [hdigest] using ih (digest.run s).2
      | false => simpa [hdigest] using ih s

/-- With the same digest each time, those entries are found that it answers. -/
theorem answeredAmong_run_fst {value : Digest} (hvalue : ∀ s, (digest.run s).1 = value)
    (entries : List (PitToken × PitEntry)) (s : σ) :
    ((answeredAmong n digest entries).run s).1 =
      (entries.filter fun p => p.2.interest.isAnsweredBy n value).map Prod.fst := by
  induction entries generalizing s with
  | nil => rfl
  | cons p rest ih =>
      obtain ⟨token, e⟩ := p
      rw [answeredAmong_cons_run, hvalue]
      cases hanswer : e.interest.isAnsweredBy n value <;> simp [hanswer, ih]

end Tables

/-- After any calls, Data of any name and digest finds the pending entries that it answers, each
once and no other. Whatever the computation of the digest does besides, it is done once for each
entry whose name is that of the Data and a digest. -/
theorem dataLookup_eq_search (strategy : Nat) (calls : List TableCall) :
    ∃ history t, Tables.record (Tables.new strategy) calls = .ok (history, t) ∧ ∀ n : Name,
      ∃ compared, t.Selects (fun e => ∃ c : Component, c.isImplicitDigest = true ∧
          e.name = n.adding c) compared ∧
        (∀ {σ : Type} (digest : StateM σ Digest) (s : σ), ∃ tokens, t.answeredWith n digest s =
          .ok (tokens, (fun s => (digest.run s).2)^[compared.length] s)) ∧
        ∀ value : Digest, ∃ tokens,
          t.Selects (fun e => e.interest.isAnsweredBy n value = true) tokens ∧
          t.answeredBy n value = .ok (tokens, compared.length) ∧
          ∀ {σ : Type} (effect : σ → σ) (s : σ), t.answeredWith n (fun s => (value, effect s)) s =
            .ok (tokens, effect^[compared.length] s) := by
  obtain ⟨history, t, hrecord, hsound⟩ := Tables.record_sound strategy calls
  refine ⟨history, t, hrecord, fun n => ?_⟩
  obtain ⟨entries, hentries, hkinds⟩ := Tables.withEntries_candidates hsound.indexed n
  let compared := (entries.filter fun p => p.2.interest.namesDigestOf n).map Prod.fst
  have hcompared : t.Selects (fun e => e.interest.namesDigestOf n = true) compared :=
    hkinds (fun e => e.interest.namesDigestOf n) fun _ _ hget hdigest =>
      Tables.name_mem_of_digest hsound.indexed hget hdigest
  have hcount : entries.countP (fun p => p.2.interest.namesDigestOf n) = compared.length := by
    rw [List.length_map, List.countP_eq_length_filter]
  have hsearch {σ : Type} (digest : StateM σ Digest) (s : σ) : t.answeredWith n digest s =
      .ok (((Tables.answeredAmong n digest entries).run s).1,
        (fun s => (digest.run s).2)^[compared.length] s) := by
    rw [← hcount, ← Tables.answeredAmong_run_snd]
    exact bind_eq_ok.mpr ⟨entries, hentries, rfl⟩
  refine ⟨compared, ?_, fun digest s => ⟨_, hsearch digest s⟩, fun value => ?_⟩
  · simpa only [Interest.namesDigestOf_eq_true, PitEntry.name] using hcompared
  · refine ⟨(entries.filter fun p => p.2.interest.isAnsweredBy n value).map Prod.fst, ?_, ?_, ?_⟩
    · exact hkinds (fun e => e.interest.isAnsweredBy n value) fun _ _ hget hanswer =>
        Tables.name_mem_of_answered hsound.indexed hget hanswer
    · rw [← hcount]
      exact bind_eq_ok.mpr ⟨entries, hentries, rfl⟩
    · intro σ effect s
      rw [hsearch, Tables.answeredAmong_run_fst fun _ => rfl]
      rfl

end NamedData
