import NamedData.Proofs.DeadNonces
import NamedData.Proofs.Sendings

/-!
What becomes of one entry. A deed leaves it alone, works on it, or ends it when timers are run; so a
property of the entry that work keeps stays with it until its end. No two entries ask for the same.
-/

namespace NamedData

open Forwarder

namespace Interest

variable {i j : Interest}

/-- Interests that ask for the same are answered by the same Data. -/
theorem isAnsweredBy_congr (h : i.sameSelectors j = true) (name : Name) (digest : Digest) :
    i.isAnsweredBy name digest = j.isAnsweredBy name digest := by
  obtain ⟨hname, hprefix, _⟩ := sameSelectors_iff.mp h
  simp only [isAnsweredBy, namesDigestOf, endsWith, hname, hprefix]

end Interest

namespace Node

variable {n m : Node} {hash : HashFunction} {operation : Operation} {token : PitToken}
  {e : PitEntry}

/-- What a deed makes of the entries: nothing, a new one, work on one of them, or the end of one. -/
inductive PitChange (hash : HashFunction) (operation : Operation) (n m : Node) : Prop where
  | same (hpit : m.tables.pit = n.tables.pit)
  | opened {now : Timestamp} {ingress : FaceEndpoint} {i : Interest} {token : PitToken}
      (hint : List Name) (hcall : operation = .receive now ingress (.interest i))
      (hnew : ∀ u e, n.tables.pit.get? u = some e → e.interest.sameSelectors i = false)
      (hfree : n.tables.pit.get? token = none)
      (hpit : ∀ u, m.tables.pit.get? u = if u = token then
        some { interest := (i.arrived ingress.face hint).untagged } else n.tables.pit.get? u)
  | worked {f f' : Focus} (hsound : f.Sound) (hdeed : Focus.Deed hash operation f f')
      (hbefore : f.release = n) (hafter : f'.release = m)
      (hold : n.tables.pit.get? f.token = some f.entry)
      (hnew : m.tables.pit.get? f.token = some f'.entry)
      (hpit : ∀ u, u ≠ f.token → m.tables.pit.get? u = n.tables.pit.get? u)
  | ended {now : Timestamp} {token : PitToken} {e : PitEntry} (hcall : operation = .runTimers now)
      (hold : n.tables.pit.get? token = some e)
      (hpit : ∀ u, m.tables.pit.get? u = if u = token then none else n.tables.pit.get? u)
      (hremembered : m.deadNonces = n.rememberedAfter token e)

theorem Deed.pitChange (h : Deed hash operation n m) : PitChange hash operation n m := by
  cases h with
  | aside halike _ => exact .same halike.pit
  | addFace _ halike _ _ => exact .same halike.pit
  | dropFace halike _ => exact .same halike.pit
  | openEntry hint hcall hnew hinsert =>
      exact .opened hint hcall hnew (Arena.get?_of_insert hinsert) (Arena.get?_insert hinsert)
  | tellLoop => exact .same (congrArg Tables.pit (unmoved_tellLoop _ _ _ n).tables)
  | sendData => exact .same (congrArg Tables.pit (n.unmoved_sendData _ _).tables)
  | @work f f' hsound hdeed =>
      have hkeeps := hdeed.keeps
      have hnew := Focus.get?_release_self (hkeeps.live hsound.live)
      rw [hkeeps.token] at hnew
      exact .worked hsound hdeed rfl rfl (Focus.get?_release_self hsound.live) hnew
        fun u hu => hkeeps.get?_release_of_ne hsound.live hu
  | finish hcall _ hget _ _ =>
      obtain ⟨old, herase⟩ := (ended_ending hget).tables
      exact .ended hcall hget (Tables.get?_of_erase herase) (deadNonces_ending hget)

/-- What a deed makes of one entry. -/
inductive EntryEffect (hash : HashFunction) (operation : Operation) (n m : Node) (token : PitToken)
    (e : PitEntry) : Prop where
  | stays (hget : m.tables.pit.get? token = some e)
  | worked {f f' : Focus} (hsound : f.Sound) (hdeed : Focus.Deed hash operation f f')
      (hentry : f.entry = e) (hbefore : f.release = n) (hafter : f'.release = m)
      (hget : m.tables.pit.get? token = some f'.entry)
  | ended {now : Timestamp} (hcall : operation = .runTimers now)
      (hgone : m.tables.pit.get? token = none)
      (hremembered : m.deadNonces = n.rememberedAfter token e)

theorem Deed.entryEffect (h : Deed hash operation n m) (hget : n.tables.pit.get? token = some e) :
    EntryEffect hash operation n m token e := by
  cases h.pitChange with
  | same hpit => exact .stays (by rw [hpit]; exact hget)
  | @opened _ _ _ new _ _ _ hfree hpit =>
      have hother : token ≠ new := by
        rintro rfl
        cases hget.symm.trans hfree
      exact .stays (by rw [hpit, if_neg hother]; exact hget)
  | @worked f f' hsound hdeed hbefore hafter hold hnew hpit =>
      by_cases hown : token = f.token
      · subst hown
        exact .worked hsound hdeed (Option.some.inj (hold.symm.trans hget)) hbefore hafter hnew
      · exact .stays ((hpit token hown).trans hget)
  | @ended _ ending e' hcall hold hpit hremembered =>
      have hleft := hpit token
      by_cases hown : token = ending
      · subst hown
        have hentry : e' = e := Option.some.inj (hold.symm.trans hget)
        rw [if_pos rfl] at hleft
        exact .ended hcall hleft (hentry ▸ hremembered)
      · rw [if_neg hown] at hleft
        exact .stays (hleft.trans hget)

/-- A property that work on an entry keeps stays with the entry, unless something comes about that
does not go away again. -/
theorem Deeds.entry {P : PitEntry → Prop} {L : Node → Prop}
    (hstays : ∀ k k', Deed hash operation k k' → L k → L k')
    (hwork : ∀ f f' : Focus, f.Sound → Focus.Deed hash operation f f' →
      Deeds hash operation n f.release → P f.entry → P f'.entry ∨ L f'.release)
    (hended : ∀ k k' e now, Deeds hash operation n k → k.tables.pit.get? token = some e → P e →
      operation = .runTimers now → k'.tables.pit.get? token = none →
      k'.deadNonces = k.rememberedAfter token e → k'.now = k.now → L k')
    (h : Deeds hash operation n m) (hget : n.tables.pit.get? token = some e) (he : P e) :
    (∃ e', m.tables.pit.get? token = some e' ∧ P e') ∨ L m := by
  induction h with
  | refl => exact .inl ⟨e, hget, he⟩
  | @tail k k' hdeeds hdeed ih =>
      rcases ih with ⟨e', hget', he'⟩ | hlost
      · cases hdeed.entryEffect hget' with
        | stays hkept => exact .inl ⟨e', hkept, he'⟩
        | @worked f f' hsound hwork' hentry hbefore hafter hnew =>
            subst hbefore hafter hentry
            exact (hwork f f' hsound hwork' hdeeds he').imp_left fun hkept =>
              ⟨f'.entry, hnew, hkept⟩
        | ended hcall hgone hremembered =>
            exact .inr (hended k k' e' _ hdeeds hget' he' hcall hgone hremembered hdeed.now)
      · exact .inr (hstays k k' hdeed hlost)

/-- An entry that is gone does not come back unless an Interest comes in. -/
theorem Deed.stays_gone (h : Deed hash operation n m)
    (hother : ∀ now ingress i, operation ≠ .receive now ingress (.interest i))
    (hgone : n.tables.pit.get? token = none) : m.tables.pit.get? token = none := by
  cases h.pitChange with
  | same hpit => exact hpit ▸ hgone
  | opened _ hcall _ _ _ => exact (hother _ _ _ hcall).elim
  | @worked f f' _ _ _ _ hold _ hpit =>
      have hdiffers : token ≠ f.token := by
        rintro rfl
        cases hgone.symm.trans hold
      exact (hpit token hdiffers).trans hgone
  | ended _ _ hpit _ =>
      rw [hpit]
      split
      · rfl
      · exact hgone

/-! ### Entries ask for different things -/

/-- No two entries ask for the same. -/
def Distinguished (n : Node) : Prop :=
  ∀ u v e e', n.tables.pit.get? u = some e → n.tables.pit.get? v = some e' →
    e.interest.sameSelectors e'.interest = true → u = v

/-- The entry that asks for the same as an Interest is the one that is found for it. -/
theorem Distinguished.findPending (hn : n.Distinguished) (hindexed : n.tables.Indexed)
    {i : Interest} (hget : n.tables.pit.get? token = some e)
    (hsame : e.interest.sameSelectors i = true) : n.tables.findPending i = .ok (some token) := by
  obtain ⟨found, hfound, hawaits⟩ := hindexed.findPending_iff hn i
  rw [hfound, (hawaits token).mpr ⟨e, hget, hsame⟩]

theorem Deed.distinguished (h : Deed hash operation n m) (hn : n.Distinguished) :
    m.Distinguished := by
  have hbefore : n.tables.Distinguished := hn
  cases h.pitChange with
  | same hpit => exact hbefore.of_old fun u e' hget => ⟨e', hpit ▸ hget, rfl⟩
  | opened _ _ hnew _ hpit => exact hbefore.of_new hnew hpit
  | @worked f f' _ hdeed _ _ hold hnew hpit =>
      refine hbefore.of_old fun u e' hget => ?_
      by_cases hown : u = f.token
      · subst hown
        refine ⟨f.entry, hold, ?_⟩
        rw [← hdeed.keeps.interest, Option.some.inj (hnew.symm.trans hget)]
      · exact ⟨e', (hpit u hown).symm.trans hget, rfl⟩
  | ended _ _ hpit _ => exact hbefore.of_gone hpit

theorem Deeds.distinguished (h : Deeds hash operation n m) (hn : n.Distinguished) :
    m.Distinguished :=
  h.preserve (fun _ _ hdeed => hdeed.distinguished) hn

end Node

end NamedData
