import NamedData.Proofs.TableRuns

/-!
Interests that ask for the same share an entry. Whatever was called before, each entry is found by
its Interest and by no other; a new one gets a token that reached nothing before, and only ending it
takes it away, from the arena and from the list at its name alike. Next hops and strategies come and
go in the same tree without an entry getting lost. As long as there are generations left, a token
that was given out is never given out again.
-/

namespace NamedData

namespace Tables

/-- What an Interest without an entry leaves behind: one that is found for it, under a token that
reached nothing. -/
structure Opens (t : Tables) (i : Interest) (token : PitToken) (t' : Tables) : Prop where
  fresh : t.pit.get? token = none
  entries : ∀ u, t'.pit.get? u =
    if u = token then some { interest := i.untagged } else t.pit.get? u
  records : ∀ n, t'.recordAt n = if n = i.name then
    { t.recordAt n with pending := (t.recordAt n).pending ++ [token] } else t.recordAt n
  found : ∀ j, t'.findPending j =
    if i.sameSelectors j = true then .ok (some token) else t.findPending j

/-- What an entry leaves behind that ends: it is gone from the arena and from the list at its name,
and nothing else is. -/
structure Ends (t : Tables) (token : PitToken) (e : PitEntry) (t' : Tables) : Prop where
  entries : ∀ u, t'.pit.get? u = if u = token then none else t.pit.get? u
  records : ∀ n, t'.recordAt n =
    { t.recordAt n with pending := (t.recordAt n).pending.filter (· ≠ token) }
  found : ∀ j, t'.findPending j =
    if e.interest.sameSelectors j = true then .ok none else t.findPending j

/-- The same entries, listed at the same names and found for the same Interests. -/
structure SamePending (t t' : Tables) : Prop where
  pit : t'.pit = t.pit
  lists : ∀ n, (t'.recordAt n).pending = (t.recordAt n).pending
  found : t'.findPending = t.findPending

/-- Each entry is the only one for its Interests and is found for them, whatever else is done. -/
structure Aggregates (t : Tables) : Prop where
  distinguished : t.Distinguished
  finds : ∀ i, ∃ found, t.findPending i = .ok found ∧ ∀ token, found = some token ↔ t.Awaits i token
  joins : ∀ i token, t.Awaits i token → t.findOrInsert i = .ok ((token, false), t)
  opens : ∀ i, (∀ token, ¬ t.Awaits i token) →
    ∃ token t', t.findOrInsert i = .ok ((token, true), t') ∧ t.Opens i token t'
  ends : ∀ token e, t.pit.get? token = some e →
    ∃ t', t.call (.erase token) = .ok (.ended (some e), t') ∧ t.Ends token e t'
  ignores : ∀ token, t.pit.get? token = none → t.call (.erase token) = .ok (.ended none, t)
  keeps : ∀ k : TableCall, k.isPending = false →
    ∃ reply t', t.call k = .ok (reply, t') ∧ t.SamePending t'

variable {t t' : Tables} {i : Interest} {token : PitToken} {e : PitEntry} {count count' : Nat}

/-- The same is found if the same entries ask for what the Interest asks for. -/
theorem Sound.findPending_congr (h : t.Sound count) (h' : t'.Sound count')
    (hawaits : ∀ token, t'.Awaits i token ↔ t.Awaits i token) :
    t'.findPending i = t.findPending i := by
  obtain ⟨found, hfind, hfound⟩ := h.indexed.findPending_iff h.distinguished i
  rw [hfind, h'.indexed.findPending_eq h'.distinguished fun token =>
    (hfound token).trans (hawaits token).symm]

theorem Sound.findPending_of_awaits (h : t.Sound count) (hawaits : t.Awaits i token) :
    t.findPending i = .ok (some token) := by
  refine h.indexed.findPending_eq h.distinguished fun other => ?_
  rw [Option.some.injEq]
  exact ⟨fun same => same ▸ hawaits, h.distinguished.awaits_unique hawaits⟩

theorem Sound.findPending_of_none (h : t.Sound count) (hnone : ∀ token, ¬ t.Awaits i token) :
    t.findPending i = .ok none := by
  refine h.indexed.findPending_eq h.distinguished fun token => ⟨nofun, fun hawaits => ?_⟩
  exact (hnone token hawaits).elim

/-- With one more entry, that one is found for what it asks for. -/
theorem Sound.findPending_of_new (h : t.Sound count) (h' : t'.Sound count')
    (hfree : t.pit.get? token = none)
    (hpit : ∀ u, t'.pit.get? u = if u = token then some e else t.pit.get? u) (j : Interest) :
    t'.findPending j =
      if e.interest.sameSelectors j = true then .ok (some token) else t.findPending j := by
  have hmade : t'.pit.get? token = some e := by rw [hpit, if_pos rfl]
  split
  next hsame => exact h'.findPending_of_awaits ⟨e, hmade, hsame⟩
  next hdiffers =>
    refine h.findPending_congr h' fun u => ?_
    by_cases hown : u = token
    · subst hown
      constructor
      · rintro ⟨made, hget, hsame⟩
        rw [hmade, Option.some.injEq] at hget
        exact absurd (hget ▸ hsame) hdiffers
      · rintro ⟨made, hget, -⟩
        cases hfree.symm.trans hget
    · rw [Awaits, Awaits, hpit, if_neg hown]

/-- With one entry less, none is found for what it asked for. -/
theorem Sound.findPending_of_gone (h : t.Sound count) (h' : t'.Sound count')
    (hget : t.pit.get? token = some e)
    (hpit : ∀ u, t'.pit.get? u = if u = token then none else t.pit.get? u) (j : Interest) :
    t'.findPending j =
      if e.interest.sameSelectors j = true then .ok none else t.findPending j := by
  have hgone : t'.pit.get? token = none := by rw [hpit, if_pos rfl]
  -- Read backwards, the tables before have one more entry than those after.
  have hback : ∀ u, t.pit.get? u = if u = token then some e else t'.pit.get? u := by
    intro u
    split
    next same => rw [same, hget]
    next hne => rw [hpit, if_neg hne]
  split
  next hsame =>
    refine h'.findPending_of_none fun other hother => ?_
    obtain ⟨kept, hkept, hasks⟩ := hother
    have hne : other ≠ token := by
      rintro rfl
      cases hgone.symm.trans hkept
    rw [hpit, if_neg hne] at hkept
    exact hne (h.distinguished.awaits_unique ⟨kept, hkept, hasks⟩ ⟨e, hget, hsame⟩)
  next hdiffers =>
    rw [h'.findPending_of_new h hgone hback, if_neg hdiffers]

theorem Sound.opens (h : t.Sound count) (hnone : ∀ token, ¬ t.Awaits i token) :
    ∃ token t', t.findOrInsert i = .ok ((token, true), t') ∧ t.Opens i token t' := by
  have hfind := h.findPending_of_none hnone
  obtain ⟨token, pit, hinsert⟩ := h.pit.insert_ok { interest := i.untagged }
  have hget := Arena.get?_insert hinsert
  have hfree := Arena.get?_of_insert hinsert
  refine ⟨token, _, bind_eq_ok.mpr ⟨none, hfind, bind_eq_ok.mpr ⟨(token, pit), hinsert, rfl⟩⟩,
    hfree, hget, fun n => ?_, h.findPending_of_new (h.opened hfind hinsert) hfree hget⟩
  rw [recordAt_change (t := { t with pit }) h.indexed.ordered]
  split
  next same => rw [same]; rfl
  next => rfl

/-- An entry that ends leaves all lists but its own as they are. -/
theorem Indexed.recordAt_erase (h : t.Indexed) (herase : t.erase token = some (e, t')) (n : Name) :
    t'.recordAt n =
      { t.recordAt n with pending := (t.recordAt n).pending.filter (· ≠ token) } := by
  obtain ⟨pit, hremove, rfl⟩ := erase_eq_some.mp herase
  have hget : t.pit.get? token = some e := Arena.get?_of_remove hremove
  rw [recordAt_change (t := { t with pit }) h.ordered]
  split
  next same => rw [same]; rfl
  next hne =>
    have hnot : token ∉ (t.recordAt n).pending := by
      intro member
      obtain ⟨e', hget', hname⟩ := (h.listed n token).mp member
      rw [hget, Option.some.injEq] at hget'
      exact hne (hget' ▸ hname.symm)
    have hsame : (t.recordAt n).pending.filter (· ≠ token) = (t.recordAt n).pending :=
      List.filter_eq_self.mpr fun u hu => decide_eq_true fun same => hnot (same ▸ hu)
    rw [hsame]
    rfl

theorem Sound.ends (h : t.Sound count) (hget : t.pit.get? token = some e) :
    ∃ t', t.call (.erase token) = .ok (.ended (some e), t') ∧ t.Ends token e t' := by
  obtain ⟨pit, hremove⟩ := Arena.remove_of_get? hget
  have herase := erase_eq_some.mpr ⟨pit, hremove, rfl⟩
  refine ⟨_, by rw [Tables.call, herase], get?_of_erase herase, h.indexed.recordAt_erase herase, ?_⟩
  exact h.findPending_of_gone (h.ended herase) hget (get?_of_erase herase)

theorem erase_of_gone (hgone : t.pit.get? token = none) :
    t.call (.erase token) = .ok (.ended none, t) := by
  rw [call, erase, Arena.remove, hgone]

theorem Sound.keeps (h : t.Sound count) {k : TableCall} (hother : k.isPending = false) :
    ∃ reply t', t.call k = .ok (reply, t') ∧ t.SamePending t' := by
  obtain ⟨reply, t', hcall⟩ := h.call_ok k
  cases call_effect h.indexed.ordered hcall with
  | same _ hpit hpending _ _ =>
      refine ⟨reply, t', hcall, hpit, hpending, funext fun j => ?_⟩
      refine h.findPending_congr (h.call hcall) fun u => ?_
      rw [Awaits, Awaits, hpit]
  | opened => cases hother
  | revised => cases hother
  | ended => cases hother

theorem Sound.aggregates (h : t.Sound count) : t.Aggregates where
  distinguished := h.distinguished
  finds := h.indexed.findPending_iff h.distinguished
  joins _ token hawaits :=
    bind_eq_ok.mpr ⟨some token, h.findPending_of_awaits hawaits, rfl⟩
  opens _ hnone := h.opens hnone
  ends _ _ hget := h.ends hget
  ignores _ hgone := erase_of_gone hgone
  keeps _ hother := h.keeps hother

end Tables

/-! ### Tokens over a whole run -/

/-- The tokens of a history and the entries there are: each token was given out once, and those
whose entries were not ended are alive. -/
structure Accounts (history : List TableStep) (t : Tables) : Prop where
  nodup : (opened history).Nodup
  live : ∀ token, (∃ e, t.pit.get? token = some e) ↔
    token ∈ opened history ∧ token ∉ ended history
  spent : ∀ token ∈ ended history, t.pit.Spent token

theorem Accounts.start (strategy : Nat) : Accounts [] (Tables.new strategy) where
  nodup := List.nodup_nil
  live token := by simp [opened]
  spent := nofun

variable {history : List TableStep} {t t' : Tables}

/-- The token of a new entry was never given out before. -/
theorem Accounts.not_opened (h : Accounts history t) (hsound : t.Sound (opened history).length)
    (few : (opened history).length < 2 ^ 32) {token : PitToken} {e : PitEntry}
    {pit : Arena PitEntry} (hinsert : t.pit.insert e = .ok (token, pit)) :
    token ∉ opened history ∧ token ∉ ended history := by
  have hnever : token ∉ ended history := fun member =>
    (h.spent token member).ne_inserted hsound.pit few hinsert rfl
  refine ⟨fun member => ?_, hnever⟩
  obtain ⟨old, hold⟩ := (h.live token).mpr ⟨member, hnever⟩
  cases (Arena.get?_of_insert hinsert).symm.trans hold

theorem Accounts.step (h : Accounts history t) (hsound : t.Sound (opened history).length)
    (few : (opened history).length < 2 ^ 32) {k : TableCall} {reply : TableReply}
    (hcall : t.call k = .ok (reply, t')) :
    Accounts ({ before := t, call := k, reply, after := t' } :: history) t' := by
  cases Tables.call_effect hsound.indexed.ordered hcall with
  | same _ hpit _ hopened hended =>
      constructor
      · simpa [hopened] using h.nodup
      · simpa [hopened, hended, hpit] using h.live
      · simpa [hended, hpit] using h.spent
  | @opened i token pit _ hinsert =>
      have hget := Arena.get?_insert hinsert
      obtain ⟨hnew, hnever⟩ := h.not_opened hsound few hinsert
      refine ⟨?_, fun u => ?_, fun u hu => ?_⟩
      · simpa [TableReply.opened?] using ⟨hnew, h.nodup⟩
      · change (∃ e, pit.get? u = some e) ↔ _
        rw [hget]
        by_cases hown : u = token
        · subst hown
          simpa [TableReply.opened?, TableCall.ended?] using hnever
        · simpa [TableReply.opened?, TableCall.ended?, hown] using h.live u
      · exact (h.spent u hu).insert hsound.pit few hinsert
  | @revised token change e hget =>
      refine ⟨h.nodup, fun u => ?_, fun u hu => (h.spent u hu).set hget _⟩
      refine Iff.trans ?_ (h.live u)
      change (∃ e', (t.pit.set token _).get? u = some e') ↔ _
      rw [Arena.get?_set hget]
      by_cases hown : u = token
      · simp [hown, hget]
      · simp [hown]
  | @ended token e _ herase =>
      obtain ⟨pit, hremove, rfl⟩ := Tables.erase_eq_some.mp herase
      have hspent : pit.Spent token := Arena.spent_of_remove hremove
      refine ⟨h.nodup, fun u => ?_, fun u hu => ?_⟩
      · rw [Tables.get?_of_erase herase]
        by_cases hown : u = token
        · simp [hown, TableCall.ended?]
        · simpa [TableReply.opened?, TableCall.ended?, hown] using h.live u
      · have hcases : u = token ∨ u ∈ ended history := by
          simpa [TableCall.ended?] using hu
        rcases hcases with rfl | hold
        · exact hspent
        · exact (h.spent u hold).remove hremove

/-- After any calls, Interests that ask for the same share one entry, which is found for them and
for no others, until it is ended. Fewer than 2^32 new entries all have different tokens, and a token
reaches an entry from when it is given out until the entry is ended, and never again. -/
theorem pending_entries_aggregate (strategy : Nat) (calls : List TableCall) :
    ∃ history t, Tables.record (Tables.new strategy) calls = .ok (history, t) ∧ t.Aggregates ∧
      ((opened history).length < 2 ^ 32 → (opened history).Nodup ∧
        ∀ token, (∃ e, t.pit.get? token = some e) ↔
          token ∈ opened history ∧ token ∉ ended history) := by
  have haccounts : ∃ history t, Tables.record (Tables.new strategy) calls = .ok (history, t) ∧
      history.map TableStep.call = calls ∧ t.Sound (opened history).length ∧
        ((opened history).length < 2 ^ 32 → Accounts history t) := by
    refine Tables.record_induction strategy (fun _ => .start strategy) ?_ calls
    intro history t k reply t' hsound h hcall hfew
    have few : (opened history).length < 2 ^ 32 := by
      rw [opened_cons, List.length_append] at hfew
      omega
    exact (h few).step hsound few hcall
  obtain ⟨history, t, hrecord, -, hsound, haccounts⟩ := haccounts
  exact ⟨history, t, hrecord, hsound.aggregates, fun few => ⟨(haccounts few).nodup,
    (haccounts few).live⟩⟩

namespace Sample

/-- An Interest that waits, is given up and comes again. -/
def givenUpOnce : List TableCall :=
  let i : Interest := { name := [.generic [97]], nonce := ⟨1⟩ }
  [.findOrInsert i, .erase ⟨0, 0⟩, .findOrInsert i]

end Sample

/-- The second entry takes the slot of the first one, whose token reaches it no more. -/
theorem pending_entries_aggregate_again :
    ∃ history t, Tables.record (Tables.new 0) Sample.givenUpOnce = .ok (history, t) ∧
      (opened history).length < 2 ^ 32 ∧ opened history = [⟨0, 1⟩, ⟨0, 0⟩] ∧
      (∃ e, t.pit.get? ⟨0, 1⟩ = some e) ∧ t.pit.get? ⟨0, 0⟩ = none := by
  obtain ⟨history, t, hrecord, -, htokens⟩ := pending_entries_aggregate 0 Sample.givenUpOnce
  have hread (read : List TableStep → List PitToken) :
      (Tables.record (Tables.new 0) Sample.givenUpOnce).map (fun p => read p.1) =
        .ok (read history) := by
    rw [hrecord]
    rfl
  have hopened : opened history = [⟨0, 1⟩, ⟨0, 0⟩] := (Except.ok.inj (hread opened)).symm
  have hended : ended history = [⟨0, 0⟩] := (Except.ok.inj (hread ended)).symm
  have few : (opened history).length < 2 ^ 32 := by
    rw [hopened]
    decide
  obtain ⟨-, hlive⟩ := htokens few
  rw [hopened, hended] at hlive
  refine ⟨history, t, hrecord, few, hopened, (hlive _).mpr (by decide), ?_⟩
  refine Option.eq_none_iff_forall_ne_some.mpr fun e hget => ?_
  exact ((hlive ⟨0, 0⟩).mp ⟨e, hget⟩).2 (List.mem_singleton_self _)

end NamedData
