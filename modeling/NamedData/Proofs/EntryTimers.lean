import NamedData.Proofs.Runs

/-!
Timers and pending Interests are in bijection at every moment of every run: no entry is left without
a timer, and no timer outlives its entry.
-/

namespace NamedData

/-- The entries of the armed timers are the pending entries, each once, and each entry stores the
number of its timer. -/
structure Node.TimersMatchEntries (n : Node) : Prop where
  bijection : (n.timers.timers.map Timer.entry).Perm n.tables.pit.tokens
  armed : ∀ token e, n.tables.pit.get? token = some e → ∃ id, e.expiryTimer = some id ∧
    ∃! t, t ∈ n.timers.timers ∧ t.id = id ∧ t.entry = token
  owned : ∀ t ∈ n.timers.timers, ∃ e, n.tables.pit.get? t.entry = some e ∧
    e.expiryTimer = some t.id

namespace Node.Valid

variable {n : Node} {count : Nat}

theorem timer_entries_nodup (h : n.Valid count) : (n.timers.timers.map Timer.entry).Nodup := by
  have hnodup : n.timers.timers.Nodup := List.Nodup.of_map Timer.id h.timed.nodup
  apply hnodup.map_on
  intro t ht u hu hentry
  obtain ⟨e, hget, hid⟩ := h.timed.owned t ht
  have hsame : u.id = t.id := (h.timed.id_eq_iff hget hid hu).mpr hentry.symm
  exact h.timed.eq_of_id ht hu hsame.symm

theorem timersMatchEntries (h : n.Valid count) : n.TimersMatchEntries where
  bijection := by
    apply (List.perm_ext_iff_of_nodup h.timer_entries_nodup (Arena.tokens_nodup _)).mpr
    intro token
    rw [Arena.mem_tokens, List.mem_map]
    constructor
    · rintro ⟨t, ht, rfl⟩
      obtain ⟨e, hget, _⟩ := h.timed.owned t ht
      exact ⟨e, hget⟩
    · rintro ⟨e, hget⟩
      obtain ⟨id, hid⟩ := Option.isSome_iff_exists.mp (h.hasTimer token e hget)
      obtain ⟨deadline, member⟩ := h.timed.armed token e id hget hid
      exact ⟨_, member, rfl⟩
  armed token e hget := by
    obtain ⟨id, hid⟩ := Option.isSome_iff_exists.mp (h.hasTimer token e hget)
    obtain ⟨deadline, member⟩ := h.timed.armed token e id hget hid
    refine ⟨id, hid, Timer.mk deadline id token, ⟨member, rfl, rfl⟩, ?_⟩
    rintro t ⟨ht, hsame, _⟩
    exact h.timed.eq_of_id ht member hsame
  owned := h.timed.owned

end Node.Valid

/-- Timers and entries match in every run, and no timer that fires was given up by its entry: every
timer that is taken off the queue ends one. -/
theorem timers_match_entries {settings : Settings} {store : ContentStore} {hash : HashFunction}
    {history : List Step} {fw : Forwarder}
    (run : Run (Forwarder.new settings store hash) history fw) :
    fw.node.TimersMatchEntries ∧ ∀ now, ∃ n,
      Forwarder.Endings (fw.node.timers.takeDue now).1
        { fw.node with now, timers := (fw.node.timers.takeDue now).2 } n ∧
      fw.runTimers now = ((fw.node.timers.takeDue now).1.length, { fw with node := n }) := by
  have hvalid := run.valid
  constructor
  · exact hvalid.node.timersMatchEntries
  · intro now
    obtain ⟨n, hendings, _, hrun⟩ := Forwarder.runTimers_cases hvalid now
    exact ⟨n, hendings, hrun⟩

theorem timers_match_entries_of_one : ∃ history fw, Run Sample.start history fw ∧
    fw.node.timers.timers.length = 1 ∧ fw.node.TimersMatchEntries := by
  have hrun := Run.reached Sample.start (Sample.ask ⟨2⟩ ⟨1⟩ :: Sample.setup) rfl
  exact ⟨_, _, hrun, rfl, (timers_match_entries hrun).1⟩

end NamedData
