import NamedData.Proofs.Reachability

/-!
No operation ends with a fault. A token is collected where it is listed and used later, after
strategies were asked about other entries; but no answer of a strategy ends an entry, so that every
token in use still reaches one. The storage of entries has room for a new one whenever one is made,
and the strategy in effect at a name is one that was registered. This holds with any strategies that
do nothing but what a strategy may do, and built-in strategies are among these.
-/

namespace NamedData

open Forwarder

/-- Whatever a built-in strategy is asked, it only works on the entry at hand. -/
theorem BuiltIn.keeps_answer (b : BuiltIn) (q : Question) (f : Focus) :
    f.Keeps (b.strategy.answer q f) := by
  cases q with
  | afterInterest interest ingress =>
      exact (b.afterInterest_sendsOnOrEnds interest ingress f).moves.keeps
  | afterLoop interest ingress =>
      rw [Strategy.answer, b.afterLoop_eq]
      exact f.keeps_say _
  | beforeSatisfy data ingress =>
      rw [Strategy.answer, b.beforeSatisfy_eq]
      exact f.keeps_say _
  | afterStoreHit data ingress =>
      rw [Strategy.answer, b.afterStoreHit_eq]
      exact (f.keeps_say _).trans (Focus.keeps_sendData _ ingress data)
  | afterData data ingress =>
      rw [Strategy.answer, b.afterData_eq]
      exact (f.keeps_say _).trans (Focus.keeps_sendDataToAll _ ingress data)
  | afterNack nack ingress =>
      rw [Strategy.answer, b.afterNack_eq]
      exact (f.moves_passNackOn nack ingress).keeps
  | afterNewNextHop hop => exact (b.moves_afterNewNextHop hop f).keeps

theorem Tables.Registered.values {t : Tables} {count : Nat} (h : t.Registered count)
    (hordered : t.tree.Ordered) :
    ∀ r ∈ t.tree.values, ∀ id, r.strategy? = some id → id < count :=
  NameTree.forall_values hordered nofun h

/-- What a forwarder holds on to is there: the strategies chosen for names are registered, the
tokens listed at names and those of timers reach entries, and whatever a strategy is asked about an
entry, the entry stays with its token and no entry is gone afterwards. -/
structure Forwarder.HoldsLive (fw : Forwarder) : Prop where
  chosen : ∀ r ∈ fw.node.tables.tree.values, ∀ id, r.strategy? = some id →
    id < fw.strategies.length
  listed : ∀ r ∈ fw.node.tables.tree.values, ∀ token ∈ r.pending,
    fw.node.tables.pit.contains token = true
  armed : ∀ t ∈ fw.node.timers.timers, fw.node.tables.pit.contains t.entry = true
  asked : ∀ s ∈ fw.strategies, ∀ q f, (s.answer q f).token = f.token ∧
    ∀ token, (s.answer q f).release.tables.pit.contains token =
      f.node.tables.pit.contains token

theorem Forwarder.Valid.holdsLive {fw : Forwarder} (h : fw.Valid) : fw.HoldsLive where
  chosen := h.node.registered.values h.node.indexed.ordered
  listed := h.node.indexed.pending_live [] rfl
  armed t ht := by
    obtain ⟨e, hget, _⟩ := h.node.timed.owned t ht
    exact Arena.contains_of_get? hget
  asked s hs q f := by
    obtain ⟨b, rfl⟩ := h.builtIn s hs
    have hkeeps := b.keeps_answer q f
    exact ⟨hkeeps.token, hkeeps.contains_release⟩

theorem Forwarder.Valid.perform_ok {fw : Forwarder} (h : fw.Valid) {count : Nat}
    (hsound : fw.node.tables.Sound count) (operation : Operation) :
    ∃ fw', fw.perform operation = .ok fw' := by
  obtain ⟨fw', hperform, -⟩ := (h.orderly hsound).perform_orderly operation
  exact ⟨fw', hperform⟩

/-- The tables of a forwarder are sound as tables by themselves are. -/
theorem Run.soundTables {settings : Settings} {store : ContentStore} {hash : HashFunction}
    {fw : Forwarder} {history : List Step}
    (run : Run (Forwarder.new settings store hash) history fw) :
    ∃ count, fw.node.tables.Sound count :=
  run.reachable.orderly.node.soundTables

/-- No operation of a forwarder with built-in strategies ever ends with a fault, and between
operations everything that it holds on to is there. -/
theorem never_faults (settings : Settings) (store : ContentStore) (hash : HashFunction)
    (operations : List Operation) :
    ∃ history fw, record (Forwarder.new settings store hash) operations = .ok (history, fw) ∧
      fw.HoldsLive := by
  have hall : ∃ history fw,
      record (Forwarder.new settings store hash) operations = .ok (history, fw) := by
    induction operations with
    | nil => exact ⟨_, _, rfl⟩
    | cons operation earlier ih =>
        obtain ⟨history, fw, hearlier⟩ := ih
        have run := Run.of_record hearlier
        obtain ⟨count, hsound⟩ := run.soundTables
        obtain ⟨fw', hperform⟩ := run.valid.perform_ok hsound operation
        exact ⟨_, fw', bind_eq_ok.mpr ⟨_, hearlier, bind_eq_ok.mpr ⟨fw', hperform, rfl⟩⟩⟩
  obtain ⟨history, fw, hrecord⟩ := hall
  exact ⟨history, fw, hrecord, (Run.of_record hrecord).valid.holdsLive⟩

end NamedData
