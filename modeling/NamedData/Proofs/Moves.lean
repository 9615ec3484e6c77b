import Mathlib.Logic.Relation
import NamedData.Proofs.Records
import NamedData.Proofs.Timing
import NamedData.Strategy.BestRoute
import NamedData.Strategy.Multicast

/-!
What the built-in strategies do to the entry at hand, and what a tag asks for. Each answer of a
strategy is a sequence of a few moves; a property that every move keeps is kept by every answer, and
nothing else is known of a strategy where pipelines are reasoned about.
-/

namespace NamedData

namespace Focus

/-- One thing that is done to send an Interest, Data or a Nack on. -/
inductive Move : Focus → Focus → Prop where
  | say (f : Focus) (notice : Notice) : Move f (f.say notice)
  /-- The entry notes that its Interest is forwarded. -/
  | mark (f : Focus) (decision : RetransmissionDecision) (now : Timestamp) :
      Move f (f.onEntry fun e => e.recordForwarded decision now)
  /-- An Interest is sent to a face that it may go to or that its tag names. -/
  | forward (f : Focus) (egress : FaceEndpoint) (interest : Interest) (info : FaceInfo)
      (hinfo : f.node.faces.info? egress.face = some info)
      (hallowed : interest.nextHopFace = some egress.face ∨
        ∃ ingress, Scope.isEligible ingress interest info = true) :
      Move f (f.sendInterest egress interest)
  /-- Data is sent to a face that waits. -/
  | answer (f : Focus) (egress : FaceEndpoint) (data : Data)
      (hwaits : egress.face ∈ f.entry.inFaces) : Move f (f.sendData egress data)
  | handBack (f : Focus) (egress : FaceEndpoint) (reason : NackReason) :
      Move f (f.sendNack egress reason)
  | giveUp (f : Focus) : Move f f.reject

/-- A sequence of moves. -/
def Moves : Focus → Focus → Prop :=
  Relation.ReflTransGen Move

theorem Moves.refl (f : Focus) : f.Moves f :=
  Relation.ReflTransGen.refl

theorem Moves.trans {f g k : Focus} (h : f.Moves g) (h' : g.Moves k) : f.Moves k :=
  Relation.ReflTransGen.trans h h'

theorem Move.moves {f f' : Focus} (h : Move f f') : f.Moves f' :=
  Relation.ReflTransGen.single h

/-- What every move keeps is kept by sequences of moves. -/
theorem Moves.preserve {P : Focus → Prop} (hstep : ∀ f f', Move f f' → P f → P f') {f f' : Focus}
    (h : f.Moves f') (hf : P f) : P f' := by
  induction h with
  | refl => exact hf
  | tail _ step ih => exact hstep _ _ step ih

/-! ### The effect of moves -/

theorem Move.keeps {f f' : Focus} (h : Move f f') : f.Keeps f' := by
  cases h with
  | say notice => exact f.keeps_say notice
  | mark decision now => exact keeps_onEntry rfl
  | forward egress interest _ _ _ => exact f.keeps_sendInterest egress interest
  | answer egress data _ => exact f.keeps_sendData egress data
  | handBack egress reason => exact f.keeps_sendNack egress reason
  | giveUp => exact f.keeps_setExpiry 0

theorem Moves.keeps {f f' : Focus} (h : f.Moves f') : f.Keeps f' :=
  Moves.preserve (P := f.Keeps) (fun _ _ step hkeeps => hkeeps.trans step.keeps) h (.refl f)

/-- A move sends the Interest once more, or else it adds no record. -/
theorem Move.records {f f' : Focus} (h : Move f f') :
    f.entry.Shrinks f'.entry ∨ ∃ egress interest, f.node.faces.contains egress.face = true ∧
      f'.entry = f.entry.recordOut egress interest f.node.now := by
  cases h with
  | say notice => exact .inl (.refl _)
  | mark decision now => exact .inl ⟨List.Sublist.refl _, List.Sublist.refl _⟩
  | forward egress interest info hinfo _ =>
      have hknown := FaceTable.contains_of_info? hinfo
      exact .inr ⟨egress, interest, hknown, by rw [sendInterest_of_known hknown]⟩
  | answer egress data _ => exact .inl (f.entry.shrinks_deleteIn egress.face)
  | handBack egress reason =>
      rcases f.sendNack_cases egress reason with ⟨notice, hsay⟩ | ⟨_, _, _, _, _, hsent⟩
      · exact .inl (hsay ▸ .refl _)
      · exact .inl (hsent ▸ f.entry.shrinks_deleteIn egress.face)
  | giveUp => exact .inl ⟨List.Sublist.refl _, List.Sublist.refl _⟩

theorem Move.distinct {f f' : Focus} (h : Move f f') (hf : f.entry.Distinct) :
    f'.entry.Distinct := by
  rcases h.records with hshrinks | ⟨egress, interest, _, hrecord⟩
  · exact hf.of_shrinks hshrinks
  · rw [hrecord]
    exact hf.recordOut egress interest f.node.now

theorem Moves.distinct {f f' : Focus} (h : f.Moves f') (hf : f.entry.Distinct) :
    f'.entry.Distinct :=
  Moves.preserve (P := fun f => f.entry.Distinct) (fun _ _ step => step.distinct) h hf

def NamesKnownFaces (f : Focus) : Prop :=
  f.entry.Within fun face => f.node.faces.contains face = true

theorem Move.namesKnownFaces {f f' : Focus} (h : Move f f') (hf : f.NamesKnownFaces) :
    f'.NamesKnownFaces := by
  have hcontains : f'.node.faces.contains = f.node.faces.contains := by
    funext face
    rw [FaceTable.contains_eq, FaceTable.contains_eq, h.keeps.info?]
  unfold NamesKnownFaces
  rw [hcontains]
  rcases h.records with hshrinks | ⟨egress, interest, hknown, hrecord⟩
  · exact PitEntry.Within.of_shrinks hf hshrinks
  · rw [hrecord]
    exact PitEntry.Within.recordOut hf hknown interest f.node.now

theorem Moves.namesKnownFaces {f f' : Focus} (h : f.Moves f') (hf : f.NamesKnownFaces) :
    f'.NamesKnownFaces :=
  Moves.preserve (fun _ _ step => step.namesKnownFaces) h hf

/-- A move sets the timer to fire at once, or leaves it alone. -/
theorem Move.timer {f f' : Focus} (h : Move f f') :
    f' = f.reject ∨
      f'.node.timers = f.node.timers ∧ f'.entry.expiryTimer = f.entry.expiryTimer := by
  cases h with
  | say notice => exact .inr ⟨rfl, rfl⟩
  | mark decision now => exact .inr ⟨rfl, rfl⟩
  | forward egress interest info hinfo _ =>
      rw [sendInterest_of_known (FaceTable.contains_of_info? hinfo)]
      exact .inr ⟨(f.node.unmoved_dispatch _ egress _ Counters.Onward.outInterests).timers, rfl⟩
  | answer egress data _ => exact .inr ⟨(f.node.unmoved_sendData egress data).timers, rfl⟩
  | handBack egress reason =>
      rcases f.sendNack_cases egress reason with ⟨notice, hsay⟩ | ⟨_, _, _, _, _, hsent⟩
      · rw [hsay]
        exact .inr ⟨rfl, rfl⟩
      · rw [hsent]
        exact .inr ⟨(f.node.unmoved_dispatch _ egress _ Counters.Onward.outNacks).timers, rfl⟩
  | giveUp => exact .inl rfl

theorem Move.timed {f f' : Focus} (h : Move f f') (hf : f.Timed) : f'.Timed := by
  rcases h.timer with rfl | ⟨htimers, hid⟩
  · exact timed_setExpiry hf 0
  · exact timed_of_keeps hf h.keeps htimers hid

theorem Moves.timed {f f' : Focus} (h : f.Moves f') (hf : f.Timed) : f'.Timed :=
  Moves.preserve (fun _ _ step => step.timed) h hf

theorem Move.hasTimer {f f' : Focus} (h : Move f f') (hf : f.entry.expiryTimer.isSome) :
    f'.entry.expiryTimer.isSome := by
  rcases h.timer with rfl | ⟨_, hid⟩
  · exact Option.isSome_iff_exists.mpr ⟨_, f.expiryTimer_setExpiry 0⟩
  · rwa [hid]

theorem Moves.hasTimer {f f' : Focus} (h : f.Moves f') (hf : f.entry.expiryTimer.isSome) :
    f'.entry.expiryTimer.isSome :=
  Moves.preserve (P := fun f => f.entry.expiryTimer.isSome) (fun _ _ step => step.hasTimer) h hf

/-- Only the arrival of Data satisfies an entry. -/
theorem Move.satisfied {f f' : Focus} (h : Move f f') : f'.entry.satisfied = f.entry.satisfied := by
  cases h with
  | say notice => rfl
  | mark decision now => rfl
  | forward egress interest info hinfo _ =>
      rw [sendInterest_of_known (FaceTable.contains_of_info? hinfo)]
      rfl
  | answer egress data _ => rfl
  | handBack egress reason =>
      rcases f.sendNack_cases egress reason with ⟨notice, hsay⟩ | ⟨_, _, _, _, _, hsent⟩
      · rw [hsay]
        rfl
      · rw [hsent]
        rfl
  | giveUp => rfl

theorem Moves.satisfied {f f' : Focus} (h : f.Moves f') :
    f'.entry.satisfied = f.entry.satisfied :=
  Moves.preserve (P := fun g => g.entry.satisfied = f.entry.satisfied)
    (fun _ _ step hsame => step.satisfied.trans hsame) h rfl

end Focus

end NamedData
