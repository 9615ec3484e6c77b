import NamedData.Proofs.DeadNonces
import NamedData.Proofs.KeyedLists

/-!
What the memory of nonces answers. It is called in any way, at times that never decrease; a pair of
name and nonce is then known exactly if one with the same hash was added less than a lifetime ago.
No answer shows when the memory was swept, whether by a call or by itself after many insertions:
what a sweep drops could not be known any more.
-/

namespace NamedData

/-- A call to the memory of nonces. -/
inductive NonceCall where
  | add (name : Name) (nonce : Nonce) (now : Timestamp)
  | has (name : Name) (nonce : Nonce) (now : Timestamp)
  | prune (now : Timestamp)

namespace NonceCall

def time : NonceCall → Timestamp
  | add _ _ now => now
  | has _ _ now => now
  | prune now => now

def isPrune : NonceCall → Bool
  | prune _ => true
  | _ => false

/-- The times of some calls, the latest first, never decrease. -/
def InOrder (calls : List NonceCall) : Prop :=
  calls.Pairwise fun later earlier => earlier.time ≤ later.time

/-- Some call added a pair with the hash, and the time is within a lifetime of that. -/
def AddedWithin (lifetime : Millis) (calls : List NonceCall) (hash : UInt64) (now : Timestamp) :
    Prop :=
  ∃ name nonce since, add name nonce since ∈ calls ∧ NonceHash.hash name nonce = hash ∧
    now < since.adding lifetime

variable {lifetime : Millis} {calls : List NonceCall} {hash : UInt64} {name : Name} {nonce : Nonce}
  {now since : Timestamp} {k : NonceCall}

theorem addedWithin_add : AddedWithin lifetime (add name nonce since :: calls) hash now ↔
    NonceHash.hash name nonce = hash ∧ now < since.adding lifetime ∨
      AddedWithin lifetime calls hash now := by
  constructor
  · rintro ⟨name', nonce', since', member, hhash, hnow⟩
    rcases List.mem_cons.mp member with same | earlier
    · cases same
      exact .inl ⟨hhash, hnow⟩
    · exact .inr ⟨name', nonce', since', earlier, hhash, hnow⟩
  · rintro (⟨hhash, hnow⟩ | ⟨name', nonce', since', earlier, hhash, hnow⟩)
    · exact ⟨name, nonce, since, List.mem_cons_self, hhash, hnow⟩
    · exact ⟨name', nonce', since', List.mem_cons_of_mem _ earlier, hhash, hnow⟩

/-- Only additions count. -/
theorem addedWithin_cons_of_ne (h : ∀ name nonce since, k ≠ add name nonce since) :
    AddedWithin lifetime (k :: calls) hash now ↔ AddedWithin lifetime calls hash now := by
  constructor
  · rintro ⟨name, nonce, since, member, hadded⟩
    rcases List.mem_cons.mp member with same | earlier
    · exact absurd same.symm (h name nonce since)
    · exact ⟨name, nonce, since, earlier, hadded⟩
  · rintro ⟨name, nonce, since, earlier, hadded⟩
    exact ⟨name, nonce, since, List.mem_cons_of_mem k earlier, hadded⟩

theorem addedWithin_filter {keep : NonceCall → Bool}
    (h : ∀ name nonce since, keep (add name nonce since) = true) :
    AddedWithin lifetime (calls.filter keep) hash now ↔ AddedWithin lifetime calls hash now := by
  simp only [AddedWithin, List.mem_filter, h, and_true]

/-- What was added before lasts no longer than what is added now. -/
theorem AddedWithin.lt_adding (h : AddedWithin lifetime calls hash now)
    (hpast : ∀ k ∈ calls, k.time ≤ since) : now < since.adding lifetime := by
  obtain ⟨name, nonce, since', member, -, hnow⟩ := h
  exact Nat.lt_of_lt_of_le hnow (Timestamp.adding_le (hpast _ member) lifetime)

end NonceCall

namespace DeadNonceList

open NonceCall

variable {l : DeadNonceList} {hash other : UInt64} {now since : Timestamp}

def call (l : DeadNonceList) : NonceCall → Option Bool × DeadNonceList
  | .add name nonce now => (none, l.add name nonce now)
  | .has name nonce now => (some (l.has name nonce now), l)
  | .prune now => (none, l.prune now)

/-- The memory after some calls, the latest first. -/
def after (lifetime : Millis) : List NonceCall → DeadNonceList
  | [] => new lifetime
  | k :: earlier => ((after lifetime earlier).call k).2

/-! ### One call -/

/-- The hash is held with a time of forgetting that is still to come. -/
def Holds (l : DeadNonceList) (hash : UInt64) (now : Timestamp) : Prop :=
  ∃ expiry, (hash, expiry) ∈ l.expiries ∧ now < expiry

theorem has_iff_holds (h : KeysOnce l.expiries) (name : Name) (nonce : Nonce) (now : Timestamp) :
    l.has name nonce now = true ↔ l.Holds (NonceHash.hash name nonce) now := by
  simp only [has, expiry?, Option.any_eq_true, h.lookup_eq_some, decide_eq_true_eq, Holds]

/-- A sweep drops nothing that is still to be known. -/
theorem holds_prune (hle : since ≤ now) : (l.prune since).Holds hash now ↔ l.Holds hash now := by
  simp only [Holds, prune, List.mem_filter, decide_eq_true_eq]
  constructor
  · rintro ⟨expiry, ⟨member, -⟩, hnow⟩
    exact ⟨expiry, member, hnow⟩
  · rintro ⟨expiry, member, hnow⟩
    exact ⟨expiry, ⟨member, Nat.lt_of_le_of_lt hle hnow⟩, hnow⟩

/-- An addition is held for a lifetime, whether the memory is swept after it or not. -/
theorem holds_addHash (hle : since ≤ now) : (l.addHash other since).Holds hash now ↔
    hash = other ∧ now < since.adding l.lifetime ∨ hash ≠ other ∧ l.Holds hash now := by
  have hput : Holds { l with
      expiries := (other, since.adding l.lifetime) :: l.expiries.filter fun e => e.1 ≠ other
      insertsSincePrune := l.insertsSincePrune + 1 } hash now ↔
      hash = other ∧ now < since.adding l.lifetime ∨ hash ≠ other ∧ l.Holds hash now := by
    simp only [Holds, mem_put]
    constructor
    · rintro ⟨expiry, ⟨same, rfl⟩ | ⟨hne, member⟩, hnow⟩
      · exact .inl ⟨same, hnow⟩
      · exact .inr ⟨hne, expiry, member, hnow⟩
    · rintro (⟨same, hnow⟩ | ⟨hne, expiry, member, hnow⟩)
      · exact ⟨_, .inl ⟨same, rfl⟩, hnow⟩
      · exact ⟨expiry, .inr ⟨hne, member⟩, hnow⟩
  rw [addHash]
  dsimp only
  split
  · rw [holds_prune hle, hput]
  · exact hput

theorem keysOnce_prune (h : KeysOnce l.expiries) (now : Timestamp) :
    KeysOnce (l.prune now).expiries :=
  h.filter _

theorem keysOnce_addHash (h : KeysOnce l.expiries) (hash : UInt64) (now : Timestamp) :
    KeysOnce (l.addHash hash now).expiries := by
  have hput := h.put hash (now.adding l.lifetime)
  rw [addHash]
  dsimp only
  split
  · exact keysOnce_prune hput now
  · exact hput

/-! ### Any calls -/

/-- What the memory holds at any time from now on is what the calls added within a lifetime. -/
structure Follows (l : DeadNonceList) (lifetime : Millis) (calls : List NonceCall) : Prop where
  lifetime_eq : l.lifetime = lifetime
  keysOnce : KeysOnce l.expiries
  holds_iff : ∀ hash now, (∀ k ∈ calls, k.time ≤ now) →
    (l.Holds hash now ↔ AddedWithin lifetime calls hash now)

variable {lifetime : Millis} {calls : List NonceCall} {k : NonceCall}

theorem follows_new (lifetime : Millis) : (new lifetime).Follows lifetime [] where
  lifetime_eq := rfl
  keysOnce := .nil
  holds_iff hash now _ := by simp [Holds, new, AddedWithin]

theorem Follows.add (h : l.Follows lifetime calls) {name : Name} {nonce : Nonce}
    (hpast : ∀ k ∈ calls, k.time ≤ since) :
    (l.add name nonce since).Follows lifetime (.add name nonce since :: calls) where
  lifetime_eq := (l.lifetime_addHash _ since).trans h.lifetime_eq
  keysOnce := keysOnce_addHash h.keysOnce _ since
  holds_iff hash now hnow := by
    obtain ⟨hsince, hcalls⟩ : since ≤ now ∧ ∀ k ∈ calls, k.time ≤ now :=
      List.forall_mem_cons.mp hnow
    rw [DeadNonceList.add, holds_addHash hsince, h.holds_iff hash now hcalls, h.lifetime_eq,
      addedWithin_add]
    -- A hash that was added before is held with the later one of the two times.
    constructor
    · rintro (⟨rfl, hlt⟩ | ⟨-, hadded⟩)
      · exact .inl ⟨rfl, hlt⟩
      · exact .inr hadded
    · rintro (⟨rfl, hlt⟩ | hadded)
      · exact .inl ⟨rfl, hlt⟩
      · by_cases same : hash = NonceHash.hash name nonce
        · exact .inl ⟨same, hadded.lt_adding hpast⟩
        · exact .inr ⟨same, hadded⟩

theorem Follows.has (h : l.Follows lifetime calls) (name : Name) (nonce : Nonce)
    (since : Timestamp) : l.Follows lifetime (.has name nonce since :: calls) where
  lifetime_eq := h.lifetime_eq
  keysOnce := h.keysOnce
  holds_iff hash now hnow := by
    rw [h.holds_iff hash now (List.forall_mem_cons.mp hnow).2,
      addedWithin_cons_of_ne (k := .has name nonce since) nofun]

theorem Follows.prune (h : l.Follows lifetime calls) (since : Timestamp) :
    (l.prune since).Follows lifetime (.prune since :: calls) where
  lifetime_eq := h.lifetime_eq
  keysOnce := keysOnce_prune h.keysOnce since
  holds_iff hash now hnow := by
    obtain ⟨hsince, hcalls⟩ : since ≤ now ∧ ∀ k ∈ calls, k.time ≤ now :=
      List.forall_mem_cons.mp hnow
    rw [holds_prune hsince, h.holds_iff hash now hcalls,
      addedWithin_cons_of_ne (k := .prune since) nofun]

theorem Follows.call (h : l.Follows lifetime calls)
    (hpast : ∀ earlier ∈ calls, earlier.time ≤ k.time) :
    (l.call k).2.Follows lifetime (k :: calls) := by
  cases k with
  | add name nonce since => exact h.add hpast
  | has name nonce since => exact h.has name nonce since
  | prune since => exact h.prune since

theorem follows_after (lifetime : Millis) (inOrder : InOrder calls) :
    (after lifetime calls).Follows lifetime calls := by
  induction calls with
  | nil => exact follows_new lifetime
  | cons k earlier ih =>
      obtain ⟨hpast, hearlier⟩ := List.pairwise_cons.mp inOrder
      exact (ih hearlier).call hpast

theorem has_after_iff (lifetime : Millis) {name : Name} {nonce : Nonce}
    (inOrder : InOrder (.has name nonce now :: calls)) :
    (after lifetime calls).has name nonce now = true ↔
      AddedWithin lifetime calls (NonceHash.hash name nonce) now := by
  obtain ⟨hpast, hcalls⟩ := List.pairwise_cons.mp inOrder
  have hfollows := follows_after lifetime hcalls
  rw [has_iff_holds hfollows.keysOnce, hfollows.holds_iff _ now hpast]

end DeadNonceList

open NonceCall

/-- After any calls at times that never decrease, a pair is known exactly if one with the same hash
was added within a lifetime, and the answer would be the same if the memory had never been told to
sweep. -/
theorem nonces_known_for_lifetime (lifetime : Millis) {calls : List NonceCall} {name : Name}
    {nonce : Nonce} {now : Timestamp} (inOrder : InOrder (.has name nonce now :: calls)) :
    (((DeadNonceList.after lifetime calls).call (.has name nonce now)).1 = some true ↔
        ∃ name' nonce' since, .add name' nonce' since ∈ calls ∧
          NonceHash.hash name' nonce' = NonceHash.hash name nonce ∧
          now < since.adding lifetime) ∧
      ((DeadNonceList.after lifetime calls).call (.has name nonce now)).1 =
        ((DeadNonceList.after lifetime (calls.filter fun k => !k.isPrune)).call
          (.has name nonce now)).1 := by
  have hkept : InOrder (.has name nonce now :: calls.filter fun k => !k.isPrune) :=
    List.Pairwise.sublist (List.filter_sublist.cons_cons _) inOrder
  have hiff := DeadNonceList.has_after_iff lifetime inOrder
  refine ⟨by rw [DeadNonceList.call, Option.some.injEq, hiff]; rfl, ?_⟩
  rw [DeadNonceList.call, DeadNonceList.call, Option.some.injEq, Bool.eq_iff_iff, hiff,
    DeadNonceList.has_after_iff lifetime hkept, addedWithin_filter fun _ _ _ => rfl]

namespace Sample

/-- One pair, added so often that the last addition makes the memory sweep. -/
def addedOften : List NonceCall :=
  List.replicate DeadNonceList.pruneInterval (.add [.generic [97]] ⟨1⟩ ⟨10⟩)

theorem addedOften_inOrder (now : Timestamp) (hnow : Timestamp.mk 10 ≤ now) :
    InOrder (.has [.generic [97]] ⟨1⟩ now :: addedOften) := by
  have hold : InOrder addedOften := List.pairwise_replicate.mpr (.inr (Nat.le_refl 10))
  refine List.pairwise_cons.mpr ⟨fun k hk => ?_, hold⟩
  rw [List.eq_of_mem_replicate hk]
  exact hnow

end Sample

/-- A pair is still known after the sweep, until its lifetime of 100 is over. -/
theorem nonces_known_for_lifetime_of_many :
    let l := DeadNonceList.after 100 Sample.addedOften
    InOrder (.has [.generic [97]] ⟨1⟩ ⟨109⟩ :: Sample.addedOften) ∧
      InOrder (.has [.generic [97]] ⟨1⟩ ⟨110⟩ :: Sample.addedOften) ∧
      (l.call (.has [.generic [97]] ⟨1⟩ ⟨109⟩)).1 = some true ∧
      (l.call (.has [.generic [97]] ⟨1⟩ ⟨110⟩)).1 ≠ some true := by
  have hbefore := Sample.addedOften_inOrder ⟨109⟩ (by decide)
  have hafter := Sample.addedOften_inOrder ⟨110⟩ (by decide)
  refine ⟨hbefore, hafter, ?_, fun hknown => ?_⟩
  · exact (nonces_known_for_lifetime 100 hbefore).1.mpr
      ⟨_, ⟨1⟩, ⟨10⟩, List.mem_replicate.mpr ⟨by decide, rfl⟩, rfl, by decide⟩
  · obtain ⟨name, nonce, since, member, -, hlt⟩ :=
      (nonces_known_for_lifetime 100 hafter).1.mp hknown
    cases List.eq_of_mem_replicate member
    exact absurd hlt (by decide)

end NamedData
