import Mathlib.Data.UInt
import NamedData.Proofs.CanonicalForm
import NamedData.Proofs.NonceMemory

/-!
How far the hash of a name and a nonce tells pairs apart. The words that are mixed into the hash
write the pair down in full, so that two pairs never have the same words. Mixing in one word loses
nothing of the word or of what was mixed before, so that pairs whose words differ in one place have
different hashes: a new nonce for an old name is never taken for one that the name had before.
-/

namespace NamedData

/-- The length of the component is a number of sixty-four bits. -/
def Component.Sized (c : Component) : Prop :=
  c.bytes.length < 2 ^ 64

instance (c : Component) : Decidable c.Sized :=
  inferInstanceAs (Decidable (_ < _))

/-- The lengths of all components are numbers of sixty-four bits. -/
def Name.Sized (n : Name) : Prop :=
  ∀ c ∈ n, c.Sized

instance (n : Name) : Decidable n.Sized :=
  inferInstanceAs (Decidable (∀ c ∈ n, c.Sized))

namespace NonceHash

open chunkWords

variable {seed seed' w v : UInt64} {bytes bytes' : List UInt8} {ws vs after after' : List UInt64}
  {c c' : Component} {n n' : Name} {k k' : Nonce}

/-! ### Mixing -/

/-- A word that is turned by five bits. -/
def turn (w : UInt64) : UInt64 :=
  (w <<< 5) ||| (w >>> 59)

theorem toBitVec_turn (w : UInt64) : (turn w).toBitVec = w.toBitVec.rotateLeftAux 5 := rfl

/-- The bits only change their places. -/
theorem turn_inj (h : turn w = turn v) : w = v := by
  have hbits (i : Nat) : (w.toBitVec.rotateLeftAux 5).getLsbD i =
      (v.toBitVec.rotateLeftAux 5).getLsbD i := by
    rw [← toBitVec_turn, ← toBitVec_turn, h]
  refine UInt64.toBitVec_inj.mp (BitVec.eq_of_getLsbD_eq fun i hi => ?_)
  by_cases hhigh : 59 ≤ i
  · have hbit := hbits (i - 59)
    rw [BitVec.getLsbD_rotateLeftAux_of_lt (by omega),
      BitVec.getLsbD_rotateLeftAux_of_lt (by omega)] at hbit
    rwa [show 64 - 5 + (i - 59) = i by omega] at hbit
  · have hbit := hbits (i + 5)
    rw [BitVec.getLsbD_rotateLeftAux_of_ge (by omega),
      BitVec.getLsbD_rotateLeftAux_of_ge (by omega)] at hbit
    simpa [show i + 5 < 64 by omega] using hbit

/-- The factor is odd, so that it has an inverse. -/
theorem mul_factor_inj (h : w * 0x517cc1b727220a95 = v * 0x517cc1b727220a95) : w = v := by
  have hinverse : (0x517cc1b727220a95 : UInt64) * 0x2040003d780970bd = 1 := by decide
  calc w = w * 0x517cc1b727220a95 * 0x2040003d780970bd := by
        rw [UInt64.mul_assoc, hinverse, UInt64.mul_one]
    _ = v * 0x517cc1b727220a95 * 0x2040003d780970bd := by rw [h]
    _ = v := by rw [UInt64.mul_assoc, hinverse, UInt64.mul_one]

theorem mix_def (seed w : UInt64) : mix seed w = (turn seed ^^^ w) * 0x517cc1b727220a95 := rfl

/-- Different words leave different hashes. -/
theorem mix_word_inj (h : mix seed w = mix seed v) : w = v := by
  rw [mix_def, mix_def] at h
  exact (UInt64.xor_right_inj _).mp (mul_factor_inj h)

/-- After one more word different hashes are still different. -/
theorem mix_seed_inj (h : mix seed w = mix seed' w) : seed = seed' := by
  rw [mix_def, mix_def] at h
  exact turn_inj ((UInt64.xor_left_inj _).mp (mul_factor_inj h))

theorem foldl_mix_inj (ws : List UInt64) (h : ws.foldl mix seed = ws.foldl mix seed') :
    seed = seed' := by
  induction ws generalizing seed seed' with
  | nil => exact h
  | cons w rest ih => exact mix_seed_inj (ih h)

/-- Both lists have the same length, and they differ in exactly one place. -/
def DifferOnce (ws vs : List UInt64) : Prop :=
  ws.length = vs.length ∧ ∃! i : Nat, ws[i]? ≠ vs[i]?

/-- Lists that differ in one place leave different hashes. -/
theorem DifferOnce.foldl_mix_ne (h : DifferOnce ws vs) (seed : UInt64) :
    ws.foldl mix seed ≠ vs.foldl mix seed := by
  obtain ⟨hlength, i, hdiffer, hunique⟩ := h
  induction ws generalizing vs seed i with
  | nil =>
      rw [List.length_eq_zero_iff.mp hlength.symm] at hdiffer
      exact absurd rfl hdiffer
  | cons w ws ih =>
      obtain ⟨v, vs, rfl⟩ := List.exists_cons_of_length_eq_add_one hlength.symm
      have hrest : ws.length = vs.length := Nat.succ.inj hlength
      cases i with
      | zero =>
          have hsame : ws = vs := by
            refine List.ext_getElem? fun j => not_not.mp fun hne => ?_
            cases hunique (j + 1) hne
          subst hsame
          exact fun heq => hdiffer (congrArg some (mix_word_inj (foldl_mix_inj ws heq)))
      | succ i =>
          have hfirst : w = v := by
            refine not_not.mp fun hne => ?_
            cases hunique 0 fun heq => hne (Option.some.inj heq)
          subst hfirst
          exact ih (mix seed w) hrest i hdiffer fun j hj => Nat.succ.inj (hunique (j + 1) hj)

/-- The nonce is mixed in last. -/
theorem hash_eq_mix (n : Name) (k : Nonce) :
    hash n k = mix ((n.flatMap componentWords).foldl mix 0) k.value.toUInt64 := by
  rw [hash, words, List.foldl_append]
  rfl

theorem nonce_inj (h : k.value.toUInt64 = k'.value.toUInt64) : k = k' := by
  have hvalue : k.value = k'.value := UInt32.toNat_inj.mp (by simpa using congrArg UInt64.toNat h)
  cases k
  cases k'
  exact congrArg Nonce.mk hvalue

/-- Under one name different nonces have different hashes. -/
theorem hash_nonce_inj (h : hash n k = hash n k') : k = k' := by
  rw [hash_eq_mix, hash_eq_mix] at h
  exact nonce_inj (mix_word_inj h)

/-! ### Words of bytes -/

theorem word_concat (bytes : List UInt8) (b : UInt8) :
    word (bytes ++ [b]) = (word bytes <<< 8) ||| b.toUInt64 :=
  List.foldl_append

theorem toNat_shift_or (h : w.toNat < 2 ^ 56) (b : UInt8) :
    ((w <<< 8) ||| b.toUInt64).toNat = w.toNat * 2 ^ 8 + b.toNat := by
  have hshift : (w <<< 8).toNat = w.toNat <<< 8 := by
    have hroom : w.toNat <<< 8 < 2 ^ 64 := by
      rw [Nat.shiftLeft_eq]
      omega
    exact (UInt64.toNat_shiftLeft w 8).trans (Nat.mod_eq_of_lt hroom)
  rw [UInt64.toNat_or, hshift, UInt8.toNat_toUInt64,
    ← Nat.shiftLeft_add_eq_or_of_lt b.toNat_lt, Nat.shiftLeft_eq]

/-- A word has room for eight bytes. -/
theorem toNat_word_lt (h : bytes.length ≤ 8) : (word bytes).toNat < 2 ^ (8 * bytes.length) := by
  induction bytes using List.reverseRecOn with
  | nil => exact Nat.one_pos
  | append_singleton front b ih =>
      rw [List.length_append, List.length_singleton] at h ⊢
      have hfront := ih (by omega)
      have hroom : (2 : Nat) ^ (8 * front.length) ≤ 2 ^ 56 :=
        Nat.pow_le_pow_right (by decide) (by omega)
      rw [word_concat, toNat_shift_or (by omega), Nat.mul_add, Nat.pow_add]
      have hbyte := b.toNat_lt
      omega

/-- Eight bytes at most are read back from their word. -/
theorem word_inj (hlength : bytes.length = bytes'.length) (hle : bytes.length ≤ 8)
    (h : word bytes = word bytes') : bytes = bytes' := by
  induction bytes using List.reverseRecOn generalizing bytes' with
  | nil => exact (List.length_eq_zero_iff.mp hlength.symm).symm
  | append_singleton front b ih =>
      obtain ⟨front', b', rfl⟩ : ∃ front' b', bytes' = front' ++ [b'] := by
        cases bytes' using List.reverseRecOn with
        | nil => simp at hlength
        | append_singleton front' b' => exact ⟨front', b', rfl⟩
      simp only [List.length_append, List.length_singleton, Nat.add_right_cancel_iff] at hlength hle
      have hroom {l : List UInt8} (hl : l.length ≤ 7) : (word l).toNat < 2 ^ 56 :=
        Nat.lt_of_lt_of_le (toNat_word_lt (by omega))
          (Nat.pow_le_pow_right (by decide) (by omega))
      have hnumber := congrArg UInt64.toNat h
      rw [word_concat, word_concat, toNat_shift_or (hroom (by omega)),
        toNat_shift_or (hroom (by omega))] at hnumber
      have hbyte := b.toNat_lt
      have hbyte' := b'.toNat_lt
      have hlast : b = b' := UInt8.toNat_inj.mp (by omega)
      have hrest : word front = word front' := UInt64.toNat_inj.mp (by omega)
      rw [ih hlength (by omega) hrest, hlast]

/-- The first eight bytes, filled up with zeros if there are fewer. -/
def chunk (bytes : List UInt8) : List UInt8 :=
  bytes.take 8 ++ List.replicate (8 - (bytes.take 8).length) 0

theorem length_chunk (bytes : List UInt8) : (chunk bytes).length = 8 := by
  simp [chunk]

/-- The words of a byte string are that of its first eight bytes and those of the rest. -/
theorem chunkWords_of_ne_nil (h : bytes ≠ []) :
    chunkWords bytes = word (chunk bytes) :: chunkWords (bytes.drop 8) :=
  match bytes, h with
  | [_], _ | [_, _], _ | [_, _, _], _ | [_, _, _, _], _ | [_, _, _, _, _], _
  | [_, _, _, _, _, _], _ | [_, _, _, _, _, _, _], _
  | _ :: _ :: _ :: _ :: _ :: _ :: _ :: _ :: _, _ => rfl

/-- In front of other words, strings of the same length are read back from theirs. -/
theorem chunkWords_append_inj (hlength : bytes.length = bytes'.length)
    (h : chunkWords bytes ++ after = chunkWords bytes' ++ after') :
    bytes = bytes' ∧ after = after' := by
  -- Eight bytes at a time, so that the induction is on the length and not on the string.
  induction hsize : bytes.length using Nat.strongRecOn generalizing bytes bytes' with
  | ind size ih =>
      by_cases hnil : bytes = []
      · subst hnil
        rw [List.length_eq_zero_iff.mp hlength.symm] at h ⊢
        exact ⟨rfl, h⟩
      · have hnil' : bytes' ≠ [] := fun hempty => hnil (by simpa [hempty] using hlength)
        rw [chunkWords_of_ne_nil hnil, chunkWords_of_ne_nil hnil', List.cons_append,
          List.cons_append, List.cons.injEq] at h
        have hpositive := List.length_pos_iff.mpr hnil
        have hrest : (bytes.drop 8).length = (bytes'.drop 8).length := by
          rw [List.length_drop, List.length_drop, hlength]
        have htake : (bytes.take 8).length = (bytes'.take 8).length := by
          rw [List.length_take, List.length_take, hlength]
        have hchunk : chunk bytes = chunk bytes' :=
          word_inj (by rw [length_chunk, length_chunk]) (length_chunk bytes).le h.1
        have hfirst : bytes.take 8 = bytes'.take 8 := (List.append_inj hchunk htake).1
        obtain ⟨hdrop, hafter⟩ := ih (bytes.drop 8).length
          (by rw [List.length_drop]; omega) hrest h.2 rfl
        refine ⟨?_, hafter⟩
        rw [← List.take_append_drop 8 bytes, hfirst, hdrop, List.take_append_drop]

/-! ### Words of a pair -/

/-- A component is read back from the front of any words. -/
theorem componentWords_append_inj (hc : c.Sized) (hc' : c'.Sized)
    (h : componentWords c ++ after = componentWords c' ++ after') : c = c' ∧ after = after' := by
  simp only [componentWords, List.cons_append, List.cons.injEq] at h
  obtain ⟨hcode, hlength, hrest⟩ := h
  have hsize : c.bytes.length = c'.bytes.length := by
    calc c.bytes.length = c.bytes.length.toUInt64.toNat := (UInt64.toNat_ofNat_of_lt' hc).symm
      _ = c'.bytes.length.toUInt64.toNat := congrArg UInt64.toNat hlength
      _ = c'.bytes.length := UInt64.toNat_ofNat_of_lt' hc'
  obtain ⟨hbytes, hafter⟩ := chunkWords_append_inj hsize hrest
  have hnumber : c.code = c'.code :=
    UInt16.toNat_inj.mp (by simpa using congrArg UInt64.toNat hcode)
  exact ⟨Component.eq_of_code hnumber hbytes, hafter⟩

theorem words_cons (c : Component) (n : Name) (k : Nonce) :
    words (c :: n) k = componentWords c ++ words n k := by
  simp [words]

/-- A component has two words at least, so that a nonce alone is no longer name. -/
theorem words_nil_ne_words_cons (c : Component) (n : Name) (k k' : Nonce) :
    words [] k ≠ words (c :: n) k' := by
  intro h
  have hlength := congrArg List.length h
  simp [words, componentWords] at hlength

/-- A pair is read back from its words. -/
theorem words_inj (hn : n.Sized) (hn' : n'.Sized) (h : words n k = words n' k') :
    n = n' ∧ k = k' := by
  induction n generalizing n' with
  | nil =>
      cases n' with
      | nil => exact ⟨rfl, nonce_inj (List.cons.inj h).1⟩
      | cons c' n' => exact absurd h (words_nil_ne_words_cons c' n' k k')
  | cons c n ih =>
      cases n' with
      | nil => exact absurd h.symm (words_nil_ne_words_cons c n k' k)
      | cons c' n' =>
          obtain ⟨hfirst, hrest⟩ := List.forall_mem_cons.mp hn
          obtain ⟨hfirst', hrest'⟩ := List.forall_mem_cons.mp hn'
          rw [words_cons, words_cons] at h
          obtain ⟨rfl, hafter⟩ := componentWords_append_inj hfirst hfirst' h
          obtain ⟨rfl, rfl⟩ := ih hrest hrest' hafter
          exact ⟨rfl, rfl⟩

end NonceHash

/-! ### What the memory takes for known -/

namespace DeadNonceList

variable {l : DeadNonceList} {hash : UInt64} {now : Timestamp} {e : UInt64 × Timestamp}

theorem keysOnce_after (lifetime : Millis) (calls : List NonceCall) :
    KeysOnce (after lifetime calls).expiries := by
  induction calls with
  | nil => exact .nil
  | cons k earlier ih =>
      cases k with
      | add name nonce since => exact keysOnce_addHash ih _ since
      | has name nonce since => exact ih
      | prune since => exact keysOnce_prune ih since

theorem mem_prune (h : e ∈ (l.prune now).expiries) : e ∈ l.expiries :=
  List.mem_of_mem_filter h

theorem mem_addHash (h : e ∈ (l.addHash hash now).expiries) : e.1 = hash ∨ e ∈ l.expiries := by
  have hput (h : e ∈ (hash, now.adding l.lifetime) :: l.expiries.filter fun e => e.1 ≠ hash) :
      e.1 = hash ∨ e ∈ l.expiries := by
    rcases List.mem_cons.mp h with rfl | hold
    · exact .inl rfl
    · exact .inr (List.mem_of_mem_filter hold)
  rw [addHash] at h
  dsimp only at h
  split at h
  · exact hput (mem_prune h)
  · exact hput h

/-- Only hashes that were added are held. -/
theorem added_of_mem_after {lifetime : Millis} {calls : List NonceCall}
    (h : e ∈ (after lifetime calls).expiries) :
    ∃ name nonce since, .add name nonce since ∈ calls ∧ NonceHash.hash name nonce = e.1 := by
  induction calls with
  | nil => cases h
  | cons k earlier ih =>
      have hearlier (h : e ∈ (after lifetime earlier).expiries) : ∃ name nonce since,
          .add name nonce since ∈ k :: earlier ∧ NonceHash.hash name nonce = e.1 := by
        obtain ⟨name, nonce, since, member, hhash⟩ := ih h
        exact ⟨name, nonce, since, List.mem_cons_of_mem k member, hhash⟩
      cases k with
      | add name nonce since =>
          rcases mem_addHash h with hnew | hold
          · exact ⟨name, nonce, since, List.mem_cons_self, hnew.symm⟩
          · exact hearlier hold
      | has name nonce since => exact hearlier h
      | prune since => exact hearlier (mem_prune h)

end DeadNonceList

/-- The words of a pair determine its name and its nonce, and pairs whose words have one length and
differ in one place have different hashes. So a name has different hashes with different nonces, and
whatever the memory was told, at any times, a pair is taken for known only if it was added itself or
a pair with another name was. -/
theorem hash_separates_near_misses (n n' : Name) (k k' : Nonce) :
    (n.Sized → n'.Sized →
        (NonceHash.words n k = NonceHash.words n' k' ↔ n = n' ∧ k = k')) ∧
      (NonceHash.DifferOnce (NonceHash.words n k) (NonceHash.words n' k') →
        NonceHash.hash n k ≠ NonceHash.hash n' k') ∧
      (k ≠ k' → NonceHash.hash n k ≠ NonceHash.hash n k') ∧
      ∀ lifetime calls now, (DeadNonceList.after lifetime calls).has n k now = true →
        (∃ since, .add n k since ∈ calls) ∨ ∃ m j since, m ≠ n ∧ .add m j since ∈ calls ∧
          NonceHash.hash m j = NonceHash.hash n k := by
  refine ⟨fun hn hn' => ⟨NonceHash.words_inj hn hn', ?_⟩, fun h => h.foldl_mix_ne 0,
    fun hne heq => hne (NonceHash.hash_nonce_inj heq), fun lifetime calls now hhas => ?_⟩
  · rintro ⟨rfl, rfl⟩
    rfl
  · have hkeys := DeadNonceList.keysOnce_after lifetime calls
    obtain ⟨expiry, hheld, -⟩ := (DeadNonceList.has_iff_holds hkeys n k now).mp hhas
    obtain ⟨m, j, since, member, hhash⟩ := DeadNonceList.added_of_mem_after hheld
    by_cases hname : m = n
    · subst hname
      rw [NonceHash.hash_nonce_inj hhash] at member
      exact .inl ⟨since, member⟩
    · exact .inr ⟨m, j, since, hname, member, hhash⟩

namespace Sample

/-- A name whose component ends in its ninth byte, which has a word of its own. -/
def chapter (number : UInt8) : Name :=
  [.generic [99, 104, 97, 112, 116, 101, 114, 45, number]]

/-- The memory after a chapter was asked for. -/
def chapterAsked : List NonceCall :=
  [.add (chapter 49) ⟨1⟩ ⟨10⟩]

theorem chapters_differ_once :
    NonceHash.DifferOnce (NonceHash.words (chapter 49) ⟨1⟩) (NonceHash.words (chapter 50) ⟨1⟩) := by
  refine ⟨by decide, 3, by decide, fun j hj => ?_⟩
  match j, hj with
  | 0, hj | 1, hj | 2, hj | 4, hj | _ + 5, hj => exact absurd rfl hj
  | 3, _ => rfl

end Sample

open Sample

/-- Two chapters whose names differ in one word have different words and hashes, and when one was
asked for, it is known with its nonce and not with another one. -/
theorem hash_separates_chapters :
    (chapter 49).Sized ∧ (chapter 50).Sized ∧
      NonceHash.words (chapter 49) ⟨1⟩ ≠ NonceHash.words (chapter 50) ⟨1⟩ ∧
      NonceHash.hash (chapter 49) ⟨1⟩ ≠ NonceHash.hash (chapter 50) ⟨1⟩ ∧
      NonceHash.hash (chapter 49) ⟨2⟩ ≠ NonceHash.hash (chapter 49) ⟨1⟩ ∧
      (DeadNonceList.after 100 chapterAsked).has (chapter 49) ⟨1⟩ ⟨109⟩ = true ∧
      (DeadNonceList.after 100 chapterAsked).has (chapter 49) ⟨2⟩ ⟨109⟩ = false := by
  have hfirst : (chapter 49).Sized := by decide
  have hsecond : (chapter 50).Sized := by decide
  obtain ⟨hwords, hdiffer, -, -⟩ :=
    hash_separates_near_misses (chapter 49) (chapter 50) ⟨1⟩ ⟨1⟩
  obtain ⟨-, -, hnonce, hknown⟩ :=
    hash_separates_near_misses (chapter 49) (chapter 49) ⟨2⟩ ⟨1⟩
  refine ⟨hfirst, hsecond, fun heq => ?_, hdiffer chapters_differ_once, hnonce (by decide), ?_, ?_⟩
  · exact absurd ((hwords hfirst hsecond).mp heq).1 (by decide)
  · decide
  · refine Bool.eq_false_iff.mpr fun hhas => ?_
    rcases hknown 100 chapterAsked ⟨109⟩ hhas with ⟨since, member⟩ | ⟨m, j, since, hne, member, -⟩
    · cases List.mem_singleton.mp member
    · cases List.mem_singleton.mp member
      exact hne rfl

end NamedData
