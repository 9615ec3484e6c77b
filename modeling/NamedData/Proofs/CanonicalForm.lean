import NamedData.Proofs.FullName

/-!
What can be read off the canonical form of a packet. Each component tells its own length, so that
components are read back one by one; but nothing tells where the name ends, so that the bytes after
the name of one packet may be read as further components of a longer name. Apart from this, two
packets with one form are the same.
-/

namespace NamedData

/-! ### Numbers in their bytes -/

/-- The bytes of a number are those of its higher part, followed by those of its lower part. -/
theorem bigEndian_add (high low n : Nat) :
    bigEndian (high + low) n = bigEndian high (n >>> (8 * low)) ++ bigEndian low n := by
  induction high with
  | zero => rw [Nat.zero_add, bigEndian, List.nil_append]
  | succ high ih =>
    have hshift : n >>> (8 * (high + low)) = n >>> (8 * low) >>> (8 * high) := by
      rw [← Nat.shiftRight_add, Nat.mul_add, Nat.add_comm (8 * high)]
    rw [Nat.succ_add, bigEndian, bigEndian, ih, hshift, List.cons_append]

/-- Numbers that fit into their bytes are read back from them. -/
theorem eq_of_bigEndian {count n m : Nat} (hn : n < 2 ^ (8 * count)) (hm : m < 2 ^ (8 * count))
    (h : bigEndian count n = bigEndian count m) : n = m := by
  rw [← Nat.mod_eq_of_lt hn, ← Nat.mod_eq_of_lt hm]
  exact mod_eq_of_bigEndian h

/-! ### Components -/

namespace Component

/-- The length of the component can be written in four bytes. -/
def Fits (c : Component) : Prop :=
  c.bytes.length < 2 ^ 32

instance (c : Component) : Decidable c.Fits :=
  inferInstanceAs (Decidable (_ < _))

variable {c e : Component}

theorem eq_of_code (hcode : c.code = e.code) (hbytes : c.bytes = e.bytes) : c = e := by
  cases c
  cases e
  simp_all

/-- A component is read back from the front of any bytes. -/
theorem canonical_append_inj (hc : c.Fits) (he : e.Fits) {after after' : List UInt8}
    (h : c.canonical ++ after = e.canonical ++ after') : c = e ∧ after = after' := by
  have hwidth (count n m : Nat) : (bigEndian count n).length = (bigEndian count m).length := by
    rw [length_bigEndian, length_bigEndian]
  simp only [canonical, List.append_assoc] at h
  obtain ⟨hcode, hsized⟩ := List.append_inj h (hwidth 2 _ _)
  obtain ⟨hsize, hrest⟩ := List.append_inj hsized (hwidth 4 _ _)
  have hlength : c.bytes.length = e.bytes.length := eq_of_bigEndian hc he hsize
  obtain ⟨hbytes, hafter⟩ := List.append_inj hrest hlength
  have hnumber : c.code.toNat = e.code.toNat :=
    eq_of_bigEndian c.code.toNat_lt e.code.toNat_lt hcode
  exact ⟨eq_of_code (UInt16.toNat_inj.mp hnumber) hbytes, hafter⟩

/-- A number whose bytes begin like a component is no smaller than the code of the component in the
first two of them. -/
theorem le_of_bigEndian_eight {n : Nat} (hn : n < 2 ^ 64) {after after' : List UInt8}
    (h : bigEndian 8 n ++ after = c.canonical ++ after') : 2 ^ 48 ≤ n := by
  have hwidth : (bigEndian 2 (n >>> 48)).length = (bigEndian 2 c.code.toNat).length := by
    rw [length_bigEndian, length_bigEndian]
  have hparts : bigEndian 8 n = bigEndian 2 (n >>> 48) ++ bigEndian 6 n := bigEndian_add 2 6 n
  simp only [hparts, canonical, List.append_assoc] at h
  have hhigh : n >>> 48 < 2 ^ (8 * 2) := by
    rw [Nat.shiftRight_eq_div_pow]
    omega
  have hcode : n >>> 48 = c.code.toNat :=
    eq_of_bigEndian hhigh c.code.toNat_lt (List.append_inj h hwidth).1
  have hpositive : c.code.toNat ≠ 0 := fun hzero =>
    c.code_ne_zero (UInt16.toNat_inj.mp hzero)
  rw [Nat.shiftRight_eq_div_pow] at hcode
  omega

end Component

/-! ### Names -/

namespace Name

/-- The components of the name one after another, each with its code and its length. -/
def canonical (n : Name) : List UInt8 :=
  n.flatMap Component.canonical

/-- Every component tells its length. -/
def Fits (n : Name) : Prop :=
  ∀ c ∈ n, c.Fits

instance (n : Name) : Decidable n.Fits :=
  inferInstanceAs (Decidable (∀ c ∈ n, c.Fits))

theorem canonical_cons (c : Component) (n : Name) :
    canonical (c :: n) = c.canonical ++ canonical n :=
  List.flatMap_cons

theorem canonical_append (n rest : Name) : canonical (n ++ rest) = canonical n ++ canonical rest :=
  List.flatMap_append

/-- Of two names in front of the same bytes, one begins the other, and the bytes after it begin with
the components that it lacks. -/
theorem begins_of_canonical {n m : Name} (hn : n.Fits) (hm : m.Fits) {after after' : List UInt8}
    (h : n.canonical ++ after = m.canonical ++ after') :
    (∃ rest, m = n ++ rest ∧ after = canonical rest ++ after') ∨
      ∃ rest, n = m ++ rest ∧ after' = canonical rest ++ after := by
  induction n generalizing m with
  | nil => exact .inl ⟨m, rfl, h⟩
  | cons c n ih =>
    cases m with
    | nil => exact .inr ⟨c :: n, rfl, h.symm⟩
    | cons e m =>
      rw [canonical_cons, canonical_cons, List.append_assoc, List.append_assoc] at h
      obtain ⟨rfl, hrest⟩ := Component.canonical_append_inj (hn c List.mem_cons_self)
        (hm e List.mem_cons_self) h
      have hshorter := ih (fun d hd => hn d (List.mem_cons_of_mem c hd))
        (fun d hd => hm d (List.mem_cons_of_mem c hd)) hrest
      rcases hshorter with ⟨rest, rfl, hafter⟩ | ⟨rest, rfl, hafter⟩
      · exact .inl ⟨rest, rfl, hafter⟩
      · exact .inr ⟨rest, rfl, hafter⟩

end Name

/-! ### Packets -/

namespace Data

variable {d e : Data}

/-- The part of the canonical form that is not the name: the freshness period and the content. -/
def payload (d : Data) : List UInt8 :=
  bigEndian 8 d.freshness.toNat ++ d.content

theorem canonical_eq (d : Data) : d.canonical = d.name.canonical ++ d.payload :=
  List.append_assoc _ _ _

/-- The name of the second packet is longer, and what the first packet has instead of the further
components are just their bytes and those of the second packet's payload. -/
def RunsInto (d e : Data) : Prop :=
  ∃ rest : Name, rest ≠ [] ∧ e.name = d.name ++ rest ∧ d.payload = rest.canonical ++ e.payload

theorem RunsInto.canonical (h : d.RunsInto e) : d.canonical = e.canonical := by
  obtain ⟨rest, _, hname, hpayload⟩ := h
  rw [canonical_eq, canonical_eq, hname, hpayload, Name.canonical_append, List.append_assoc]

/-- A packet that runs into another one claims to be fresh for more than eight thousand years. -/
theorem RunsInto.le_freshness (h : d.RunsInto e) : 2 ^ 48 ≤ d.freshness.toNat := by
  obtain ⟨rest, hrest, _, hpayload⟩ := h
  cases rest with
  | nil => exact absurd rfl hrest
  | cons c rest =>
    rw [Name.canonical_cons, List.append_assoc] at hpayload
    exact Component.le_of_bigEndian_eight d.freshness.toNat_lt hpayload

/-- Two packets whose components tell their lengths have one canonical form only if they are the
same or one of them runs into the other, which then has the longer name. -/
theorem canonical_eq_iff (hd : d.name.Fits) (he : e.name.Fits) :
    (d.canonical = e.canonical ↔ d.IsCopyOf e ∨ d.RunsInto e ∨ e.RunsInto d) ∧
      (d.RunsInto e → d.name.length < e.name.length ∧ 2 ^ 48 ≤ d.freshness.toNat) ∧
      (e.RunsInto d → e.name.length < d.name.length ∧ 2 ^ 48 ≤ e.freshness.toNat) := by
  have hlonger {d e : Data} (h : d.RunsInto e) : d.name.length < e.name.length := by
    obtain ⟨rest, hrest, hname, _⟩ := h
    rw [hname, List.length_append]
    exact Nat.lt_add_of_pos_right (List.length_pos_iff.mpr hrest)
  refine ⟨⟨?_, ?_⟩, fun h => ⟨hlonger h, h.le_freshness⟩, fun h => ⟨hlonger h, h.le_freshness⟩⟩
  · intro h
    have hforms := h
    rw [canonical_eq, canonical_eq] at h
    rcases Name.begins_of_canonical hd he h with ⟨rest, hname, hpayload⟩ | ⟨rest, hname, hpayload⟩
    · by_cases hrest : rest = []
      · subst hrest
        exact .inl (isCopyOf_of_canonical (by rw [hname, List.append_nil]) hforms)
      · exact .inr (.inl ⟨rest, hrest, hname, hpayload⟩)
    · by_cases hrest : rest = []
      · subst hrest
        exact .inl (isCopyOf_of_canonical (by rw [hname, List.append_nil]) hforms)
      · exact .inr (.inr ⟨rest, hrest, hname, hpayload⟩)
  · rintro (hcopy | hruns | hruns)
    · exact hcopy.canonical
    · exact hruns.canonical
    · exact hruns.canonical.symm

end Data

/-! ### A packet that runs into another one -/

namespace Sample

/-- A packet at the root whose freshness period begins like a component and whose content goes on
with what is missing of the page. -/
def rootPage : Data where
  name := []
  freshness := 0x0008000000016100
  content := List.replicate 7 0 ++ page.content

end Sample

open Sample

/-- The page of the root has the form of another page, although they agree in nothing. -/
theorem canonical_eq_of_rootPage : rootPage.name.Fits ∧ page.name.Fits ∧
    rootPage.canonical = page.canonical ∧ rootPage.name ≠ page.name ∧
    rootPage.freshness ≠ page.freshness ∧ rootPage.content ≠ page.content := by
  decide

/-- The only way in which two different pages have one form. -/
theorem rootPage_runsInto_page : rootPage.name.Fits ∧ page.name.Fits ∧ rootPage.RunsInto page ∧
    2 ^ 48 ≤ rootPage.freshness.toNat := by
  have hroot : rootPage.name.Fits := by decide
  have hpage : page.name.Fits := by decide
  obtain ⟨hiff, hinto, hback⟩ := Data.canonical_eq_iff hroot hpage
  have hform : rootPage.canonical = page.canonical := by decide
  rcases hiff.mp hform with hcopy | hruns | hruns
  · exact absurd hcopy (by decide)
  · exact ⟨hroot, hpage, hruns, (hinto hruns).2⟩
  · exact absurd (hback hruns).1 (by decide)

end NamedData
