import Mathlib.Algebra.Group.Nat.Defs
import Mathlib.Data.Set.Function
import Mathlib.Tactic.Common
import NamedData.Packet.Digest
import NamedData.Packet.Matching

/-!
What an Interest for a full name asks for. The canonical form of a packet of a given name can be
read back, so two packets of one name with one digest are the same packet unless the hash function
collides on their two forms. An Interest for the full name of a packet is therefore answered by that
packet, and beyond it only by packets that carry the digest in their own names.
-/

namespace NamedData

/-! ### Numbers from their bytes -/

theorem length_bigEndian (count n : Nat) : (bigEndian count n).length = count := by
  induction count with
  | zero => rfl
  | succ count ih => rw [bigEndian, List.length_cons, ih]

/-- The bytes of a number determine it up to the parts that are left out. -/
theorem mod_eq_of_bigEndian {count n m : Nat} (h : bigEndian count n = bigEndian count m) :
    n % 2 ^ (8 * count) = m % 2 ^ (8 * count) := by
  induction count with
  | zero => rw [Nat.mul_zero, Nat.pow_zero, Nat.mod_one, Nat.mod_one]
  | succ count ih =>
    rw [bigEndian, bigEndian, List.cons.injEq, Nat.shiftRight_eq_div_pow,
      Nat.shiftRight_eq_div_pow] at h
    have hHead : n / 2 ^ (8 * count) % 2 ^ 8 = m / 2 ^ (8 * count) % 2 ^ 8 := by
      simpa using congrArg UInt8.toNat h.1
    rw [Nat.mul_succ, Nat.pow_add, Nat.mod_mul, Nat.mod_mul, hHead, ih h.2]

theorem eq_of_bigEndian_eight {a b : UInt64} (h : bigEndian 8 a.toNat = bigEndian 8 b.toNat) :
    a = b := by
  have hFits (c : UInt64) : c.toNat < 2 ^ (8 * 8) := c.toNat_lt
  have hMod := mod_eq_of_bigEndian h
  rw [Nat.mod_eq_of_lt (hFits a), Nat.mod_eq_of_lt (hFits b)] at hMod
  exact UInt64.toNat_inj.mp hMod

/-! ### Packets from their digests -/

theorem Digest.bytes_inj {a b : Digest} : a.bytes = b.bytes ↔ a = b := by
  cases a
  cases b
  simp

namespace Data

/-- Whether two packets are the same apart from the tag of this node. -/
def IsCopyOf (d e : Data) : Prop :=
  d.name = e.name ∧ d.freshness = e.freshness ∧ d.content = e.content

instance (d e : Data) : Decidable (d.IsCopyOf e) :=
  inferInstanceAs (Decidable (_ ∧ _))

theorem IsCopyOf.canonical {d e : Data} (h : d.IsCopyOf e) : d.canonical = e.canonical := by
  rw [Data.canonical, Data.canonical, h.1, h.2.1, h.2.2]

/-- The canonical form is read back from the name on: the freshness period has a fixed width and the
content is the rest. -/
theorem isCopyOf_of_canonical {d e : Data} (hName : d.name = e.name)
    (h : d.canonical = e.canonical) : d.IsCopyOf e := by
  rw [canonical, canonical, hName, List.append_assoc, List.append_assoc] at h
  have hRest := List.append_cancel_left h
  have hLength :
      (bigEndian 8 d.freshness.toNat).length = (bigEndian 8 e.freshness.toNat).length := by
    rw [length_bigEndian, length_bigEndian]
  obtain ⟨hFreshness, hContent⟩ := List.append_inj hRest hLength
  exact ⟨hName, eq_of_bigEndian_eight hFreshness, hContent⟩

variable {hash : HashFunction} {d e : Data}

theorem isCopyOf_iff_digest (hHash : Set.InjOn hash {d.canonical, e.canonical})
    (hName : e.name = d.name) :
    e.IsCopyOf d ↔ d.implicitDigest hash = e.implicitDigest hash := by
  constructor
  · intro h
    rw [implicitDigest, implicitDigest, h.canonical]
  · intro h
    have hForm : d.canonical = e.canonical := hHash (by simp) (by simp) h
    exact isCopyOf_of_canonical hName hForm.symm

theorem length_fullName : (d.fullName hash).length = d.name.length + 1 :=
  List.length_append

theorem getLast?_fullName :
    (d.fullName hash).getLast? = some (.implicitDigest (d.implicitDigest hash)) :=
  List.getLast?_concat

theorem endsWithDigest_fullName : (d.fullName hash).endsWithDigest := by
  rw [Name.endsWithDigest, getLast?_fullName]
  rfl

theorem first_fullName : (d.fullName hash).first d.name.length = d.name :=
  List.take_left

end Data

/-! ### Who answers a full name -/

section Answering

variable {hash : HashFunction} {d e : Data} {i : Interest}

theorem namesDigestOf_iff (hi : i.name = d.fullName hash)
    (hLength : d.name.length = e.name.length) :
    i.namesDigestOf e.name ↔ e.name = d.name := by
  rw [Interest.namesDigestOf, hi, Data.length_fullName, Data.endsWithDigest_fullName, ← hLength,
    Data.first_fullName]
  simp [eq_comm]

theorem endsWith_iff (hi : i.name = d.fullName hash) :
    i.endsWith (e.implicitDigest hash) ↔ d.implicitDigest hash = e.implicitDigest hash := by
  rw [Interest.endsWith, hi, Data.getLast?_fullName]
  simp [Component.implicitDigest, Digest.bytes_inj]

/-- An Interest for the full name of a packet is answered by the copies of the packet and by those
packets whose own names are the full name, or begin with it where the Interest allows this. -/
theorem fullName_answered_iff (hHash : Set.InjOn hash {d.canonical, e.canonical})
    (hi : i.name = d.fullName hash) :
    i.isAnsweredBy e.name (e.implicitDigest hash) ↔
      e.IsCopyOf d ∨
        (if i.canBePrefix then d.fullName hash <+: e.name else e.name = d.fullName hash) := by
  by_cases hLength : d.name.length = e.name.length
  · -- names of one length: the digest decides, and the full name is too long to begin the other
    have hShort : ¬ d.fullName hash <+: e.name := fun h => by
      have := h.length_le
      rw [Data.length_fullName] at this
      omega
    have hLonger :
        ¬ (if i.canBePrefix then d.fullName hash <+: e.name else e.name = d.fullName hash) := by
      split
      · exact hShort
      · exact fun h => hShort (h ▸ List.prefix_rfl)
    have hAsks : i.name.length = e.name.length + 1 := by rw [hi, Data.length_fullName, hLength]
    rw [Interest.isAnsweredBy, if_pos hAsks, Bool.and_eq_true, namesDigestOf_iff hi hLength,
      endsWith_iff hi, or_iff_left hLonger]
    constructor
    · rintro ⟨hName, hDigest⟩
      exact (Data.isCopyOf_iff_digest hHash hName).mpr hDigest
    · intro hCopy
      exact ⟨hCopy.1, (Data.isCopyOf_iff_digest hHash hCopy.1).mp hCopy⟩
  · -- names of different lengths: the digest is not looked at
    have hOther : ¬ e.IsCopyOf d := fun h => hLength (congrArg List.length h.1).symm
    have hAsks : ¬ i.name.length = e.name.length + 1 := by
      rw [hi, Data.length_fullName]
      omega
    rw [Interest.isAnsweredBy, if_neg hAsks, hi, or_iff_right hOther]
    split
    · exact Name.begins_iff_prefix
    · simp [eq_comm]

end Answering

/-! ### Packets that are taken for others -/

namespace Sample

def page : Data where
  name := [.generic [97]]
  content := [104, 105]

/-- Other content under the name of the page. -/
def forgedPage : Data where
  name := [.generic [97]]
  content := [104, 111]

/-- Data whose own name is the full name of the page. -/
def namesake : Data where
  name := page.fullName Sha256.digest

def pageByDigest : Interest where
  name := page.fullName Sha256.digest
  nonce := ⟨1⟩

theorem injOn_page_forged : Set.InjOn Sha256.digest {page.canonical, forgedPage.canonical} := by
  have hDigests : Sha256.digest page.canonical ≠ Sha256.digest forgedPage.canonical := by
    decide +kernel
  exact Set.injOn_pair.mpr fun h => absurd h hDigests

theorem injOn_page_namesake : Set.InjOn Sha256.digest {page.canonical, namesake.canonical} := by
  have hDigests : Sha256.digest page.canonical ≠ Sha256.digest namesake.canonical := by
    decide +kernel
  exact Set.injOn_pair.mpr fun h => absurd h hDigests

end Sample

open Sample

/-- The forged page does not answer the full name of the page. -/
theorem fullName_answered_iff_forged :
    Set.InjOn Sha256.digest {page.canonical, forgedPage.canonical} ∧
      ¬ pageByDigest.isAnsweredBy forgedPage.name (forgedPage.implicitDigest Sha256.digest) := by
  refine ⟨injOn_page_forged, ?_⟩
  rw [fullName_answered_iff injOn_page_forged rfl]
  rintro (hCopy | hName)
  · exact absurd hCopy (by decide)
  · exact absurd (congrArg List.length hName) (by decide)

/-- Data that is named by the full name of the page answers it without being the page. -/
theorem fullName_answered_by_namesake :
    Set.InjOn Sha256.digest {page.canonical, namesake.canonical} ∧
      pageByDigest.name = page.fullName Sha256.digest ∧
      pageByDigest.isAnsweredBy namesake.name (namesake.implicitDigest Sha256.digest) ∧
      ¬ namesake.IsCopyOf page := by
  refine ⟨injOn_page_namesake, rfl, ?_, ?_⟩
  · have hLonger : ¬ pageByDigest.name.length = namesake.name.length + 1 := by decide
    have hExact : ¬ pageByDigest.canBePrefix := Bool.false_ne_true
    have hName : pageByDigest.name = namesake.name := rfl
    rw [Interest.isAnsweredBy, if_neg hLonger, if_neg hExact]
    exact decide_eq_true hName
  · exact fun h => absurd (congrArg List.length h.1) (by decide)

end NamedData
