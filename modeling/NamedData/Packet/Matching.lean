import NamedData.Packet.Basic

/-!
When Data answers an Interest. An Interest whose name is one component longer than the Data's asks
for one packet by its full name and is compared with the digest; any other Interest asks by name or,
if it says so, by a prefix of the name.
-/

namespace NamedData.Interest

/-- Whether the Interest's name is the given one followed by a digest. -/
def namesDigestOf (i : Interest) (name : Name) : Bool :=
  i.name.length = name.length + 1 && i.name.endsWithDigest && i.name.first name.length = name

/-- Whether the last component of the Interest's name has the bytes of the digest. -/
def endsWith (i : Interest) (digest : Digest) : Bool :=
  i.name.getLast?.any fun c => c.bytes = digest.bytes

/-- Whether Data with the given name and digest answers the Interest. -/
def isAnsweredBy (i : Interest) (name : Name) (digest : Digest) : Bool :=
  if i.name.length = name.length + 1 then i.namesDigestOf name && i.endsWith digest
  else if i.canBePrefix then i.name.begins name
  else i.name = name

theorem namesDigestOf_eq_true {i : Interest} {name : Name} :
    i.namesDigestOf name = true ↔
      ∃ c : Component, c.isImplicitDigest = true ∧ i.name = name.adding c := by
  simp only [namesDigestOf, Bool.and_eq_true, decide_eq_true_eq]
  constructor
  · rintro ⟨⟨hlength, hdigest⟩, hfirst⟩
    simp only [Name.endsWithDigest, Option.any_eq_true] at hdigest
    obtain ⟨c, hlast, hc⟩ := hdigest
    obtain ⟨start, hsplit⟩ := List.getLast?_eq_some_iff.mp hlast
    rw [hsplit] at hlength hfirst
    have hstart : start = name := by
      simpa [Name.first, Nat.succ.inj (List.length_append.symm.trans hlength).symm] using hfirst
    exact ⟨c, hc, by rw [hsplit, hstart, Name.adding]⟩
  · rintro ⟨c, hc, hname⟩
    simp [hname, Name.adding, Name.endsWithDigest, Name.first, hc]

end NamedData.Interest
