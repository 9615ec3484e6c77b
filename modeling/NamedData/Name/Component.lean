import NamedData.Hash.Sha256

/-!
Name components. A component is a nonzero type code with a byte string; three codes have a meaning
of their own. Components are ordered by code and then by their bytes, which is a total order that
agrees with equality.
-/

namespace NamedData

/-- What the type code of a component says about its bytes. -/
inductive ComponentKind where
  | generic
  | implicitDigest
  | parameterDigest
  | other (code : UInt16)
deriving DecidableEq

namespace ComponentKind

def code : ComponentKind → UInt16
  | generic => 8
  | implicitDigest => 1
  | parameterDigest => 2
  | other code => code

def ofCode (code : UInt16) : ComponentKind :=
  if code = 8 then generic
  else if code = 1 then implicitDigest
  else if code = 2 then parameterDigest
  else other code

def label : ComponentKind → String
  | generic => "Generic"
  | implicitDigest => "ImplicitSha256Digest"
  | parameterDigest => "ParameterSha256Digest"
  | other code => "Other(" ++ toString code.toNat ++ ")"

theorem code_ofCode (c : UInt16) : (ofCode c).code = c := by
  unfold ofCode
  split
  · simp_all [code]
  · split
    · simp_all [code]
    · split <;> simp_all [code]

end ComponentKind

/-- One component of a name. Code zero does not occur. -/
structure Component where
  code : UInt16
  bytes : List UInt8
  code_ne_zero : code ≠ 0 := by decide
deriving DecidableEq

namespace Component

/-- A component with the given code, unless the code is zero. -/
def ofCode? (code : UInt16) (bytes : List UInt8) : Option Component :=
  if h : code = 0 then none else some ⟨code, bytes, h⟩

def generic (bytes : List UInt8) : Component where
  code := 8
  bytes := bytes

/-- The component that ends a full name: the digest of the packet. -/
def implicitDigest (digest : Digest) : Component where
  code := 1
  bytes := digest.bytes

def parameterDigest (digest : Digest) : Component where
  code := 2
  bytes := digest.bytes

def kind (c : Component) : ComponentKind :=
  ComponentKind.ofCode c.code

/-- Whether the component is of the kind that ends a full name. -/
def isImplicitDigest (c : Component) : Bool :=
  c.kind = .implicitDigest

/-- Components compare by code first and by their bytes second. -/
instance : Ord Component where
  compare a b := (compare a.code b.code).then (compare a.bytes b.bytes)

theorem compare_def (a b : Component) :
    compare a b = (compare a.code b.code).then (compare a.bytes b.bytes) := rfl

instance : Std.LawfulEqOrd Component where
  compare_self := by simp [compare_def]
  eq_of_compare {a b} h := by
    rw [compare_def, Ordering.then_eq_eq] at h
    have hc := Std.LawfulEqOrd.eq_of_compare h.1
    have hb := Std.LawfulEqOrd.eq_of_compare h.2
    cases a
    cases b
    simp_all

instance : Std.OrientedOrd Component where
  eq_swap {a b} := by
    rw [compare_def, compare_def, Ordering.swap_then, ← Std.OrientedCmp.eq_swap,
      ← Std.OrientedCmp.eq_swap]

instance : Std.TransOrd Component where
  isLE_trans {a b c} hab hbc := by
    have codes := @Std.TransCmp.isLE_trans UInt16 compare _ a.code b.code c.code
    have bytes := @Std.TransCmp.isLE_trans (List UInt8) compare _ a.bytes b.bytes c.bytes
    simp only [compare_def, Ordering.isLE_then_iff_and] at hab hbc ⊢
    refine ⟨codes hab.1 hbc.1, ?_⟩
    rcases hab.2 with lt | le
    · exact .inl (Std.TransCmp.lt_of_lt_of_isLE lt hbc.1)
    · rcases hbc.2 with lt' | le'
      · exact .inl (Std.TransCmp.lt_of_isLE_of_lt hab.1 lt')
      · exact .inr (bytes le le')

end Component

end NamedData
