import NamedData.Name.Component

/-!
Hierarchical names. A name is a list of components, ordered component by component, a prefix before
the names it begins.
-/

namespace NamedData

/-- A hierarchical name, its components from the root down. -/
abbrev Name := List Component

namespace Name

/-- The first components of a name, or all of it if it has no more. -/
def first (n : Name) (count : Nat) : Name :=
  n.take count

def adding (n : Name) (c : Component) : Name :=
  n ++ [c]

def parent? (n : Name) : Option Name :=
  if n.isEmpty then none else some n.dropLast

/-- Whether every component of the first name begins the second. -/
def begins (shorter longer : Name) : Bool :=
  List.isPrefixOf shorter longer

/-- Whether the first name is before the second or equal to it. -/
def atMost (a b : Name) : Bool :=
  (compare a b).isLE

def endsWithDigest (n : Name) : Bool :=
  n.getLast?.any Component.isImplicitDigest

/-- The component that keeps a name on the host. -/
def localhost : Component :=
  .generic [108, 111, 99, 97, 108, 104, 111, 115, 116]

/-- The component that keeps a name within one hop of the host. -/
def localhop : Component :=
  .generic [108, 111, 99, 97, 108, 104, 111, 112]

def isLocalhost (n : Name) : Bool :=
  n.head? = some localhost

def isLocalhop (n : Name) : Bool :=
  n.head? = some localhop

theorem begins_iff_prefix {shorter longer : Name} : shorter.begins longer ↔ shorter <+: longer :=
  List.isPrefixOf_iff_prefix

end Name

end NamedData
