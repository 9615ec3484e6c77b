import NamedData.Name.Basic

/-!
The producer regions a node belongs to. An Interest whose forwarding hint points into one of them
has arrived and goes on by its own name.
-/

namespace NamedData

/-- Region names without repetition, in the order they were added. -/
structure RegionTable where
  names : List Name := []

namespace RegionTable

def insert (t : RegionTable) (region : Name) : RegionTable :=
  if region ∈ t.names then t else { names := t.names ++ [region] }

def remove (t : RegionTable) (region : Name) : Bool × RegionTable :=
  (region ∈ t.names, { names := t.names.filter (· ≠ region) })

def ofList (regions : List Name) : RegionTable :=
  regions.foldl insert {}

/-- Whether some delegation of a forwarding hint is a prefix of one of the regions. -/
def reaches (t : RegionTable) (hint : List Name) : Bool :=
  hint.any fun delegation => t.names.any fun region => delegation.begins region

end RegionTable

end NamedData
