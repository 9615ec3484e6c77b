import NamedData.NameTree.Basic

/-!
Walks over a part of a name tree. A walk goes from a node to the nodes below it, in name order and
each node before those below it, carrying a context downwards, and turns back where it is told to.
-/

namespace NamedData

/-- What a walk sees of one node. -/
structure Visit (α σ : Type) where
  name : Name
  value : α
  context : σ

variable {α σ : Type}

/-- Walks over branches below a node with the given name and context. -/
def Branches.walk (inherit : σ → α → σ) (descend : Visit α σ → Bool) :
    Name → σ → Branches α → List (Visit α σ)
  | _, _, .nil => []
  | name, outer, .cons label value below after =>
    let visit : Visit α σ :=
      { name := name ++ [label], value := value, context := inherit outer value }
    let deeper :=
      if descend visit then below.walk inherit descend visit.name visit.context else []
    visit :: deeper ++ after.walk inherit descend name outer

/-- Walks over a tree whose root has the given name and inherits the given context. -/
def NameTree.walk (t : NameTree α) (inherit : σ → α → σ) (descend : Visit α σ → Bool)
    (name : Name) (outer : σ) : List (Visit α σ) :=
  let visit : Visit α σ := { name := name, value := t.value, context := inherit outer t.value }
  visit :: if descend visit then t.below.walk inherit descend name visit.context else []

end NamedData
