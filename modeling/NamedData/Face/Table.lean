import NamedData.Face.Basic

/-!
The faces of a node. A face belongs to the table once it is added; its number is never given to
another face, also after its removal. The content store has a pseudo-face that is always there.
-/

namespace NamedData

/-- A face with what its link does to the packets handed to it. -/
structure Face where
  info : FaceInfo
  /-- Whether the link takes a packet, given how many were handed to it before. -/
  takes : Nat → Bool := fun _ => true
  /-- How many packets were handed to the link. -/
  handed : Nat := 0

/-- Sending to a face may fail in one way. -/
inductive FaceError where
  | disconnected
deriving DecidableEq

def FaceError.message : FaceError → String
  | disconnected => "face is disconnected"

/-- All faces of a node in increasing order of number, and the number given last. -/
structure FaceTable where
  faces : List Face
  latest : Nat

namespace FaceTable

/-- The pseudo-face of the content store takes every packet and forgets it. -/
def contentStoreFace : Face where
  info := { face := .contentStore, scope := .onHost, link := .pointToPoint }

def initial : FaceTable where
  faces := [contentStoreFace]
  latest := FaceId.firstDynamic - 1

/-- The last number that a face can have. -/
def lastId : Nat := UInt32.size - 1

def add (t : FaceTable) (takes : Nat → Bool) (scope : FaceScope) (link : LinkType) :
    Option (FaceId × FaceTable) :=
  if t.latest < lastId then
    let face : FaceId := ⟨t.latest + 1⟩
    let info : FaceInfo := { face, scope, link }
    some (face, { faces := t.faces ++ [{ info, takes }], latest := t.latest + 1 })
  else none

def find? (t : FaceTable) (face : FaceId) : Option Face :=
  t.faces.find? fun f => f.info.face = face

def contains (t : FaceTable) (face : FaceId) : Bool :=
  (t.find? face).isSome

def info? (t : FaceTable) (face : FaceId) : Option FaceInfo :=
  (t.find? face).map Face.info

/-- Removes a face and says whether there was one. Reserved faces stay. -/
def remove (t : FaceTable) (face : FaceId) : Bool × FaceTable :=
  if face.id < FaceId.firstDynamic then (false, t)
  else if t.contains face then
    (true, { t with faces := t.faces.filter fun f => f.info.face ≠ face })
  else (false, t)

def modify (t : FaceTable) (face : FaceId) (change : Face → Face) : FaceTable :=
  { t with faces := t.faces.map fun f => if f.info.face = face then change f else f }

/-- Hands one packet to the link of a face and says whether it was taken. -/
def handOver (t : FaceTable) (face : FaceId) : Option (Bool × FaceTable) :=
  match t.find? face with
  | some f => some (f.takes f.handed, t.modify face fun f => { f with handed := f.handed + 1 })
  | none => none

/-- The far end of a link goes away: from now on it takes nothing. -/
def hangUp (t : FaceTable) (face : FaceId) : FaceTable :=
  t.modify face fun f => { f with takes := fun _ => false }

def ids (t : FaceTable) : List FaceId :=
  t.faces.map fun f => f.info.face

def size (t : FaceTable) : Nat :=
  t.faces.length

end FaceTable

end NamedData
