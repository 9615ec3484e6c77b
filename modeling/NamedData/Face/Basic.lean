import NamedData.Ordered

/-!
Faces seen from outside: how a face is named, how far its link reaches, how many peers share the
link, and which peer a packet is meant for.
-/

namespace NamedData

/-- The number by which everything outside the face table refers to a face. -/
structure FaceId where
  id : Nat
deriving DecidableEq

namespace FaceId

/-- The number that no face ever has. -/
def invalid : FaceId := ⟨0⟩

/-- The pseudo-face that Data from the content store comes from. -/
def contentStore : FaceId := ⟨254⟩

/-- The first number given to an added face. -/
def firstDynamic : Nat := 256

def isValid (f : FaceId) : Bool :=
  f ≠ invalid

def text (f : FaceId) : String :=
  toString f.id

def tagged (f : FaceId) : String :=
  "FaceToken(" ++ f.text ++ ")"

end FaceId

/-- A peer behind a face. A point-to-point face has only the default peer, number zero. -/
structure FaceEndpoint where
  face : FaceId
  endpoint : Nat := 0
deriving DecidableEq

namespace FaceEndpoint

/-- Endpoints are ordered by face and then by peer. -/
def before (a b : FaceEndpoint) : Bool :=
  a.face.id < b.face.id || (a.face = b.face && a.endpoint < b.endpoint)

def ordered (peers : List FaceEndpoint) : List FaceEndpoint :=
  peers.foldr (insertDistinct before) []

end FaceEndpoint

/-- How far a link reaches. -/
inductive FaceScope where
  | onHost
  | offHost
deriving DecidableEq

def FaceScope.label : FaceScope → String
  | onHost => "Local"
  | offHost => "NonLocal"

/-- How many peers share a link. -/
inductive LinkType where
  | pointToPoint
  | multiAccess
  | adHoc
deriving DecidableEq

def LinkType.label : LinkType → String
  | pointToPoint => "PointToPoint"
  | multiAccess => "MultiAccess"
  | adHoc => "AdHoc"

/-- What is known of a face. -/
structure FaceInfo where
  face : FaceId
  scope : FaceScope
  link : LinkType
deriving DecidableEq

namespace FaceInfo

def isLocal (info : FaceInfo) : Bool :=
  info.scope = .onHost

def isPointToPoint (info : FaceInfo) : Bool :=
  info.link = .pointToPoint

/-- Whether peers of the face may not hear each other, so that sending back out of it is useful. -/
def isAdHoc (info : FaceInfo) : Bool :=
  info.link = .adHoc

end FaceInfo

end NamedData
