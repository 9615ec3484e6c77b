import NamedData.Face.Basic
import NamedData.Name.Basic
import NamedData.Text.Hex
import NamedData.Time.Timestamp

/-!
The three packets of the network: an Interest asks for Data by name, Data answers it, and a Nack
hands an Interest back with a reason. The face tags of a packet are local to this node.
-/

namespace NamedData

/-- The big-endian bytes of a number, the given count of them; higher parts are left out. -/
def bigEndian : Nat → Nat → List UInt8
  | 0, _ => []
  | count + 1, n => UInt8.ofNat (n >>> (8 * count)) :: bigEndian count n

/-- The random number that tells copies of one Interest from new requests. -/
structure Nonce where
  value : UInt32
deriving DecidableEq

namespace Nonce

def bytes (n : Nonce) : List UInt8 :=
  bigEndian 4 n.value.toNat

/-- A nonce is shown as eight hexadecimal digits. -/
def text (n : Nonce) : String :=
  Hex.text n.bytes

def tagged (n : Nonce) : String :=
  "Nonce(" ++ n.text ++ ")"

instance : Ord Nonce where
  compare a b := compare a.value b.value

end Nonce

/-- A request for Data. -/
structure Interest where
  name : Name
  canBePrefix : Bool := false
  mustBeFresh : Bool := false
  forwardingHint : List Name := []
  nonce : Nonce
  lifetime? : Option Millis := none
  incomingFace : Option FaceId := none
  nextHopFace : Option FaceId := none
deriving DecidableEq

namespace Interest

def defaultLifetime : Millis := 4000

def lifetime (i : Interest) : Millis :=
  i.lifetime?.getD defaultLifetime

/-- Whether two Interests ask for the same and so share a pending entry. -/
def sameSelectors (i j : Interest) : Bool :=
  i.name = j.name && i.canBePrefix = j.canBePrefix && i.mustBeFresh = j.mustBeFresh

/-- The Interest as it goes on a link, without the tags of this node. -/
def untagged (i : Interest) : Interest :=
  { i with incomingFace := none, nextHopFace := none }

end Interest

/-- A named piece of content. -/
structure Data where
  name : Name
  freshness : Millis := 0
  content : List UInt8 := []
  incomingFace : Option FaceId := none
deriving DecidableEq

/-- Why an Interest is handed back. -/
inductive NackReason where
  | unspecified
  | congestion
  | duplicate
  | noRoute
deriving DecidableEq

namespace NackReason

/-- How bad a reason is; no reason at all is the worst. -/
def severity : NackReason → Nat
  | congestion => 1
  | duplicate => 2
  | noRoute => 3
  | unspecified => 255

def isLessSevere (a b : NackReason) : Bool :=
  a.severity < b.severity

/-- The reason as it is shown to people. -/
def text : NackReason → String
  | unspecified => "None"
  | congestion => "Congestion"
  | duplicate => "Duplicate"
  | noRoute => "NoRoute"

end NackReason

/-- An Interest handed back with a reason. -/
structure Nack where
  interest : Interest
  reason : NackReason
  incomingFace : Option FaceId := none
deriving DecidableEq

/-- Any packet. -/
inductive Packet where
  | interest (i : Interest)
  | data (d : Data)
  | nack (n : Nack)
deriving DecidableEq

end NamedData
