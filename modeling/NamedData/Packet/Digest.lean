import NamedData.Packet.Basic

/-!
The implicit digest of Data and the full name that ends with it. The digest is taken over the
canonical form of the packet: each component as code, length and bytes, then the freshness period,
then the content. The hash function is a parameter; nodes use SHA-256.
-/

namespace NamedData

/-- A hash function with digests of thirty-two bytes. -/
abbrev HashFunction := List UInt8 → Digest

/-- A component as its code in two bytes, its length in four, and its bytes. -/
def Component.canonical (c : Component) : List UInt8 :=
  bigEndian 2 c.code.toNat ++ bigEndian 4 c.bytes.length ++ c.bytes

namespace Data

def canonical (d : Data) : List UInt8 :=
  d.name.flatMap Component.canonical ++ bigEndian 8 d.freshness.toNat ++ d.content

def implicitDigest (hash : HashFunction) (d : Data) : Digest :=
  hash d.canonical

/-- A name for exactly this packet: its name followed by its digest. -/
def fullName (hash : HashFunction) (d : Data) : Name :=
  d.name.adding (.implicitDigest (d.implicitDigest hash))

end Data

end NamedData
