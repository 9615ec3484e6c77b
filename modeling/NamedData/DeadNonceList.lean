import NamedData.Packet.Basic

/-!
The memory of resolved Interests. A name and nonce are remembered for a fixed time after their
pending entry is gone, so that a copy that loops back later is still recognised. Only a hash of the
pair is kept: the words that write the pair are mixed one by one into sixty-four bits.
-/

namespace NamedData

namespace NonceHash

/-- The words of a byte string, eight bytes each, the last one filled up with zeros. -/
def chunkWords : List UInt8 → List UInt64
  | [] => []
  | b0 :: b1 :: b2 :: b3 :: b4 :: b5 :: b6 :: b7 :: rest =>
    word [b0, b1, b2, b3, b4, b5, b6, b7] :: chunkWords rest
  | short => [word (short ++ List.replicate (8 - short.length) 0)]
where
  /-- The big-endian word of some bytes. -/
  word (bytes : List UInt8) : UInt64 :=
    bytes.foldl (fun w b => (w <<< 8) ||| b.toUInt64) 0

/-- The words of a component: its code, its length, and its bytes. -/
def componentWords (c : Component) : List UInt64 :=
  c.code.toUInt64 :: c.bytes.length.toUInt64 :: chunkWords c.bytes

def words (name : Name) (nonce : Nonce) : List UInt64 :=
  name.flatMap componentWords ++ [nonce.value.toUInt64]

def mix (hash word : UInt64) : UInt64 :=
  (((hash <<< 5) ||| (hash >>> 59)) ^^^ word) * 0x517cc1b727220a95

def hash (name : Name) (nonce : Nonce) : UInt64 :=
  (words name nonce).foldl mix 0

end NonceHash

/-- For each remembered hash the time when it is forgotten. -/
structure DeadNonceList where
  lifetime : Millis
  expiries : List (UInt64 × Timestamp) := []
  insertsSincePrune : Nat := 0

namespace DeadNonceList

/-- How long a pair is remembered unless the settings say otherwise. -/
def defaultLifetime : Millis := 6000

/-- How many insertions are accepted before the expired pairs are swept out. -/
def pruneInterval : Nat := 256

def new (lifetime : Millis) : DeadNonceList where
  lifetime := lifetime

def expiry? (l : DeadNonceList) (hash : UInt64) : Option Timestamp :=
  l.expiries.lookup hash

/-- Whether the pair is remembered at the given time. -/
def has (l : DeadNonceList) (name : Name) (nonce : Nonce) (now : Timestamp) : Bool :=
  (l.expiry? (NonceHash.hash name nonce)).any fun expiry => now < expiry

def prune (l : DeadNonceList) (now : Timestamp) : DeadNonceList :=
  { l with expiries := l.expiries.filter fun e => now < e.2, insertsSincePrune := 0 }

/-- Remembers a hash from the given time on, and sweeps now and then. -/
def addHash (l : DeadNonceList) (hash : UInt64) (now : Timestamp) : DeadNonceList :=
  let l := { l with
    expiries := (hash, now.adding l.lifetime) :: l.expiries.filter fun e => e.1 ≠ hash
    insertsSincePrune := l.insertsSincePrune + 1 }
  if pruneInterval ≤ l.insertsSincePrune then l.prune now else l

def add (l : DeadNonceList) (name : Name) (nonce : Nonce) (now : Timestamp) : DeadNonceList :=
  l.addHash (NonceHash.hash name nonce) now

/-- The number of remembered hashes, expired ones included until they are swept out. -/
def size (l : DeadNonceList) : Nat :=
  l.expiries.length

end DeadNonceList

end NamedData
