import NamedData.ContentStore.Cache

/-!
The content store of a node: a cache, or nothing at all.
-/

namespace NamedData

/-- Where a node looks for Data before it forwards an Interest. -/
inductive ContentStore where
  | disabled
  | cache (c : Cache)
deriving DecidableEq

namespace ContentStore

def find (s : ContentStore) (i : Interest) (now : Timestamp) : Option Data × ContentStore :=
  match s with
  | disabled => (none, disabled)
  | cache c =>
    let (found, c) := c.find i now
    (found, cache c)

def insert (s : ContentStore) (data : Data) (digest : Digest) (unsolicited : Bool)
    (now : Timestamp) : ContentStore :=
  match s with
  | disabled => disabled
  | cache c => cache (c.insert data digest unsolicited now)

def size : ContentStore → Nat
  | disabled => 0
  | cache c => c.size

def capacity? : ContentStore → Option Nat
  | disabled => none
  | cache c => some c.capacity

/-- Removes the packets that were not used for the retention time, if the store is a cache. -/
def prune? (s : ContentStore) (now : Timestamp) : Option ContentStore :=
  match s with
  | disabled => none
  | cache c => some (cache (c.prune now))

end ContentStore

end NamedData
