import NamedData.ContentStore.Cache
import NamedData.DeadNonceList
import NamedData.Policy.Unsolicited

/-!
The settings of a node. Every setting has a default.
-/

namespace NamedData

/-- What can be set for a node. -/
structure Settings where
  deadNonceLifetime : Millis := DeadNonceList.defaultLifetime
  unsolicitedPolicy : UnsolicitedPolicy := .default
  regions : List Name := []
  storeCapacity : Nat := Cache.defaultCapacity
  storeRetention : Millis := Cache.defaultRetention
deriving DecidableEq

end NamedData
