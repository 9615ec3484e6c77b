import NamedData.Face.Basic

/-!
What to do with Data that nobody asked for: drop it or keep it in the content store, depending on
where it came from.
-/

namespace NamedData

/-- Which unsolicited Data is kept. -/
inductive UnsolicitedPolicy where
  | dropAll
  | admitLocal
  | admitNetwork
  | admitAll
deriving DecidableEq

/-- What happens to one piece of unsolicited Data. -/
inductive UnsolicitedDecision where
  | drop
  | cache
deriving DecidableEq

def UnsolicitedDecision.text : UnsolicitedDecision → String
  | drop => "drop"
  | cache => "cache"

namespace UnsolicitedPolicy

/-- Local applications may push Data unless the settings say otherwise. -/
def default : UnsolicitedPolicy := admitLocal

def ofKeyword? : String → Option UnsolicitedPolicy
  | "drop-all" => some dropAll
  | "admit-local" => some admitLocal
  | "admit-network" => some admitNetwork
  | "admit-all" => some admitAll
  | _ => none

def label : UnsolicitedPolicy → String
  | dropAll => "DropAll"
  | admitLocal => "AdmitLocal"
  | admitNetwork => "AdmitNetwork"
  | admitAll => "AdmitAll"

def decide (policy : UnsolicitedPolicy) (ingress : FaceInfo) : UnsolicitedDecision :=
  let admits := match policy with
    | dropAll => false
    | admitLocal => ingress.isLocal
    | admitNetwork => !ingress.isLocal
    | admitAll => true
  if admits then .cache else .drop

end UnsolicitedPolicy

end NamedData
