import NamedData.ContentStore.Basic
import NamedData.Settings.Basic
import NamedData.Strategy.BestRoute
import NamedData.Strategy.Multicast

/-!
A forwarder: a node with its strategies, its content store and its policy for unsolicited Data.
Nothing in it blocks or runs by itself. Packets come in through the pipelines, pending Interests end
when timers are run, and everything that goes out is handed to a face. An operation that depends on
the time is given the reading of the clock.
-/

namespace NamedData

/-- A node with everything that takes part in forwarding. -/
structure Forwarder where
  node : Node
  /-- The strategies by their number. -/
  strategies : List Strategy
  store : ContentStore
  policy : UnsolicitedPolicy
  hash : HashFunction

namespace Forwarder

/-- The strategies that every forwarder starts with; the first one is in effect at the root. -/
def builtInStrategies : List Strategy :=
  [.bestRoute {}, .multicast {}]

def new (settings : Settings) (store : ContentStore) (hash : HashFunction) : Forwarder where
  node :=
    { tables := .new 0
      deadNonces := .new settings.deadNonceLifetime
      regions := .ofList settings.regions }
  strategies := builtInStrategies
  store := store
  policy := settings.unsolicitedPolicy
  hash := hash

def storeFor (settings : Settings) : ContentStore :=
  .cache (.new settings.storeCapacity settings.storeRetention)

def onNode (fw : Forwarder) (change : Node → Node) : Forwarder :=
  { fw with node := change fw.node }

def say (fw : Forwarder) (notice : Notice) : Forwarder :=
  fw.onNode fun n => n.say notice

def tick (fw : Forwarder) (now : Timestamp) : Forwarder :=
  fw.onNode fun n => { n with now }

def atEntry (fw : Forwarder) (token : PitToken) (work : Focus → Except Fault Focus) :
    Except Fault Forwarder := do
  let f ← work (← fw.node.focus token)
  .ok { fw with node := f.release }

def strategy (fw : Forwarder) (id : Nat) : Except Fault Strategy :=
  match fw.strategies[id]? with
  | some s => .ok s
  | none => .error (.unknownStrategy id)

/-- Asks the strategy in effect at the name of the entry at hand. -/
def consult (fw : Forwarder) (f : Focus) (ask : Strategy → Focus → Focus) : Except Fault Focus := do
  let s ← fw.strategy (f.node.tables.effectiveStrategy f.entry.name)
  .ok (ask s f)

/-! ### Faces -/

def addFace (fw : Forwarder) (takes : Nat → Bool) (scope : FaceScope) (link : LinkType) :
    Option (FaceId × Forwarder) :=
  match fw.node.faces.add takes scope link with
  | some (face, faces) =>
    some (face, (fw.onNode fun n => { n with faces }).say (.faceAdded { face, scope, link }))
  | none => none

/-- Forgets the records of a face in one entry. An entry left without any record ends when timers
are run next. -/
def forgetFace (face : FaceId) (f : Focus) : Focus :=
  if f.entry.mentions face then
    let f := f.onEntry fun e => e.forgetFace face
    if f.entry.hasRecords then f else f.reject
  else f

/-- Removes a face with its next hops and records, and says whether there was one that could be
removed. -/
def removeFace (fw : Forwarder) (now : Timestamp) (face : FaceId) :
    Except Fault (Bool × Forwarder) := do
  let fw := fw.tick now
  match fw.node.faces.remove face with
  | (false, _) => .ok (false, fw)
  | (true, faces) =>
    let fw := (fw.onNode fun n => { n with faces }).say (.faceRemoved face)
    let fw := fw.onNode fun n => { n with tables := n.tables.forgetNextHop face }
    let fw ← fw.node.tables.pit.tokens.foldlM
      (fun fw token => fw.atEntry token fun f => .ok (forgetFace face f)) fw
    .ok (true, fw.onNode fun n => { n with disconnected := n.disconnected.filter (· ≠ face) })

/-- The far end of a face's link goes away. -/
def hangUp (fw : Forwarder) (face : FaceId) : Forwarder :=
  fw.onNode fun n => { n with faces := n.faces.hangUp face }

/-- The faces that refused a packet since this was asked last. -/
def takeDisconnected (fw : Forwarder) : List FaceId × Forwarder :=
  (fw.node.disconnected, fw.onNode fun n => { n with disconnected := [] })

def takeJournal (fw : Forwarder) : Journal × Forwarder :=
  (fw.node.journal, fw.onNode fun n => { n with journal := {} })

/-! ### Routes -/

/-- Where the walk over the entries for a new next hop goes on: below the prefix itself, and below
names without next hops of their own. The root lets every walk go on. -/
def leadsOn (stem : Name) (v : NameVisit) : Bool :=
  v.depth = 0 || v.depth = stem.length || !v.hasNextHops

/-- Whether the entries of a name are offered a new next hop: those at the root always, others if
their strategy asks for it and the walk goes on at their name. -/
def isOffered (fw : Forwarder) (stem : Name) (v : NameVisit) : Bool :=
  v.depth = 0 ||
    (leadsOn stem v && v.hasPending &&
      fw.strategies[v.context]?.any Strategy.wantsNewNextHops)

/-- The entries that would use a next hop that is new to the prefix, in name order. -/
def offered (fw : Forwarder) (stem : Name) : List PitToken :=
  Tables.pendingAt (fw.node.tables.walk stem (leadsOn stem)) (fw.isOffered stem)

/-- Adds a next hop or changes its cost, if the face exists, and says whether it does. A next hop
that is new to the prefix is offered to the entries that would use it. -/
def addRoute (fw : Forwarder) (now : Timestamp) (stem : Name) (face : FaceId) (cost : Nat) :
    Except Fault (Bool × Forwarder) := do
  if fw.node.faces.contains face then
    let fw := fw.tick now
    let (isNew, tables) := fw.node.tables.addNextHop stem face cost
    let fw := (fw.onNode fun n => { n with tables }).say (.routeAdded stem face cost isNew)
    if isNew then
      let fw ← (fw.offered stem).foldlM
        (fun fw token => fw.atEntry token fun f =>
          fw.consult f fun s f => s.afterNewNextHop { cost, face } f) fw
      .ok (true, fw)
    else .ok (true, fw)
  else .ok (false, fw.say (.routeToUnknownFace stem face))

def removeRoute (fw : Forwarder) (stem : Name) (face : FaceId) : Bool × Forwarder :=
  let fw := fw.say (.routeRemoved stem face)
  let (isRemoved, tables) := fw.node.tables.removeNextHop stem face
  (isRemoved, fw.onNode fun n => { n with tables })

/-- The next hops for the pending entry of an Interest, if there is one. -/
def routeOf (fw : Forwarder) (interest : Interest) : Except Fault (Option (List NextHop)) := do
  match ← fw.node.tables.findPending interest with
  | some token => .ok (some (← fw.node.focus token).nextHops)
  | none => .ok none

/-! ### Strategies -/

def addStrategy (fw : Forwarder) (s : Strategy) : Nat × Forwarder :=
  let id := fw.strategies.length
  (id, { fw.say (.strategyAdded s.name id) with strategies := fw.strategies ++ [s] })

/-- The number of the first strategy of the given name. -/
def findStrategy? (fw : Forwarder) (name : String) : Option Nat :=
  fw.strategies.findIdx? fun s => s.name = name

/-- Chooses the strategy of a prefix, if there is a strategy of that number, and says whether there
is. -/
def setStrategy (fw : Forwarder) (stem : Name) (id : Nat) : Bool × Forwarder :=
  match fw.strategies[id]? with
  | some s =>
    (true, (fw.say (.strategyChosen stem s.name)).onNode
      fun n => { n with tables := n.tables.setStrategy stem id })
  | none => (false, fw.say (.strategyUnknown stem id))

/-- Takes back the choice for a prefix and says whether there was one. -/
def unsetStrategy (fw : Forwarder) (stem : Name) : Bool × Forwarder :=
  let (isRemoved, tables) := fw.node.tables.unsetStrategy stem
  (isRemoved, fw.onNode fun n => { n with tables })

/-! ### Policies and the content store -/

def setPolicy (fw : Forwarder) (policy : UnsolicitedPolicy) : Forwarder :=
  { fw with policy }

def addRegion (fw : Forwarder) (region : Name) : Forwarder :=
  fw.onNode fun n => { n with regions := n.regions.insert region }

def removeRegion (fw : Forwarder) (region : Name) : Bool × Forwarder :=
  let (isRemoved, regions) := fw.node.regions.remove region
  (isRemoved, fw.onNode fun n => { n with regions })

/-- Answers an Interest from the content store alone, at the time of the last pipeline. -/
def findStored (fw : Forwarder) (interest : Interest) : Option Data × Forwarder :=
  let (found, store) := fw.store.find interest fw.node.now
  (found, { fw with store })

def pruneStore? (fw : Forwarder) (now : Timestamp) : Option Forwarder :=
  (fw.store.prune? now).map fun store => { fw with store }

end Forwarder

end NamedData
