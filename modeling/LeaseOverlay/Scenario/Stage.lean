import LeaseOverlay.Node.Cycle
import LeaseOverlay.Node.Propagation

namespace LeaseOverlay.Scenario

inductive Fault
  | noRoute
  | badAddress
  | unreachable
  | encode
  | closed
  deriving DecidableEq

def Fault.error (dest : Destination) : Fault → SendError
  | noRoute => .noRoute dest
  | badAddress => .badAddress dest.text
  | unreachable => .unreachable dest "scripted"
  | encode => .encode "scripted"
  | closed => .closed

structure Stage where
  clock : Time := 0
  faults : List (Destination × Fault) := []
  groupUp : Bool := true
  routingReady : Bool := true
  seedsAnswer : Bool := true
  freshIds : Nat := 0

namespace Stage

def surroundings (s : Stage) : Surroundings where
  fault dest := (s.faults.lookup dest).map fun f => f.error dest
  groupUp := s.groupUp
  routingReady := s.routingReady
  seedsAnswer := s.seedsAnswer

def freshId (s : Stage) : String := "fresh-" ++ toString s.freshIds

end Stage

inductive Spread
  | propagate
  | inGroup
  | walk
  | walkTo (dests : List PeerId)
  | neighbors

inductive StageStep
  | setReady (on : Bool)
  | setGroupFails (on : Bool)
  | setSeedsFail (on : Bool)
  | fail (dest : Destination) (f : Fault)
  | heal (dest : Destination)
  | seeds
  | acceptable (d : Descriptor)
  | addSeedAddress (address : String)
  | addSeedRoute (r : Route)
  | stopSeeding
  | spread (way : Spread) (m : Message) (service param : String) (ttl : Nat)

structure Sight where
  connection : Connection
  moment : Time

inductive Answer
  | nothing
  | broken
  | flag (b : Bool)
  | count (n : Nat)
  | flagOrNothing (b : Option Bool)
  | peer (p : PeerId)
  | peers (ps : List PeerId)
  | candidates (cs : List Candidate)
  | descriptors (ds : List Descriptor)
  | sent (error : Option SendError)
  | reply (o : ReplyOutcome)
  | state (s : LeaseState)
  | granted (isNew : Bool) (p : PeerId)
  | membership (known : Bool) (r : Registry)
  | sight (s : Option Sight)
  | cycle (o : CycleOutcome)
  | cached (error : Option CacheError)
  | cacheSize (n : Nat) (isEmpty : Bool)

def needsHeader (m : Message) : Bool := !m.has Header.element

def spread (s : Stage) (n : Node) (way : Spread) (p : Propagation) : Node × Answer :=
  let env := s.surroundings
  match way with
  | .propagate => let r := n.propagate env s.clock p; (r.1, .count r.2)
  | .inGroup => let r := n.propagateInGroup env s.clock p; (r.1, .count r.2)
  | .walk => let r := n.walk env s.clock p; (r.1, .count r.2)
  | .walkTo dests => let r := n.walkTo env s.clock dests p; (r.1, .count r.2)
  | .neighbors => let r := n.propagateToNeighbors env p; (r.1, .flag r.2)

/-- A step on the stage and a node. A fresh identifier counts as seen once a copy was sent. -/
def StageStep.run (s : Stage) (n : Node) : StageStep → Stage × Node × Answer
  | setReady on => ({ s with routingReady := on }, n, .nothing)
  | setGroupFails on => ({ s with groupUp := !on }, n, .nothing)
  | setSeedsFail on => ({ s with seedsAnswer := !on }, n, .nothing)
  | fail dest f =>
    ({ s with faults := (dest, f) :: s.faults.filter fun e => e.1 ≠ dest }, n, .nothing)
  | heal dest => ({ s with faults := s.faults.filter fun e => e.1 ≠ dest }, n, .nothing)
  | seeds => (s, n, .candidates (n.seeding.candidates n.cache s.clock))
  | acceptable d => (s, n, .flag (n.seeding.accepts d))
  | addSeedAddress address =>
    (s, { n with seeding := n.seeding.addAddress address }, .nothing)
  | addSeedRoute r => (s, { n with seeding := n.seeding.addRoute r }, .nothing)
  | stopSeeding => (s, n.stopSeeding, .nothing)
  | .spread way m service param ttl =>
    let r := Scenario.spread s n way ⟨m, service, param, ttl, s.freshId⟩
    let seen := needsHeader m && r.1.trace.length != n.trace.length
    ({ s with freshIds := if seen then s.freshIds + 1 else s.freshIds }, r.1, r.2)

end LeaseOverlay.Scenario
