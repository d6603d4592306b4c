import LeaseOverlay.Lease.Pending
import LeaseOverlay.Lease.Registry
import LeaseOverlay.Seeding
import LeaseOverlay.Surroundings
import LeaseOverlay.Wire.Control
import LeaseOverlay.Wire.Header

namespace LeaseOverlay

structure NodeSettings where
  maxAttempts : Nat
  pendingTimeout : Time
  cacheLifetime : Time
  maxTtl : Nat
  deriving DecidableEq

structure Node where
  self : Descriptor
  settings : NodeSettings
  registry : Registry
  seeding : Seeding
  cache : Cache
  pending : Pending := {}
  queue : List Candidate := []
  leaseStopped : Bool := false
  bootstrapStopped : Bool := false
  monitorStopped : Bool := false
  /-- A shutdown arrives while the next descriptor is being checked. -/
  shutdownDue : Bool := false
  trace : List Effect := []
  deriving DecidableEq

namespace Node

def record (n : Node) (e : Effect) : Node := { n with trace := n.trace ++ [e] }

def emit (n : Node) (now : Time) (e : Event) : Node := n.record (.event now e)

def learnRoute (n : Node) (r : Route) : Node := n.record (.route r)

def send (env : Surroundings) (now : Time) (n : Node) (dest : Destination) (m : Message) :
    Node × Option SendError :=
  (n.record (.sent now dest (env.fault dest) m), env.fault dest)

def stopLease (n : Node) : Node := { n with leaseStopped := true }

def stopMonitor (n : Node) : Node := { n with monitorStopped := true }

def stopBootstrap (n : Node) : Node := { n with bootstrapStopped := true, queue := [] }

def stopSeeding (n : Node) : Node := { n with seeding := n.seeding.stop }

end Node

end LeaseOverlay
