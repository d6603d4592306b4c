import LeaseOverlay.Config
import LeaseOverlay.Node.Cycle
import LeaseOverlay.Node.Propagation

namespace LeaseOverlay

structure Schedule where
  interval : Time
  retry : Time
  kickDelay : Time
  deriving DecidableEq

namespace Schedule

def delay (s : Schedule) : CycleOutcome → Option Time
  | .skipped => none
  | .notReady => some s.retry
  | .broken | .completed _ => some s.interval

def kicked (s : Schedule) (now due : Time) : Time := min due (now + s.kickDelay)

end Schedule

inductive Lifecycle
  | idle
  | running (due : Option Time)
  | stopped
  deriving DecidableEq

structure EdgePeer where
  node : Node
  schedule : Schedule
  lifecycle : Lifecycle := .idle
  deriving DecidableEq

namespace EdgePeer

def new (c : Config) (self : Descriptor) (seeding : Seeding) (cache : Cache) :
    Except ConfigError EdgePeer := do
  c.validate
  let r := c.rendezvous
  return {
    node := {
      self := self
      settings := {
        maxAttempts := r.maxSeedAttemptsPerCycle
        pendingTimeout := r.pendingRequestTimeout
        cacheLifetime := c.cache.descriptorLifetime
        maxTtl := r.maxTtl }
      registry := .new r.maxConnections r.leaseMargin
      seeding := seeding
      cache := cache }
    schedule := {
      interval := r.monitorInterval
      retry := r.startupRetry
      kickDelay := r.seedKickDelay } }

def isRunning (p : EdgePeer) : Bool :=
  match p.lifecycle with
  | .running _ => true
  | _ => false

def start (now : Time) (p : EdgePeer) : EdgePeer × Bool :=
  match p.lifecycle with
  | .idle => ({ p with lifecycle := .running (some now), node := p.node.emit now .becameEdge }, true)
  | _ => (p, false)

/-- Stops a peer for good: leases and monitor first, so that nothing is installed behind the last
step, which takes leave of every leased peer. -/
def stop (env : Surroundings) (now : Time) (p : EdgePeer) : EdgePeer :=
  match p.lifecycle with
  | .stopped => p
  | _ =>
    let node := p.node.stopLease.stopMonitor.stopBootstrap.stopSeeding
    { p with lifecycle := .stopped, node := (node.disconnectAll env now).1 }

def kick (now : Time) (p : EdgePeer) : EdgePeer :=
  match p.lifecycle with
  | .running (some due) => { p with lifecycle := .running (some (p.schedule.kicked now due)) }
  | _ => p

def supplied (s : Seeding) (address : String) (hint : Option Route) : Option (Candidate × Seeding) :=
  match hint with
  | some r =>
    if address.isEmpty then some (.ofRoute r, s.addRoute r)
    else match Candidate.parse address with
      | .error _ => none
      | .ok c =>
        if c.peer.any (· ≠ r.peer) then none
        else some ({ Candidate.ofRoute r with address := c.address }, s.addRoute r)
  | none =>
    match Candidate.parse address with
    | .error _ => none
    | .ok c => some (c, s.addAddress address)

def connect (now : Time) (p : EdgePeer) (address : String) (hint : Option Route) :
    EdgePeer × Bool :=
  if p.node.leaseStopped then (p, false)
  else match supplied p.node.seeding address hint with
    | none => (p, false)
    | some (c, seeding) =>
      let node := { p.node with seeding := seeding }.enqueueFront c
      (kick now { p with node := node }, true)

def runCycle (env : Surroundings) (now due : Time) (p : EdgePeer) : EdgePeer :=
  let moment := max now due
  let (node, outcome) := p.node.cycle env moment
  { p with
    node := node
    lifecycle := .running ((p.schedule.delay outcome).map (moment + ·)) }

def runDue (env : Surroundings) (now target : Time) : Nat → EdgePeer → EdgePeer
  | 0, p => p
  | fuel + 1, p =>
    match p.lifecycle with
    | .running (some due) =>
      if due ≤ target then runDue env now target fuel (p.runCycle env now due) else p
    | _ => p

/-- Lets time pass. There is at most one cycle for each moment that passes. -/
def advance (env : Surroundings) (now target : Time) (p : EdgePeer) : EdgePeer :=
  runDue env now target (target - now + 1) p

end EdgePeer

end LeaseOverlay
