import LeaseOverlay.Node.Bootstrap

namespace LeaseOverlay

structure CycleReport where
  renewals : Nat := 0
  expired : Nat := 0
  pruned : Nat := 0
  attempts : Nat := 0
  deriving DecidableEq

inductive CycleOutcome
  | skipped
  | notReady
  | broken
  | completed (r : CycleReport)
  deriving DecidableEq

namespace Node

def tend (env : Surroundings) (now : Time) (n : Node) (c : Connection) (r : CycleReport) :
    Node × CycleReport :=
  if c.isOver now then
    match n.expire now c.peer now with
    | (n, true) => (n, { r with expired := r.expired + 1 })
    | (n, false) => (n, r)
  else if c.needsRenewal now then
    match n.request env now (.peer c.peer) with
    | (n, none) => (n, { r with renewals := r.renewals + 1 })
    | (n, some _) => (n, r)
  else (n, r)

def tendAll (env : Surroundings) (now : Time) : Node → CycleReport → List Connection →
    Node × CycleReport
  | n, r, [] => (n, r)
  | n, r, c :: cs =>
    let (n, r) := n.tend env now c r
    tendAll env now n r cs

def cycle (env : Surroundings) (now : Time) (n : Node) : Node × CycleOutcome :=
  if n.monitorStopped then (n, .skipped)
  else if ¬env.routingReady then (n, .notReady)
  else
    let (n, r) := tendAll env now n {} n.registry.connections
    let (n, pruned) := n.prune now n.settings.pendingTimeout
    match n.bootstrap env now with
    | (n, none) => (n, .broken)
    | (n, some attempts) => (n, .completed { r with pruned := pruned, attempts := attempts })

end Node

end LeaseOverlay
