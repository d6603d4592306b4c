import LeaseOverlay.Node

namespace LeaseOverlay

inductive LeaseState
  | unconnected
  | awaitingReply
  | connected
  | renewing
  deriving DecidableEq

inductive ReplyOutcome
  | connected
  | reconnected
  | revoked
  | atCapacity
  | rejected
  deriving DecidableEq

namespace Node

def request (env : Surroundings) (now : Time) (n : Node) (dest : Destination) :
    Node × Option SendError :=
  if n.leaseStopped then (n, some .closed)
  else
    let waiting := { n with pending := n.pending.put dest now }
    match waiting.send env now dest (Control.request n.self).toMessage with
    | (n, none) => (n, none)
    | (n, some e) => ({ n with pending := n.pending.drop dest }, some e)

def requestSeed (env : Surroundings) (now : Time) (n : Node) (c : Candidate) :
    Node × Option SendError :=
  match c.hint with
  | some r => (n.learnRoute r).request env now c.destination
  | none => n.request env now c.destination

def drop (now : Time) (n : Node) (p : PeerId) (e : Event) : Node × Bool :=
  if n.registry.contains p then
    (({ n with registry := n.registry.remove p }).emit now e, true)
  else (n, false)

/-- Whether the seeding takes leases from this peer. A shutdown that is due happens here. -/
def check (n : Node) (d : Descriptor) : Node × Bool :=
  let n := if n.shutdownDue then { n.stopLease with shutdownDue := false } else n
  (n, n.seeding.accepts d)

/-- The descriptor that a reply installs: its own if it names the same peer and is acceptable, else
that of the lease it renews. -/
def offered (n : Node) (r : LeaseReply) : Node × Option Descriptor :=
  match r.descriptor with
  | some d =>
    if d.peer ≠ r.peer then (n, none)
    else match n.check d with
      | (n, true) => (n, some d)
      | (n, false) => (n, none)
  | none => (n, (n.registry.get? r.peer).map (·.descriptor))

def publish (now : Time) (n : Node) (d : Descriptor) : Node :=
  { n with cache := (n.cache.publish now d n.settings.cacheLifetime).1 }

def install (now : Time) (n : Node) (p : PeerId) (d : Descriptor) (lease : Time) :
    Node × ReplyOutcome :=
  match n.registry.grant now p d lease with
  | none => (n, .atCapacity)
  | some (registry, isNew) =>
    if n.leaseStopped then
      ({ n with registry := if isNew then registry.remove p else registry }, .rejected)
    else
      let n := (({ n with registry := registry }).learnRoute d.route).publish now d
      if isNew then (n.emit now (.connected p), .connected)
      else (n.emit now (.reconnected p), .reconnected)

def handleReply (now : Time) (n : Node) (r : LeaseReply) (source : Option Destination) :
    Node × ReplyOutcome :=
  let n := { n with pending := n.pending.settle r.peer source }
  if n.leaseStopped then (n, .rejected)
  else match r.lease with
    | none =>
      match n.drop now r.peer (.failed r.peer) with
      | (n, true) => (n, .revoked)
      | (n, false) => (n, .rejected)
    | some lease =>
      match n.offered r with
      | (n, none) => (n, .rejected)
      | (n, some d) => n.install now r.peer d lease

def handleNotice (now : Time) (n : Node) (p : PeerId) : Node × Bool :=
  n.drop now p (.disconnected p)

/-- Whether the message was a control message of the lease protocol, malformed ones included. -/
def handleMessage (now : Time) (n : Node) (m : Message) (source : Option Destination) :
    Node × Bool :=
  match Control.ofMessage m with
  | .ok none => (n, false)
  | .ok (some (.reply r)) => ((n.handleReply now r source).1, true)
  | .ok (some (.disconnect p)) => ((n.handleNotice now p).1, true)
  | .ok (some (.request _)) => (n, true)
  | .error _ => (n, true)

def notify (env : Surroundings) (now : Time) (n : Node) (p : PeerId) : Node :=
  (n.send env now (.peer p) (Control.disconnect n.self.peer).toMessage).1

def disconnect (env : Surroundings) (now : Time) (n : Node) (p : PeerId) : Node × Bool :=
  if n.registry.contains p then
    let n := { n with registry := n.registry.remove p }
    ((n.notify env now p).emit now (.disconnected p), true)
  else (n, false)

def challenge (now : Time) (n : Node) (p : PeerId) (delayMs : Int) : Node × Bool :=
  if delayMs ≤ 0 then n.drop now p (.failed p)
  else if n.registry.contains p then
    let shrunk := n.registry.modify p fun c => c.shrink now (.ofMillis delayMs.toNat)
    ({ n with registry := shrunk }, true)
  else (n, false)

def expire (now : Time) (n : Node) (p : PeerId) (due : Time) : Node × Bool :=
  match n.registry.removeIf p fun c => c.isOver due with
  | some registry => (({ n with registry := registry }).emit now (.failed p), true)
  | none => (n, false)

def prune (now : Time) (n : Node) (timeout : Time) : Node × Nat :=
  let kept := n.pending.prune now timeout
  ({ n with pending := kept }, n.pending.size - kept.size)

def stateOf (now : Time) (n : Node) (p : PeerId) : LeaseState :=
  let waiting : LeaseState :=
    if n.pending.contains (.peer p) then .awaitingReply else .unconnected
  match n.registry.get? p with
  | some c =>
    if c.connected then if c.needsRenewal now then .renewing else .connected
    else waiting
  | none => waiting

/-- Ends every lease: all notices go out, then the events follow. -/
def disconnectAll (env : Surroundings) (now : Time) (n : Node) : Node × Nat :=
  let peers := n.registry.peers
  let cleared := { n with registry := n.registry.clear, pending := {} }
  let notified := peers.foldl (fun n p => n.notify env now p) cleared
  (peers.foldl (fun n p => n.emit now (.disconnected p)) notified, peers.length)

end Node

end LeaseOverlay
