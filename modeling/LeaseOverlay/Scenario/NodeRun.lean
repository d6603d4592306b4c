import LeaseOverlay.Scenario.Stage
/-!
Scenarios of a bare node: its operations one by one, its registry and its cache among them.
Connections can be held by a name; a held one stays what it was when its lease ends.
-/

namespace LeaseOverlay.Scenario

structure NodeConfig where
  maxConnections : Nat := 2
  leaseMarginMs : Nat := 300000
  maxAttempts : Nat := 3
  pendingTimeoutMs : Nat := 60000
  seeds : List String := []
  useOnlySeeds : Bool := false
  seeding : SeedingKind := .uri
  cacheMax : Nat := 1024
  cacheLifetimeMs : Nat := 3600000
  maxTtl : Nat := 200
  self : Descriptor := ⟨.filled 238, "edge", []⟩

def NodeConfig.node (c : NodeConfig) : Except SeedError Node :=
  (Seeding.ofUris c.seeding c.self.peer c.seeds c.useOnlySeeds).map fun seeding => {
    self := c.self
    settings := {
      maxAttempts := c.maxAttempts
      pendingTimeout := .ofMillis c.pendingTimeoutMs
      cacheLifetime := .ofMillis c.cacheLifetimeMs
      maxTtl := c.maxTtl }
    registry := .new c.maxConnections (.ofMillis c.leaseMarginMs)
    seeding := seeding
    cache := .withLimit c.cacheMax }

inductive Handle
  | live (p : PeerId)
  | ended (number : Nat)
  deriving DecidableEq

inductive Target
  | peer (p : PeerId)
  | held (name : String)

structure NodeRun where
  stage : Stage := {}
  node : Node
  handles : List (String × Handle) := []
  ended : List Connection := []

inductive NodeStep
  | stage (s : StageStep)
  | advance (ms : Nat)
  | request (dest : Destination)
  | requestSeed (c : Candidate)
  | renew (t : Target)
  | reply (r : LeaseReply) (source : Option Destination) (stopInCheck : Bool)
  | receive (m : Message) (source : Option Destination)
  | notice (p : PeerId)
  | disconnect (p : PeerId)
  | challenge (p : PeerId) (delayMs : Int)
  | expire (t : Target) (ms : Nat)
  | prune (ms : Nat)
  | state (p : PeerId)
  | disconnectAll
  | stopLease
  | self
  | upsert (p : PeerId) (d : Descriptor) (ms : Nat)
  | remove (p : PeerId)
  | removeIf (p : PeerId) (connected : Bool)
  | clear
  | contains (p : PeerId)
  | hold (p : PeerId) (name : String)
  | markDisconnected (t : Target)
  | shrink (t : Target) (ms : Nat)
  | sight (t : Target) (ms : Nat)
  | bootstrap
  | enqueueFront (c : Candidate)
  | stopBootstrap
  | cycle
  | stopMonitor
  | cachePublish (d : Descriptor) (ms : Nat)
  | cacheList
  | cachePurge
  | cacheSize

structure NodeReport where
  answer : Answer
  effects : List Effect
  node : Node

inductive NodeError
  | seed (e : SeedError)
  /-- A bootstrap broke off; nothing is told of a scenario in which that happens. -/
  | broken

namespace NodeRun

def find? (r : NodeRun) : Target → Option Connection
  | .peer p => r.node.registry.get? p
  | .held name =>
    match r.handles.lookup name with
    | some (.live p) => r.node.registry.get? p
    | some (.ended number) => r.ended[number]?
    | none => none

def modify (r : NodeRun) (t : Target) (f : Connection → Connection) : NodeRun :=
  let inRegistry (p : PeerId) : NodeRun :=
    { r with node := { r.node with registry := r.node.registry.modify p f } }
  match t with
  | .peer p => inRegistry p
  | .held name =>
    match r.handles.lookup name with
    | some (.live p) => inRegistry p
    | some (.ended number) => { r with ended := r.ended.modify number f }
    | none => r

/-- A held connection that has left the registry becomes an ended one, in the state `last` makes of
the one it had. -/
def settle (before : Registry) (last : Connection → Connection) (r : NodeRun) : NodeRun :=
  before.connections.foldl (fun r c =>
    if r.node.registry.contains c.peer then r
    else if r.handles.any fun h => h.2 = .live c.peer then
      { r with
        handles := r.handles.map fun h =>
          if h.2 = .live c.peer then (h.1, .ended r.ended.length) else h
        ended := r.ended ++ [last c] }
    else r) r

def after (r : NodeRun) (node : Node) : NodeRun :=
  settle r.node.registry Connection.disconnect { r with node := node }

def withRegistry (r : NodeRun) (registry : Registry) : NodeRun :=
  settle r.node.registry id { r with node := { r.node with registry := registry } }

def hold (r : NodeRun) (p : PeerId) (name : String) : NodeRun :=
  { r with handles := (name, .live p) :: r.handles.filter fun h => h.1 ≠ name }

def step (r : NodeRun) : NodeStep → NodeRun × Answer
  | .stage s =>
    let (stage, node, answer) := s.run r.stage r.node
    ({ r with stage := stage, node := node }, answer)
  | .advance ms =>
    ({ r with stage := { r.stage with clock := r.stage.clock + .ofMillis ms } }, .nothing)
  | .request dest =>
    let (node, error) := r.node.request r.stage.surroundings r.stage.clock dest
    (r.after node, .sent error)
  | .requestSeed c =>
    let (node, error) := r.node.requestSeed r.stage.surroundings r.stage.clock c
    (r.after node, .sent error)
  | .renew t =>
    match r.find? t with
    | none => (r, .nothing)
    | some c =>
      let (node, error) := r.node.request r.stage.surroundings r.stage.clock (.peer c.peer)
      (r.after node, .sent error)
  | .reply reply source stopInCheck =>
    let node := { r.node with shutdownDue := r.node.shutdownDue || stopInCheck }
    let (node, outcome) := node.handleReply r.stage.clock reply source
    (r.after node, .reply outcome)
  | .receive m source =>
    let (node, handled) := r.node.handleMessage r.stage.clock m source
    (r.after node, .flag handled)
  | .notice p =>
    let (node, found) := r.node.handleNotice r.stage.clock p
    (r.after node, .flag found)
  | .disconnect p =>
    let (node, found) := r.node.disconnect r.stage.surroundings r.stage.clock p
    (r.after node, .flag found)
  | .challenge p delayMs =>
    let (node, found) := r.node.challenge r.stage.clock p delayMs
    (r.after node, .flag found)
  | .expire t ms =>
    match r.find? t with
    | none => (r, .nothing)
    | some c =>
      let (node, expired) := r.node.expire r.stage.clock c.peer (r.stage.clock + .ofMillis ms)
      (r.after node, .flag expired)
  | .prune ms =>
    let (node, count) := r.node.prune r.stage.clock (.ofMillis ms)
    (r.after node, .count count)
  | .state p => (r, .state (r.node.stateOf r.stage.clock p))
  | .disconnectAll =>
    let (node, count) := r.node.disconnectAll r.stage.surroundings r.stage.clock
    (r.after node, .count count)
  | .stopLease => ({ r with node := r.node.stopLease }, .flag true)
  | .self => (r, .peer r.node.self.peer)
  | .upsert p d ms =>
    match r.node.registry.grant r.stage.clock p d (.ofMillis ms) with
    | none => (r, .nothing)
    | some (registry, isNew) => (r.withRegistry registry, .granted isNew p)
  | .remove p =>
    (r.withRegistry (r.node.registry.remove p),
      .flagOrNothing ((r.node.registry.get? p).map (·.connected)))
  | .removeIf p connected =>
    match r.node.registry.removeIf p fun c => c.connected = connected with
    | some registry => (r.withRegistry registry, .flag true)
    | none => (r, .flag false)
  | .clear => (r.withRegistry r.node.registry.clear, .peers r.node.registry.peers)
  | .contains p => (r, .membership (r.node.registry.contains p) r.node.registry)
  | .hold p name =>
    if r.node.registry.contains p then (r.hold p name, .flag true) else (r, .flag false)
  | .markDisconnected t =>
    (r.modify t Connection.disconnect, .flag (r.find? t).isSome)
  | .shrink t ms =>
    (r.modify t fun c => c.shrink r.stage.clock (.ofMillis ms), .flag (r.find? t).isSome)
  | .sight t ms =>
    (r, .sight ((r.find? t).map fun c => ⟨c, r.stage.clock + .ofMillis ms⟩))
  | .bootstrap =>
    let (node, count) := r.node.bootstrap r.stage.surroundings r.stage.clock
    (r.after node, match count with
      | some n => .count n
      | none => .broken)
  | .enqueueFront c => ({ r with node := r.node.enqueueFront c }, .nothing)
  | .stopBootstrap => ({ r with node := r.node.stopBootstrap }, .nothing)
  | .cycle =>
    let (node, outcome) := r.node.cycle r.stage.surroundings r.stage.clock
    (r.after node, match outcome with
      | .broken => .broken
      | outcome => .cycle outcome)
  | .stopMonitor => ({ r with node := r.node.stopMonitor }, .flag true)
  | .cachePublish d ms =>
    let (cache, result) := r.node.cache.publish r.stage.clock d (.ofMillis ms)
    ({ r with node := { r.node with cache := cache } }, .cached (match result with
      | .ok () => none
      | .error e => some e))
  | .cacheList => (r, .descriptors (r.node.cache.descriptors r.stage.clock))
  | .cachePurge =>
    let stale := r.node.cache.stale r.stage.clock
    ({ r with node := { r.node with cache := r.node.cache.purge r.stage.clock } }, .count stale)
  | .cacheSize => (r, .cacheSize r.node.cache.size r.node.cache.isEmpty)

def report (r : NodeRun) (s : NodeStep) : NodeRun × NodeReport :=
  let (r, answer) := r.step s
  ({ r with node := { r.node with trace := [] } }, ⟨answer, r.node.trace, r.node⟩)

def run : NodeRun → List NodeStep → Except NodeError (List NodeReport)
  | _, [] => .ok []
  | r, s :: ss =>
    let (r, report) := r.report s
    match report.answer with
    | .broken => .error .broken
    | _ => (run r ss).map fun reports => report :: reports

end NodeRun

def NodeConfig.run (c : NodeConfig) (steps : List NodeStep) :
    Except NodeError (List NodeReport) :=
  match c.node with
  | .error e => .error (.seed e)
  | .ok node => NodeRun.run { node := node } steps

end LeaseOverlay.Scenario
