import LeaseOverlay.EdgePeer

namespace LeaseOverlay

inductive Action
  | start
  | stop
  | connect (address : String) (hint : Option Route)
  | addSeedRoute (r : Route)
  | addSeedAddress (address : String)
  | disconnect (p : PeerId)
  | challenge (p : PeerId) (delayMs : Int)
  | propagate (m : Propagation)
  | propagateInGroup (m : Propagation)
  | propagateToNeighbors (m : Propagation)
  | walk (m : Propagation)
  | walkTo (dests : List PeerId) (m : Propagation)
  | receive (m : Message) (source : Option Destination)
  | reply (r : LeaseReply) (source : Option Destination)
  | notice (p : PeerId)
  | expire (p : PeerId) (due : Time)
  | disconnectAll
  /-- A cycle at once, whatever the schedule says. -/
  | cycle
  /-- Time has come so far: the cycle runs that is due by now. -/
  | tick
  | stopLease
  /-- A shutdown will arrive while the next descriptor is being checked. -/
  | brace

structure Turn where
  env : Surroundings
  now : Time
  action : Action

namespace Action

def control? : Action → Option Control
  | reply r _ => some (.reply r)
  | notice p => some (.disconnect p)
  | receive m _ => match Control.ofMessage m with
    | .ok c => c
    | .error _ => none
  | _ => none

def source? : Action → Option Destination
  | reply _ source | receive _ source => source
  | _ => none

def reply? (a : Action) : Option LeaseReply :=
  match a.control? with
  | some (.reply r) => some r
  | _ => none

end Action

def Turn.grant (now : Time) (p : PeerId) (leaseMs : Int) : Turn :=
  ⟨{}, now, .reply ⟨p, leaseMs, some { peer := p }⟩ none⟩

namespace EdgePeer

def withNode (p : EdgePeer) (n : Node) : EdgePeer := { p with node := n }

def dueCycle (now : Time) (p : EdgePeer) : Option Time :=
  match p.lifecycle with
  | .running (some due) => if due ≤ now then some due else none
  | _ => none

def tick (env : Surroundings) (now : Time) (p : EdgePeer) : EdgePeer :=
  match p.dueCycle now with
  | some due => p.runCycle env now due
  | none => p

def act (env : Surroundings) (now : Time) (p : EdgePeer) : Action → EdgePeer
  | .start => (p.start now).1
  | .stop => p.stop env now
  | .connect address hint => (p.connect now address hint).1
  | .addSeedRoute r => p.withNode { p.node with seeding := p.node.seeding.addRoute r }
  | .addSeedAddress a => p.withNode { p.node with seeding := p.node.seeding.addAddress a }
  | .disconnect q => p.withNode (p.node.disconnect env now q).1
  | .challenge q delayMs => p.withNode (p.node.challenge now q delayMs).1
  | .propagate m => p.withNode (p.node.propagate env now m).1
  | .propagateInGroup m => p.withNode (p.node.propagateInGroup env now m).1
  | .propagateToNeighbors m => p.withNode (p.node.propagateToNeighbors env m).1
  | .walk m => p.withNode (p.node.walk env now m).1
  | .walkTo dests m => p.withNode (p.node.walkTo env now dests m).1
  | .receive m source => p.withNode (p.node.handleMessage now m source).1
  | .reply r source => p.withNode (p.node.handleReply now r source).1
  | .notice q => p.withNode (p.node.handleNotice now q).1
  | .expire q due => p.withNode (p.node.expire now q due).1
  | .disconnectAll => p.withNode (p.node.disconnectAll env now).1
  | .cycle => p.withNode (p.node.cycle env now).1
  | .tick => p.tick env now
  | .stopLease => p.withNode p.node.stopLease
  | .brace => p.withNode { p.node with shutdownDue := true }

def after (p : EdgePeer) (t : Turn) : EdgePeer := p.act t.env t.now t.action

def effects (p : EdgePeer) (t : Turn) : List Effect :=
  (p.after t).node.trace.drop p.node.trace.length

def outcome? (p : EdgePeer) (t : Turn) : Option CycleOutcome :=
  match t.action with
  | .cycle => some (p.node.cycle t.env t.now).2
  | .tick => (p.dueCycle t.now).map fun _ => (p.node.cycle t.env t.now).2
  | _ => none

def answer? (p : EdgePeer) (t : Turn) : Option ReplyOutcome :=
  t.action.reply?.map fun r => (p.node.handleReply t.now r t.action.source?).2

def run : EdgePeer → List Turn → EdgePeer
  | p, [] => p
  | p, t :: ts => run (p.after t) ts

def log : EdgePeer → List Turn → List Effect
  | _, [] => []
  | p, t :: ts => p.effects t ++ log (p.after t) ts

def bare (capacity : Nat) (margin : Time) : EdgePeer where
  node := {
    self := { peer := .filled 0 }
    settings := {
      maxAttempts := 3
      pendingTimeout := .ofMillis 60000
      cacheLifetime := .ofMillis 7200000
      maxTtl := 200 }
    registry := .new capacity margin
    seeding := ⟨.uri, .filled 0, [], [], false, false⟩
    cache := .withLimit 1024 }
  schedule := ⟨.ofMillis 15000, .ofMillis 2000, .ofMillis 3000⟩

theorem run_append (p : EdgePeer) (ts us : List Turn) : p.run (ts ++ us) = (p.run ts).run us := by
  induction ts generalizing p with
  | nil => rfl
  | cons t ts ih => exact ih (p.after t)

def before (p : EdgePeer) (ts : List Turn) (i : Nat) : EdgePeer := p.run (ts.take i)

theorem before_succ {ts : List Turn} {i : Nat} {t : Turn} (h : ts[i]? = some t) (p : EdgePeer) :
    p.before ts (i + 1) = (p.before ts i).after t := by
  rw [before, List.take_add_one, h, run_append]
  rfl

theorem run_induction {P : EdgePeer → Prop} (step : ∀ p t, P p → P (p.after t)) {p : EdgePeer}
    (hp : P p) (ts : List Turn) : P (p.run ts) := by
  induction ts generalizing p with
  | nil => exact hp
  | cons t ts ih => exact ih (step p t hp)

end EdgePeer

end LeaseOverlay
