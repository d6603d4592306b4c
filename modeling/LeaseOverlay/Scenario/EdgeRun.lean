import LeaseOverlay.EdgePeer
import LeaseOverlay.Scenario.Stage

namespace LeaseOverlay.Scenario

structure EdgeRun where
  stage : Stage := {}
  peer : EdgePeer

inductive EdgeStep
  | stage (s : StageStep)
  | advance (ms : Nat)
  | start
  | stop
  | connect (address : String) (hint : Option Route)
  | disconnect (p : PeerId)
  | challenge (p : PeerId) (delayMs : Int)
  | receive (m : Message) (source : Option Destination)
  | state (p : PeerId)

structure EdgeReport where
  answer : Answer
  effects : List Effect
  peer : EdgePeer
  moment : Time

inductive EdgeError
  | seed (e : SeedError)
  | config (e : ConfigError)

namespace EdgeRun

def withNode (r : EdgeRun) (node : Node) : EdgeRun :=
  { r with peer := { r.peer with node := node } }

def step (r : EdgeRun) : EdgeStep → EdgeRun × Answer
  | .stage s =>
    let (stage, node, answer) := s.run r.stage r.peer.node
    ({ r.withNode node with stage := stage }, answer)
  | .advance ms =>
    let target := r.stage.clock + .ofMillis ms
    ({ stage := { r.stage with clock := target }
       peer := r.peer.advance r.stage.surroundings r.stage.clock target }, .nothing)
  | .start =>
    let (peer, started) := r.peer.start r.stage.clock
    ({ r with peer := peer }, .flag started)
  | .stop => ({ r with peer := r.peer.stop r.stage.surroundings r.stage.clock }, .nothing)
  | .connect address hint =>
    let (peer, taken) := r.peer.connect r.stage.clock address hint
    ({ r with peer := peer }, .flag taken)
  | .disconnect p =>
    let (node, found) := r.peer.node.disconnect r.stage.surroundings r.stage.clock p
    (r.withNode node, .flag found)
  | .challenge p delayMs =>
    let (node, found) := r.peer.node.challenge r.stage.clock p delayMs
    (r.withNode node, .flag found)
  | .receive m source =>
    let (node, handled) := r.peer.node.handleMessage r.stage.clock m source
    (r.withNode node, .flag handled)
  | .state p => (r, .state (r.peer.node.stateOf r.stage.clock p))

def report (r : EdgeRun) (s : EdgeStep) : EdgeRun × EdgeReport :=
  let (r, answer) := r.step s
  let peer := r.peer.advance r.stage.surroundings r.stage.clock r.stage.clock
  ({ r with peer := { peer with node := { peer.node with trace := [] } } },
    ⟨answer, peer.node.trace, peer, r.stage.clock⟩)

def run : EdgeRun → List EdgeStep → List EdgeReport
  | _, [] => []
  | r, s :: ss =>
    let (r, report) := r.report s
    report :: run r ss

end EdgeRun

def runEdge (c : Config) (self : Descriptor) (steps : List EdgeStep) :
    Except EdgeError (List EdgeReport) :=
  match Seeding.ofUris c.rendezvous.seeding self.peer c.rendezvous.seeds
      c.rendezvous.useOnlySeeds with
  | .error e => .error (.seed e)
  | .ok seeding =>
    match EdgePeer.new c self seeding (.withLimit 1024) with
    | .error e => .error (.config e)
    | .ok peer => .ok (EdgeRun.run { peer := peer } steps)

end LeaseOverlay.Scenario
