import LeaseOverlay.Node

namespace LeaseOverlay

structure Propagation where
  message : Message
  service : String
  param : String
  ttl : Nat
  freshId : String

namespace Node

def headerFor (n : Node) (p : Propagation) : Option Header :=
  match Header.outbound p.message
    ⟨n.self.peer, p.service, p.param, p.ttl, n.settings.maxTtl, p.freshId⟩ with
  | .ok h => h
  | .error _ => none

def sendEach (env : Surroundings) (now : Time) (m : Message) : Node → List PeerId → Node × Nat
  | n, [] => (n, 0)
  | n, p :: ps =>
    match n.send env now (.peer p) m with
    | (n, none) =>
      let (n, count) := sendEach env now m n ps
      (n, count + 1)
    | (n, some _) => sendEach env now m n ps

def fanOut (env : Surroundings) (now : Time) (n : Node) (m : Message) (h : Header) : Node × Nat :=
  sendEach env now (h.attach m) n (n.registry.peers.filter fun p => !h.visited p)

def sendToGroup (env : Surroundings) (n : Node) (m : Message) (h : Header) : Node × Bool :=
  (n.record (.group env.groupUp (h.attach m)), env.groupUp)

def propagate (env : Surroundings) (now : Time) (n : Node) (p : Propagation) : Node × Nat :=
  match n.headerFor p with
  | none => (n, 0)
  | some h =>
    let (n, count) := n.fanOut env now p.message h
    ((n.sendToGroup env p.message h).1, count)

def propagateInGroup (env : Surroundings) (now : Time) (n : Node) (p : Propagation) :
    Node × Nat :=
  match n.headerFor p with
  | none => (n, 0)
  | some h => n.fanOut env now p.message h

def propagateToNeighbors (env : Surroundings) (n : Node) (p : Propagation) : Node × Bool :=
  match n.headerFor p with
  | none => (n, false)
  | some h => n.sendToGroup env p.message h

def walk (env : Surroundings) (now : Time) (n : Node) (p : Propagation) : Node × Nat :=
  n.propagateInGroup env now p

/-- The destinations are advice only. -/
def walkTo (env : Surroundings) (now : Time) (n : Node) (_dests : List PeerId) (p : Propagation) :
    Node × Nat :=
  n.propagateInGroup env now p

end Node

end LeaseOverlay
