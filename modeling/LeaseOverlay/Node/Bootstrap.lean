import LeaseOverlay.Node.Lease

namespace LeaseOverlay

namespace Node

def takeBatch (leased : PeerId → Bool) : Nat → List Candidate → List Candidate × List Candidate
  | 0, cs => ([], cs)
  | _ + 1, [] => ([], [])
  | max + 1, c :: cs =>
    if c.peer.any leased then takeBatch leased (max + 1) cs
    else
      let batch := takeBatch leased max cs
      (c :: batch.1, batch.2)

def askAll (env : Surroundings) (now : Time) : Node → List Candidate → Node × Nat
  | n, [] => (n, 0)
  | n, c :: cs =>
    match n.requestSeed env now c with
    | (n, none) =>
      let (n, count) := askAll env now n cs
      (n, count + 1)
    | (n, some _) => askAll env now n cs

def askBatch (env : Surroundings) (now : Time) (n : Node) : Node × Nat :=
  let batch := takeBatch n.registry.contains n.settings.maxAttempts n.queue
  askAll env now { n with queue := batch.2 } batch.1

/-- A batch is laid out for all its attempts before the first candidate is taken, and there is room
for at most this many: a candidate takes 120 bytes of the 2 ^ 63 - 8 that a list may have. -/
def batchLimit : Nat := 76861433640456465

/-- One step of the bootstrap. There is no count if it breaks off before the first request: the seed
source was needed and did not answer, or a batch of so many attempts has no room. -/
def bootstrap (env : Surroundings) (now : Time) (n : Node) : Node × Option Nat :=
  if n.bootstrapStopped then (n, some 0)
  else if ¬n.registry.hasCapacity then ({ n with queue := [] }, some 0)
  else if n.queue.isEmpty ∧ ¬env.seedsAnswer then (n, none)
  else
    let n := if n.queue.isEmpty then { n with queue := n.seeding.candidates n.cache now } else n
    if n.queue.isEmpty then (n, some 0)
    else if batchLimit < n.settings.maxAttempts then (n, none)
    else
      let (n, count) := n.askBatch env now
      (n, some count)

def enqueueFront (n : Node) (c : Candidate) : Node :=
  { n with queue := c :: n.queue.filter fun d => d.destination ≠ c.destination }

end Node

end LeaseOverlay
