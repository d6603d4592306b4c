import LeaseOverlay.Peer
import LeaseOverlay.Time

namespace LeaseOverlay

structure Pending where
  requests : List (Destination × Time) := []
  deriving DecidableEq

namespace Pending

def size (q : Pending) : Nat := q.requests.length

def contains (q : Pending) (dest : Destination) : Bool := q.requests.any fun r => r.1 = dest

def drop (q : Pending) (dest : Destination) : Pending := ⟨q.requests.filter fun r => r.1 ≠ dest⟩

def put (q : Pending) (dest : Destination) (now : Time) : Pending :=
  ⟨(q.drop dest).requests ++ [(dest, now)]⟩

def prune (q : Pending) (now timeout : Time) : Pending :=
  ⟨q.requests.filter fun r => now - r.2 < timeout⟩

def settle (q : Pending) (peer : PeerId) (source : Option Destination) : Pending :=
  match source with
  | none => q.drop (.peer peer)
  | some s => (q.drop (.peer peer)).drop s

theorem settle_empty (p : PeerId) (source : Option Destination) :
    ({} : Pending).settle p source = {} := by
  cases source <;> rfl

end Pending

end LeaseOverlay
