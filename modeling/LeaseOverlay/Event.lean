import LeaseOverlay.PeerId
/-!
Membership events, and the bus that hands them to subscribers. A subscriber sees what is emitted
from its subscription on; one that falls behind by more than the capacity loses the oldest events
and is told how many.
-/

namespace LeaseOverlay

inductive Event
  | connected (peer : PeerId)
  | reconnected (peer : PeerId)
  | disconnected (peer : PeerId)
  | failed (peer : PeerId)
  | becameEdge
  | becameRendezvous
  deriving DecidableEq

namespace Event

def peer? : Event → Option PeerId
  | connected p | reconnected p | disconnected p | failed p => some p
  | becameEdge | becameRendezvous => none

def text : Event → String
  | connected p => "connected " ++ p.short
  | reconnected p => "reconnected " ++ p.short
  | disconnected p => "disconnected " ++ p.short
  | failed p => "failed " ++ p.short
  | becameEdge => "became edge"
  | becameRendezvous => "became rendezvous"

end Event

structure EventBus where
  capacity : Nat
  dropped : Nat
  kept : List Event
  readers : List Nat
  deriving DecidableEq

namespace EventBus

inductive Delivery
  | event (e : Event)
  | lagged (lost : Nat)
  | empty
  deriving DecidableEq

/-- A bus with room for at least `capacity` events, rounded up to a power of two. There is no bus
without any room. -/
def withCapacity? (capacity : Nat) : Option EventBus :=
  if capacity = 0 then none else some ⟨capacity.nextPowerOfTwo, 0, [], []⟩

def total (b : EventBus) : Nat := b.dropped + b.kept.length

def subscribe (b : EventBus) : EventBus × Nat :=
  ({ b with readers := b.readers ++ [b.total] }, b.readers.length)

def emit (b : EventBus) (e : Event) : EventBus :=
  if b.kept.length < b.capacity then { b with kept := b.kept ++ [e] }
  else { b with dropped := b.dropped + 1, kept := b.kept.tail ++ [e] }

def receive (b : EventBus) (reader : Nat) : EventBus × Option Delivery :=
  match b.readers[reader]? with
  | none => (b, none)
  | some next =>
    if next < b.dropped then
      ({ b with readers := b.readers.set reader b.dropped }, some (.lagged (b.dropped - next)))
    else match b.kept[next - b.dropped]? with
      | none => (b, some .empty)
      | some e => ({ b with readers := b.readers.set reader (next + 1) }, some (.event e))

end EventBus

end LeaseOverlay
