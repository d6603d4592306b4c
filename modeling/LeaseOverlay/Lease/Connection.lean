import LeaseOverlay.Peer
import LeaseOverlay.Time
/-!
A lease with one peer. It is invalid at and after its end, and to be renewed at and after an earlier
moment: the margin before the end, or half the lease if that is less.
-/

namespace LeaseOverlay

structure Connection where
  peer : PeerId
  descriptor : Descriptor
  leaseEnd : Time
  renewAt : Time
  connected : Bool
  deriving DecidableEq

def leaseWindow (now lease margin : Time) : Time × Time :=
  (now + lease, now + lease - min margin (lease / 2))

namespace Connection

def granted (peer : PeerId) (descriptor : Descriptor) (now lease margin : Time) : Connection :=
  let window := leaseWindow now lease margin
  ⟨peer, descriptor, window.1, window.2, true⟩

def expired (c : Connection) (now : Time) : Bool := c.leaseEnd ≤ now

def needsRenewal (c : Connection) (now : Time) : Bool := c.renewAt ≤ now

def remaining (c : Connection) (now : Time) : Time := c.leaseEnd - now

def isOver (c : Connection) (now : Time) : Bool := !c.connected || c.expired now

def shrink (c : Connection) (now delay : Time) : Connection :=
  let leaseEnd := min c.leaseEnd (now + delay)
  { c with leaseEnd := leaseEnd, renewAt := min c.renewAt leaseEnd }

def disconnect (c : Connection) : Connection := { c with connected := false }

end Connection

end LeaseOverlay
