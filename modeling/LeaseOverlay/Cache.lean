import LeaseOverlay.Table
import LeaseOverlay.Peer
import LeaseOverlay.Time
/-!
The descriptor cache: descriptors of leased peers, each for a lifetime. Expired ones stay until
they are purged, but are no longer listed.
-/

namespace LeaseOverlay

inductive CacheError
  | full (limit : Nat)
  | zeroLifetime
  deriving DecidableEq

def CacheError.message : CacheError → String
  | full limit => "cache is full (" ++ toString limit ++ " entries)"
  | zeroLifetime => "descriptor lifetime must be positive"

structure CacheEntry where
  descriptor : Descriptor
  expiresAt : Time
  deriving DecidableEq

structure Cache where
  limit : Nat
  entries : Table PeerId CacheEntry
  deriving DecidableEq

namespace Cache

def withLimit (limit : Nat) : Cache := ⟨limit, .empty⟩

def size (c : Cache) : Nat := c.entries.size

def isEmpty (c : Cache) : Bool := c.entries.isEmpty

def purge (now : Time) (c : Cache) : Cache :=
  { c with entries := c.entries.filter fun _ e => now < e.expiresAt }

def stale (now : Time) (c : Cache) : Nat := c.size - (c.purge now).size

def put (now : Time) (d : Descriptor) (lifetime : Time) (c : Cache) : Cache :=
  { c with entries := c.entries.insert d.peer ⟨d, now + lifetime⟩ }

/-- A new peer in a full cache makes it purge itself first, also when that frees nothing. -/
def publish (now : Time) (d : Descriptor) (lifetime : Time) (c : Cache) :
    Cache × Except CacheError Unit :=
  if lifetime = 0 then (c, .error .zeroLifetime)
  else if c.entries.contains d.peer ∨ c.size < c.limit then (c.put now d lifetime, .ok ())
  else if (c.purge now).size < c.limit then ((c.purge now).put now d lifetime, .ok ())
  else (c.purge now, .error (.full c.limit))

def descriptors (now : Time) (c : Cache) : List Descriptor :=
  (c.entries.values.filter fun e => now < e.expiresAt).map (·.descriptor)

end Cache

end LeaseOverlay
