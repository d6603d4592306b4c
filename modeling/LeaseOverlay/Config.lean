import LeaseOverlay.Seeding
import LeaseOverlay.Time
import LeaseOverlay.Wire.Codec

namespace LeaseOverlay

structure IdentityConfig where
  /-- Empty for an identity of the day. -/
  peerId : String := ""
  name : String := ""
  deriving DecidableEq

structure NetworkConfig where
  listenAddr : String := "0.0.0.0:9701"
  broadcastAddrs : List String := []
  deriving DecidableEq

structure RendezvousConfig where
  maxConnections : Nat := 1
  leaseMarginMs : Nat := 300000
  monitorIntervalMs : Nat := 15000
  startupRetryMs : Nat := 2000
  seedKickDelayMs : Nat := 3000
  maxSeedAttemptsPerCycle : Nat := 3
  pendingRequestTimeoutMs : Nat := 60000
  maxTtl : Nat := 200
  seeds : List String := []
  useOnlySeeds : Bool := false
  seeding : SeedingKind := .uri
  deriving DecidableEq

structure CacheConfig where
  descriptorLifetimeMs : Nat := 7200000
  descriptorExpirationMs : Nat := 1200000
  deriving DecidableEq

namespace RendezvousConfig

def leaseMargin (c : RendezvousConfig) : Time := .ofMillis c.leaseMarginMs

def monitorInterval (c : RendezvousConfig) : Time := .ofMillis c.monitorIntervalMs

def startupRetry (c : RendezvousConfig) : Time := .ofMillis c.startupRetryMs

def seedKickDelay (c : RendezvousConfig) : Time := .ofMillis c.seedKickDelayMs

def pendingRequestTimeout (c : RendezvousConfig) : Time := .ofMillis c.pendingRequestTimeoutMs

end RendezvousConfig

namespace CacheConfig

def descriptorLifetime (c : CacheConfig) : Time := .ofMillis c.descriptorLifetimeMs

def descriptorExpiration (c : CacheConfig) : Time := .ofMillis c.descriptorExpirationMs

end CacheConfig

structure Config where
  identity : IdentityConfig := {}
  network : NetworkConfig := {}
  rendezvous : RendezvousConfig := {}
  cache : CacheConfig := {}
  deriving DecidableEq

inductive ConfigError
  | readFailed
  | parseFailed
  | writeFailed
  | invalid (setting reason : String)
  deriving DecidableEq

def ConfigError.message? : ConfigError → Option String
  | invalid setting reason => some ("invalid setting " ++ setting ++ ": " ++ reason)
  | _ => none

namespace Config

def validate (c : Config) : Except ConfigError Unit :=
  if c.rendezvous.maxConnections = 0 then
    .error (.invalid "rendezvous.max_connections" "must be at least 1")
  else if c.rendezvous.monitorIntervalMs = 0 then
    .error (.invalid "rendezvous.monitor_interval_ms" "must be positive")
  else if c.rendezvous.maxSeedAttemptsPerCycle = 0 then
    .error (.invalid "rendezvous.max_seed_attempts_per_cycle" "must be at least 1")
  else if c.identity.peerId = "" then .ok ()
  else match PeerId.parse c.identity.peerId with
    | .ok _ => .ok ()
    | .error e => .error (.invalid "identity.peer_id" e.message)

end Config

end LeaseOverlay
