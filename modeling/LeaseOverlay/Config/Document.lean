import LeaseOverlay.Config
import LeaseOverlay.Toml.Document

namespace LeaseOverlay

open Json

/-- Where the two document formats differ: whether an array in place of a section may have more
items than fields, and what may stand beside the name of a choice. -/
structure ConfigFormat where
  surplus : Bool
  isPayload : Value → Bool

namespace ConfigFormat

def json : ConfigFormat := ⟨false, Value.null?⟩

def toml : ConfigFormat := ⟨true, fun
  | .array [] => true
  | .object [] => true
  | _ => false⟩

def record? (f : ConfigFormat) (names : List String) (v : Value) : Option Record :=
  match v with
  | .array vs => Record.ofValue? names (.array (if f.surplus then vs.take names.length else vs))
  | v => Record.ofValue? names v

def seedingKind? (f : ConfigFormat) (v : Value) : Option SeedingKind := do
  let name ← match v with
    | .object [(k, payload)] => if f.isPayload payload then k.toString? else none
    | v => v.string?
  match name with
  | "uri" => some .uri
  | "cache" => some .cache
  | _ => none

def identity? (f : ConfigFormat) (v : Value) : Option IdentityConfig := do
  let r ← f.record? ["peer_id", "name"] v
  let peerId ← (r.slot "peer_id").withDefault Value.string? ""
  let name ← (r.slot "name").withDefault Value.string? ""
  return ⟨peerId, name⟩

def network? (f : ConfigFormat) (v : Value) : Option NetworkConfig := do
  let default : NetworkConfig := {}
  let r ← f.record? ["listen_addr", "broadcast_addrs"] v
  let listenAddr ← (r.slot "listen_addr").withDefault Value.string? default.listenAddr
  let broadcastAddrs ←
    (r.slot "broadcast_addrs").withDefault (Value.list? Value.string?) default.broadcastAddrs
  return ⟨listenAddr, broadcastAddrs⟩

def rendezvous? (f : ConfigFormat) (v : Value) : Option RendezvousConfig := do
  let default : RendezvousConfig := {}
  let r ← f.record? ["max_connections", "lease_margin_ms", "monitor_interval_ms",
    "startup_retry_ms", "seed_kick_delay_ms", "max_seed_attempts_per_cycle",
    "pending_request_timeout_ms", "max_ttl", "seeds", "use_only_seeds", "seeding"] v
  let number (name : String) (n : Nat) := (r.slot name).withDefault Value.unsigned64? n
  let maxConnections ← number "max_connections" default.maxConnections
  let leaseMarginMs ← number "lease_margin_ms" default.leaseMarginMs
  let monitorIntervalMs ← number "monitor_interval_ms" default.monitorIntervalMs
  let startupRetryMs ← number "startup_retry_ms" default.startupRetryMs
  let seedKickDelayMs ← number "seed_kick_delay_ms" default.seedKickDelayMs
  let maxSeedAttemptsPerCycle ←
    number "max_seed_attempts_per_cycle" default.maxSeedAttemptsPerCycle
  let pendingRequestTimeoutMs ←
    number "pending_request_timeout_ms" default.pendingRequestTimeoutMs
  let maxTtl ← (r.slot "max_ttl").withDefault Value.unsigned32? default.maxTtl
  let seeds ← (r.slot "seeds").withDefault (Value.list? Value.string?) default.seeds
  let useOnlySeeds ← (r.slot "use_only_seeds").withDefault Value.bool? default.useOnlySeeds
  let seeding ← (r.slot "seeding").withDefault f.seedingKind? default.seeding
  return ⟨maxConnections, leaseMarginMs, monitorIntervalMs, startupRetryMs, seedKickDelayMs,
    maxSeedAttemptsPerCycle, pendingRequestTimeoutMs, maxTtl, seeds, useOnlySeeds, seeding⟩

def cache? (f : ConfigFormat) (v : Value) : Option CacheConfig := do
  let default : CacheConfig := {}
  let r ← f.record? ["descriptor_lifetime_ms", "descriptor_expiration_ms"] v
  let lifetime ←
    (r.slot "descriptor_lifetime_ms").withDefault Value.unsigned64? default.descriptorLifetimeMs
  let expiration ←
    (r.slot "descriptor_expiration_ms").withDefault Value.unsigned64? default.descriptorExpirationMs
  return ⟨lifetime, expiration⟩

def config? (f : ConfigFormat) (v : Value) : Option Config := do
  let r ← f.record? ["identity", "network", "rendezvous", "cache"] v
  let identity ← (r.slot "identity").withDefault f.identity? {}
  let network ← (r.slot "network").withDefault f.network? {}
  let rendezvous ← (r.slot "rendezvous").withDefault f.rendezvous? {}
  let cache ← (r.slot "cache").withDefault f.cache? {}
  return ⟨identity, network, rendezvous, cache⟩

end ConfigFormat

def SeedingKind.name : SeedingKind → String
  | uri => "uri"
  | cache => "cache"

namespace Config

def ofJson? (v : Value) : Option Config := ConfigFormat.json.config? v

def ofToml? (s : String) : Option Config :=
  (Toml.parse? s).bind fun v => ConfigFormat.toml.config? v.toJson

end Config

namespace Toml

def escapeChar (c : Char) : List Char :=
  if c = '"' then ['\\', '"']
  else if c = '\\' then ['\\', '\\']
  else if isPlain c then [c]
  else ['\\', 'u'] ++ (Nat.toDigits 16 (0x10000 + c.toNat)).drop 1

def renderString (s : String) : String :=
  String.ofList ('"' :: (s.toList.flatMap escapeChar ++ ['"']))

def renderStrings : List String → String
  | [] => "[]"
  | ss => "[\n" ++ String.join (ss.map fun s => "    " ++ renderString s ++ ",\n") ++ "]"

def renderSection (name : String) (fields : List (String × String)) : String :=
  "[" ++ name ++ "]\n" ++ String.join (fields.map fun f => f.1 ++ " = " ++ f.2 ++ "\n")

end Toml

namespace Config

open Toml in
def render (c : Config) : String :=
  "\n".intercalate [
    renderSection "identity" [
      ("peer_id", renderString c.identity.peerId),
      ("name", renderString c.identity.name)],
    renderSection "network" [
      ("listen_addr", renderString c.network.listenAddr),
      ("broadcast_addrs", renderStrings c.network.broadcastAddrs)],
    renderSection "rendezvous" [
      ("max_connections", toString c.rendezvous.maxConnections),
      ("lease_margin_ms", toString c.rendezvous.leaseMarginMs),
      ("monitor_interval_ms", toString c.rendezvous.monitorIntervalMs),
      ("startup_retry_ms", toString c.rendezvous.startupRetryMs),
      ("seed_kick_delay_ms", toString c.rendezvous.seedKickDelayMs),
      ("max_seed_attempts_per_cycle", toString c.rendezvous.maxSeedAttemptsPerCycle),
      ("pending_request_timeout_ms", toString c.rendezvous.pendingRequestTimeoutMs),
      ("max_ttl", toString c.rendezvous.maxTtl),
      ("seeds", renderStrings c.rendezvous.seeds),
      ("use_only_seeds", toString c.rendezvous.useOnlySeeds),
      ("seeding", renderString c.rendezvous.seeding.name)],
    renderSection "cache" [
      ("descriptor_lifetime_ms", toString c.cache.descriptorLifetimeMs),
      ("descriptor_expiration_ms", toString c.cache.descriptorExpirationMs)]]

end Config

end LeaseOverlay
