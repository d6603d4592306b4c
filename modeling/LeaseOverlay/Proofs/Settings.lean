import LeaseOverlay.Config.Source
import LeaseOverlay.Proofs.Documents

namespace LeaseOverlay

inductive Section
  | identity
  | network
  | rendezvous
  | cache

inductive Setting : Type → Type
  | peerId : Setting String
  | name : Setting String
  | listenAddr : Setting String
  | broadcastAddrs : Setting (List String)
  | maxConnections : Setting Nat
  | leaseMargin : Setting Nat
  | monitorInterval : Setting Nat
  | startupRetry : Setting Nat
  | seedKickDelay : Setting Nat
  | maxSeedAttempts : Setting Nat
  | pendingRequestTimeout : Setting Nat
  | maxTtl : Setting Nat
  | seeds : Setting (List String)
  | useOnlySeeds : Setting Bool
  | seeding : Setting SeedingKind
  | descriptorLifetime : Setting Nat
  | descriptorExpiration : Setting Nat

namespace Section

def names : List String := ["identity", "network", "rendezvous", "cache"]

def name : Section → String
  | identity => "identity"
  | network => "network"
  | rendezvous => "rendezvous"
  | cache => "cache"

def keys : Section → List String
  | identity => ["peer_id", "name"]
  | network => ["listen_addr", "broadcast_addrs"]
  | rendezvous => ["max_connections", "lease_margin_ms", "monitor_interval_ms", "startup_retry_ms",
      "seed_kick_delay_ms", "max_seed_attempts_per_cycle", "pending_request_timeout_ms", "max_ttl",
      "seeds", "use_only_seeds", "seeding"]
  | cache => ["descriptor_lifetime_ms", "descriptor_expiration_ms"]

end Section

namespace Setting

def home {α : Type} : Setting α → Section
  | peerId | name => .identity
  | listenAddr | broadcastAddrs => .network
  | descriptorLifetime | descriptorExpiration => .cache
  | _ => .rendezvous

def key {α : Type} : Setting α → String
  | peerId => "peer_id"
  | name => "name"
  | listenAddr => "listen_addr"
  | broadcastAddrs => "broadcast_addrs"
  | maxConnections => "max_connections"
  | leaseMargin => "lease_margin_ms"
  | monitorInterval => "monitor_interval_ms"
  | startupRetry => "startup_retry_ms"
  | seedKickDelay => "seed_kick_delay_ms"
  | maxSeedAttempts => "max_seed_attempts_per_cycle"
  | pendingRequestTimeout => "pending_request_timeout_ms"
  | maxTtl => "max_ttl"
  | seeds => "seeds"
  | useOnlySeeds => "use_only_seeds"
  | seeding => "seeding"
  | descriptorLifetime => "descriptor_lifetime_ms"
  | descriptorExpiration => "descriptor_expiration_ms"

def shape {α : Type} : Setting α → Shape α
  | peerId | name | listenAddr => .text
  | broadcastAddrs | seeds => .texts
  | maxTtl => .number 0x100000000
  | useOnlySeeds => .flag
  | seeding => .choice
  | maxConnections | leaseMargin | monitorInterval | startupRetry | seedKickDelay | maxSeedAttempts
  | pendingRequestTimeout | descriptorLifetime | descriptorExpiration => .number 0x10000000000000000

def get {α : Type} : Setting α → Config → α
  | peerId, c => c.identity.peerId
  | name, c => c.identity.name
  | listenAddr, c => c.network.listenAddr
  | broadcastAddrs, c => c.network.broadcastAddrs
  | maxConnections, c => c.rendezvous.maxConnections
  | leaseMargin, c => c.rendezvous.leaseMarginMs
  | monitorInterval, c => c.rendezvous.monitorIntervalMs
  | startupRetry, c => c.rendezvous.startupRetryMs
  | seedKickDelay, c => c.rendezvous.seedKickDelayMs
  | maxSeedAttempts, c => c.rendezvous.maxSeedAttemptsPerCycle
  | pendingRequestTimeout, c => c.rendezvous.pendingRequestTimeoutMs
  | maxTtl, c => c.rendezvous.maxTtl
  | seeds, c => c.rendezvous.seeds
  | useOnlySeeds, c => c.rendezvous.useOnlySeeds
  | seeding, c => c.rendezvous.seeding
  | descriptorLifetime, c => c.cache.descriptorLifetimeMs
  | descriptorExpiration, c => c.cache.descriptorExpirationMs

def default {α : Type} (x : Setting α) : α := x.get {}

def field? {α : Type} (x : Setting α) (v : Toml.Value) : Option Toml.Value :=
  (v.field? Section.names x.home.name).bind (·.field? x.home.keys x.key)

end Setting

namespace FileState

def document? : FileState → Option Toml.Value
  | content bytes => (Utf8.decode? bytes).bind Toml.parse?
  | _ => none

def states? {α : Type} (f : FileState) (x : Setting α) : Option Toml.Value :=
  f.document?.bind x.field?

/-- The document is a record of records, and every setting that it states has a value. -/
structure Understood (v : Toml.Value) : Prop where
  sections : v.IsRecord Section.names
  fields : ∀ (s : Section) w, v.field? Section.names s.name = some w → w.IsRecord s.keys
  denotes : ∀ {α : Type} (x : Setting α) w, x.field? v = some w → ∃ a, x.shape.Denotes w a

def Readable (f : FileState) : Prop := f = .missing ∨ ∃ v, f.document? = some v ∧ Understood v

end FileState

def Setting.Given {α : Type} (entry : Option Toml.Value) (x : Setting α) (a : α) : Prop :=
  (∀ w, entry = some w → x.shape.Denotes w a) ∧ (entry = none → a = x.default)

variable {α : Type} {c d : Config} {f : FileState} {v : Toml.Value}

namespace Setting

theorem key_mem_keys (x : Setting α) : x.key ∈ x.home.keys := by
  cases x <;> decide

theorem key_ne_moment (x : Setting α) : x.key ≠ "$moment" := by
  cases x <;> decide

end Setting

theorem Section.name_mem_names (s : Section) : s.name ∈ names := by
  cases s <;> decide

theorem Section.name_ne_moment (s : Section) : s.name ≠ "$moment" := by
  cases s <;> decide

namespace Config

theorem eq_of_get (h : ∀ {α : Type} (x : Setting α), x.get c = x.get d) : c = d := by
  obtain ⟨⟨_, _⟩, ⟨_, _⟩, ⟨_, _, _, _, _, _, _, _, _, _, _⟩, ⟨_, _⟩⟩ := c
  obtain ⟨⟨_, _⟩, ⟨_, _⟩, ⟨_, _, _, _, _, _, _, _, _, _, _⟩, ⟨_, _⟩⟩ := d
  congr
  · exact h .peerId
  · exact h .name
  · exact h .listenAddr
  · exact h .broadcastAddrs
  · exact h .maxConnections
  · exact h .leaseMargin
  · exact h .monitorInterval
  · exact h .startupRetry
  · exact h .seedKickDelay
  · exact h .maxSeedAttempts
  · exact h .pendingRequestTimeout
  · exact h .maxTtl
  · exact h .seeds
  · exact h .useOnlySeeds
  · exact h .seeding
  · exact h .descriptorLifetime
  · exact h .descriptorExpiration

theorem exists_get (value : ∀ {α : Type}, Setting α → α) :
    ∃ c : Config, ∀ {α : Type} (x : Setting α), x.get c = value x :=
  ⟨⟨⟨value .peerId, value .name⟩, ⟨value .listenAddr, value .broadcastAddrs⟩,
    ⟨value .maxConnections, value .leaseMargin, value .monitorInterval, value .startupRetry,
      value .seedKickDelay, value .maxSeedAttempts, value .pendingRequestTimeout, value .maxTtl,
      value .seeds, value .useOnlySeeds, value .seeding⟩,
    ⟨value .descriptorLifetime, value .descriptorExpiration⟩⟩, fun x => by cases x <;> rfl⟩

end Config

namespace Section

def Reads (v : Json.Value) (c : Config) : Section → Prop
  | identity => ConfigFormat.toml.identity? v = some c.identity
  | network => ConfigFormat.toml.network? v = some c.network
  | rendezvous => ConfigFormat.toml.rendezvous? v = some c.rendezvous
  | cache => ConfigFormat.toml.cache? v = some c.cache

theorem reads_iff {s : Section} {w : Json.Value} :
    s.Reads w c ↔ ∃ r, ConfigFormat.toml.record? s.keys w = some r ∧
      ∀ {α : Type} (x : Setting α), x.home = s →
        (r.slot x.key).withDefault x.shape.read? x.default = some (x.get c) := by
  obtain ⟨identity, network, rendezvous, cache⟩ := c
  cases s with
  | identity =>
    simp only [Reads, ConfigFormat.identity?, Option.bind_eq_bind, Option.bind_eq_some_iff,
      Option.pure_def, Option.some.injEq]
    constructor
    · rintro ⟨r, hr, _, hid, _, hname, rfl⟩
      refine ⟨r, hr, fun x hx => ?_⟩
      cases x with
      | peerId => exact hid
      | name => exact hname
      | _ => cases hx
    · rintro ⟨r, hr, h⟩
      exact ⟨r, hr, _, h .peerId rfl, _, h .name rfl, rfl⟩
  | network =>
    simp only [Reads, ConfigFormat.network?, Option.bind_eq_bind, Option.bind_eq_some_iff,
      Option.pure_def, Option.some.injEq]
    constructor
    · rintro ⟨r, hr, _, hlisten, _, hbroadcast, rfl⟩
      refine ⟨r, hr, fun x hx => ?_⟩
      cases x with
      | listenAddr => exact hlisten
      | broadcastAddrs => exact hbroadcast
      | _ => cases hx
    · rintro ⟨r, hr, h⟩
      exact ⟨r, hr, _, h .listenAddr rfl, _, h .broadcastAddrs rfl, rfl⟩
  | rendezvous =>
    simp only [Reads, ConfigFormat.rendezvous?, Option.bind_eq_bind, Option.bind_eq_some_iff,
      Option.pure_def, Option.some.injEq]
    constructor
    · rintro ⟨r, hr, _, hconnections, _, hmargin, _, hmonitor, _, hretry, _, hkick, _, hattempts,
        _, htimeout, _, httl, _, hseeds, _, honly, _, hseeding, rfl⟩
      refine ⟨r, hr, fun x hx => ?_⟩
      cases x with
      | maxConnections => exact hconnections
      | leaseMargin => exact hmargin
      | monitorInterval => exact hmonitor
      | startupRetry => exact hretry
      | seedKickDelay => exact hkick
      | maxSeedAttempts => exact hattempts
      | pendingRequestTimeout => exact htimeout
      | maxTtl => exact httl
      | seeds => exact hseeds
      | useOnlySeeds => exact honly
      | seeding => exact hseeding
      | _ => cases hx
    · rintro ⟨r, hr, h⟩
      exact ⟨r, hr, _, h .maxConnections rfl, _, h .leaseMargin rfl, _, h .monitorInterval rfl,
        _, h .startupRetry rfl, _, h .seedKickDelay rfl, _, h .maxSeedAttempts rfl,
        _, h .pendingRequestTimeout rfl, _, h .maxTtl rfl, _, h .seeds rfl, _, h .useOnlySeeds rfl,
        _, h .seeding rfl, rfl⟩
  | cache =>
    simp only [Reads, ConfigFormat.cache?, Option.bind_eq_bind, Option.bind_eq_some_iff,
      Option.pure_def, Option.some.injEq]
    constructor
    · rintro ⟨r, hr, _, hlifetime, _, hexpiration, rfl⟩
      refine ⟨r, hr, fun x hx => ?_⟩
      cases x with
      | descriptorLifetime => exact hlifetime
      | descriptorExpiration => exact hexpiration
      | _ => cases hx
    · rintro ⟨r, hr, h⟩
      exact ⟨r, hr, _, h .descriptorLifetime rfl, _, h .descriptorExpiration rfl, rfl⟩

def AtDefault (c : Config) : Section → Prop
  | identity => c.identity = {}
  | network => c.network = {}
  | rendezvous => c.rendezvous = {}
  | cache => c.cache = {}

theorem atDefault_iff {s : Section} :
    s.AtDefault c ↔ ∀ {α : Type} (x : Setting α), x.home = s → x.get c = x.default := by
  obtain ⟨⟨_, _⟩, ⟨_, _⟩, ⟨_, _, _, _, _, _, _, _, _, _, _⟩, ⟨_, _⟩⟩ := c
  constructor
  · intro h α x hx
    subst hx
    cases x <;> cases h <;> rfl
  · intro h
    cases s with
    | identity =>
      exact (IdentityConfig.mk.injEq ..).mpr ⟨h .peerId rfl, h .name rfl⟩
    | network =>
      exact (NetworkConfig.mk.injEq ..).mpr ⟨h .listenAddr rfl, h .broadcastAddrs rfl⟩
    | rendezvous =>
      exact (RendezvousConfig.mk.injEq ..).mpr ⟨h .maxConnections rfl, h .leaseMargin rfl,
        h .monitorInterval rfl, h .startupRetry rfl, h .seedKickDelay rfl, h .maxSeedAttempts rfl,
        h .pendingRequestTimeout rfl, h .maxTtl rfl, h .seeds rfl, h .useOnlySeeds rfl,
        h .seeding rfl⟩
    | cache =>
      exact (CacheConfig.mk.injEq ..).mpr ⟨h .descriptorLifetime rfl, h .descriptorExpiration rfl⟩

end Section

namespace Config

theorem config?_eq_some_iff : ConfigFormat.toml.config? v.toJson = some c ↔
    v.IsRecord Section.names ∧ ∀ s : Section,
      (∀ w, v.field? Section.names s.name = some w → s.Reads w.toJson c) ∧
        (v.field? Section.names s.name = none → s.AtDefault c) := by
  obtain ⟨identity, network, rendezvous, cache⟩ := c
  have hfield {α : Type} (s : Section) {r : Json.Record} {read : Json.Value → Option α} {d a : α}
      (hr : ConfigFormat.toml.record? Section.names v.toJson = some r) :
      (r.slot s.name).withDefault read d = some a ↔ _ :=
    Toml.Value.withDefault_eq_some_iff hr s.name_mem_names s.name_ne_moment
  simp only [ConfigFormat.config?, Option.bind_eq_bind, Option.bind_eq_some_iff, Option.pure_def,
    Option.some.injEq]
  rw [Toml.Value.isRecord_iff]
  constructor
  · rintro ⟨r, hr, _, hidentity, _, hnetwork, _, hrendezvous, _, hcache, h⟩
    cases h
    refine ⟨⟨r, hr⟩, fun s => ?_⟩
    cases s with
    | identity => exact (hfield .identity hr).mp hidentity
    | network => exact (hfield .network hr).mp hnetwork
    | rendezvous => exact (hfield .rendezvous hr).mp hrendezvous
    | cache => exact (hfield .cache hr).mp hcache
  · rintro ⟨⟨r, hr⟩, h⟩
    exact ⟨r, hr, _, (hfield .identity hr).mpr (h .identity),
      _, (hfield .network hr).mpr (h .network), _, (hfield .rendezvous hr).mpr (h .rendezvous),
      _, (hfield .cache hr).mpr (h .cache), rfl⟩

theorem given_iff {w : Toml.Value} {r : Json.Record} (x : Setting α)
    (hr : ConfigFormat.toml.record? x.home.keys w.toJson = some r) :
    (r.slot x.key).withDefault x.shape.read? x.default = some (x.get c) ↔
      x.Given (w.field? x.home.keys x.key) (x.get c) := by
  rw [Toml.Value.withDefault_eq_some_iff hr x.key_mem_keys x.key_ne_moment]
  simp only [Shape.read?_toJson, Setting.Given]

theorem config?_eq_some_iff_given : ConfigFormat.toml.config? v.toJson = some c ↔
    (v.IsRecord Section.names ∧
      ∀ (s : Section) w, v.field? Section.names s.name = some w → w.IsRecord s.keys) ∧
    ∀ {α : Type} (x : Setting α), x.Given (x.field? v) (x.get c) := by
  rw [config?_eq_some_iff]
  constructor
  · rintro ⟨hsections, h⟩
    refine ⟨⟨hsections, fun s w hw => ?_⟩, fun x => ?_⟩
    · obtain ⟨r, hr, _⟩ := Section.reads_iff.mp ((h s).1 w hw)
      exact Toml.Value.isRecord_iff.mpr ⟨r, hr⟩
    · cases hs : v.field? Section.names x.home.name with
      | none =>
        rw [Setting.field?, hs, Option.bind_none]
        exact ⟨nofun, fun _ => Section.atDefault_iff.mp ((h x.home).2 hs) x rfl⟩
      | some w =>
        obtain ⟨r, hr, hget⟩ := Section.reads_iff.mp ((h x.home).1 w hs)
        rw [Setting.field?, hs, Option.bind_some]
        exact (given_iff x hr).mp (hget x rfl)
  · rintro ⟨⟨hsections, hfields⟩, h⟩
    refine ⟨hsections, fun s => ⟨fun w hw => ?_, fun hs => ?_⟩⟩
    · obtain ⟨r, hr⟩ := Toml.Value.isRecord_iff.mp (hfields s w hw)
      refine Section.reads_iff.mpr ⟨r, hr, fun x hx => ?_⟩
      subst hx
      have hx := h x
      rw [Setting.field?, hw, Option.bind_some] at hx
      exact (given_iff x hr).mpr hx
    · refine Section.atDefault_iff.mpr fun x hx => ?_
      subst hx
      exact (h x).2 (by rw [Setting.field?, hs, Option.bind_none])

theorem understood_iff :
    FileState.Understood v ↔ ∃ c, ConfigFormat.toml.config? v.toJson = some c := by
  constructor
  · rintro ⟨hsections, hfields, hdenotes⟩
    have hgiven {α : Type} (x : Setting α) : ∃ a, x.Given (x.field? v) a := by
      cases hx : x.field? v with
      | none => exact ⟨x.default, nofun, fun _ => rfl⟩
      | some w =>
        obtain ⟨a, ha⟩ := hdenotes x w hx
        exact ⟨a, by rintro _ ⟨⟩; exact ha, nofun⟩
    obtain ⟨c, hc⟩ := exists_get fun x => (hgiven x).choose
    refine ⟨c, config?_eq_some_iff_given.mpr ⟨⟨hsections, hfields⟩, fun x => ?_⟩⟩
    rw [hc x]
    exact (hgiven x).choose_spec
  · rintro ⟨c, hc⟩
    obtain ⟨⟨hsections, hfields⟩, h⟩ := config?_eq_some_iff_given.mp hc
    exact ⟨hsections, hfields, fun x w hw => ⟨x.get c, (h x).1 w hw⟩⟩

theorem ofFile_content_eq_ok_iff {bytes : List UInt8} : ofFile (.content bytes) = .ok c ↔
    ∃ v, (FileState.content bytes).document? = some v ∧
      ConfigFormat.toml.config? v.toJson = some c := by
  simp only [ofFile, FileState.document?]
  split
  · next hdecode => simp [hdecode]
  · next text hdecode =>
    have htoml : ofToml? text = some c ↔
        ∃ v, Toml.parse? text = some v ∧ ConfigFormat.toml.config? v.toJson = some c :=
      Option.bind_eq_some_iff
    rw [hdecode, Option.bind_some, ← htoml]
    cases ofToml? text <;> simp

theorem ofFile_eq_ok_iff : ofFile f = .ok c ↔
    f.Readable ∧ ∀ {α : Type} (x : Setting α), x.Given (f.states? x) (x.get c) := by
  cases f with
  | missing =>
    constructor
    · rintro ⟨⟩
      exact ⟨.inl rfl, fun x => ⟨nofun, fun _ => rfl⟩⟩
    · rintro ⟨_, h⟩
      exact congrArg Except.ok (eq_of_get fun x => ((h x).2 rfl).symm)
  | directory =>
    refine ⟨nofun, ?_⟩
    rintro ⟨h | ⟨v, hv, _⟩, _⟩
    · cases h
    · cases hv
  | content bytes =>
    rw [ofFile_content_eq_ok_iff]
    constructor
    · rintro ⟨v, hv, hc⟩
      refine ⟨.inr ⟨v, hv, understood_iff.mpr ⟨c, hc⟩⟩, fun x => ?_⟩
      rw [FileState.states?, hv, Option.bind_some]
      exact (config?_eq_some_iff_given.mp hc).2 x
    · rintro ⟨hf | ⟨v, hv, hu⟩, h⟩
      · cases hf
      refine ⟨v, hv, config?_eq_some_iff_given.mpr ⟨⟨hu.sections, hu.fields⟩, fun x => ?_⟩⟩
      have hx := h x
      rwa [FileState.states?, hv, Option.bind_some] at hx

theorem readable_iff : f.Readable ↔ ∃ c, ofFile f = .ok c := by
  constructor
  · rintro (rfl | ⟨v, hv, hu⟩)
    · exact ⟨{}, rfl⟩
    · obtain ⟨c, hc⟩ := understood_iff.mp hu
      cases f with
      | content bytes => exact ⟨c, ofFile_content_eq_ok_iff.mpr ⟨v, hv, hc⟩⟩
      | _ => cases hv
  · rintro ⟨c, hc⟩
    exact (ofFile_eq_ok_iff.mp hc).1

end Config

end LeaseOverlay
