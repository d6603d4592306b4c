import LeaseOverlay.Proofs.Identity
import LeaseOverlay.Proofs.Settings
import LeaseOverlay.Proofs.Variables

namespace LeaseOverlay

/-- The environment has a value for four of the settings. A text that is no number in range sets
nothing. -/
def Setting.SetBy {α : Type} (e : Environment) : Setting α → α → Prop
  | listenAddr, s => e.listenAddr = some s
  | maxConnections, n =>
    ∃ s, e.maxConnections = some s ∧ Decimal.Spells s n ∧ n < 0x10000000000000000
  | maxTtl, n => ∃ s, e.maxTtl = some s ∧ Decimal.Spells s n ∧ n < 0x100000000
  | seeds, ss => ∃ s, e.seeds = some s ∧ Environment.Lists s ss
  | _, _ => False

inductive Setting.Resolves {α : Type} (e : Environment) (f : FileState) (x : Setting α) (a : α) :
    Prop
  | environment (set : x.SetBy e a)
  | file (unset : ∀ b, ¬x.SetBy e b) (w : Toml.Value) (stated : f.states? x = some w)
      (denotes : x.shape.Denotes w a)
  | default (unset : ∀ b, ¬x.SetBy e b) (unstated : f.states? x = none) (eq : a = x.default)

def FileState.refusal : FileState → ConfigError
  | content bytes => if (Utf8.decode? bytes).isSome then .parseFailed else .readFailed
  | _ => .readFailed

structure Config.Valid (c : Config) : Prop where
  maxConnections : c.rendezvous.maxConnections ≠ 0
  monitorInterval : c.rendezvous.monitorIntervalMs ≠ 0
  maxSeedAttempts : c.rendezvous.maxSeedAttemptsPerCycle ≠ 0
  peerId : c.identity.peerId = "" ∨
    c.identity.peerId.length = 64 ∧ ∀ ch ∈ c.identity.peerId.toList, Hex.IsDigit ch

variable {α : Type} {c d : Config} {e : Environment} {f : FileState}

namespace Setting

variable {x : Setting α} {a b : α}

def setBy? {α : Type} (e : Environment) : Setting α → Option α
  | listenAddr => e.listenAddr
  | maxConnections => Environment.number? e.maxConnections 0x10000000000000000
  | maxTtl => Environment.number? e.maxTtl 0x100000000
  | seeds => e.seeds.map Environment.pieces
  | _ => none

theorem setBy_iff : x.SetBy e a ↔ x.setBy? e = some a := by
  cases x with
  | maxConnections => exact Environment.number?_eq_some_iff.symm
  | maxTtl => exact Environment.number?_eq_some_iff.symm
  | seeds => simp only [SetBy, setBy?, Option.map_eq_some_iff, Environment.pieces_eq_iff]
  | listenAddr => exact Iff.rfl
  | _ => exact ⟨False.elim, nofun⟩

theorem get_override (x : Setting α) (e : Environment) (c : Config) :
    x.get (c.override e) = (x.setBy? e).getD (x.get c) := by
  cases x <;> rfl

theorem resolves_iff : x.Resolves e f a ↔
    x.setBy? e = some a ∨ x.setBy? e = none ∧ x.Given (f.states? x) a := by
  have hunset : (∀ b, ¬x.SetBy e b) ↔ x.setBy? e = none := by
    simp only [setBy_iff, Option.eq_none_iff_forall_ne_some, ne_eq]
  rw [← setBy_iff, ← hunset]
  constructor
  · rintro (hset | ⟨hunset, w, hw, ha⟩ | ⟨hunset, hnone, ha⟩)
    · exact .inl hset
    · exact .inr ⟨hunset, by rw [hw]; rintro _ ⟨⟩; exact ha, by rw [hw]; exact nofun⟩
    · exact .inr ⟨hunset, by rw [hnone]; exact nofun, fun _ => ha⟩
  · rintro (hset | ⟨hunset, hdenotes, hdefault⟩)
    · exact .environment hset
    · cases hw : f.states? x with
      | none => exact .default hunset hw (hdefault hw)
      | some w => exact .file hunset w hw (hdenotes w hw)

theorem Given.unique {entry : Option Toml.Value} (h : Given entry x a) (h' : Given entry x b) :
    a = b := by
  cases entry with
  | none => rw [h.2 rfl, h'.2 rfl]
  | some w =>
    have ha := Shape.read?_toJson.mpr (h.1 w rfl)
    rw [Shape.read?_toJson.mpr (h'.1 w rfl)] at ha
    exact (Option.some.inj ha).symm

theorem Resolves.unique (h : x.Resolves e f a) (h' : x.Resolves e f b) : a = b := by
  rw [resolves_iff] at h h'
  rcases h with h | ⟨hunset, h⟩ <;> rcases h' with h' | ⟨hunset', h'⟩
  · exact Option.some.inj (h.symm.trans h')
  · cases h.symm.trans hunset'
  · cases hunset.symm.trans h'
  · exact h.unique h'

theorem resolves_override (h : x.Given (f.states? x) (x.get c)) :
    x.Resolves e f (x.get (c.override e)) := by
  rw [resolves_iff, get_override]
  cases x.setBy? e with
  | none => exact .inr ⟨rfl, h⟩
  | some b => exact .inl rfl

end Setting

namespace Config

theorem validate_eq_ok_iff : c.validate = .ok () ↔ c.Valid := by
  have hpeer : (∃ p, PeerId.parse c.identity.peerId = .ok p) ↔
      c.identity.peerId.length = 64 ∧ ∀ ch ∈ c.identity.peerId.toList, Hex.IsDigit ch := by
    rw [← PeerId.exists_ofString?_iff]
    unfold PeerId.parse
    cases PeerId.ofString? c.identity.peerId <;> simp
  unfold validate
  split
  · next h => exact ⟨nofun, fun hv => absurd h hv.maxConnections⟩
  next hconnections =>
  split
  · next h => exact ⟨nofun, fun hv => absurd h hv.monitorInterval⟩
  next hmonitor =>
  split
  · next h => exact ⟨nofun, fun hv => absurd h hv.maxSeedAttempts⟩
  next hattempts =>
  split
  · next h => exact ⟨fun _ => ⟨hconnections, hmonitor, hattempts, .inl h⟩, fun _ => rfl⟩
  next hid =>
  cases hparse : PeerId.parse c.identity.peerId with
  | ok p =>
    have hdigits := hpeer.mp ⟨p, hparse⟩
    exact ⟨fun _ => ⟨hconnections, hmonitor, hattempts, .inr hdigits⟩, fun _ => rfl⟩
  | error err =>
    refine ⟨nofun, fun hv => ?_⟩
    obtain ⟨p, hp⟩ := hpeer.mpr (hv.peerId.resolve_left hid)
    cases hparse.symm.trans hp

def ResolvedBy (e : Environment) (f : FileState) (c : Config) : Prop :=
  ∀ {α : Type} (x : Setting α), x.Resolves e f (x.get c)

theorem ResolvedBy.unique (h : c.ResolvedBy e f) (h' : d.ResolvedBy e f) : c = d :=
  eq_of_get fun x => (h x).unique (h' x)

theorem resolvedBy_override (h : ofFile f = .ok c) (e : Environment) :
    (c.override e).ResolvedBy e f :=
  fun x => Setting.resolves_override ((ofFile_eq_ok_iff.mp h).2 x)

theorem load_of_ofFile (h : ofFile f = .ok c) (e : Environment) :
    load e f = (c.override e).validate.map fun _ => c.override e := by
  rw [load, h]
  change ((c.override e).validate >>= fun _ => pure (c.override e)) = _
  cases (c.override e).validate <;> rfl

theorem load_of_resolvedBy (hf : f.Readable) (hc : c.ResolvedBy e f) :
    load e f = c.validate.map fun _ => c := by
  obtain ⟨d, hd⟩ := readable_iff.mp hf
  rw [hc.unique (resolvedBy_override hd e), load_of_ofFile hd e]

theorem exists_resolvedBy (hf : f.Readable) (e : Environment) : ∃ c, ResolvedBy e f c := by
  obtain ⟨d, hd⟩ := readable_iff.mp hf
  exact ⟨d.override e, resolvedBy_override hd e⟩

theorem ofFile_of_not_readable (hf : ¬f.Readable) : ofFile f = .error f.refusal := by
  cases f with
  | missing => exact absurd (.inl rfl) hf
  | directory => rfl
  | content bytes =>
    cases h : ofFile (.content bytes) with
    | ok c => exact absurd (readable_iff.mpr ⟨c, h⟩) hf
    | error err =>
      simp only [ofFile] at h
      split at h
      · next hdecode => simpa [FileState.refusal, hdecode] using h.symm
      · next text hdecode =>
        cases htoml : ofToml? text with
        | some c => simp [htoml] at h
        | none => simpa [FileState.refusal, hdecode, htoml] using h.symm

theorem load_of_not_readable (hf : ¬f.Readable) (e : Environment) :
    load e f = .error f.refusal := by
  rw [load, ofFile_of_not_readable hf]
  rfl

theorem load_eq_ok_iff :
    load e f = .ok c ↔ f.Readable ∧ c.ResolvedBy e f ∧ c.validate = .ok () := by
  by_cases hf : f.Readable
  · obtain ⟨d, hd⟩ := exists_resolvedBy hf e
    rw [load_of_resolvedBy hf hd]
    constructor
    · intro h
      cases hv : d.validate with
      | error err => simp [hv, Except.map] at h
      | ok u =>
        have hdc : d = c := by simpa [hv, Except.map] using h
        exact ⟨hf, hdc ▸ hd, hdc ▸ hv⟩
    · rintro ⟨_, hc, hv⟩
      rw [hd.unique hc, hv]
      rfl
  · rw [load_of_not_readable hf e]
    exact ⟨nofun, fun h => absurd h.1 hf⟩

def withConnections (c : Config) (n : Nat) : Config :=
  { c with rendezvous := { c.rendezvous with maxConnections := n } }

theorem ResolvedBy.withConnections {text : String} {n : Nat} (hc : c.ResolvedBy e f)
    (htext : Decimal.Spells text n) (hn : n < 0x10000000000000000) :
    (c.withConnections n).ResolvedBy { e with maxConnections := some text } f := by
  intro α x
  rw [Setting.resolves_iff]
  have hx := Setting.resolves_iff.mp (hc x)
  cases x with
  | maxConnections => exact .inl (Environment.number?_eq_some_iff.mpr ⟨text, rfl, htext, hn⟩)
  | _ => exact hx

open Toml in
theorem ofToml?_render_default : ofToml? (render {}) = some {} := by
  -- Taken apart first: long texts cost the kernel much more than their parts.
  simp only [ofToml?, parse?, render, renderSection, renderString, renderStrings,
    String.toList_intercalate, String.toList_append, String.toList_join, List.map_cons,
    List.map_nil]
  decide +kernel

theorem ofFile_encode {text : String} (h : ofToml? text = some c) :
    ofFile (.content (Utf8.encode text)) = .ok c := by
  simp only [ofFile, Utf8.decode?_encode, h]

theorem load_of_writeDefault {g : FileState} {writable : Bool} (h : writeDefault f writable = .ok g)
    (e : Environment) : load e g = load e f := by
  cases f with
  | missing =>
    cases writable with
    | false => cases h
    | true =>
      cases h
      rw [load_of_ofFile (ofFile_encode ofToml?_render_default) e]
      exact (load_of_ofFile rfl e).symm
  | _ =>
    cases h
    rfl

theorem writeDefault_of_ne_missing (h : f ≠ .missing) (writable : Bool) :
    writeDefault f writable = .ok f := by
  cases f with
  | missing => exact absurd rfl h
  | _ => rfl

theorem ne_missing_of_writeDefault {g : FileState} {writable : Bool}
    (h : writeDefault f writable = .ok g) : g ≠ .missing := by
  cases f with
  | missing =>
    cases writable with
    | false => cases h
    | true =>
      cases h
      exact nofun
  | _ =>
    cases h
    exact nofun

/-- A file is loaded if it can be read and its settings, as they come out, can be run with. An
environment with a proper number of connections mends whatever number the file has, and one with
zero spoils any file. Defaults that are written change no outcome, and a file that is there
stays. -/
theorem settings_come_from_environment_file_and_defaults :
    (∀ (e : Environment) (f : FileState) (c : Config),
      load e f = .ok c ↔ f.Readable ∧ c.ResolvedBy e f ∧ c.validate = .ok ()) ∧
    (∀ c : Config, c.validate = .ok () ↔ c.Valid) ∧
    (∀ (e : Environment) (f : FileState), f.Readable →
      ∃ c : Config, c.ResolvedBy e f ∧ load e f = c.validate.map fun _ => c) ∧
    (∀ (e : Environment) (f : FileState), ¬f.Readable → load e f = .error f.refusal) ∧
    (∀ (e : Environment) (f : FileState) (c : Config) (text : String) (n : Nat), f.Readable →
      c.ResolvedBy e f → Decimal.Spells text n → n < 0x10000000000000000 →
      (c.withConnections n).Valid →
      load { e with maxConnections := some text } f = .ok (c.withConnections n)) ∧
    (∀ (e : Environment) (f : FileState) (text : String), f.Readable → Decimal.Spells text 0 →
      load { e with maxConnections := some text } f =
        .error (.invalid "rendezvous.max_connections" "must be at least 1")) ∧
    (∃ g, writeDefault .missing true = .ok g) ∧
    (∀ (f g : FileState) (writable : Bool), writeDefault f writable = .ok g → g ≠ .missing ∧
      (∀ e : Environment, load e g = load e f) ∧ ∀ again : Bool, writeDefault g again = .ok g) ∧
    ∀ (f : FileState) (writable : Bool), f ≠ .missing → writeDefault f writable = .ok f := by
  refine ⟨fun _ _ _ => load_eq_ok_iff, fun _ => validate_eq_ok_iff, ?readable,
    fun e _ hf => load_of_not_readable hf e, ?mended, ?spoilt, ⟨_, rfl⟩, ?written,
    fun _ writable hf => writeDefault_of_ne_missing hf writable⟩
  case readable =>
    intro e f hf
    obtain ⟨c, hc⟩ := exists_resolvedBy hf e
    exact ⟨c, hc, load_of_resolvedBy hf hc⟩
  case mended =>
    intro e f c text n hf hc htext hn hvalid
    exact load_eq_ok_iff.mpr ⟨hf, hc.withConnections htext hn, validate_eq_ok_iff.mpr hvalid⟩
  case spoilt =>
    intro e f text hf htext
    obtain ⟨c, hc⟩ := exists_resolvedBy hf e
    rw [load_of_resolvedBy hf (hc.withConnections htext (by decide))]
    rfl
  case written =>
    intro f g writable h
    have hfile := ne_missing_of_writeDefault h
    exact ⟨hfile, load_of_writeDefault h, writeDefault_of_ne_missing hfile⟩

theorem zero_connections_are_mended_and_made :
    let f := FileState.content (Utf8.encode "[rendezvous]\nmax_connections = 0\n")
    let c := withConnections {} 0
    f.Readable ∧ c.ResolvedBy {} f ∧
      load {} f = .error (.invalid "rendezvous.max_connections" "must be at least 1") ∧
      Decimal.Spells "+2" 2 ∧ (c.withConnections 2).Valid ∧
      load { maxConnections := some "+2" } f = .ok (c.withConnections 2) ∧
      Decimal.Spells "00" 0 ∧
      load { maxConnections := some "00" } .missing =
        .error (.invalid "rendezvous.max_connections" "must be at least 1") ∧
      ¬FileState.Readable .directory ∧ load {} .directory = .error .readFailed ∧
      (∃ g, writeDefault .missing true = .ok g ∧ g ≠ .missing ∧ load {} g = load {} .missing) ∧
      writeDefault f false = .ok f := by
  intro f c
  obtain ⟨_, hvalid, hreadable, hunreadable, hmended, hspoilt, ⟨g, hg⟩, hwritten, hkept⟩ :=
    settings_come_from_environment_file_and_defaults
  have hfile : ofFile f = .ok c := ofFile_encode (by decide +kernel)
  have hf : f.Readable := readable_iff.mpr ⟨c, hfile⟩
  have hc : c.ResolvedBy {} f := resolvedBy_override hfile {}
  have htwo : Decimal.Spells "+2" 2 := Decimal.parse?_eq_some_iff.mp (by decide +kernel)
  have hzero : Decimal.Spells "00" 0 := Decimal.parse?_eq_some_iff.mp (by decide +kernel)
  have hvalid₂ : (c.withConnections 2).Valid := (hvalid _).mp (by decide +kernel)
  have hdirectory : ¬FileState.Readable .directory := fun h => nomatch readable_iff.mp h
  obtain ⟨d, hd, hload⟩ := hreadable {} f hf
  obtain ⟨hfilled, hsame, _⟩ := hwritten .missing g true hg
  refine ⟨hf, hc, ?_, htwo, hvalid₂, hmended {} f c "+2" 2 hf hc htwo (by decide) hvalid₂, hzero,
    hspoilt {} .missing "00" (.inl rfl) hzero, hdirectory, hunreadable {} .directory hdirectory,
    ⟨g, hg, hfilled, hsame {}⟩, hkept f false nofun⟩
  rw [hload, hd.unique hc]
  rfl

end Config

end LeaseOverlay
