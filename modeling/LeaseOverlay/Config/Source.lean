import LeaseOverlay.Config.Document
import LeaseOverlay.Text.Blank
import LeaseOverlay.Text.Decimal
/-!
Where a configuration comes from: the environment first, then the file, then the defaults. What is
refused is decided last, so the environment can mend a file and spoil it.
-/

namespace LeaseOverlay

structure Environment where
  configPath : Option String := none
  configHome : Option String := none
  home : Option String := none
  listenAddr : Option String := none
  maxConnections : Option String := none
  maxTtl : Option String := none
  seeds : Option String := none
  deriving DecidableEq

inductive FileState
  | missing
  | directory
  | content (bytes : List UInt8)
  deriving DecidableEq

namespace Environment

def join (directory name : String) : String :=
  if directory.isEmpty ∨ directory.toList.getLast? = some '/' then directory ++ name
  else directory ++ "/" ++ name

def path (e : Environment) : String :=
  e.configPath.getD <|
    join (join (e.configHome.getD (join (e.home.getD "/tmp") ".config")) "edgelink") "config.toml"

def number? (text : Option String) (bound : Nat) : Option Nat :=
  (text.bind fun s => Decimal.parse? s.toList).filter (· < bound)

def pieces (s : String) : List String :=
  (((s.toList.splitOn ',').map Blank.strip).filter fun cs => !cs.isEmpty).map String.ofList

end Environment

namespace Config

def override (e : Environment) (c : Config) : Config :=
  { c with
    network := { c.network with listenAddr := e.listenAddr.getD c.network.listenAddr }
    rendezvous := { c.rendezvous with
      maxConnections :=
        (Environment.number? e.maxConnections 0x10000000000000000).getD c.rendezvous.maxConnections
      maxTtl := (Environment.number? e.maxTtl 0x100000000).getD c.rendezvous.maxTtl
      seeds := (e.seeds.map Environment.pieces).getD c.rendezvous.seeds } }

def ofFile : FileState → Except ConfigError Config
  | .missing => .ok {}
  | .directory => .error .readFailed
  | .content bytes =>
    match Utf8.decode? bytes with
    | none => .error .readFailed
    | some text =>
      match ofToml? text with
      | none => .error .parseFailed
      | some c => .ok c

def load (e : Environment) (f : FileState) : Except ConfigError Config := do
  let c := (← ofFile f).override e
  c.validate
  return c

def writeDefault (f : FileState) (writable : Bool) : Except ConfigError FileState :=
  match f with
  | .missing =>
    if writable then .ok (.content (Utf8.encode (render {}))) else .error .writeFailed
  | f => .ok f

end Config

end LeaseOverlay
