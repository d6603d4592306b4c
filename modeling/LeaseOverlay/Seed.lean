import LeaseOverlay.Text.Blank
import LeaseOverlay.Text.Quoted
import LeaseOverlay.Peer

namespace LeaseOverlay

inductive SeedError
  | invalid (text : String)
  deriving DecidableEq

def SeedError.message : SeedError → String
  | invalid text => "invalid seed URI: " ++ quoted text

structure Candidate where
  address : String
  peer : Option PeerId
  route : Option Route
  deriving DecidableEq

namespace Candidate

def ofAddress (address : String) : Candidate := ⟨address, none, none⟩

/-- The first address of the route stands for the raw address. -/
def ofRoute (r : Route) : Candidate := ⟨r.addresses.headD "", some r.peer, some r⟩

def schemeMark : List Char := [':', '/', '/']

def splitFirst (sep : List Char) : List Char → Option (List Char × List Char)
  | [] => if sep.isEmpty then some ([], []) else none
  | c :: cs =>
    match sep.isPrefixOf? (c :: cs) with
    | some rest => some ([], rest)
    | none => (splitFirst sep cs).map fun r => (c :: r.1, r.2)

def isSchemeChar (c : Char) : Bool := c.isAlphanum || c = '+' || c = '-'

def isAddress (cs : List Char) : Bool :=
  match splitFirst schemeMark cs with
  | some (scheme, authority) => !scheme.isEmpty && scheme.all isSchemeChar && !authority.isEmpty
  | none => false

/-- The peer in front of the first `@`, unless a scheme comes before it, and the address. -/
def divide (cs : List Char) : Option (Option PeerId × List Char) :=
  match splitFirst ['@'] cs with
  | some (id, rest) =>
    if (splitFirst schemeMark id).isSome then some (none, cs)
    else (PeerId.ofString? (String.ofList id)).map fun p => (some p, rest)
  | none => some (none, cs)

def parse (s : String) : Except SeedError Candidate :=
  let cs := Blank.strip s.toList
  match divide cs with
  | some (peer, address) =>
    if isAddress address then .ok ⟨String.ofList address, peer, none⟩
    else .error (.invalid (String.ofList cs))
  | none => .error (.invalid (String.ofList cs))

def destination (c : Candidate) : Destination :=
  match c.peer with
  | some p => .peer p
  | none => .address c.address

def hint (c : Candidate) : Option Route :=
  c.peer.map fun p => c.route.getD ⟨p, if c.address.isEmpty then [] else [c.address]⟩

end Candidate

end LeaseOverlay
