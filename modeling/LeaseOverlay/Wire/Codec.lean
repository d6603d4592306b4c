import LeaseOverlay.Json.Record
import LeaseOverlay.Peer
import LeaseOverlay.Text.Quoted

namespace LeaseOverlay

open Json

inductive WireError
  | malformed (element : String)
  | missingField (name : String)
  | badPeerId (text : String)
  deriving DecidableEq

def WireError.message : WireError → String
  | malformed element => "malformed element " ++ element
  | missingField name => "missing field: " ++ name
  | badPeerId text => "invalid peer id: " ++ quoted text

namespace PeerId

def parse (s : String) : Except WireError PeerId :=
  match ofString? s with
  | some p => .ok p
  | none => .error (.badPeerId s)

def ofJson? (v : Value) : Option PeerId := v.string?.bind ofString?

def toJson (p : PeerId) : Value := .ofString p.text

@[simp] theorem ofJson?_toJson (p : PeerId) : ofJson? p.toJson = some p := by
  simp [ofJson?, toJson, Value.ofString, Value.string?]

end PeerId

namespace Route

def ofJson? (v : Value) : Option Route := do
  let r ← Record.ofValue? ["peer_id", "addresses"] v
  let peer ← (r.slot "peer_id").required PeerId.ofJson?
  let addresses ← (r.slot "addresses").withDefault (Value.list? Value.string?) []
  return ⟨peer, addresses⟩

def toJson (r : Route) : Value :=
  .ofFields [("peer_id", r.peer.toJson), ("addresses", .array (r.addresses.map Value.ofString))]

end Route

namespace Descriptor

def ofJson? (v : Value) : Option Descriptor := do
  let r ← Record.ofValue? ["peer_id", "name", "addresses"] v
  let peer ← (r.slot "peer_id").required PeerId.ofJson?
  let name ← (r.slot "name").withDefault Value.string? ""
  let addresses ← (r.slot "addresses").withDefault (Value.list? Value.string?) []
  return ⟨peer, name, addresses⟩

def toJson (d : Descriptor) : Value :=
  .ofFields [("peer_id", d.peer.toJson), ("name", .ofString d.name),
    ("addresses", .array (d.addresses.map Value.ofString))]

end Descriptor

end LeaseOverlay
