import LeaseOverlay.Time
import LeaseOverlay.Wire.Message
/-!
Control messages of the lease protocol, each in an element of its own. Of several control elements
a reply comes first, then a disconnect notice, then a request.
-/

namespace LeaseOverlay

open Json

/-- A grant of a lease; a duration that is not positive revokes it. -/
structure LeaseReply where
  peer : PeerId
  leaseMs : Int
  descriptor : Option Descriptor
  deriving DecidableEq

def LeaseReply.lease (r : LeaseReply) : Option Time :=
  if 0 < r.leaseMs then some (.ofMillis r.leaseMs.toNat) else none

inductive Control
  | request (descriptor : Descriptor)
  | reply (r : LeaseReply)
  | disconnect (peer : PeerId)
  deriving DecidableEq

namespace Control

def requestElement : String := "edgelink:LeaseRequest"

def replyElement : String := "edgelink:LeaseReply"

def disconnectElement : String := "edgelink:Disconnect"

def requestOfJson? (v : Value) : Option Descriptor := do
  let r ← Record.ofValue? ["descriptor"] v
  (r.slot "descriptor").required Descriptor.ofJson?

def requestToJson (d : Descriptor) : Value := .ofFields [("descriptor", d.toJson)]

def disconnectOfJson? (v : Value) : Option PeerId := do
  let r ← Record.ofValue? ["peer_id"] v
  (r.slot "peer_id").required PeerId.ofJson?

def disconnectToJson (p : PeerId) : Value := .ofFields [("peer_id", p.toJson)]

structure Draft where
  peer : Option String
  leaseMs : Option Int
  descriptor : Option Descriptor

def Draft.ofJson? (v : Value) : Option Draft := do
  let r ← Record.ofValue? ["peer_id", "lease_ms", "descriptor"] v
  let peer ← (r.slot "peer_id").optional Value.string?
  let leaseMs ← (r.slot "lease_ms").optional Value.signed64?
  let descriptor ← (r.slot "descriptor").optional Descriptor.ofJson?
  return ⟨peer, leaseMs, descriptor⟩

def Draft.reply (d : Draft) : Except WireError LeaseReply :=
  match d.peer with
  | none => .error (.missingField "peer_id")
  | some text =>
    match PeerId.parse text, d.leaseMs with
    | .error e, _ => .error e
    | .ok _, none => .error (.missingField "lease_ms")
    | .ok peer, some leaseMs => .ok ⟨peer, leaseMs, d.descriptor⟩

def replyToJson (r : LeaseReply) : Value :=
  .ofFields ([("peer_id", r.peer.toJson), ("lease_ms", .ofInt r.leaseMs)] ++
    match r.descriptor with
    | some d => [("descriptor", d.toJson)]
    | none => [])

def ofMessage (m : Message) : Except WireError (Option Control) :=
  match m.json? replyElement Draft.ofJson? with
  | .error e => .error e
  | .ok (some d) => d.reply.map fun r => some (.reply r)
  | .ok none =>
    match m.json? disconnectElement disconnectOfJson? with
    | .error e => .error e
    | .ok (some p) => .ok (some (.disconnect p))
    | .ok none =>
      match m.json? requestElement requestOfJson? with
      | .error e => .error e
      | .ok (some d) => .ok (some (.request d))
      | .ok none => .ok none

def toMessage : Control → Message
  | request d => Message.empty.setJson requestElement (requestToJson d)
  | reply r => Message.empty.setJson replyElement (replyToJson r)
  | disconnect p => Message.empty.setJson disconnectElement (disconnectToJson p)

end Control

end LeaseOverlay
