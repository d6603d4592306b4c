import LeaseOverlay.Endpoint
import LeaseOverlay.Surroundings

namespace LeaseOverlay

open Json

structure Frame where
  sender : Option PeerId
  message : Message
  deriving DecidableEq

namespace Frame

def ofJson? (v : Value) : Option Frame := do
  let r ← Record.ofValue? ["src", "message"] v
  let sender ← (r.slot "src").orNull PeerId.ofJson?
  let message ← (r.slot "message").required Message.ofJson?
  return ⟨sender, message⟩

def toJson (f : Frame) : Value :=
  .ofFields [("src", (f.sender.map PeerId.toJson).getD .null), ("message", f.message.toJson)]

def limit : Nat := 65536

end Frame

/-- The network below: the endpoint that a host and port name, and whether a datagram of so many
bytes is taken for an endpoint. -/
structure Link where
  resolve : String → Option Endpoint := Endpoint.ofString?
  takes : Endpoint → Nat → Bool

namespace Link

def down : Link where
  takes _ _ := false

def up : Link where
  takes _ size := size ≤ 65507

end Link

structure Udp where
  self : PeerId
  routes : Table PeerId Endpoint
  group : List Endpoint
  deriving DecidableEq

namespace Udp

def scheme : String := "udp://"

def new (self : PeerId) (group : List Endpoint) : Udp := ⟨self, .empty, group⟩

def host? (address : String) : Option String :=
  (scheme.toList.isPrefixOf? address.toList).map String.ofList

def endpoint? (address : String) : Option Endpoint :=
  (host? address).bind Endpoint.ofString?

def address (e : Endpoint) : String := scheme ++ e.text

def learn (u : Udp) (r : Route) : Udp :=
  if r.peer = u.self then u
  else match r.addresses.findSome? endpoint? with
    | some e => { u with routes := u.routes.insert r.peer e }
    | none => u

def resolve (link : Link) (u : Udp) (dest : Destination) : Except SendError Endpoint :=
  match dest with
  | .peer p => match u.routes.get? p with
    | some e => .ok e
    | none => .error (.noRoute dest)
  | .address a => match host? a with
    | none => .error (.badAddress a)
    | some host => match link.resolve host with
      | some e => .ok e
      | none => .error (.unreachable dest "unknown host")

def encode (u : Udp) (m : Message) : Except SendError (List UInt8) :=
  let bytes := (Frame.toJson ⟨some u.self, m⟩).render
  if Frame.limit < bytes.length then
    .error (.encode (toString bytes.length ++ " byte frame exceeds datagram"))
  else .ok bytes

def send (link : Link) (u : Udp) (dest : Destination) (m : Message) :
    Except SendError (Endpoint × List UInt8) := do
  let e ← u.resolve link dest
  let bytes ← u.encode m
  if link.takes e bytes.length then return (e, bytes)
  else .error (.unreachable dest "datagram refused")

def propagate (link : Link) (u : Udp) (m : Message) :
    Except SendError (List (Endpoint × List UInt8)) :=
  if u.group.isEmpty then .ok []
  else match u.encode m with
    | .error e => .error e
    | .ok bytes =>
      match u.group.filter fun e => link.takes e bytes.length with
      | [] => .error (.unreachable (.address "broadcast") "datagram refused")
      | reached => .ok (reached.map fun e => (e, bytes))

structure Inbound where
  message : Message
  source : Destination
  deriving DecidableEq

/-- Takes in a datagram. What is no frame, or the own, is passed over; a sender that names itself
can be reached from then on. -/
def receive (u : Udp) (source : Endpoint) (bytes : List UInt8) : Udp × Option Inbound :=
  match decode? Frame.ofJson? (bytes.take Frame.limit) with
  | none => (u, none)
  | some ⟨none, m⟩ => (u, some ⟨m, .address (address source)⟩)
  | some ⟨some p, m⟩ =>
    if p = u.self then (u, none)
    else ({ u with routes := u.routes.insert p source }, some ⟨m, .address (address source)⟩)

end Udp

end LeaseOverlay
