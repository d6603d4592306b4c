import LeaseOverlay.Wire.Message

namespace LeaseOverlay

open Json

structure Header where
  id : String
  ttl : Nat
  service : String
  param : String
  /-- The peers that forwarded the message, its origin first. -/
  path : List PeerId
  deriving DecidableEq

inductive HeaderError
  | unreadable (cause : WireError)
  | inconsistent (id carried asked : String)
  | loop (id : String)
  deriving DecidableEq

def HeaderError.message : HeaderError → String
  | unreadable cause => "existing propagation header unreadable: " ++ cause.message
  | inconsistent id carried asked =>
    "message " ++ id ++ " carries header for " ++ carried ++ ", asked to propagate as " ++ asked
  | loop id => "message " ++ id ++ " already passed through this peer"

def clampTtl (asked limit : Nat) : Nat := min asked limit

namespace Header

def element : String := "edgelink:PropHeader"

def ofJson? (v : Value) : Option Header := do
  let r ← Record.ofValue? ["msg_id", "ttl", "service", "param", "path"] v
  let id ← (r.slot "msg_id").required Value.string?
  let ttl ← (r.slot "ttl").required Value.unsigned32?
  let service ← (r.slot "service").required Value.string?
  let param ← (r.slot "param").required Value.string?
  let path ← (r.slot "path").withDefault (Value.list? PeerId.ofJson?) []
  return ⟨id, ttl, service, param, path⟩

def toJson (h : Header) : Value :=
  .ofFields [("msg_id", .ofString h.id), ("ttl", .ofNat h.ttl), ("service", .ofString h.service),
    ("param", .ofString h.param), ("path", .array (h.path.map PeerId.toJson))]

def read (m : Message) : Except WireError (Option Header) := m.json? element ofJson?

def attach (h : Header) (m : Message) : Message := m.setJson element h.toJson

def visited (h : Header) (p : PeerId) : Bool := h.path.contains p

def fresh (id : String) (origin : PeerId) (service param : String) (ttl : Nat) : Header :=
  ⟨id, ttl, service, param, [origin]⟩

structure Request where
  sender : PeerId
  service : String
  param : String
  ttl : Nat
  limit : Nat
  freshId : String

def next (h : Header) (r : Request) : Except HeaderError (Option Header) :=
  if h.service ≠ r.service ∨ h.param ≠ r.param then
    .error (.inconsistent h.id (h.service ++ "/" ++ h.param) (r.service ++ "/" ++ r.param))
  else if h.visited r.sender then .error (.loop h.id)
  else if h.ttl = 0 then .ok none
  else .ok (some { h with
    ttl := min (h.ttl - 1) (clampTtl r.ttl r.limit)
    path := h.path ++ [r.sender] })

def outbound (m : Message) (r : Request) : Except HeaderError (Option Header) :=
  match read m with
  | .error e => .error (.unreadable e)
  | .ok none =>
    .ok (some (fresh r.freshId r.sender r.service r.param (clampTtl r.ttl r.limit)))
  | .ok (some h) => h.next r

end Header

end LeaseOverlay
