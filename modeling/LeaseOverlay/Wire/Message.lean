import LeaseOverlay.Table
import LeaseOverlay.Wire.Codec

namespace LeaseOverlay

open Json

structure Message where
  elements : Table String (List UInt8)
  deriving DecidableEq

namespace Message

def empty : Message := ⟨.empty⟩

def ofList (es : List (String × List UInt8)) : Message := ⟨.ofList es⟩

def get? (m : Message) (name : String) : Option (List UInt8) := m.elements.get? name

def has (m : Message) (name : String) : Bool := m.elements.contains name

def set (m : Message) (name : String) (value : List UInt8) : Message :=
  ⟨m.elements.insert name value⟩

def remove (m : Message) (name : String) : Message := ⟨m.elements.erase name⟩

def names (m : Message) : List String := m.elements.keys

def size (m : Message) : Nat := m.elements.size

def isEmpty (m : Message) : Bool := m.elements.isEmpty

def setJson (m : Message) (name : String) (v : Value) : Message := m.set name v.render

def json? {α : Type} (m : Message) (name : String) (read : Value → Option α) :
    Except WireError (Option α) :=
  match m.get? name with
  | none => .ok none
  | some bs => match decode? read bs with
    | some a => .ok (some a)
    | none => .error (.malformed name)

@[simp] theorem get?_set_self (m : Message) (name : String) (value : List UInt8) :
    (m.set name value).get? name = some value :=
  Table.get?_insert_self _ _ _

theorem get?_set_ne (m : Message) {name other : String} (value : List UInt8) (h : other ≠ name) :
    (m.set name value).get? other = m.get? other :=
  Table.get?_insert_ne _ _ h

theorem json?_set_ne {α : Type} (m : Message) {name other : String} (value : List UInt8)
    (read : Value → Option α) (h : other ≠ name) :
    (m.set name value).json? other read = m.json? other read := by
  simp only [json?, get?_set_ne m value h]

def elementsOfJson? (v : Value) : Option (Table String (List UInt8)) := do
  let fs ← v.fields?
  let es ← fs.mapM fun f => f.2.bytes?.map fun bs => (f.1, bs)
  return .ofList es

def ofJson? (v : Value) : Option Message := do
  let r ← Record.ofValue? ["elements"] v
  let es ← (r.slot "elements").required elementsOfJson?
  return ⟨es⟩

def toJson (m : Message) : Value :=
  .ofFields [("elements", .ofFields (m.elements.entries.map fun e => (e.1, .ofBytes e.2)))]

end Message

end LeaseOverlay
