import LeaseOverlay.Json.Value
/-!
Typed readings of JSON values. A record is read from an object, whose unknown fields are passed
over and whose known fields may not be repeated, or from an array of its fields in order.
-/

namespace LeaseOverlay.Json

namespace Value

def string? : Value → Option String
  | .text t => t.toString?
  | _ => none

def bool? : Value → Option Bool
  | .bool b => some b
  | _ => none

def natBelow? (bound : Nat) : Value → Option Nat
  | .number n => n.toNat?.filter (· < bound)
  | _ => none

def unsigned32? (v : Value) : Option Nat := v.natBelow? 0x100000000

def unsigned64? (v : Value) : Option Nat := v.natBelow? 0x10000000000000000

def signed64? : Value → Option Int
  | .number n => n.toInt?.filter fun i => -0x8000000000000000 ≤ i ∧ i < 0x8000000000000000
  | _ => none

def list? {α : Type} (item : Value → Option α) : Value → Option (List α)
  | .array vs => vs.mapM item
  | _ => none

/-- Bytes written as numbers, or as a string that stands for its bytes whatever they are. -/
def bytes? : Value → Option (List UInt8)
  | .text t => some t.bytes
  | .array vs => vs.mapM fun v => (v.natBelow? 256).map UInt8.ofNat
  | _ => none

def fields? : Value → Option (List (String × Value))
  | .object fs => fs.mapM fun f => f.1.toString?.map fun k => (k, f.2)
  | _ => none

def null? : Value → Bool
  | .null => true
  | _ => false

end Value

/-- What a record has for one of its fields: a value, nothing in an object, or nothing because an
array ended before it. -/
inductive Slot
  | given (v : Value)
  | omitted
  | cut

namespace Slot

variable {α : Type}

def required (read : Value → Option α) : Slot → Option α
  | given v => read v
  | _ => none

def withDefault (read : Value → Option α) (default : α) : Slot → Option α
  | given v => read v
  | _ => some default

def optional (read : Value → Option α) : Slot → Option (Option α)
  | given .null => some none
  | given v => (read v).map some
  | omitted => some none
  | cut => none

def orNull (read : Value → Option α) : Slot → Option (Option α)
  | given .null => some none
  | given v => (read v).map some
  | _ => some none

end Slot

structure Record where
  slots : List (String × Slot)

namespace Record

def slot (r : Record) (name : String) : Slot := (r.slots.lookup name).getD .omitted

def ofFields (names : List String) (fs : List (String × Value)) : Option Record :=
  let known := fs.filter fun f => names.contains f.1
  let unknown := fs.filter fun f => !names.contains f.1
  if (known.map (·.1)).Nodup ∧ unknown.all fun f => f.2.plain then
    some ⟨names.map fun n => (n, match known.lookup n with
      | some v => .given v
      | none => .omitted)⟩
  else none

def ofItems : List String → List Value → Option (List (String × Slot))
  | [], [] => some []
  | [], _ :: _ => none
  | n :: ns, [] => (ofItems ns []).map ((n, .cut) :: ·)
  | n :: ns, v :: vs => (ofItems ns vs).map ((n, .given v) :: ·)

def ofValue? (names : List String) (v : Value) : Option Record :=
  match v with
  | .array vs => (ofItems names vs).map Record.mk
  | _ => v.fields?.bind (ofFields names)

end Record

def decode? {α : Type} (read : Value → Option α) (bs : List UInt8) : Option α :=
  (Value.parse? bs).bind read

end LeaseOverlay.Json
