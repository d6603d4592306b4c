import LeaseOverlay.Json.Record
import LeaseOverlay.Toml.Value
/-!
TOML documents: lines of keys with values under the headers of tables. A table is defined once, by
its header or by dotted keys.
-/

namespace LeaseOverlay.Toml

structure Draft where
  root : Fields := []
  current : Fields := []
  path : List String := []
  inArray : Bool := false

namespace Draft

def finish (d : Draft) : Option Fields :=
  match d.path.getLast? with
  | none => some d.current
  | some k =>
    (Fields.update false (fun _ fs =>
      match d.inArray, fs.lookup k with
      | false, none => some (fs.put k (.table false false d.current), ())
      | true, none => some (fs.put k (.tables [d.current]), ())
      | true, some (.tables es) => some (fs.put k (.tables (d.current :: es)), ())
      | _, _ => none) d.path.dropLast false d.root).map (·.1)

/-- Begins the table of a header. What its subtables made of it before belongs to it. -/
def openTable (d : Draft) (path : List String) : Option Draft := do
  let root ← d.finish
  let k ← path.getLast?
  let (root, current) ← Fields.update false (fun _ fs =>
    match fs.lookup k with
    | none => some (fs, [])
    | some (.table true false sub) => some (fs.filter fun f => f.1 ≠ k, sub)
    | _ => none) path.dropLast false root
  return ⟨root, current, path, false⟩

def openElement (d : Draft) (path : List String) : Option Draft := do
  let root ← d.finish
  let k ← path.getLast?
  let (root, ()) ← Fields.update false (fun _ fs =>
    match fs.lookup k with
    | none | some (.tables _) => some (fs, ())
    | _ => none) path.dropLast false root
  return ⟨root, [], path, true⟩

def define (d : Draft) (path : List String) (v : Value) : Option Draft :=
  (d.current.define path v).map fun fs => { d with current := fs }

def header (d : Draft) (cs : List Char) : Option (Draft × List Char) :=
  match cs with
  | '[' :: '[' :: cs =>
    match key cs with
    | some (path, ']' :: ']' :: rest) => do
      let rest ← endLine? rest
      let d ← d.openElement path
      return (d, rest)
    | _ => none
  | '[' :: cs =>
    match key cs with
    | some (path, ']' :: rest) => do
      let rest ← endLine? rest
      let d ← d.openTable path
      return (d, rest)
    | _ => none
  | _ => none

def pair (d : Draft) (cs : List Char) : Option (Draft × List Char) :=
  match key cs with
  | some (path, '=' :: rest) => do
    let rest := skipBlanks rest
    let (v, rest) ← value (2 * rest.length + 2) depthLimit rest
    let rest ← endLine? rest
    let d ← d.define path v
    return (d, rest)
  | _ => none

def lines : Nat → Draft → List Char → Option Draft
  | 0, _, _ => none
  | n + 1, d, cs =>
    match skipBlanks cs with
    | [] => some d
    | '[' :: cs => (d.header ('[' :: cs)).bind fun r => lines n r.1 r.2
    | '#' :: cs => (endLine? ('#' :: cs)).bind fun rest => lines n d rest
    | cs =>
      match newline? cs with
      | some rest => lines n d rest
      | none => (d.pair cs).bind fun r => lines n r.1 r.2

end Draft

def parse? (s : String) : Option Value :=
  let cs := match s.toList with
    | '\ufeff' :: cs => cs
    | cs => cs
  ((Draft.lines (cs.length + 1) {} cs).bind Draft.finish).map fun fs =>
    .table (Entry.fieldValues fs)

namespace Value

mutual

/-- The same value for the readings that JSON values have. Floats and moments become what no typed
reading takes. -/
def toJson : Value → Json.Value
  | string s => .ofString s
  | integer i => .ofInt i
  | float _ => .number ⟨false, 0, false⟩
  | boolean b => .bool b
  | moment text => .ofFields [("$moment", .ofString text)]
  | array vs => .array (itemsToJson vs)
  | table fs => .object (fieldsToJson fs)

def itemsToJson : List Value → List Json.Value
  | [] => []
  | v :: vs => v.toJson :: itemsToJson vs

def fieldsToJson : List (String × Value) → List (Json.Text × Json.Value)
  | [] => []
  | (k, v) :: fs => (.ofString k, v.toJson) :: fieldsToJson fs

end

end Value

end LeaseOverlay.Toml
