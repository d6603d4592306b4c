import LeaseOverlay.Json.Text
/-!
The tokens of JSON text. No token needs a separator, because the grammar never puts two of the
values next to each other; blanks between tokens are space, tab, line feed and carriage return.
-/

namespace LeaseOverlay.Json

/-- A number as far as its readers ask: the sign as written, the integer part, and whether it was
written without fraction and exponent. -/
structure Number where
  negative : Bool
  whole : Nat
  integral : Bool
  deriving DecidableEq

namespace Number

def ofNat (n : Nat) : Number := ⟨false, n, true⟩

def ofInt (i : Int) : Number := ⟨decide (i < 0), i.natAbs, true⟩

/-- A minus sign before zero makes a number that is no integer. -/
def toNat? (n : Number) : Option Nat :=
  if n.integral ∧ ¬n.negative then some n.whole else none

def toInt? (n : Number) : Option Int :=
  if ¬n.integral then none
  else if ¬n.negative then some n.whole
  else if n.whole = 0 then none
  else some (-n.whole)

@[simp] theorem toNat?_ofNat (n : Nat) : (ofNat n).toNat? = some n := by
  simp [toNat?, ofNat]

@[simp] theorem toInt?_ofInt (i : Int) : (ofInt i).toInt? = some i := by
  by_cases h : i < 0
  · have hz : i ≠ 0 := by omega
    simp only [toInt?, ofInt, h, decide_true, not_true_eq_false, if_false, Int.natAbs_eq_zero, hz,
      Option.some.injEq]
    omega
  · simp only [toInt?, ofInt, h, decide_false, not_true_eq_false, if_false, Bool.false_eq_true,
      not_false_eq_true, if_true, Option.some.injEq]
    omega

def isDigit (b : UInt8) : Bool := 0x30 ≤ b.toNat && b.toNat ≤ 0x39

def value (ds : List UInt8) : Nat := ds.foldl (fun n d => 10 * n + (d.toNat - 0x30)) 0

def digits (bs : List UInt8) : Option (List UInt8 × List UInt8) :=
  match bs.takeWhile isDigit with
  | [] => none
  | ds => some (ds, bs.dropWhile isDigit)

def fraction : List UInt8 → Option (Bool × List UInt8)
  | [] => some (false, [])
  | b :: bs => if b = 0x2E then (digits bs).map fun r => (true, r.2) else some (false, b :: bs)

def exponent : List UInt8 → Option (Bool × List UInt8)
  | [] => some (false, [])
  | b :: bs =>
    if b = 0x65 ∨ b = 0x45 then
      let bs := match bs with
        | c :: cs => if c = 0x2B ∨ c = 0x2D then cs else bs
        | [] => bs
      (digits bs).map fun r => (true, r.2)
    else some (false, b :: bs)

def unsigned (negative : Bool) (bs : List UInt8) : Option (Number × List UInt8) := do
  let (ds, bs) ← digits bs
  if ds.head? = some 0x30 ∧ ds.length ≠ 1 then none
  let (fractional, bs) ← fraction bs
  let (scaled, bs) ← exponent bs
  return (⟨negative, value ds, !fractional && !scaled⟩, bs)

def read : List UInt8 → Option (Number × List UInt8)
  | [] => none
  | b :: bs => if b = 0x2D then unsigned true bs else unsigned false (b :: bs)

def render (n : Number) : List UInt8 :=
  (if n.negative then [0x2D] else []) ++ Utf8.encode (toString n.whole)

end Number

inductive Token
  | openObject
  | closeObject
  | openArray
  | closeArray
  | colon
  | comma
  | null
  | bool (b : Bool)
  | number (n : Number)
  | text (t : Text)
  deriving DecidableEq

namespace Token

def isBlank (b : UInt8) : Bool := b = 0x20 || b = 0x09 || b = 0x0A || b = 0x0D

def words : List (List UInt8 × Token) :=
  [(Utf8.encode "true", bool true), (Utf8.encode "false", bool false), (Utf8.encode "null", null)]

def read : List UInt8 → Option (Token × List UInt8)
  | [] => none
  | b :: bs =>
    if b = 0x7B then some (openObject, bs)
    else if b = 0x7D then some (closeObject, bs)
    else if b = 0x5B then some (openArray, bs)
    else if b = 0x5D then some (closeArray, bs)
    else if b = 0x3A then some (colon, bs)
    else if b = 0x2C then some (comma, bs)
    else if b = 0x22 then (Text.read .between {} bs).map fun r => (text r.1, r.2)
    else if b = 0x2D ∨ Number.isDigit b then (Number.read (b :: bs)).map fun r => (number r.1, r.2)
    else words.findSome? fun w => (w.1.isPrefixOf? (b :: bs)).map fun r => (w.2, r)

/-- Each round takes at least one byte, so as many rounds as there are bytes are enough. -/
def readAll : Nat → List Token → List UInt8 → Option (List Token)
  | _, done, [] => some done.reverse
  | 0, _, _ :: _ => none
  | n + 1, done, b :: bs =>
    if isBlank b then readAll n done bs
    else match read (b :: bs) with
      | none => none
      | some (t, rest) => readAll n (t :: done) rest

def ofBytes? (bs : List UInt8) : Option (List Token) := readAll bs.length [] bs

def render : Token → List UInt8
  | openObject => [0x7B]
  | closeObject => [0x7D]
  | openArray => [0x5B]
  | closeArray => [0x5D]
  | colon => [0x3A]
  | comma => [0x2C]
  | null => Utf8.encode "null"
  | bool b => Utf8.encode (toString b)
  | number n => n.render
  | text t => t.render

end Token

end LeaseOverlay.Json
