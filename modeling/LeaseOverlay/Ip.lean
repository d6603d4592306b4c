import LeaseOverlay.Text.Decimal
import LeaseOverlay.Text.Hex
import LeaseOverlay.Text.Reading
/-!
Internet addresses of both versions and their text. Reading takes the longest run of digits for a
number and refuses it if it breaks a rule; writing shortens the first longest run of zero groups.
-/

namespace LeaseOverlay

namespace Reading

structure NumberStyle where
  base : Nat
  value? : Char → Option Nat
  maxDigits : Option Nat
  leadingZeros : Bool

def number (s : NumberStyle) (bound : Nat) : Reading Nat := fun cs =>
  let digits := cs.takeWhile fun c => (s.value? c).isSome
  let n := (digits.filterMap s.value?).foldl (fun n d => s.base * n + d) 0
  if digits.isEmpty ∨ s.maxDigits.any (· < digits.length) ∨ bound ≤ n ∨
      (!s.leadingZeros ∧ digits.head? = some '0' ∧ 1 < digits.length) then none
  else some (n, cs.drop digits.length)

def decimal : NumberStyle := ⟨10, Decimal.digit?, none, true⟩

end Reading

structure Ipv4 where
  a : UInt8
  b : UInt8
  c : UInt8
  d : UInt8
  deriving DecidableEq

namespace Ipv4

def octet : Reading UInt8 := fun cs =>
  (Reading.number ⟨10, Decimal.digit?, some 3, false⟩ 256 cs).map fun r => (.ofNat r.1, r.2)

def read : Reading Ipv4 := fun cs => do
  let (a, cs) ← octet cs
  let (b, cs) ← Reading.after '.' octet cs
  let (c, cs) ← Reading.after '.' octet cs
  let (d, cs) ← Reading.after '.' octet cs
  return (⟨a, b, c, d⟩, cs)

def text (ip : Ipv4) : String :=
  ".".intercalate ([ip.a, ip.b, ip.c, ip.d].map fun o => toString o.toNat)

def groups (ip : Ipv4) : List UInt16 :=
  [.ofNat (256 * ip.a.toNat + ip.b.toNat), .ofNat (256 * ip.c.toNat + ip.d.toNat)]

def ofGroups (hi lo : UInt16) : Ipv4 :=
  ⟨.ofNat (hi.toNat / 256), .ofNat hi.toNat, .ofNat (lo.toNat / 256), .ofNat lo.toNat⟩

end Ipv4

structure Ipv6 where
  groups : List UInt16
  length_groups : groups.length = 8
  deriving DecidableEq

namespace Ipv6

def ofGroups? (gs : List UInt16) : Option Ipv6 :=
  if h : gs.length = 8 then some ⟨gs, h⟩ else none

def group : Reading UInt16 := fun cs =>
  (Reading.number ⟨16, Hex.value?, some 4, true⟩ 0x10000 cs).map fun r => (.ofNat r.1, r.2)

structure Run where
  groups : List UInt16
  embedded : Bool
  rest : List Char

def piece {α : Type} (first : Bool) (read : Reading α) : Reading α :=
  if first then read else Reading.after ':' read

def readRun : Nat → Bool → List Char → Run
  | 0, _, cs => ⟨[], false, cs⟩
  | limit + 1, first, cs =>
    match if limit = 0 then none else piece first Ipv4.read cs with
    | some (ip, rest) => ⟨ip.groups, true, rest⟩
    | none =>
      match piece first group cs with
      | some (g, rest) =>
        let r := readRun limit false rest
        ⟨g :: r.groups, r.embedded, r.rest⟩
      | none => ⟨[], false, cs⟩

def read : Reading Ipv6 := fun cs =>
  let front := readRun 8 true cs
  if front.groups.length = 8 then (ofGroups? front.groups).map fun ip => (ip, front.rest)
  else if front.embedded then none
  else do
    let cs ← Reading.skip ':' front.rest
    let cs ← Reading.skip ':' cs
    let back := readRun (7 - front.groups.length) true cs
    let zeros := List.replicate (8 - front.groups.length - back.groups.length) 0
    let ip ← ofGroups? (front.groups ++ zeros ++ back.groups)
    return (ip, back.rest)

def longestZeros : List UInt16 → Nat × Nat
  | [] => (0, 0)
  | g :: gs =>
    let here := ((g :: gs).takeWhile (· = 0)).length
    let later := longestZeros gs
    if later.2 ≤ here then (0, here) else (later.1 + 1, later.2)

def joinGroups (gs : List UInt16) : String :=
  ":".intercalate (gs.map fun g => String.ofList (Hex.ofNat g.toNat))

/-- An address that stands for a shorter one shows it; a run of zeros is left out if it is longer
than one group. -/
def text (ip : Ipv6) : String :=
  match ip.groups with
  | [0, 0, 0, 0, 0, 0xffff, hi, lo] => "::ffff:" ++ (Ipv4.ofGroups hi lo).text
  | gs =>
    let (start, length) := longestZeros gs
    if 1 < length then
      joinGroups (gs.take start) ++ "::" ++ joinGroups (gs.drop (start + length))
    else joinGroups gs

end Ipv6

end LeaseOverlay
