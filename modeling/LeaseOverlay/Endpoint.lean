import LeaseOverlay.Ip

namespace LeaseOverlay

inductive Endpoint
  | v4 (ip : Ipv4) (port : UInt16)
  /-- The scope tells links apart; zero is none. -/
  | v6 (ip : Ipv6) (scope : UInt32) (port : UInt16)
  deriving DecidableEq

namespace Endpoint

def readPort : Reading UInt16 := fun cs => do
  let cs ← Reading.skip ':' cs
  let (n, cs) ← Reading.number Reading.decimal 0x10000 cs
  return (.ofNat n, cs)

def readScope : Reading UInt32 := fun cs => do
  let cs ← Reading.skip '%' cs
  let (n, cs) ← Reading.number Reading.decimal 0x100000000 cs
  return (.ofNat n, cs)

def readV4 : Reading Endpoint := fun cs => do
  let (ip, cs) ← Ipv4.read cs
  let (port, cs) ← readPort cs
  return (.v4 ip port, cs)

def readV6 : Reading Endpoint := fun cs => do
  let cs ← Reading.skip '[' cs
  let (ip, cs) ← Ipv6.read cs
  let (scope, cs) := (readScope cs).getD (0, cs)
  let cs ← Reading.skip ']' cs
  let (port, cs) ← readPort cs
  return (.v6 ip scope port, cs)

def ofString? (s : String) : Option Endpoint :=
  match (readV4 s.toList).orElse fun _ => readV6 s.toList with
  | some (e, []) => some e
  | _ => none

def text : Endpoint → String
  | v4 ip port => ip.text ++ ":" ++ toString port.toNat
  | v6 ip scope port =>
    let mark := if scope = 0 then "" else "%" ++ toString scope.toNat
    "[" ++ ip.text ++ mark ++ "]:" ++ toString port.toNat

end Endpoint

end LeaseOverlay
