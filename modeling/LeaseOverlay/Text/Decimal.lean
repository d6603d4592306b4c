namespace LeaseOverlay.Decimal

def digit? (c : Char) : Option Nat :=
  if c.isDigit then some (c.toNat - 48) else none

def ofDigits? (cs : List Char) : Option Nat :=
  if cs.isEmpty then none
  else cs.foldlM (fun n c => (digit? c).map fun d => 10 * n + d) 0

def parse? : List Char → Option Nat
  | '+' :: cs => ofDigits? cs
  | cs => ofDigits? cs

end LeaseOverlay.Decimal
