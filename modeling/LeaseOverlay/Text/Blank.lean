namespace LeaseOverlay

def Blank.table : List (Nat × Nat) :=
  [(0x9, 0xD), (0x20, 0x20), (0x85, 0x85), (0xA0, 0xA0), (0x1680, 0x1680), (0x2000, 0x200A),
   (0x2028, 0x2029), (0x202F, 0x202F), (0x205F, 0x205F), (0x3000, 0x3000)]

def isBlank (c : Char) : Bool :=
  Blank.table.any fun (lo, hi) => lo ≤ c.toNat && c.toNat ≤ hi

namespace Blank

def dropEnd (cs : List Char) : List Char :=
  (cs.reverse.dropWhile isBlank).reverse

def strip (cs : List Char) : List Char :=
  dropEnd (cs.dropWhile isBlank)

def trim (s : String) : String :=
  String.ofList (strip s.toList)

end Blank

end LeaseOverlay
