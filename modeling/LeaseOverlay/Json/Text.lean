import LeaseOverlay.Text.Utf8
/-!
JSON strings. A string is kept as the bytes it stands for, with a mark on those that were written
with a raw control character. Unpaired surrogates have the three bytes UTF-8 would give them, so a
string is well formed exactly when it is plain and its bytes are valid UTF-8.
-/

namespace LeaseOverlay.Json

structure Text where
  bytes : List UInt8
  plain : Bool
  deriving DecidableEq

namespace Text

def ofString (s : String) : Text := ⟨Utf8.encode s, true⟩

def toString? (t : Text) : Option String :=
  if t.plain then Utf8.decode? t.bytes else none

@[simp] theorem toString?_ofString (s : String) : (ofString s).toString? = some s := by
  simp [toString?, ofString, Utf8.decode?_encode]

def hexValue? (b : UInt8) : Option Nat :=
  if 0x30 ≤ b.toNat ∧ b.toNat ≤ 0x39 then some (b.toNat - 0x30)
  else if 0x61 ≤ b.toNat ∧ b.toNat ≤ 0x66 then some (b.toNat - 0x57)
  else if 0x41 ≤ b.toNat ∧ b.toNat ≤ 0x46 then some (b.toNat - 0x37)
  else none

def hexDigit (n : Nat) : UInt8 := UInt8.ofNat (if n < 10 then 0x30 + n else 0x57 + n)

def codePoint (n : Nat) : List UInt8 :=
  if n < 0x80 then [UInt8.ofNat n]
  else if n < 0x800 then [UInt8.ofNat (0xC0 + n / 0x40), UInt8.ofNat (0x80 + n % 0x40)]
  else if n < 0x10000 then
    [UInt8.ofNat (0xE0 + n / 0x1000), UInt8.ofNat (0x80 + n / 0x40 % 0x40),
      UInt8.ofNat (0x80 + n % 0x40)]
  else
    [UInt8.ofNat (0xF0 + n / 0x40000), UInt8.ofNat (0x80 + n / 0x1000 % 0x40),
      UInt8.ofNat (0x80 + n / 0x40 % 0x40), UInt8.ofNat (0x80 + n % 0x40)]

def isLeading (n : Nat) : Bool := 0xD800 ≤ n && n ≤ 0xDBFF

def isTrailing (n : Nat) : Bool := 0xDC00 ≤ n && n ≤ 0xDFFF

def shortEscape? (b : UInt8) : Option UInt8 :=
  if b = 0x22 ∨ b = 0x5C ∨ b = 0x2F then some b
  else if b = 0x62 then some 0x08
  else if b = 0x66 then some 0x0C
  else if b = 0x6E then some 0x0A
  else if b = 0x72 then some 0x0D
  else if b = 0x74 then some 0x09
  else none

inductive Place
  | between
  | escape
  | hex (left value : Nat)

/-- What has been read of a string: its bytes, last first, and a leading surrogate that waits for
its partner. -/
structure Draft where
  done : List UInt8 := []
  lead : Option Nat := none
  plain : Bool := true

namespace Draft

def push (d : Draft) (bs : List UInt8) : Draft :=
  let waiting := match d.lead with
    | none => d.done
    | some n => (codePoint n).reverse ++ d.done
  { d with done := bs.reverse ++ waiting, lead := none }

def pushUnit (d : Draft) (n : Nat) : Draft :=
  match d.lead with
  | some m =>
    if isTrailing n then
      { d with
        done := (codePoint (0x10000 + (m - 0xD800) * 0x400 + (n - 0xDC00))).reverse ++ d.done
        lead := none }
    else if isLeading n then { d.push [] with lead := some n }
    else d.push (codePoint n)
  | none => if isLeading n then { d with lead := some n } else d.push (codePoint n)

def text (d : Draft) : Text := ⟨(d.push []).done.reverse, d.plain⟩

end Draft

def read : Place → Draft → List UInt8 → Option (Text × List UInt8)
  | _, _, [] => none
  | .between, d, b :: bs =>
    if b = 0x22 then some (d.text, bs)
    else if b = 0x5C then read .escape d bs
    else if b.toNat < 0x20 then read .between { d.push [b] with plain := false } bs
    else read .between (d.push [b]) bs
  | .escape, d, b :: bs =>
    if b = 0x75 then read (.hex 4 0) d bs
    else match shortEscape? b with
      | some c => read .between (d.push [c]) bs
      | none => none
  | .hex left value, d, b :: bs =>
    match hexValue? b with
    | none => none
    | some h =>
      let value := 16 * value + h
      if left ≤ 1 then read .between (d.pushUnit value) bs
      else read (.hex (left - 1) value) d bs

def escape (b : UInt8) : List UInt8 :=
  if b = 0x22 then [0x5C, 0x22]
  else if b = 0x5C then [0x5C, 0x5C]
  else if b = 0x08 then [0x5C, 0x62]
  else if b = 0x0C then [0x5C, 0x66]
  else if b = 0x0A then [0x5C, 0x6E]
  else if b = 0x0D then [0x5C, 0x72]
  else if b = 0x09 then [0x5C, 0x74]
  else if b.toNat < 0x20 then
    [0x5C, 0x75, 0x30, 0x30, hexDigit (b.toNat / 16), hexDigit (b.toNat % 16)]
  else [b]

def render (t : Text) : List UInt8 := 0x22 :: (t.bytes.flatMap escape ++ [0x22])

end Text

end LeaseOverlay.Json
