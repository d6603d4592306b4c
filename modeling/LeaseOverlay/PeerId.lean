import LeaseOverlay.Order
import LeaseOverlay.Text.Hex

namespace LeaseOverlay

structure PeerId where
  bytes : List UInt8
  length_bytes : bytes.length = 32
  deriving DecidableEq

namespace PeerId

instance : KeyOrder PeerId where
  before p q := Bytes.before p.bytes q.bytes
  irrefl p := Bytes.before_irrefl p.bytes
  trans := Bytes.before_trans
  connected := by
    rintro ⟨a, _⟩ ⟨b, _⟩ h h'
    cases Bytes.before_connected h h'
    rfl

def ofBytes? (bs : List UInt8) : Option PeerId :=
  if h : bs.length = 32 then some ⟨bs, h⟩ else none

def filled (b : UInt8) : PeerId := ⟨List.replicate 32 b, List.length_replicate⟩

instance : Inhabited PeerId := ⟨filled 0⟩

def ofString? (s : String) : Option PeerId :=
  (Hex.decode s.toList).bind ofBytes?

def text (p : PeerId) : String := String.ofList (Hex.encode p.bytes)

def short (p : PeerId) : String := String.ofList (Hex.encode (p.bytes.take 8))

def label (p : PeerId) : String := "PeerId(" ++ p.short ++ ")"

@[simp] theorem ofBytes?_bytes (p : PeerId) : ofBytes? p.bytes = some p := by
  simp [ofBytes?, p.length_bytes]

@[simp] theorem ofString?_text (p : PeerId) : ofString? p.text = some p := by
  simp [ofString?, text, Hex.decode_encode]

def sort (ps : List PeerId) : List PeerId :=
  ps.mergeSort fun p q => !KeyOrder.before q p

end PeerId

end LeaseOverlay
