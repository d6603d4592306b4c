namespace LeaseOverlay.Utf8

def encode (s : String) : List UInt8 :=
  s.toByteArray.data.toList

def decode? (bs : List UInt8) : Option String :=
  String.fromUTF8? ⟨bs.toArray⟩

theorem decode?_encode (s : String) : decode? (encode s) = some s := by
  have h : (⟨(encode s).toArray⟩ : ByteArray) = s.toByteArray := rfl
  simp [decode?, String.fromUTF8?, h, s.isValidUTF8, String.fromUTF8]

theorem encode_ofList {cs : List Char} (h : ∀ c ∈ cs, c.toNat < 0x80) :
    encode (String.ofList cs) = cs.map fun c => UInt8.ofNat c.toNat := by
  have hflat : encode (String.ofList cs) = cs.flatMap String.utf8EncodeChar := by
    simp [encode, List.utf8Encode]
  rw [hflat]
  clear hflat
  induction cs with
  | nil => rfl
  | cons c cs ih =>
    obtain ⟨hc, hcs⟩ := List.forall_mem_cons.mp h
    have hone : String.utf8EncodeChar c = [UInt8.ofNat c.toNat] :=
      if_pos (show c.val.toNat ≤ 127 from Nat.le_of_lt_succ hc)
    rw [List.flatMap_cons, hone, ih hcs]
    rfl

theorem encode_injective {s t : String} (h : encode s = encode t) : s = t := by
  simpa [decode?_encode] using congrArg decode? h

end LeaseOverlay.Utf8
