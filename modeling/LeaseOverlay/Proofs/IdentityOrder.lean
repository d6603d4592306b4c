import LeaseOverlay.Proofs.Identity
import LeaseOverlay.Wire.Codec

namespace LeaseOverlay

theorem Bytes.before_iff_lt {a b : List UInt8} : Bytes.before a b = true ↔ a < b := by
  induction a generalizing b with
  | nil => cases b <;> simp [before]
  | cons x xs ih =>
    cases b with
    | nil => simp [before]
    | cons y ys =>
      rw [before, List.cons_lt_cons_iff, UInt8.lt_iff_toNat_lt]
      by_cases h : x = y
      · subst h
        simp [ih]
      · simp [h]

theorem Bytes.before_eq_false_iff_le {a b : List UInt8} : Bytes.before b a = false ↔ a ≤ b := by
  rw [← List.not_lt, ← before_iff_lt, Bool.not_eq_true]

namespace Hex

theorem digit_lt_iff : ∀ m < 16, ∀ n < 16, digit m < digit n ↔ m < n := by decide

theorem digit_inj : ∀ m < 16, ∀ n < 16, digit m = digit n ↔ m = n := by decide

theorem encode_cons_lt_cons_iff {x y : UInt8} {xs ys : List UInt8} :
    encode (x :: xs) < encode (y :: ys) ↔ x < y ∨ x = y ∧ encode xs < encode ys := by
  have hx := x.toNat_lt
  have hy := y.toNat_lt
  have hhigh : x.toNat / 16 < 16 ∧ y.toNat / 16 < 16 := by omega
  have hlow : x.toNat % 16 < 16 ∧ y.toNat % 16 < 16 := by omega
  simp only [encode, List.cons_lt_cons_iff, digit_lt_iff _ hhigh.1 _ hhigh.2,
    digit_inj _ hhigh.1 _ hhigh.2, digit_lt_iff _ hlow.1 _ hlow.2, digit_inj _ hlow.1 _ hlow.2,
    UInt8.lt_iff_toNat_lt, ← UInt8.toNat_inj]
  -- the first difference of the digits is in the high halves, in the low halves, or further on
  constructor
  · rintro (h | ⟨hh, h | ⟨hl, h⟩⟩)
    · exact .inl (by omega)
    · exact .inl (by omega)
    · exact .inr ⟨by omega, h⟩
  · rintro (h | ⟨hb, h⟩)
    · by_cases hh : x.toNat / 16 = y.toNat / 16
      · exact .inr ⟨hh, .inl (by omega)⟩
      · exact .inl (by omega)
    · exact .inr ⟨by omega, .inr ⟨by omega, h⟩⟩

theorem encode_lt_encode_iff {xs ys : List UInt8} : encode xs < encode ys ↔ xs < ys := by
  induction xs generalizing ys with
  | nil => cases ys <;> simp [encode]
  | cons x xs ih =>
    cases ys with
    | nil => simp [encode]
    | cons y ys => rw [encode_cons_lt_cons_iff, ih, List.cons_lt_cons_iff]

theorem ascii_of_mem_encode (bs : List UInt8) : ∀ c ∈ encode bs, c.toNat < 0x80 := by
  have hdigit : ∀ n < 16, (digit n).toNat < 0x80 := by decide
  induction bs with
  | nil => simp [encode]
  | cons b bs ih =>
    have hb := b.toNat_lt
    rw [encode, List.forall_mem_cons, List.forall_mem_cons]
    exact ⟨hdigit _ (by omega), hdigit _ (by omega), ih⟩

end Hex

theorem Utf8.map_toNat_lt_iff {cs ds : List Char} (hc : ∀ c ∈ cs, c.toNat < 0x80)
    (hd : ∀ d ∈ ds, d.toNat < 0x80) :
    cs.map (fun c => UInt8.ofNat c.toNat) < ds.map (fun c => UInt8.ofNat c.toNat) ↔ cs < ds := by
  induction cs generalizing ds with
  | nil => cases ds <;> simp
  | cons c cs ih =>
    cases ds with
    | nil => simp
    | cons d ds =>
      obtain ⟨hc₁, hc⟩ := List.forall_mem_cons.mp hc
      obtain ⟨hd₁, hd⟩ := List.forall_mem_cons.mp hd
      have hcb : (UInt8.ofNat c.toNat).toNat = c.toNat := by
        rw [UInt8.toNat_ofNat']
        omega
      have hdb : (UInt8.ofNat d.toNat).toNat = d.toNat := by
        rw [UInt8.toNat_ofNat']
        omega
      have hlt : c < d ↔ c.toNat < d.toNat := UInt32.lt_iff_toNat_lt
      have heq : c = d ↔ c.toNat = d.toNat := Char.toNat_inj.symm
      simp only [List.map_cons, List.cons_lt_cons_iff, UInt8.lt_iff_toNat_lt, ← UInt8.toNat_inj,
        hcb, hdb, hlt, heq, ih hc hd]

namespace PeerId

variable {p q : PeerId} {s : String}

theorem text_lt_text_iff : p.text < q.text ↔ p.bytes < q.bytes := by
  rw [String.lt_iff, toList_text, toList_text, Hex.encode_lt_encode_iff]

theorem text_le_text_iff : p.text ≤ q.text ↔ p.bytes ≤ q.bytes := by
  rw [← String.not_lt, ← List.not_lt, text_lt_text_iff]

theorem utf8_text_lt_iff : Utf8.encode p.text < Utf8.encode q.text ↔ p.bytes < q.bytes := by
  have hp := Hex.ascii_of_mem_encode p.bytes
  have hq := Hex.ascii_of_mem_encode q.bytes
  rw [text, text, Utf8.encode_ofList hp, Utf8.encode_ofList hq, Utf8.map_toNat_lt_iff hp hq,
    Hex.encode_lt_encode_iff]

theorem before_text (p q : PeerId) : KeyOrder.before p.text q.text = KeyOrder.before p q := by
  rw [Bool.eq_iff_iff]
  exact Bytes.before_iff_lt.trans (utf8_text_lt_iff.trans Bytes.before_iff_lt.symm)

theorem parse_eq_ok_iff : parse s = .ok p ↔ ofString? s = some p := by
  unfold parse
  split <;> next h => simp [h]

theorem parse_eq_error_of (h : ∀ p, ofString? s ≠ some p) : parse s = .error (.badPeerId s) := by
  rw [parse, Option.eq_none_iff_forall_ne_some.mpr h]

/-- A text is read as an identity if it is sixty-four hexadecimal digits of either case. The
identity is written in the same digits, in lower case, and is read back from them. All other texts
are refused and quoted. Identities are ordered as their texts are. -/
theorem texts_stand_for_identities :
    (∀ s, (∃ p, parse s = .ok p) ↔ s.length = 64 ∧ ∀ c ∈ s.toList, Hex.IsDigit c) ∧
    (∀ s, ¬(s.length = 64 ∧ ∀ c ∈ s.toList, Hex.IsDigit c) →
      parse s = .error (.badPeerId s) ∧
      (WireError.badPeerId s).message = "invalid peer id: " ++ quoted s) ∧
    (∀ s p, parse s = .ok p → p.text = s.toLower) ∧
    (∀ p : PeerId, parse p.text = .ok p) ∧
    (∀ p q : PeerId, p.bytes ≤ q.bytes ↔ p.text ≤ q.text) ∧
    ∀ p q : PeerId, (KeyOrder.before q p = false ↔ p.bytes ≤ q.bytes) ∧
      (KeyOrder.before q.text p.text = false ↔ p.text ≤ q.text) := by
  have hread (s : String) : (∃ p, parse s = .ok p) ↔
      s.length = 64 ∧ ∀ c ∈ s.toList, Hex.IsDigit c := by
    simp only [parse_eq_ok_iff, exists_ofString?_iff]
  have hbefore (p q : PeerId) : KeyOrder.before q p = false ↔ p.bytes ≤ q.bytes :=
    Bytes.before_eq_false_iff_le
  refine ⟨hread, fun s hs => ⟨parse_eq_error_of fun p hp => hs ?_, rfl⟩, fun s p hp => ?_,
    fun p => ?_, fun p q => text_le_text_iff.symm, fun p q => ⟨hbefore p q, ?_⟩⟩
  · exact (hread s).mp ⟨p, parse_eq_ok_iff.mpr hp⟩
  · exact ofString?_eq_some_iff.mp (parse_eq_ok_iff.mp hp)
  · exact parse_eq_ok_iff.mpr p.ofString?_text
  · rw [before_text, hbefore, text_le_text_iff]

theorem capitals_are_read_and_a_blank_is_not :
    let s := String.ofList (List.replicate 64 'A')
    parse s = .ok (.filled 0xAA) ∧
    (filled 0xAA).text = s.toLower ∧
    parse (s ++ " ") = .error (.badPeerId (s ++ " ")) ∧
    parse (filled 0x9F).text = .ok (.filled 0x9F) ∧
    (filled 0x9F).text ≤ (filled 0xA0).text := by
  intro s
  obtain ⟨_, hrefused, hwritten, hagain, horder, _⟩ := texts_stand_for_identities
  have hread : parse s = .ok (.filled 0xAA) := parse_eq_ok_iff.mpr (by decide +kernel)
  have hlength : ¬(s ++ " ").length = 64 := by decide +kernel
  have hbytes : (filled 0x9F).bytes ≤ (filled 0xA0).bytes := by decide +kernel
  exact ⟨hread, hwritten s _ hread, (hrefused _ fun h => hlength h.1).1, hagain _,
    (horder _ _).mp hbytes⟩

end PeerId

end LeaseOverlay
