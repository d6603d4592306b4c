import LeaseOverlay.PeerId

namespace LeaseOverlay

namespace Hex

def IsDigit (c : Char) : Prop :=
  ('0' ≤ c ∧ c ≤ '9') ∨ ('a' ≤ c ∧ c ≤ 'f') ∨ ('A' ≤ c ∧ c ≤ 'F')

instance (c : Char) : Decidable (IsDigit c) :=
  inferInstanceAs (Decidable (_ ∨ _))

variable {c : Char} {cs : List Char} {bs : List UInt8}

theorem isSome_value?_iff : (value? c).isSome = true ↔ IsDigit c := by
  unfold value? IsDigit
  split
  · next h => simp [h]
  next h =>
  split
  · next h' => simp [h']
  next h' =>
  split
  · next h'' => simp [h'']
  · next h'' => simp [h, h', h'']

theorem ascii_of_isDigit (h : IsDigit c) : c.toNat < 128 := by
  have hle {d : Char} (hd : d.toNat < 128) (hc : c ≤ d) : c.toNat < 128 :=
    Nat.lt_of_le_of_lt (Char.le_def.mp hc) hd
  rcases h with ⟨_, h⟩ | ⟨_, h⟩ | ⟨_, h⟩
  · exact hle (by decide) h
  · exact hle (by decide) h
  · exact hle (by decide) h

theorem toLower_of_not_ascii (h : ¬c.toNat < 128) : c.toLower = c := by
  refine dif_neg fun hc => h ?_
  exact Nat.lt_of_le_of_lt (UInt32.le_iff_toNat_le.mp hc.2) (by decide)

theorem value?_toLower (c : Char) : value? c.toLower = value? c := by
  by_cases h : c.toNat < 128
  · have hascii : ∀ n < 128, value? (Char.ofNat n).toLower = value? (Char.ofNat n) := by decide
    simpa using hascii c.toNat h
  · rw [toLower_of_not_ascii h]

theorem digit_of_value? {n : Nat} (h : value? c = some n) : n < 16 ∧ digit n = c.toLower := by
  have hc : c.toNat < 128 := ascii_of_isDigit (isSome_value?_iff.mp (Option.isSome_of_eq_some h))
  have hascii : ∀ k < 128, ∀ m ∈ value? (Char.ofNat k),
      m < 16 ∧ digit m = (Char.ofNat k).toLower := by decide
  simpa using hascii c.toNat hc n (by simpa using h)

theorem decode_map_toLower (cs : List Char) : decode (cs.map Char.toLower) = decode cs := by
  induction cs using decode.induct with
  | case1 => rfl
  | case2 => rfl
  | case3 hi lo rest ih =>
    simp only [List.map_cons, decode, value?_toLower, ih]

theorem encode_of_decode (h : decode cs = some bs) : encode bs = cs.map Char.toLower := by
  induction cs using decode.induct generalizing bs with
  | case1 =>
    cases h
    rfl
  | case2 => cases h
  | case3 hi lo rest ih =>
    simp only [decode, Option.bind_eq_bind, Option.bind_eq_some_iff, Option.pure_def,
      Option.some.injEq] at h
    obtain ⟨m, hm, n, hn, bs, hbs, rfl⟩ := h
    obtain ⟨hm16, hhi⟩ := digit_of_value? hm
    obtain ⟨hn16, hlo⟩ := digit_of_value? hn
    have hbyte : (UInt8.ofNat (16 * m + n)).toNat = 16 * m + n := by
      rw [UInt8.toNat_ofNat']
      omega
    have hhigh : (16 * m + n) / 16 = m := by omega
    have hlow : (16 * m + n) % 16 = n := by omega
    rw [encode, hbyte, hhigh, hlow, hhi, hlo, ih hbs, List.map_cons, List.map_cons]

theorem decode_eq_some_iff : decode cs = some bs ↔ encode bs = cs.map Char.toLower := by
  constructor
  · exact encode_of_decode
  · intro h
    rw [← decode_map_toLower, ← h, decode_encode]

theorem isSome_decode_iff :
    (decode cs).isSome = true ↔ cs.length % 2 = 0 ∧ ∀ c ∈ cs, IsDigit c := by
  induction cs using decode.induct with
  | case1 => simp [decode]
  | case2 => simp [decode]
  | case3 hi lo rest ih =>
    have hlength : (hi :: lo :: rest).length % 2 = rest.length % 2 := by
      simp only [List.length_cons]
      omega
    rw [hlength, List.forall_mem_cons, List.forall_mem_cons, ← isSome_value?_iff,
      ← isSome_value?_iff]
    cases hhi : value? hi with
    | none => simp [decode, hhi]
    | some m =>
    cases hlo : value? lo with
    | none => simp [decode, hhi, hlo]
    | some n =>
    cases hrest : decode rest <;> simp_all [decode]

end Hex

namespace PeerId

variable {p q : PeerId} {s : String}

theorem ofBytes?_eq_some_iff {bs : List UInt8} : ofBytes? bs = some p ↔ bs = p.bytes := by
  constructor
  · intro h
    unfold ofBytes? at h
    split at h
    · cases h
      rfl
    · cases h
  · rintro rfl
    exact ofBytes?_bytes p

theorem toList_text (p : PeerId) : p.text.toList = Hex.encode p.bytes := String.toList_ofList

theorem toList_toLower (s : String) : s.toLower.toList = s.toList.map Char.toLower :=
  String.toList_map

theorem ofString?_eq_some_iff : ofString? s = some p ↔ p.text = s.toLower := by
  have hdecode : ofString? s = some p ↔ Hex.decode s.toList = some p.bytes := by
    simp only [ofString?, Option.bind_eq_some_iff, ofBytes?_eq_some_iff, exists_eq_right]
  rw [hdecode, Hex.decode_eq_some_iff, ← String.toList_inj, toList_text, toList_toLower]

theorem length_text (p : PeerId) : p.text.length = 64 := by
  rw [← String.length_toList, toList_text, Hex.length_encode, p.length_bytes]

theorem exists_ofString?_iff :
    (∃ p, ofString? s = some p) ↔ s.length = 64 ∧ ∀ c ∈ s.toList, Hex.IsDigit c := by
  constructor
  · rintro ⟨p, h⟩
    obtain ⟨bs, hbs, _⟩ := Option.bind_eq_some_iff.mp h
    have hlength := congrArg List.length (congrArg String.toList (ofString?_eq_some_iff.mp h))
    rw [String.length_toList, length_text, toList_toLower, List.length_map, String.length_toList]
      at hlength
    exact ⟨hlength.symm, (Hex.isSome_decode_iff.mp (Option.isSome_of_eq_some hbs)).2⟩
  · rintro ⟨hlength, hdigits⟩
    have heven : s.toList.length % 2 = 0 := by rw [String.length_toList, hlength]
    obtain ⟨bs, hbs⟩ := Option.isSome_iff_exists.mp (Hex.isSome_decode_iff.mpr ⟨heven, hdigits⟩)
    have hbytes : bs.length = 32 := by
      have hencode := congrArg List.length (Hex.encode_of_decode hbs)
      rw [Hex.length_encode, List.length_map, String.length_toList, hlength] at hencode
      omega
    exact ⟨⟨bs, hbytes⟩, by simp [ofString?, hbs, ofBytes?, hbytes]⟩

end PeerId

end LeaseOverlay
