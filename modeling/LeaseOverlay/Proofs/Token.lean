import LeaseOverlay.Json.Token
import Mathlib.Data.List.Chain

namespace LeaseOverlay.Json

namespace Text

theorem hexValue?_hexDigit : ∀ n < 16, hexValue? (hexDigit n) = some n := by decide

theorem push_of_lead {d : Draft} (h : d.lead = none) (bs : List UInt8) :
    d.push bs = { d with done := bs.reverse ++ d.done, lead := none } := by
  simp [Draft.push, h]

theorem pushUnit_of_lt {d : Draft} (h : d.lead = none) {n : Nat} (hn : n < 0x80) :
    d.pushUnit n = d.push [UInt8.ofNat n] := by
  have hl : isLeading n = false := by
    simp only [isLeading, Bool.and_eq_false_iff, decide_eq_false_iff_not]
    omega
  simp [Draft.pushUnit, h, hl, codePoint, hn]

theorem read_unicode {d : Draft} (h : d.lead = none) {b : UInt8} (hb : b.toNat < 0x20)
    (bs : List UInt8) :
    read .between d (0x5C :: 0x75 :: 0x30 :: 0x30 :: hexDigit (b.toNat / 16) ::
      hexDigit (b.toNat % 16) :: bs) = read .between (d.push [b]) bs := by
  have hzero : hexValue? 0x30 = some 0 := rfl
  have hi := hexValue?_hexDigit (b.toNat / 16) (by omega)
  have lo := hexValue?_hexDigit (b.toNat % 16) (by omega)
  have hsum : 16 * (b.toNat / 16) + b.toNat % 16 = b.toNat := by omega
  have hunit : d.pushUnit b.toNat = d.push [b] := by
    rw [pushUnit_of_lt h (by omega), UInt8.ofNat_toNat]
  simp [read, hzero, hi, lo, hsum, hunit]

theorem read_escape {d : Draft} (h : d.lead = none) (b : UInt8) (bs : List UInt8) :
    read .between d (escape b ++ bs) = read .between (d.push [b]) bs := by
  unfold escape
  iterate 7
    split
    · next hb =>
      subst hb
      rfl
  split
  · next hb => exact read_unicode h hb bs
  · next hquote hback _ _ _ _ _ hb =>
    simp [read, hquote, hback, hb]

theorem read_flatMap_escape {d : Draft} (h : d.lead = none) (s bs : List UInt8) :
    read .between d (s.flatMap escape ++ 0x22 :: bs) =
      some (⟨d.done.reverse ++ s, d.plain⟩, bs) := by
  induction s generalizing d with
  | nil => simp [read, Draft.text, push_of_lead h]
  | cons b s ih =>
    rw [List.flatMap_cons, List.append_assoc, read_escape h, push_of_lead h, ih rfl]
    simp

theorem read_render {t : Text} (h : t.plain = true) (bs : List UInt8) :
    read .between {} (t.bytes.flatMap escape ++ 0x22 :: bs) = some (t, bs) := by
  rw [read_flatMap_escape rfl]
  simp [← h]

end Text

namespace Number

def decimal (n : Nat) : List UInt8 := Utf8.encode (toString n)

theorem toNat_digit {d : Nat} (h : d < 10) : (UInt8.ofNat (0x30 + d)).toNat = 0x30 + d :=
  UInt8.toNat_ofNat_of_lt' (by simp only [UInt8.size]; omega)

theorem isDigit_digit {d : Nat} (h : d < 10) : isDigit (UInt8.ofNat (0x30 + d)) = true := by
  simp only [isDigit, toNat_digit h, Bool.and_eq_true, decide_eq_true_eq]
  omega

theorem decimal_eq (n : Nat) :
    decimal n = if n < 10 then [UInt8.ofNat (0x30 + n)]
      else decimal (n / 10) ++ [UInt8.ofNat (0x30 + n % 10)] := by
  have hascii (m : Nat) : ∀ c ∈ Nat.toDigits 10 m, c.toNat < 0x80 := by
    intro c hc
    have hd := Nat.isDigit_of_mem_toDigits (by decide) (by decide) hc
    simp only [Char.isDigit, Bool.and_eq_true, decide_eq_true_eq] at hd
    exact Nat.lt_of_le_of_lt (UInt32.le_iff_toNat_le.mp hd.2) (by decide)
  simp only [decimal, Nat.toString_eq_ofList_toDigits, Utf8.encode_ofList (hascii _)]
  rw [Nat.toDigits_eq_if (by decide)]
  split
  · next h => simp [Nat.toNat_digitChar_of_lt_ten h]
  · simp [Nat.toNat_digitChar_of_lt_ten (Nat.mod_lt n (by decide : 10 > 0))]

theorem decimal_ne_nil (n : Nat) : decimal n ≠ [] := by
  rw [decimal_eq]
  split <;> simp

theorem isDigit_decimal (n : Nat) : ∀ b ∈ decimal n, isDigit b = true := by
  induction n using Nat.strongRecOn with
  | _ n ih =>
    rw [decimal_eq]
    split
    · next h =>
      rw [List.forall_mem_singleton]
      exact isDigit_digit h
    · next h =>
      rw [List.forall_mem_append, List.forall_mem_singleton]
      exact ⟨ih (n / 10) (by omega), isDigit_digit (Nat.mod_lt n (by decide))⟩

theorem value_decimal (n : Nat) : value (decimal n) = n := by
  induction n using Nat.strongRecOn with
  | _ n ih =>
    rw [decimal_eq]
    split
    · next h =>
      simp only [value, List.foldl_cons, List.foldl_nil, toNat_digit h]
      omega
    · next h =>
      have hinit := ih (n / 10) (by omega)
      have hlast := toNat_digit (Nat.mod_lt n (by decide : 10 > 0))
      simp only [value, List.foldl_append, List.foldl_cons, List.foldl_nil, hlast] at hinit ⊢
      omega

theorem head?_decimal {n : Nat} (h : 0 < n) : (decimal n).head? ≠ some 0x30 := by
  induction n using Nat.strongRecOn with
  | _ n ih =>
    rw [decimal_eq]
    split
    · next hn =>
      intro hz
      have hb := congrArg UInt8.toNat (Option.some.inj hz)
      rw [toNat_digit hn] at hb
      have : (0x30 : UInt8).toNat = 0x30 := rfl
      omega
    · next hn =>
      have hinit := ih (n / 10) (by omega) (by omega)
      obtain ⟨b, bs, hb⟩ := List.exists_cons_of_ne_nil (decimal_ne_nil (n / 10))
      rwa [hb] at hinit ⊢

def Ends (bs : List UInt8) : Prop :=
  ∀ b ∈ bs.head?, isDigit b = false ∧ b ≠ 0x2E ∧ b ≠ 0x65 ∧ b ≠ 0x45

theorem digits_append {ds bs : List UInt8} (hne : ds ≠ []) (hd : ∀ b ∈ ds, isDigit b = true)
    (hbs : Ends bs) : digits (ds ++ bs) = some (ds, bs) := by
  have hstop : bs.takeWhile isDigit = [] ∧ bs.dropWhile isDigit = bs := by
    cases bs with
    | nil => exact ⟨rfl, rfl⟩
    | cons b bs =>
      have hb := (hbs b rfl).1
      simp [hb]
  simp only [digits, List.takeWhile_append_of_pos hd, List.dropWhile_append_of_pos hd, hstop,
    List.append_nil]

theorem fraction_of_ends {bs : List UInt8} (h : Ends bs) : fraction bs = some (false, bs) := by
  cases bs with
  | nil => rfl
  | cons b bs => exact if_neg (h b rfl).2.1

theorem exponent_of_ends {bs : List UInt8} (h : Ends bs) : exponent bs = some (false, bs) := by
  cases bs with
  | nil => rfl
  | cons b bs =>
    obtain ⟨_, _, hlower, hupper⟩ := h b rfl
    simp [exponent, hlower, hupper]

theorem unsigned_decimal (negative : Bool) (n : Nat) {bs : List UInt8} (h : Ends bs) :
    unsigned negative (decimal n ++ bs) = some (⟨negative, n, true⟩, bs) := by
  have hd := digits_append (decimal_ne_nil n) (isDigit_decimal n) h
  have hz : ¬((decimal n).head? = some 0x30 ∧ (decimal n).length ≠ 1) := by
    rintro ⟨hhead, hlen⟩
    cases n with
    | zero => exact hlen rfl
    | succ n => exact head?_decimal (Nat.succ_pos n) hhead
  simp only [unsigned, hd, Option.bind_eq_bind, Option.bind_some, if_neg hz, fraction_of_ends h,
    exponent_of_ends h, value_decimal]
  rfl

theorem read_render {n : Number} (hn : n.integral = true) {bs : List UInt8} (h : Ends bs) :
    Number.read (n.render ++ bs) = some (n, bs) := by
  obtain ⟨negative, whole, integral⟩ := n
  cases hn
  have hu := unsigned_decimal negative whole h
  cases negative with
  | true => exact hu
  | false =>
    obtain ⟨b, ds, hb⟩ := List.exists_cons_of_ne_nil (decimal_ne_nil whole)
    have hsign : b ≠ 0x2D := by
      rintro rfl
      have hd := isDigit_decimal whole 0x2D (by simp [hb])
      cases hd
    change Number.read (decimal whole ++ bs) = _
    rw [hb] at hu ⊢
    exact (if_neg hsign).trans hu

theorem exists_render_eq_cons (n : Number) :
    ∃ b bs, n.render = b :: bs ∧ (b = 0x2D ∨ isDigit b = true) := by
  obtain ⟨negative, whole, integral⟩ := n
  cases negative with
  | true => exact ⟨0x2D, decimal whole, rfl, .inl rfl⟩
  | false =>
    obtain ⟨b, bs, hb⟩ := List.exists_cons_of_ne_nil (decimal_ne_nil whole)
    exact ⟨b, bs, hb, .inr (isDigit_decimal whole b (by simp [hb]))⟩

end Number

namespace Token

def Apart : Token → Token → Prop
  | number _, number _ => False
  | _, _ => True

def Canonical : Token → Prop
  | number n => n.integral = true
  | text t => t.plain = true
  | _ => True

theorem read_number {b : UInt8} (h : b = 0x2D ∨ Number.isDigit b = true) (bs : List UInt8) :
    read (b :: bs) = (Number.read (b :: bs)).map fun r => (number r.1, r.2) := by
  have hother : ∀ c ∈ ([0x7B, 0x7D, 0x5B, 0x5D, 0x3A, 0x2C, 0x22] : List UInt8),
      ¬(c = 0x2D ∨ Number.isDigit c = true) := by simp [Number.isDigit]
  have hne : ∀ c ∈ ([0x7B, 0x7D, 0x5B, 0x5D, 0x3A, 0x2C, 0x22] : List UInt8), b ≠ c := by
    rintro c hc rfl
    exact hother b hc h
  simp only [List.forall_mem_cons] at hne
  simp only [read, hne, h, if_false, if_true]

theorem read_render {t : Token} (h : t.Canonical) {bs : List UInt8}
    (hbs : ∀ n, t = number n → Number.Ends bs) : read (t.render ++ bs) = some (t, bs) := by
  cases t with
  | number n =>
    obtain ⟨b, ds, hb, hfirst⟩ := n.exists_render_eq_cons
    have hn := Number.read_render h (hbs n rfl)
    rw [hb] at hn
    rw [render, hb, List.cons_append, read_number hfirst, ← List.cons_append, hn, Option.map_some]
  | text s =>
    have hs := Text.read_render h bs
    simp [render, Text.render, read, hs]
  | bool b => cases b <;> rfl
  | _ => rfl

theorem exists_render_eq_cons (t : Token) :
    ∃ b bs, t.render = b :: bs ∧ isBlank b = false := by
  cases t with
  | number n =>
    obtain ⟨b, bs, hb, hfirst⟩ := n.exists_render_eq_cons
    have hblank : ∀ c ∈ ([0x20, 0x09, 0x0A, 0x0D] : List UInt8),
        ¬(c = 0x2D ∨ Number.isDigit c = true) := by simp [Number.isDigit]
    have hne : ∀ c ∈ ([0x20, 0x09, 0x0A, 0x0D] : List UInt8), b ≠ c := by
      rintro c hc rfl
      exact hblank b hc hfirst
    simp only [List.forall_mem_cons] at hne
    exact ⟨b, bs, hb, by simp [isBlank, hne]⟩
  | bool b => cases b <;> exact ⟨_, _, rfl, rfl⟩
  | _ => exact ⟨_, _, rfl, rfl⟩

theorem ends_render {n : Number} {t : Token} (h : Apart (number n) t) (bs : List UInt8) :
    Number.Ends (t.render ++ bs) := by
  cases t with
  | number m => exact h.elim
  | bool b =>
    cases b <;>
    · intro c hc
      cases hc
      decide
  | _ =>
    intro c hc
    cases hc
    decide

theorem readAll_render {ts : List Token} (hc : ∀ t ∈ ts, t.Canonical) (ha : ts.IsChain Apart)
    {k : Nat} (hk : (ts.flatMap render).length ≤ k) (done : List Token) :
    readAll k done (ts.flatMap render) = some (done.reverse ++ ts) := by
  induction ts generalizing k done with
  | nil => cases k <;> simp [readAll]
  | cons t ts ih =>
    obtain ⟨ht, hts⟩ := List.forall_mem_cons.mp hc
    have hends : ∀ n, t = number n → Number.Ends (ts.flatMap render) := by
      rintro n rfl
      cases ts with
      | nil =>
        intro c hc
        cases hc
      | cons u ts => exact ends_render (List.isChain_cons_cons.mp ha).1 _
    obtain ⟨b, bs, hb, hblank⟩ := t.exists_render_eq_cons
    have hread := read_render ht hends
    rw [List.flatMap_cons, hb, List.cons_append] at hk ⊢
    rw [hb, List.cons_append] at hread
    cases k with
    | zero => cases hk
    | succ k =>
      have hrest : (ts.flatMap render).length ≤ k := by
        rw [List.length_cons, List.length_append] at hk
        omega
      simp only [readAll, hblank, Bool.false_eq_true, if_false, hread]
      rw [ih hts ha.tail hrest]
      simp

theorem ofBytes?_render {ts : List Token} (hc : ∀ t ∈ ts, t.Canonical) (ha : ts.IsChain Apart) :
    ofBytes? (ts.flatMap render) = some ts :=
  readAll_render hc ha (Nat.le_refl _) []

theorem isChain_cons {c : Token} (hc : ∀ n, c ≠ number n) {ts : List Token}
    (ht : ts.IsChain Apart) : (c :: ts).IsChain Apart := by
  refine List.isChain_cons.mpr ⟨fun t _ => ?_, ht⟩
  unfold Apart
  split
  · exact absurd rfl (hc _)
  · trivial

theorem isChain_around {c : Token} (hc : ∀ n, c ≠ number n) {ts us : List Token}
    (ht : ts.IsChain Apart) (hu : us.IsChain Apart) : (ts ++ c :: us).IsChain Apart := by
  refine List.isChain_append.mpr ⟨ht, isChain_cons hc hu, ?_⟩
  intro t _ u hu
  cases hu
  unfold Apart
  split
  · exact absurd rfl (hc _)
  · trivial

end Token

end LeaseOverlay.Json
