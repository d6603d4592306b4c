import LeaseOverlay.Ip

namespace LeaseOverlay.Reading

namespace NumberStyle

structure Faithful (s : NumberStyle) : Prop where
  one_lt : 1 < s.base
  value_digitChar : ∀ d < s.base, s.value? d.digitChar = some d

variable {s : NumberStyle}

theorem Faithful.value_of_mem (h : s.Faithful) (n : Nat) :
    ∀ c ∈ Nat.toDigits s.base n, (s.value? c).isSome = true := by
  induction n using Nat.strongRecOn with
  | _ n ih =>
    rw [Nat.toDigits_eq_if h.one_lt]
    split
    · next hn => simp [h.value_digitChar n hn]
    · next hn =>
      have hbase := h.one_lt
      have hlast := h.value_digitChar _ (Nat.mod_lt n (by omega))
      rw [List.forall_mem_append, List.forall_mem_singleton, hlast]
      exact ⟨ih (n / s.base) (Nat.div_lt_self (by omega) hbase), rfl⟩

theorem Faithful.foldl_toDigits (h : s.Faithful) (n : Nat) :
    ((Nat.toDigits s.base n).filterMap s.value?).foldl (fun n d => s.base * n + d) 0 = n := by
  induction n using Nat.strongRecOn with
  | _ n ih =>
    rw [Nat.toDigits_eq_if h.one_lt]
    split
    · next hn => simp [h.value_digitChar n hn]
    · next hn =>
      have hbase := h.one_lt
      have hlast := h.value_digitChar _ (Nat.mod_lt n (by omega))
      have hinit := ih (n / s.base) (Nat.div_lt_self (by omega) hbase)
      rw [List.filterMap_append, List.foldl_append, hinit]
      simp [hlast, Nat.div_add_mod]

end NumberStyle

theorem head?_toDigits {b n : Nat} (hb : 1 < b) (hn : 0 < n) :
    (Nat.toDigits b n).head? ≠ some '0' := by
  induction n using Nat.strongRecOn with
  | _ n ih =>
    rw [Nat.toDigits_eq_if hb]
    split
    · rw [List.head?_cons, ne_eq, Option.some.injEq, Nat.digitChar_eq_zero]
      omega
    · next hlt =>
      have hinit := ih (n / b) (Nat.div_lt_self hn hb) (Nat.div_pos (by omega) (by omega))
      obtain ⟨c, cs, hcs⟩ := List.exists_cons_of_ne_nil (Nat.toDigits_ne_nil (n := n / b) (b := b))
      rwa [hcs] at hinit ⊢

def Bare (value? : Char → Option Nat) (cs : List Char) : Prop := ∀ c ∈ cs.head?, value? c = none

variable {value? : Char → Option Nat} {s : NumberStyle} {cs rest : List Char} {n bound : Nat}

theorem bare_nil (value? : Char → Option Nat) : Bare value? [] := by simp [Bare]

theorem bare_cons_iff {c : Char} : Bare value? (c :: cs) ↔ value? c = none := by simp [Bare]

theorem takeWhile_of_bare (h : Bare value? cs) :
    (cs.takeWhile fun c => (value? c).isSome) = [] := by
  cases cs with
  | nil => rfl
  | cons c cs => exact List.takeWhile_cons_of_neg (by simp [bare_cons_iff.mp h])

theorem dropWhile_of_bare (h : Bare value? cs) :
    (cs.dropWhile fun c => (value? c).isSome) = cs := by
  cases cs with
  | nil => rfl
  | cons c cs => exact List.dropWhile_cons_of_neg (by simp [bare_cons_iff.mp h])

theorem number_of_bare (h : Bare s.value? cs) (bound : Nat) : number s bound cs = none := by
  simp [number, takeWhile_of_bare h]

theorem number_toDigits (hs : s.Faithful) (hbound : n < bound)
    (hlength : ∀ k ∈ s.maxDigits, (Nat.toDigits s.base n).length ≤ k)
    (hrest : Bare s.value? rest) :
    number s bound (Nat.toDigits s.base n ++ rest) = some (n, rest) := by
  have hdigits : ((Nat.toDigits s.base n ++ rest).takeWhile fun c => (s.value? c).isSome) =
      Nat.toDigits s.base n := by
    rw [List.takeWhile_append_of_pos (hs.value_of_mem n), takeWhile_of_bare hrest, List.append_nil]
  have hfew : s.maxDigits.any (· < (Nat.toDigits s.base n).length) = false := by
    cases hmax : s.maxDigits with
    | none => rfl
    | some k =>
      have hk := hlength k hmax
      simp only [Option.any_some, decide_eq_false_iff_not]
      omega
  have hzeros : ¬((Nat.toDigits s.base n).head? = some '0' ∧
      1 < (Nat.toDigits s.base n).length) := by
    rintro ⟨hhead, hlong⟩
    rcases Nat.eq_zero_or_pos n with rfl | hn
    · rw [Nat.toDigits_zero] at hlong
      exact absurd hlong (by decide)
    · exact head?_toDigits hs.one_lt hn hhead
  have hempty : (Nat.toDigits s.base n).isEmpty = false := by
    simp [Nat.toDigits_ne_nil]
  simp only [number, hdigits, hs.foldl_toDigits n, List.drop_left]
  rw [if_neg]
  simp only [hempty, hfew, Bool.false_eq_true, false_or, not_or]
  exact ⟨Nat.not_le.mpr hbound, fun h => hzeros h.2⟩

theorem rest_of_number {m : Nat} (h : number s bound cs = some (m, rest)) :
    rest = cs.dropWhile fun c => (s.value? c).isSome := by
  simp only [number] at h
  split at h
  · cases h
  · cases h
    have hsplit := cs.takeWhile_append_dropWhile (p := fun c => (s.value? c).isSome)
    exact (congrArg (List.drop _) hsplit.symm).trans List.drop_left

theorem skip_self (c : Char) (cs : List Char) : skip c (c :: cs) = some cs := by simp [skip]

theorem skip_of_head? {c : Char} (h : cs.head? ≠ some c) : skip c cs = none := by
  cases cs with
  | nil => rfl
  | cons d cs => exact if_neg fun hd => h (congrArg some hd)

theorem faithful_decimal (maxDigits : Option Nat) (leadingZeros : Bool) :
    (NumberStyle.mk 10 Decimal.digit? maxDigits leadingZeros).Faithful := by
  have hvalue : ∀ d < 10, Decimal.digit? d.digitChar = some d := by decide
  exact ⟨(by decide : 1 < 10), hvalue⟩

theorem faithful_hexadecimal (maxDigits : Option Nat) (leadingZeros : Bool) :
    (NumberStyle.mk 16 Hex.value? maxDigits leadingZeros).Faithful := by
  have hvalue : ∀ d < 16, Hex.value? d.digitChar = some d := by decide
  exact ⟨(by decide : 1 < 16), hvalue⟩

end LeaseOverlay.Reading
