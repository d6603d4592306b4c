import LeaseOverlay.Text.Utf8

namespace LeaseOverlay

class KeyOrder (κ : Type) where
  before : κ → κ → Bool
  irrefl : ∀ a, before a a = false
  trans : ∀ {a b c}, before a b = true → before b c = true → before a c = true
  connected : ∀ {a b}, before a b = false → before b a = false → a = b

namespace KeyOrder

variable {κ : Type} [KeyOrder κ]

theorem ne_of_before {a b : κ} (h : before a b = true) : a ≠ b := by
  rintro rfl
  simp [irrefl] at h

end KeyOrder

namespace Bytes

def before : List UInt8 → List UInt8 → Bool
  | _, [] => false
  | [], _ :: _ => true
  | x :: xs, y :: ys => if x = y then before xs ys else decide (x.toNat < y.toNat)

theorem before_irrefl : ∀ a, before a a = false
  | [] => rfl
  | _ :: xs => by simp [before, before_irrefl xs]

theorem before_trans {a b c : List UInt8} (hab : before a b = true) (hbc : before b c = true) :
    before a c = true := by
  induction a generalizing b c with
  | nil => cases b <;> cases c <;> simp_all [before]
  | cons x xs ih =>
    cases b with
    | nil => simp [before] at hab
    | cons y ys =>
      cases c with
      | nil => simp [before] at hbc
      | cons z zs =>
        simp only [before] at hab hbc ⊢
        by_cases hxy : x = y
        · subst hxy
          by_cases hyz : x = z
          · simp only [if_pos hyz] at hab hbc ⊢
            exact ih hab hbc
          · simpa [hyz] using hbc
        · by_cases hyz : y = z
          · subst hyz
            simpa [hxy] using hab
          · simp only [if_neg hxy, if_neg hyz, decide_eq_true_eq] at hab hbc
            have hxz : x ≠ z := by
              rintro rfl
              omega
            simp only [if_neg hxz, decide_eq_true_eq]
            omega

theorem before_connected {a b : List UInt8} (hab : before a b = false) (hba : before b a = false) :
    a = b := by
  induction a generalizing b with
  | nil => cases b <;> simp_all [before]
  | cons x xs ih =>
    cases b with
    | nil => simp [before] at hba
    | cons y ys =>
      simp only [before] at hab hba
      by_cases hxy : x = y
      · subst hxy
        simp only [ite_true] at hab hba
        rw [ih hab hba]
      · have hyx : y ≠ x := fun h => hxy h.symm
        simp only [if_neg hxy, if_neg hyx, decide_eq_false_iff_not] at hab hba
        exact absurd (UInt8.toNat_inj.mp (by omega)) hxy

end Bytes

instance : KeyOrder String where
  before s t := Bytes.before (Utf8.encode s) (Utf8.encode t)
  irrefl s := Bytes.before_irrefl (Utf8.encode s)
  trans := Bytes.before_trans
  connected h h' := Utf8.encode_injective (Bytes.before_connected h h')

end LeaseOverlay
