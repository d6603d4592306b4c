import Mathlib.Data.List.Infix
import Mathlib.Data.List.TakeWhile
import LeaseOverlay.Text.Blank

namespace LeaseOverlay

namespace Blank

variable {cs ds before after : List Char}

structure Bare (cs : List Char) : Prop where
  head : ∀ c ∈ cs.head?, isBlank c = false
  last : ∀ c ∈ cs.getLast?, isBlank c = false

theorem dropWhile_of_head (h : ∀ c ∈ cs.head?, isBlank c = false) :
    cs.dropWhile isBlank = cs := by
  cases cs with
  | nil => rfl
  | cons c cs => rw [List.dropWhile_cons_of_neg (by simp [h c rfl])]

theorem dropEnd_of_last (h : ∀ c ∈ cs.getLast?, isBlank c = false) : dropEnd cs = cs := by
  rw [dropEnd, dropWhile_of_head (by rwa [List.head?_reverse]), List.reverse_reverse]

theorem dropEnd_append (h : ∀ c ∈ after, isBlank c = true) :
    dropEnd (cs ++ after) = dropEnd cs := by
  rw [dropEnd, List.reverse_append, List.dropWhile_append_of_pos (by simpa using h), dropEnd]

theorem strip_of_surrounded (hcs : Bare cs) (hbefore : ∀ c ∈ before, isBlank c = true)
    (hafter : ∀ c ∈ after, isBlank c = true) : strip (before ++ (cs ++ after)) = cs := by
  rw [strip, List.dropWhile_append_of_pos hbefore]
  cases cs with
  | nil =>
    have hnil : after.dropWhile isBlank = [] := List.dropWhile_eq_nil_iff.mpr hafter
    rw [List.nil_append, hnil]
    rfl
  | cons c cs =>
    have hhead : ∀ d ∈ (c :: cs ++ after).head?, isBlank d = false := hcs.head
    rw [dropWhile_of_head hhead, dropEnd_append hafter, dropEnd_of_last hcs.last]

theorem head?_dropWhile (cs : List Char) :
    ∀ c ∈ (cs.dropWhile isBlank).head?, isBlank c = false := by
  intro c hc
  have h := List.head?_dropWhile_not isBlank cs
  rw [Option.mem_def] at hc
  rwa [hc] at h

theorem exists_dropEnd (cs : List Char) :
    ∃ after, cs = dropEnd cs ++ after ∧ ∀ c ∈ after, isBlank c = true := by
  refine ⟨(cs.reverse.takeWhile isBlank).reverse, ?_, fun c hc => ?_⟩
  · rw [dropEnd, ← List.reverse_append, List.takeWhile_append_dropWhile, List.reverse_reverse]
  · exact List.mem_takeWhile_imp (List.mem_reverse.mp hc)

theorem bare_strip (cs : List Char) : Bare (strip cs) := by
  constructor
  · intro c hc
    obtain ⟨after, hsplit, _⟩ := exists_dropEnd (cs.dropWhile isBlank)
    refine head?_dropWhile cs c ?_
    rw [Option.mem_def] at hc ⊢
    rw [hsplit, List.head?_append, ← strip, hc, Option.some_or]
  · intro c hc
    rw [strip, dropEnd, List.getLast?_reverse] at hc
    exact head?_dropWhile _ c hc

theorem strip_eq_iff : strip cs = ds ↔
    Bare ds ∧ ∃ before after, cs = before ++ (ds ++ after) ∧
      (∀ c ∈ before, isBlank c = true) ∧ ∀ c ∈ after, isBlank c = true := by
  constructor
  · rintro rfl
    obtain ⟨after, hsplit, hafter⟩ := exists_dropEnd (cs.dropWhile isBlank)
    refine ⟨bare_strip cs, cs.takeWhile isBlank, after, ?_, fun _ => List.mem_takeWhile_imp, hafter⟩
    rw [strip, ← hsplit, List.takeWhile_append_dropWhile]
  · rintro ⟨hds, before, after, rfl, hbefore, hafter⟩
    exact strip_of_surrounded hds hbefore hafter

theorem strip_of_bare (h : Bare cs) : strip cs = cs :=
  strip_eq_iff.mpr ⟨h, [], [], by simp, by simp, by simp⟩

theorem isBlank_eq_false {c : Char} (h : 33 ≤ c.toNat) (h' : c.toNat < 128) :
    isBlank c = false := by
  simp only [isBlank, Blank.table, List.any_cons, List.any_nil, Bool.or_false, Bool.or_eq_false_iff,
    Bool.and_eq_false_iff, decide_eq_false_iff_not]
  omega

end Blank

end LeaseOverlay
