import LeaseOverlay.Config.Source

namespace LeaseOverlay

namespace Decimal

variable {cs : List Char} {s : String} {m n : Nat}

theorem digit?_eq_some_iff {c : Char} :
    digit? c = some n ↔ c.isDigit = true ∧ c.toNat - '0'.toNat = n := by
  unfold digit?
  split
  · next h => simp [h]
  · next h => simp [h]

theorem foldlM_eq_some_iff :
    cs.foldlM (fun n c => (digit? c).map fun d => 10 * n + d) m = some n ↔
      (∀ c ∈ cs, c.isDigit = true) ∧ n = Nat.ofDigitChars 10 cs m := by
  induction cs generalizing m with
  | nil => simpa [Nat.ofDigitChars] using eq_comm
  | cons c cs ih =>
    simp only [List.foldlM_cons, Option.bind_eq_bind, Option.bind_eq_some_iff,
      Option.map_eq_some_iff, digit?_eq_some_iff, List.forall_mem_cons, Nat.ofDigitChars_cons]
    constructor
    · rintro ⟨_, ⟨_, ⟨hc, rfl⟩, rfl⟩, h⟩
      obtain ⟨hcs, hn⟩ := ih.mp h
      exact ⟨⟨hc, hcs⟩, hn⟩
    · rintro ⟨⟨hc, hcs⟩, hn⟩
      exact ⟨_, ⟨_, ⟨hc, rfl⟩, rfl⟩, ih.mpr ⟨hcs, hn⟩⟩

/-- The text is digits, perhaps with a plus sign in front, and the number is theirs. -/
def Spells (s : String) (n : Nat) : Prop :=
  ∃ ds, (s.toList = ds ∨ s.toList = '+' :: ds) ∧ ds ≠ [] ∧ (∀ c ∈ ds, c.isDigit = true) ∧
    n = Nat.ofDigitChars 10 ds 0

theorem ofDigits?_eq_some_iff : ofDigits? cs = some n ↔
    cs ≠ [] ∧ (∀ c ∈ cs, c.isDigit = true) ∧ n = Nat.ofDigitChars 10 cs 0 := by
  unfold ofDigits?
  rw [← foldlM_eq_some_iff]
  split
  · next h => simp [List.isEmpty_iff.mp h]
  · next h =>
    have hne : cs ≠ [] := fun hnil => h (by simp [hnil])
    simp [hne]

theorem parse?_eq_some_iff : parse? s.toList = some n ↔ Spells s n := by
  unfold parse? Spells
  split
  · next ds h =>
    rw [ofDigits?_eq_some_iff]
    constructor
    · exact fun hds => ⟨ds, .inr h, hds⟩
    · rintro ⟨es, hes | hes, hne, hdigits, hn⟩
      · have hplus := hdigits '+' (by rw [← hes, h]; exact List.mem_cons_self)
        exact absurd hplus (by decide)
      · rw [h, List.cons.injEq] at hes
        rw [hes.2]
        exact ⟨hne, hdigits, hn⟩
  · next h =>
    rw [ofDigits?_eq_some_iff]
    constructor
    · exact fun hds => ⟨s.toList, .inl rfl, hds⟩
    · rintro ⟨es, hes | hes, hds⟩
      · rwa [hes]
      · exact absurd hes (h es)

end Decimal

namespace Environment

variable {text : Option String} {s : String} {ss : List String} {n bound : Nat}

theorem number?_eq_some_iff :
    number? text bound = some n ↔ ∃ s, text = some s ∧ Decimal.Spells s n ∧ n < bound := by
  simp only [number?, Option.filter_eq_some_iff, Option.bind_eq_some_iff,
    Decimal.parse?_eq_some_iff, decide_eq_true_eq]
  constructor
  · rintro ⟨⟨s, hs, hn⟩, hlt⟩
    exact ⟨s, hs, hn, hlt⟩
  · rintro ⟨s, hs, hn, hlt⟩
    exact ⟨⟨s, hs, hn⟩, hlt⟩

/-- The text is pieces with commas between them, and the list is these pieces, trimmed, without
those that are empty then. -/
def Lists (s : String) (ss : List String) : Prop :=
  ∃ pieces, pieces ≠ [] ∧ s = ",".intercalate pieces ∧ (∀ p ∈ pieces, ',' ∉ p.toList) ∧
    ss = (pieces.map Blank.trim).filter (· ≠ "")

theorem notMem_of_mem_splitOn {c : Char} {cs piece : List Char} (h : piece ∈ cs.splitOn c) :
    c ∉ piece := by
  induction cs generalizing piece with
  | nil => simp_all
  | cons d ds ih =>
    rw [List.splitOn_cons_eq_if_modifyHead] at h
    split at h
    · rcases List.mem_cons.mp h with rfl | h
      · exact List.not_mem_nil
      · exact ih h
    · next hd =>
      obtain ⟨first, rest, hsplit⟩ := List.exists_cons_of_ne_nil (List.splitOn_ne_nil c ds)
      rw [hsplit, List.modifyHead_cons] at h
      rw [hsplit] at ih
      rcases List.mem_cons.mp h with rfl | h
      · have hcd : c ≠ d := fun hcd => hd (by simp [hcd])
        exact List.not_mem_cons_of_ne_of_not_mem hcd (ih List.mem_cons_self)
      · exact ih (List.mem_cons_of_mem _ h)

theorem pieces_intercalate {ps : List String} (hne : ps ≠ []) (hcommas : ∀ p ∈ ps, ',' ∉ p.toList) :
    pieces (",".intercalate ps) = (ps.map Blank.trim).filter (· ≠ "") := by
  have hsplit : (",".intercalate ps).toList.splitOn ',' = ps.map String.toList := by
    rw [String.toList_intercalate]
    exact List.splitOn_intercalate ',' (by simpa using hcommas) (by simpa using hne)
  have hempty : (fun cs : List Char => !cs.isEmpty) ∘ Blank.strip ∘ String.toList =
      (fun s => decide (s ≠ "")) ∘ Blank.trim := by
    funext p
    cases h : Blank.strip p.toList <;> simp [Blank.trim, h]
  simp only [pieces, hsplit, List.map_map, List.filter_map, hempty]
  rfl

theorem pieces_eq_iff : pieces s = ss ↔ Lists s ss := by
  constructor
  · rintro rfl
    have hs : s = ",".intercalate ((s.toList.splitOn ',').map String.ofList) := by
      rw [← String.toList_inj, String.toList_intercalate, List.map_map]
      have hid : String.toList ∘ String.ofList = id := funext fun _ => String.toList_ofList
      rw [hid, List.map_id]
      exact (List.intercalate_splitOn ',').symm
    have hne : (s.toList.splitOn ',').map String.ofList ≠ [] := by simp [List.splitOn_ne_nil]
    have hcommas : ∀ p ∈ (s.toList.splitOn ',').map String.ofList, ',' ∉ p.toList := by
      intro p hp
      obtain ⟨piece, hpiece, rfl⟩ := List.mem_map.mp hp
      rw [String.toList_ofList]
      exact notMem_of_mem_splitOn hpiece
    have hpieces := pieces_intercalate hne hcommas
    rw [← hs] at hpieces
    exact ⟨_, hne, hs, hcommas, hpieces⟩
  · rintro ⟨ps, hne, rfl, hcommas, rfl⟩
    exact pieces_intercalate hne hcommas

end Environment

end LeaseOverlay
