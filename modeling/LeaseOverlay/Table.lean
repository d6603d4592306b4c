import LeaseOverlay.Order
/-!
Finite maps as lists of entries in ascending order of their keys, so that equal maps are equal lists
and a walk over the entries is a walk in key order.
-/

namespace LeaseOverlay

structure Table (κ α : Type) [KeyOrder κ] where
  entries : List (κ × α)
  ascending : entries.Pairwise fun p q => KeyOrder.before p.1 q.1 = true

namespace Table

open KeyOrder (before)

def find {κ α : Type} [DecidableEq κ] (k : κ) : List (κ × α) → Option α
  | [] => none
  | e :: es => if e.1 = k then some e.2 else find k es

theorem find_eq_none_of_notMem {κ α : Type} [DecidableEq κ] {k : κ} {es : List (κ × α)}
    (h : k ∉ es.map (·.1)) : find k es = none := by
  induction es with
  | nil => rfl
  | cons e es ih =>
    rw [List.map_cons, List.mem_cons, not_or] at h
    rw [find, if_neg (Ne.symm h.1), ih h.2]

variable {κ α : Type} [KeyOrder κ]

instance [DecidableEq κ] [DecidableEq α] : DecidableEq (Table κ α) := fun s t =>
  decidable_of_iff (s.entries = t.entries) (by cases s; cases t; simp)

def empty : Table κ α := ⟨[], .nil⟩

def size (t : Table κ α) : Nat := t.entries.length

def isEmpty (t : Table κ α) : Bool := t.entries.isEmpty

def keys (t : Table κ α) : List κ := t.entries.map (·.1)

def values (t : Table κ α) : List α := t.entries.map (·.2)

def filter (p : κ → α → Bool) (t : Table κ α) : Table κ α :=
  ⟨t.entries.filter fun e => p e.1 e.2, t.ascending.filter _⟩

theorem nodup_keys (t : Table κ α) : t.keys.Nodup := by
  refine List.pairwise_map.mpr (t.ascending.imp ?_)
  intro a b h
  exact KeyOrder.ne_of_before h

theorem eq_empty_of_keys {t : Table κ α} (h : t.keys = []) : t = empty := by
  obtain ⟨es, hes⟩ := t
  cases List.map_eq_nil_iff.mp h
  rfl

theorem entries_ext {es fs : List (κ × α)}
    (hes : es.Pairwise fun p q => before p.1 q.1 = true)
    (hfs : fs.Pairwise fun p q => before p.1 q.1 = true)
    (h : ∀ x, x ∈ es ↔ x ∈ fs) : es = fs := by
  induction es generalizing fs with
  | nil =>
    cases fs with
    | nil => rfl
    | cons f fs => simpa using h f
  | cons e es ih =>
    cases fs with
    | nil => simpa using h e
    | cons f fs =>
      obtain ⟨he, hes⟩ := List.pairwise_cons.mp hes
      obtain ⟨hf, hfs'⟩ := List.pairwise_cons.mp hfs
      have hef : e = f := by
        rcases List.mem_cons.mp ((h e).mp (by simp)) with hh | hef
        · exact hh
        · rcases List.mem_cons.mp ((h f).mpr (by simp)) with hh | hfe
          · exact hh.symm
          · have := KeyOrder.trans (hf e hef) (he f hfe)
            simp [KeyOrder.irrefl] at this
      cases hef
      refine congrArg (e :: ·) (ih hes hfs' fun x => ⟨fun hx => ?_, fun hx => ?_⟩)
      · refine (List.mem_cons.mp ((h x).mp (by simp [hx]))).resolve_left fun hh => ?_
        subst hh
        simpa [KeyOrder.irrefl] using he x hx
      · refine (List.mem_cons.mp ((h x).mpr (by simp [hx]))).resolve_left fun hh => ?_
        subst hh
        simpa [KeyOrder.irrefl] using hf x hx

variable [DecidableEq κ]

def get? (t : Table κ α) (k : κ) : Option α := find k t.entries

def contains (t : Table κ α) (k : κ) : Bool := (t.get? k).isSome

def erase (t : Table κ α) (k : κ) : Table κ α := t.filter fun k' _ => k' ≠ k

def place (k : κ) (v : α) : List (κ × α) → List (κ × α)
  | [] => [(k, v)]
  | e :: es =>
    if before k e.1 then (k, v) :: e :: es
    else if e.1 = k then (k, v) :: es
    else e :: place k v es

theorem mem_place {k : κ} {v : α} {es : List (κ × α)} {x : κ × α} (h : x ∈ place k v es) :
    x = (k, v) ∨ x ∈ es := by
  induction es with
  | nil => simpa [place] using h
  | cons e es ih =>
    simp only [place] at h
    split at h
    · simpa using h
    · split at h <;> simp only [List.mem_cons] at h ⊢
      · exact h.imp_right .inr
      · rcases h with h | h
        · exact .inr (.inl h)
        · exact (ih h).imp_right .inr

theorem place_ascending (k : κ) (v : α) {es : List (κ × α)}
    (h : es.Pairwise fun p q => before p.1 q.1 = true) :
    (place k v es).Pairwise fun p q => before p.1 q.1 = true := by
  induction es with
  | nil => simp [place]
  | cons e es ih =>
    obtain ⟨he, hes⟩ := List.pairwise_cons.mp h
    simp only [place]
    split
    · next hk =>
      refine List.pairwise_cons.mpr ⟨fun x hx => ?_, h⟩
      rcases List.mem_cons.mp hx with rfl | hx
      · exact hk
      · exact KeyOrder.trans hk (he x hx)
    · next hk =>
      split
      · next heq =>
        subst heq
        exact List.pairwise_cons.mpr ⟨he, hes⟩
      · next hne =>
        refine List.pairwise_cons.mpr ⟨fun x hx => ?_, ih hes⟩
        rcases mem_place hx with rfl | hx
        · by_cases hb : before e.1 k = true
          · exact hb
          · exact absurd (KeyOrder.connected (by simpa using hb) (by simpa using hk)) hne
        · exact he x hx

def insert (t : Table κ α) (k : κ) (v : α) : Table κ α :=
  ⟨place k v t.entries, place_ascending k v t.ascending⟩

def ofList (es : List (κ × α)) : Table κ α :=
  es.foldl (fun t e => t.insert e.1 e.2) empty

@[simp] theorem get?_empty (k : κ) : (empty : Table κ α).get? k = none := rfl

theorem find_place_self (k : κ) (v : α) (es : List (κ × α)) : find k (place k v es) = some v := by
  induction es with
  | nil => simp [place, find]
  | cons e es ih =>
    simp only [place]
    split
    · simp [find]
    · split
      · simp [find]
      · next hne => simpa [find, hne] using ih

theorem find_place_ne {k k' : κ} (v : α) (es : List (κ × α)) (h : k' ≠ k) :
    find k' (place k v es) = find k' es := by
  induction es with
  | nil => simp [place, find, h.symm]
  | cons e es ih =>
    simp only [place]
    split
    · simp [find, h.symm]
    · split
      · next heq => simp [find, h.symm, heq]
      · simp [find, ih]

@[simp] theorem get?_insert_self (t : Table κ α) (k : κ) (v : α) :
    (t.insert k v).get? k = some v :=
  find_place_self k v t.entries

theorem get?_insert_ne (t : Table κ α) {k k' : κ} (v : α) (h : k' ≠ k) :
    (t.insert k v).get? k' = t.get? k' :=
  find_place_ne v t.entries h

theorem get?_insert (t : Table κ α) (k k' : κ) (v : α) :
    (t.insert k v).get? k' = if k' = k then some v else t.get? k' := by
  split
  · next h => rw [h, get?_insert_self]
  · next h => exact get?_insert_ne t v h

theorem get?_eq_some_iff {t : Table κ α} {k : κ} {v : α} :
    t.get? k = some v ↔ (k, v) ∈ t.entries := by
  obtain ⟨es, h⟩ := t
  simp only [get?]
  induction es with
  | nil => simp [find]
  | cons e es ih =>
    obtain ⟨he, hes⟩ := List.pairwise_cons.mp h
    simp only [find, List.mem_cons]
    split
    · next heq =>
      constructor
      · intro hv
        cases hv
        exact .inl (Prod.ext heq.symm rfl)
      · rintro (hv | hv)
        · rw [← hv]
        · exact absurd heq (KeyOrder.ne_of_before (he _ hv))
    · next hne =>
      rw [ih hes]
      refine ⟨.inr, fun hv => hv.resolve_left fun hk => hne ?_⟩
      rw [← hk]

theorem get?_filter (t : Table κ α) (p : κ → α → Bool) (k : κ) :
    (t.filter p).get? k = (t.get? k).filter (p k) := by
  ext v
  rw [get?_eq_some_iff, Option.filter_eq_some_iff, get?_eq_some_iff]
  simp [filter]

@[simp] theorem get?_erase_self (t : Table κ α) (k : κ) : (t.erase k).get? k = none := by
  rw [erase, get?_filter]
  cases t.get? k <;> simp

theorem get?_erase_ne (t : Table κ α) {k k' : κ} (h : k' ≠ k) :
    (t.erase k).get? k' = t.get? k' := by
  rw [erase, get?_filter]
  cases t.get? k' <;> simp [h]

theorem get?_erase (t : Table κ α) (k k' : κ) :
    (t.erase k).get? k' = if k' = k then none else t.get? k' := by
  split
  · next h => rw [h, get?_erase_self]
  · next h => exact get?_erase_ne t h

theorem contains_eq_false_iff {t : Table κ α} {k : κ} :
    t.contains k = false ↔ t.get? k = none := by
  simp [contains]

theorem contains_iff {t : Table κ α} {k : κ} : t.contains k = true ↔ ∃ v, t.get? k = some v := by
  rw [contains, Option.isSome_iff_exists]

theorem mem_keys {t : Table κ α} {k : κ} : k ∈ t.keys ↔ t.contains k = true := by
  simp only [contains_iff, get?_eq_some_iff, keys, List.mem_map, Prod.exists, exists_and_right,
    exists_eq_right]

theorem mem_values {t : Table κ α} {v : α} : v ∈ t.values ↔ ∃ k, t.get? k = some v := by
  simp only [get?_eq_some_iff, values, List.mem_map, Prod.exists, exists_eq_right]

theorem keys_erase (t : Table κ α) (k : κ) : (t.erase k).keys = t.keys.filter (· ≠ k) := by
  simp only [keys, erase, filter, List.filter_map]
  rfl

theorem ext_get? {s t : Table κ α} (h : ∀ k, s.get? k = t.get? k) : s = t := by
  have he : s.entries = t.entries := by
    refine entries_ext s.ascending t.ascending fun x => ?_
    rw [← Prod.eta x, ← get?_eq_some_iff, ← get?_eq_some_iff, h]
  cases s
  cases t
  cases he
  rfl

theorem insert_insert (t : Table κ α) (k : κ) (v v' : α) :
    (t.insert k v).insert k v' = t.insert k v' := by
  refine ext_get? fun k' => ?_
  simp only [get?_insert]
  split <;> rfl

theorem get?_foldl_insert {es : List (κ × α)} (h : (es.map (·.1)).Nodup) (t : Table κ α) (k : κ) :
    (es.foldl (fun t e => t.insert e.1 e.2) t).get? k = (find k es).or (t.get? k) := by
  induction es generalizing t with
  | nil => rfl
  | cons e es ih =>
    obtain ⟨he, hes⟩ := List.nodup_cons.mp h
    rw [List.foldl_cons, ih hes, get?_insert, find]
    by_cases hk : k = e.1
    · rw [hk, find_eq_none_of_notMem he]
      simp
    · simp [hk, Ne.symm hk]

@[simp] theorem ofList_entries (t : Table κ α) : ofList t.entries = t := by
  refine ext_get? fun k => ?_
  rw [ofList, get?_foldl_insert t.nodup_keys, get?_empty, Option.or_none]
  rfl

end Table

end LeaseOverlay
