import Mathlib.Data.List.Nodup
import Mathlib.Data.List.Perm.Subperm
import LeaseOverlay.Cache

namespace LeaseOverlay

namespace Table

variable {κ α : Type} [KeyOrder κ]

theorem length_keys (t : Table κ α) : t.keys.length = t.size := List.length_map _

theorem values_filter (t : Table κ α) (p : α → Bool) :
    (t.filter fun _ v => p v).values = t.values.filter p :=
  List.filter_map.symm

theorem size_filter_le (t : Table κ α) (p : κ → α → Bool) : (t.filter p).size ≤ t.size :=
  List.length_filter_le _ _

theorem filter_eq_self_of_size {t : Table κ α} {p : κ → α → Bool} (h : t.size ≤ (t.filter p).size) :
    t.filter p = t := by
  have hentries := List.filter_sublist.eq_of_length_le h
  cases t
  simpa [filter] using hentries

variable [DecidableEq κ]

theorem mem_keys_insert {t : Table κ α} {k k' : κ} {v : α} :
    k' ∈ (t.insert k v).keys ↔ k' = k ∨ k' ∈ t.keys := by
  rw [mem_keys, mem_keys, contains, contains, get?_insert]
  split <;> simp_all

theorem size_insert_le (t : Table κ α) (k : κ) (v : α) : (t.insert k v).size ≤ t.size + 1 := by
  have hsub : (t.insert k v).keys ⊆ k :: t.keys := fun k' hk' =>
    List.mem_cons.mpr (mem_keys_insert.mp hk')
  have hlength := (List.subperm_of_subset (nodup_keys _) hsub).length_le
  rwa [List.length_cons, length_keys, length_keys] at hlength

theorem size_insert_le_of_contains {t : Table κ α} {k : κ} (h : t.contains k = true) (v : α) :
    (t.insert k v).size ≤ t.size := by
  have hsub : (t.insert k v).keys ⊆ t.keys := by
    intro k' hk'
    rcases mem_keys_insert.mp hk' with rfl | hk'
    · exact mem_keys.mpr h
    · exact hk'
  have hlength := (List.subperm_of_subset (nodup_keys _) hsub).length_le
  rwa [length_keys, length_keys] at hlength

theorem size_filter_lt {t : Table κ α} {p : κ → α → Bool} {k : κ} {v : α} (h : t.get? k = some v)
    (hp : p k v = false) : (t.filter p).size < t.size := by
  have hk : (k, v) ∈ t.entries := get?_eq_some_iff.mp h
  refine List.length_filter_lt_length_iff_exists.mpr ⟨(k, v), hk, ?_⟩
  simp [hp]

end Table

namespace Cache

variable {now later : Time} {d : Descriptor} {lifetime : Time} {c : Cache} {p : PeerId}

structure WellFormed (c : Cache) : Prop where
  size_le : c.size ≤ c.limit
  keyed : ∀ p e, c.entries.get? p = some e → e.descriptor.peer = p

def current (now : Time) (c : Cache) (p : PeerId) : Option CacheEntry :=
  (c.entries.get? p).filter fun e => now < e.expiresAt

theorem get?_purge (now : Time) (c : Cache) (p : PeerId) :
    (c.purge now).entries.get? p = c.current now p :=
  Table.get?_filter c.entries _ p

theorem ext_get? {c c' : Cache} (hl : c.limit = c'.limit)
    (h : ∀ p, c.entries.get? p = c'.entries.get? p) : c = c' := by
  obtain ⟨limit, entries⟩ := c
  obtain ⟨_, entries'⟩ := c'
  cases hl
  exact congrArg (Cache.mk limit) (Table.ext_get? h)

theorem filter_filter_of_le {o : Option CacheEntry} (h : now ≤ later) :
    (o.filter fun e => now < e.expiresAt).filter (fun e => later < e.expiresAt) =
      o.filter fun e => later < e.expiresAt := by
  rw [Option.filter_filter]
  congr 1
  funext e
  simp only [Bool.and_eq_right_iff_imp, decide_eq_true_eq]
  exact Nat.lt_of_le_of_lt h

theorem purge_purge (h : now ≤ later) (c : Cache) : (c.purge now).purge later = c.purge later := by
  refine ext_get? rfl fun p => ?_
  rw [get?_purge, get?_purge, current, get?_purge, current, filter_filter_of_le h, current]

theorem current_purge (h : now ≤ later) (c : Cache) (p : PeerId) :
    (c.purge now).current later p = c.current later p := by
  rw [← get?_purge, purge_purge h, get?_purge]

theorem get?_put (now : Time) (d : Descriptor) (lifetime : Time) (c : Cache) (p : PeerId) :
    (c.put now d lifetime).entries.get? p =
      if p = d.peer then some ⟨d, now + lifetime⟩ else c.entries.get? p :=
  Table.get?_insert _ _ _ _

theorem purge_put (h : 0 < lifetime) (now : Time) (d : Descriptor) (c : Cache) :
    (c.put now d lifetime).purge now = (c.purge now).put now d lifetime := by
  refine ext_get? rfl fun p => ?_
  rw [get?_purge, current, get?_put, get?_put, get?_purge]
  split
  · exact Option.filter_some_pos (by simpa using h)
  · rfl

theorem put_put (now : Time) (d : Descriptor) (lifetime : Time) (c : Cache) :
    (c.put now d lifetime).put now d lifetime = c.put now d lifetime :=
  congrArg (Cache.mk c.limit) (Table.insert_insert _ _ _ _)

namespace WellFormed

theorem withLimit (limit : Nat) : (withLimit limit).WellFormed :=
  ⟨Nat.zero_le _, fun _ _ h => by cases h⟩

theorem purge (h : c.WellFormed) (now : Time) : (c.purge now).WellFormed where
  size_le := Nat.le_trans (Table.size_filter_le _ _) h.size_le
  keyed p e he := by
    rw [get?_purge, current, Option.filter_eq_some_iff] at he
    exact h.keyed p e he.1

theorem put (h : c.WellFormed) (now : Time) (d : Descriptor) (lifetime : Time)
    (hroom : c.entries.contains d.peer = true ∨ c.size < c.limit) :
    (c.put now d lifetime).WellFormed where
  size_le := by
    rcases hroom with hold | hroom
    · exact Nat.le_trans (Table.size_insert_le_of_contains hold _) h.size_le
    · exact Nat.le_trans (Table.size_insert_le _ _ _) hroom
  keyed p e he := by
    rw [get?_put] at he
    split at he
    · next hp =>
      cases he
      exact hp.symm
    · exact h.keyed p e he

end WellFormed

def Crowded (now : Time) (p : PeerId) (c : Cache) : Prop :=
  c.current now p = none ∧ c.limit ≤ (c.purge now).size

inductive Published (now : Time) (d : Descriptor) (lifetime : Time) (c : Cache) :
    Cache × Except CacheError Unit → Prop
  | fleeting (h : lifetime = 0) : Published now d lifetime c (c, .error .zeroLifetime)
  | full (h : 0 < lifetime) (hc : c.Crowded now d.peer) :
    Published now d lifetime c (c, .error (.full c.limit))
  | stored (h : 0 < lifetime) (hc : ¬c.Crowded now d.peer) {c' : Cache}
    (hold : c' = c ∨ c' = c.purge now)
    (hroom : c'.entries.contains d.peer = true ∨ c'.size < c'.limit) :
    Published now d lifetime c (c'.put now d lifetime, .ok ())

theorem current_eq_none_of_not_contains (h : c.entries.contains p = false) (now : Time) :
    c.current now p = none := by
  rw [current, Table.contains_eq_false_iff.mp h]
  rfl

theorem fst_publish_publish (now : Time) (d : Descriptor) (lifetime : Time) (c : Cache) :
    ((c.publish now d lifetime).1.publish now d lifetime).1 = (c.publish now d lifetime).1 := by
  by_cases hz : lifetime = 0
  · simp [publish, hz]
  have hput (c : Cache) : ((c.put now d lifetime).publish now d lifetime).1 =
      c.put now d lifetime := by
    have hc : (c.put now d lifetime).entries.contains d.peer = true :=
      Table.contains_iff.mpr ⟨_, Table.get?_insert_self _ _ _⟩
    simp [publish, hz, hc, put_put]
  by_cases hroom : c.entries.contains d.peer ∨ c.size < c.limit
  · simp only [publish, if_neg hz, if_pos hroom] at hput ⊢
    exact hput c
  by_cases hfreed : (c.purge now).size < c.limit
  · simp only [publish, if_neg hz, if_neg hroom, if_pos hfreed] at hput ⊢
    exact hput (c.purge now)
  · have hnew : (c.purge now).entries.contains d.peer = false := by
      rw [Table.contains_eq_false_iff, get?_purge]
      exact current_eq_none_of_not_contains (by simpa using (not_or.mp hroom).1) now
    have hagain : ¬((c.purge now).entries.contains d.peer ∨
        (c.purge now).size < (c.purge now).limit) :=
      not_or.mpr ⟨by simp [hnew], hfreed⟩
    have hfull : ¬((c.purge now).purge now).size < (c.purge now).limit := by
      rwa [purge_purge (Nat.le_refl now)]
    simp only [publish, if_neg hz, if_neg hroom, if_neg hfreed, if_neg hagain, if_neg hfull]
    exact purge_purge (Nat.le_refl now) c

theorem not_crowded_of_contains (hwf : c.WellFormed) (h : c.entries.contains p = true) :
    ¬c.Crowded now p := by
  rintro ⟨hnone, hfull⟩
  obtain ⟨e, he⟩ := Table.contains_iff.mp h
  have hover : decide (now < e.expiresAt) = false := by
    rw [current, he] at hnone
    simpa using hnone
  have hlt : (c.purge now).size < c.size := Table.size_filter_lt he hover
  exact Nat.lt_irrefl _ (Nat.lt_of_lt_of_le hlt (Nat.le_trans hwf.size_le hfull))

theorem published (h : c.WellFormed) (now : Time) (d : Descriptor) (lifetime : Time) :
    Published now d lifetime c (c.publish now d lifetime) := by
  unfold publish
  split
  · next hz => exact .fleeting hz
  next hz =>
  have hpos : 0 < lifetime := Nat.pos_of_ne_zero hz
  have hsize : (c.purge now).size ≤ c.size := Table.size_filter_le _ _
  split
  · next hroom =>
    refine .stored hpos ?_ (.inl rfl) hroom
    rcases hroom with hold | hroom
    · exact not_crowded_of_contains h hold
    · exact fun hc => Nat.not_le_of_lt (Nat.lt_of_le_of_lt hsize hroom) hc.2
  next hnew =>
  split
  · next hroom =>
    exact .stored hpos (fun hc => Nat.not_le_of_lt hroom hc.2) (.inr rfl) (.inr hroom)
  · next hfull =>
    -- nothing was purged, since the cache never holds more than its limit
    obtain ⟨hnew, _⟩ := not_or.mp hnew
    have hlimit : c.limit ≤ (c.purge now).size := Nat.le_of_not_lt hfull
    have hsame : c.purge now = c :=
      congrArg (Cache.mk c.limit) (Table.filter_eq_self_of_size (Nat.le_trans h.size_le hlimit))
    rw [hsame]
    exact .full hpos ⟨current_eq_none_of_not_contains (by simpa using hnew) now, hlimit⟩

theorem WellFormed.publish (h : c.WellFormed) (now : Time) (d : Descriptor) (lifetime : Time) :
    (c.publish now d lifetime).1.WellFormed := by
  have hp := published h now d lifetime
  generalize c.publish now d lifetime = x at hp
  cases hp with
  | fleeting => exact h
  | full => exact h
  | stored _ _ hold hroom =>
    rcases hold with rfl | rfl
    · exact h.put now d lifetime hroom
    · exact (h.purge now).put now d lifetime hroom

theorem publish_eq_full_iff (h : c.WellFormed) (now : Time) (d : Descriptor) (lifetime : Time) :
    (c.publish now d lifetime).2 = .error (.full c.limit) ↔
      0 < lifetime ∧ c.Crowded now d.peer := by
  have hp := published h now d lifetime
  generalize c.publish now d lifetime = x at hp
  cases hp with
  | fleeting hz => simp [hz]
  | full hpos hc => simp [hpos, hc]
  | stored _ hc => simp [hc]

theorem fst_publish_of_error (h : c.WellFormed) {e : CacheError}
    (he : (c.publish now d lifetime).2 = .error e) : (c.publish now d lifetime).1 = c := by
  have hp := published h now d lifetime
  generalize c.publish now d lifetime = x at hp he
  cases hp with
  | fleeting => rfl
  | full => rfl
  | stored => cases he

theorem crowded_purge (now : Time) (p : PeerId) (c : Cache) :
    (c.purge now).Crowded now p ↔ c.Crowded now p := by
  rw [Crowded, current_purge (Nat.le_refl now), purge_purge (Nat.le_refl now)]
  rfl

theorem publish_purge (h : c.WellFormed) (now : Time) (d : Descriptor) (lifetime : Time) :
    (c.purge now).publish now d lifetime =
      ((c.publish now d lifetime).1.purge now, (c.publish now d lifetime).2) := by
  have hp := published h now d lifetime
  have hq := published (h.purge now) now d lifetime
  generalize c.publish now d lifetime = x at hp
  generalize (c.purge now).publish now d lifetime = y at hq
  have hpp := purge_purge (Nat.le_refl now) c
  cases hp with
  | fleeting hz =>
    cases hq with
    | fleeting => rfl
    | full hpos => exact absurd hz (Nat.ne_of_gt hpos)
    | stored hpos => exact absurd hz (Nat.ne_of_gt hpos)
  | full hpos hc =>
    cases hq with
    | fleeting hz => exact absurd hz (Nat.ne_of_gt hpos)
    | full => rfl
    | stored _ hc' => exact absurd ((crowded_purge now d.peer c).mpr hc) hc'
  | stored hpos hc hold =>
    cases hq with
    | fleeting hz => exact absurd hz (Nat.ne_of_gt hpos)
    | full _ hc' => exact absurd ((crowded_purge now d.peer c).mp hc') hc
    | stored _ _ hold' =>
      rcases hold with rfl | rfl <;> rcases hold' with rfl | rfl <;>
        simp only [purge_put hpos, hpp]

theorem descriptors_eq (now : Time) (c : Cache) :
    c.descriptors now = (c.purge now).entries.values.map (·.descriptor) :=
  congrArg (List.map _) (Table.values_filter c.entries _).symm

theorem descriptors_purge (h : now ≤ later) (c : Cache) :
    (c.purge now).descriptors later = c.descriptors later := by
  rw [descriptors_eq, descriptors_eq, purge_purge h]

theorem length_descriptors (now : Time) (c : Cache) :
    (c.descriptors now).length = (c.purge now).size := by
  rw [descriptors_eq, List.length_map]
  exact List.length_map _

theorem WellFormed.map_peer_descriptors (h : c.WellFormed) (now : Time) :
    (c.descriptors now).map (·.peer) = (c.purge now).entries.keys := by
  rw [descriptors_eq, List.map_map, Table.values, Table.keys, List.map_map]
  refine List.map_congr_left fun x hx => ?_
  exact (h.purge now).keyed x.1 x.2 (Table.get?_eq_some_iff.mpr hx)

theorem WellFormed.mem_descriptors (h : c.WellFormed) (now : Time) (d : Descriptor) :
    d ∈ c.descriptors now ↔ ∃ e, c.current now d.peer = some e ∧ e.descriptor = d := by
  simp only [descriptors_eq, List.mem_map, Table.mem_values, get?_purge]
  constructor
  · rintro ⟨e, ⟨p, he⟩, rfl⟩
    have hp : e.descriptor.peer = p := h.keyed p e (Option.filter_eq_some_iff.mp he).1
    exact ⟨e, hp ▸ he, rfl⟩
  · rintro ⟨e, he, rfl⟩
    exact ⟨e, ⟨_, he⟩, rfl⟩

theorem WellFormed.crowded_iff (h : c.WellFormed) (now : Time) (p : PeerId) :
    c.Crowded now p ↔
      (∀ d ∈ c.descriptors now, d.peer ≠ p) ∧ c.limit ≤ (c.descriptors now).length := by
  have hnone : c.current now p = none ↔ p ∉ (c.descriptors now).map (·.peer) := by
    rw [h.map_peer_descriptors, Table.mem_keys, ← get?_purge, ← Table.contains_eq_false_iff,
      Bool.not_eq_true]
  rw [Crowded, hnone, length_descriptors]
  simp

end Cache

end LeaseOverlay
