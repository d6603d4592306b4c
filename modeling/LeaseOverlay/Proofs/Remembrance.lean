import LeaseOverlay.Proofs.Purging

namespace LeaseOverlay

namespace Cache

inductive Use
  | publish (d : Descriptor) (lifetime : Time)
  | purge
  | list

structure Visit where
  now : Time
  use : Use

inductive Answer
  | published (r : Except CacheError Unit)
  | listed (ds : List Descriptor)

structure Publication where
  moment : Time
  descriptor : Descriptor
  lifetime : Time
  deriving DecidableEq

def Publication.entry (b : Publication) : CacheEntry := ⟨b.descriptor, b.moment + b.lifetime⟩

def after (c : Cache) (v : Visit) : Cache :=
  match v.use with
  | .publish d lifetime => (c.publish v.now d lifetime).1
  | .purge => c.purge v.now
  | .list => c

def answer? (c : Cache) (v : Visit) : Option Answer :=
  match v.use with
  | .publish d lifetime => some (.published (c.publish v.now d lifetime).2)
  | .purge => none
  | .list => some (.listed (c.descriptors v.now))

def publication? (c : Cache) (v : Visit) : Option Publication :=
  match v.use with
  | .publish d lifetime => match (c.publish v.now d lifetime).2 with
    | .ok _ => some ⟨v.now, d, lifetime⟩
    | .error _ => none
  | _ => none

def run : Cache → List Visit → Cache
  | c, [] => c
  | c, v :: vs => run (c.after v) vs

def answers : Cache → List Visit → List Answer
  | _, [] => []
  | c, v :: vs => (c.answer? v).toList ++ answers (c.after v) vs

def publications : Cache → List Visit → List Publication
  | _, [] => []
  | c, v :: vs => (c.publication? v).toList ++ publications (c.after v) vs

def latest (p : PeerId) (bs : List Publication) : Option Publication :=
  (bs.filter fun b => b.descriptor.peer = p).getLast?

def InOrder (vs : List Visit) : Prop := vs.Pairwise fun v w => v.now ≤ w.now

variable {now later : Time} {c : Cache} {bs : List Publication} {v : Visit} {vs : List Visit}

theorem latest_concat (p : PeerId) (bs : List Publication) (b : Publication) :
    latest p (bs ++ [b]) = if b.descriptor.peer = p then some b else latest p bs := by
  rw [latest, List.filter_append]
  split
  · next h => simp [h]
  · next h => simp [h, latest]

theorem answers_append (c : Cache) (vs ws : List Visit) :
    c.answers (vs ++ ws) = c.answers vs ++ (c.run vs).answers ws := by
  induction vs generalizing c with
  | nil => rfl
  | cons v vs ih => rw [List.cons_append, answers, answers, run, ih, List.append_assoc]

theorem limit_publish (now : Time) (d : Descriptor) (lifetime : Time) (c : Cache) :
    (c.publish now d lifetime).1.limit = c.limit := by
  unfold publish
  split
  · rfl
  split
  · rfl
  split <;> rfl

theorem limit_run (c : Cache) (vs : List Visit) : (c.run vs).limit = c.limit := by
  induction vs generalizing c with
  | nil => rfl
  | cons v vs ih =>
    rw [run, ih, after]
    split
    · exact limit_publish _ _ _ c
    · rfl
    · rfl

theorem WellFormed.after (h : c.WellFormed) (v : Visit) : (c.after v).WellFormed := by
  unfold Cache.after
  split
  · exact h.publish _ _ _
  · exact h.purge _
  · exact h

theorem WellFormed.run (h : c.WellFormed) (vs : List Visit) : (c.run vs).WellFormed := by
  induction vs generalizing c with
  | nil => exact h
  | cons v vs ih => exact ih (h.after v)

def Recalls (now : Time) (bs : List Publication) (c : Cache) : Prop :=
  ∀ p, c.current now p = ((latest p bs).map (·.entry)).filter fun e => now < e.expiresAt

theorem current_of_le (h : now ≤ later) (c : Cache) (p : PeerId) :
    c.current later p = (c.current now p).filter fun e => later < e.expiresAt :=
  (filter_filter_of_le h).symm

theorem Recalls.mono (h : c.Recalls now bs) (hle : now ≤ later) : c.Recalls later bs := by
  intro p
  rw [current_of_le hle, h p, filter_filter_of_le hle]

theorem Recalls.purge (h : c.Recalls now bs) : (c.purge now).Recalls now bs := by
  intro p
  rw [current_purge (Nat.le_refl now), h p]

theorem Recalls.put (h : c.Recalls now bs) (d : Descriptor) (lifetime : Time) :
    (c.put now d lifetime).Recalls now (bs ++ [⟨now, d, lifetime⟩]) := by
  intro p
  rw [latest_concat, current, get?_put]
  by_cases hp : p = d.peer
  · simp [hp, Publication.entry]
  · rw [if_neg hp, if_neg (Ne.symm hp)]
    exact h p

theorem Recalls.after (h : c.Recalls v.now bs) (hwf : c.WellFormed) :
    (c.after v).Recalls v.now (bs ++ (c.publication? v).toList) := by
  obtain ⟨now, use⟩ := v
  cases use with
  | purge =>
    rw [publication?, Option.toList_none, List.append_nil]
    exact h.purge
  | list =>
    rw [publication?, Option.toList_none, List.append_nil]
    exact h
  | publish d lifetime =>
    have hp := published hwf now d lifetime
    simp only [Cache.after, publication?]
    generalize c.publish now d lifetime = x at hp
    cases hp with
    | fleeting => simpa using h
    | full => simpa using h
    | stored _ _ hold =>
      rcases hold with rfl | rfl
      · exact h.put d lifetime
      · exact h.purge.put d lifetime

theorem Recalls.run (h : c.Recalls now bs) (hwf : c.WellFormed) (hvs : InOrder vs)
    (hnow : ∀ v ∈ vs, now ≤ v.now) (hle : now ≤ later) (hlater : ∀ v ∈ vs, v.now ≤ later) :
    (c.run vs).Recalls later (bs ++ c.publications vs) := by
  induction vs generalizing c now bs with
  | nil => simpa [Cache.run, publications] using h.mono hle
  | cons v vs ih =>
    obtain ⟨hv, hvs⟩ := List.pairwise_cons.mp hvs
    obtain ⟨hnow, _⟩ := List.forall_mem_cons.mp hnow
    obtain ⟨hle, hlater⟩ := List.forall_mem_cons.mp hlater
    have hafter := (h.mono hnow).after hwf
    rw [publications, ← List.append_assoc]
    exact ih hafter (hwf.after v) hvs hv hle hlater

theorem answer?_purge (h : c.WellFormed) (hle : now ≤ v.now) :
    (c.purge now).answer? v = c.answer? v := by
  unfold answer?
  split
  · next d lifetime _ =>
    have hpublish := congrArg Prod.snd (publish_purge (h.purge now) v.now d lifetime)
    rw [purge_purge hle, publish_purge h] at hpublish
    rw [← hpublish]
  · rfl
  · rw [descriptors_purge hle]

theorem purge_after (h : c.WellFormed) (hle : now ≤ v.now) :
    ((c.purge now).after v).purge v.now = (c.after v).purge v.now := by
  unfold Cache.after
  split
  · next d lifetime _ =>
    have hpublish := congrArg Prod.fst (publish_purge (h.purge now) v.now d lifetime)
    rw [purge_purge hle, publish_purge h] at hpublish
    exact hpublish.symm
  · rw [purge_purge hle]
  · exact purge_purge hle c

theorem answers_purge (h : c.WellFormed) (hvs : InOrder vs) (hnow : ∀ v ∈ vs, now ≤ v.now) :
    (c.purge now).answers vs = c.answers vs := by
  induction vs generalizing c now with
  | nil => rfl
  | cons v vs ih =>
    obtain ⟨hv, hvs⟩ := List.pairwise_cons.mp hvs
    obtain ⟨hnow, _⟩ := List.forall_mem_cons.mp hnow
    rw [answers, answers, answer?_purge h hnow, ← ih ((h.purge now).after v) hvs hv,
      purge_after h hnow, ih (h.after v) hvs hv]

/-- Whatever a cache is put through, it never holds more than its limit, and it lists of every peer
the descriptor that was published last, until that expires. It is full for a peer that it does not
list when it lists as many others as it may hold. A publish that fails changes nothing, and a purge
between visits changes no answer. -/
theorem remembers_latest_publishes {limit : Nat} {vs : List Visit} {c : Cache}
    (hvs : InOrder vs) (hc : (withLimit limit).run vs = c) :
    c.size ≤ limit ∧
    (∀ now, (∀ v ∈ vs, v.now ≤ now) →
      ((c.descriptors now).map (·.peer)).Nodup ∧
      ∀ d, d ∈ c.descriptors now ↔
        ∃ b, latest d.peer ((withLimit limit).publications vs) = some b ∧ b.descriptor = d ∧
          now < b.moment + b.lifetime) ∧
    (∀ now d lifetime, (c.publish now d lifetime).2 = .error (.full limit) ↔
      0 < lifetime ∧ (∀ d' ∈ c.descriptors now, d'.peer ≠ d.peer) ∧
        limit ≤ (c.descriptors now).length) ∧
    (∀ now d lifetime e, (c.publish now d lifetime).2 = .error e →
      (c.publish now d lifetime).1 = c) ∧
    ∀ xs ys now, InOrder (xs ++ ⟨now, .purge⟩ :: ys) →
      (withLimit limit).answers (xs ++ ⟨now, .purge⟩ :: ys) =
        (withLimit limit).answers (xs ++ ys) := by
  have hempty : (withLimit limit).WellFormed := .withLimit limit
  have hwf : c.WellFormed := hc ▸ hempty.run vs
  have hlimit : c.limit = limit := hc ▸ limit_run _ vs
  refine ⟨hlimit ▸ hwf.size_le, ?_, ?_, fun _ _ _ _ he => fst_publish_of_error hwf he, ?_⟩
  · intro now hnow
    have hrecalls : c.Recalls now ((withLimit limit).publications vs) := by
      rw [← hc]
      have hstart : (withLimit limit).Recalls 0 [] := fun _ => rfl
      exact hstart.run hempty hvs (fun v _ => Nat.zero_le v.now) (Nat.zero_le now) hnow
    refine ⟨?_, fun d => ?_⟩
    · rw [hwf.map_peer_descriptors]
      exact Table.nodup_keys _
    · rw [hwf.mem_descriptors, hrecalls]
      simp only [Option.filter_eq_some_iff, Option.map_eq_some_iff, decide_eq_true_eq]
      constructor
      · rintro ⟨_, ⟨⟨b, hb, rfl⟩, hlt⟩, hd⟩
        exact ⟨b, hb, hd, hlt⟩
      · rintro ⟨b, hb, hd, hlt⟩
        exact ⟨b.entry, ⟨⟨b, hb, rfl⟩, hlt⟩, hd⟩
  · intro now d lifetime
    rw [← hlimit, publish_eq_full_iff hwf, hwf.crowded_iff]
  · intro xs ys now hpurge
    obtain ⟨_, hrest, _⟩ := List.pairwise_append.mp hpurge
    obtain ⟨hnow, hys⟩ := List.pairwise_cons.mp hrest
    rw [answers_append, answers_append]
    exact congrArg _ (answers_purge (hempty.run xs) hys hnow)

def turnover : List Visit :=
  [⟨0, .publish ⟨.filled 1, "first", []⟩ 10⟩, ⟨4, .publish ⟨.filled 1, "second", []⟩ 3⟩,
    ⟨5, .publish ⟨.filled 2, "other", []⟩ 9⟩]

theorem second_descriptor_is_the_one_that_counts :
    InOrder turnover ∧
    ⟨.filled 1, "second", []⟩ ∈ ((withLimit 1).run turnover).descriptors 6 ∧
    ((withLimit 1).run turnover).descriptors 7 = [] ∧
    ((withLimit 1).run turnover).publish 6 ⟨.filled 2, "other", []⟩ 9 =
      ((withLimit 1).run turnover, .error (.full 1)) ∧
    (withLimit 1).answers (turnover ++ [⟨8, .purge⟩, ⟨8, .publish ⟨.filled 2, "other", []⟩ 9⟩]) =
      (withLimit 1).answers (turnover ++ [⟨8, .publish ⟨.filled 2, "other", []⟩ 9⟩]) := by
  have horder : InOrder turnover := by simp [InOrder, turnover]
  have hlast : latest (.filled 1) ((withLimit 1).publications turnover) =
      some ⟨4, ⟨.filled 1, "second", []⟩, 3⟩ := by decide +kernel
  obtain ⟨_, hlisted, hfull, hfailed, hpurged⟩ := remembers_latest_publishes horder rfl
  have hsecond : ⟨.filled 1, "second", []⟩ ∈ ((withLimit 1).run turnover).descriptors 6 :=
    ((hlisted 6 (by simp [turnover])).2 _).mpr ⟨_, hlast, rfl, by decide⟩
  have herror : (((withLimit 1).run turnover).publish 6 ⟨.filled 2, "other", []⟩ 9).2 =
      .error (.full 1) :=
    (hfull 6 _ 9).mpr ⟨by decide, by decide +kernel, List.length_pos_of_mem hsecond⟩
  refine ⟨horder, hsecond, by decide +kernel, Prod.ext (hfailed 6 _ 9 _ herror) herror, ?_⟩
  exact hpurged turnover _ 8 (by simp [InOrder, turnover])

end Cache

end LeaseOverlay
