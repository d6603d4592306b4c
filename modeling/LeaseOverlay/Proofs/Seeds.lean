import LeaseOverlay.Seeding

namespace LeaseOverlay

def Destination.isOf (d : Descriptor) : Destination → Bool
  | .peer p => p = d.peer
  | .address a => d.addresses.contains a

namespace Candidate

variable {c : Candidate} {d : Descriptor}

/-- A seed vouches for the peer that it names, or else for any peer at its address. -/
inductive Vouches (c : Candidate) (d : Descriptor) : Prop
  | peer (h : c.peer = some d.peer)
  | address (hp : c.peer = none) (ha : c.address ∈ d.addresses)

end Candidate

namespace Seeding

variable {s : Seeding} {seen : List Destination} {cs : List Candidate} {c : Candidate}
  {k : Destination} {d : Descriptor}

theorem mem_destinations_firsts :
    k ∈ (firsts seen cs).map (·.destination) ↔ k ∉ seen ∧ k ∈ cs.map (·.destination) := by
  induction cs generalizing seen with
  | nil => simp [firsts]
  | cons c cs ih =>
    rw [firsts]
    by_cases hc : c.destination ∈ seen
    · rw [if_pos hc, ih, List.map_cons, List.mem_cons]
      refine and_congr_right fun hk => ?_
      have hne : k ≠ c.destination := fun h => hk (h ▸ hc)
      simp [hne]
    · rw [if_neg hc, List.map_cons, List.mem_cons, ih, List.map_cons, List.mem_cons, List.mem_cons,
        not_or]
      by_cases hk : k = c.destination
      · simp [hk, hc]
      · simp [hk]

theorem nodup_firsts (seen : List Destination) (cs : List Candidate) :
    ((firsts seen cs).map (·.destination)).Nodup := by
  induction cs generalizing seen with
  | nil => exact List.nodup_nil
  | cons c cs ih =>
    rw [firsts]
    split
    · exact ih seen
    · have hnew : c.destination ∉
          (firsts (c.destination :: seen) cs).map (·.destination) := by
        rw [mem_destinations_firsts]
        exact fun h => h.1 List.mem_cons_self
      exact List.nodup_cons.mpr ⟨hnew, ih _⟩

theorem nodup_candidates (s : Seeding) (cache : Cache) (now : Time) :
    ((s.candidates cache now).map (·.destination)).Nodup := by
  unfold candidates
  split
  · exact List.nodup_nil
  · exact nodup_firsts _ _

theorem matchesSeed_iff : matchesSeed d c = true ↔ c.Vouches d := by
  unfold matchesSeed
  split
  · next p hp =>
    rw [decide_eq_true_eq]
    constructor
    · intro h
      exact .peer (hp.trans (congrArg some h))
    · rintro (h | ⟨hnone, _⟩)
      · exact Option.some.inj (hp.symm.trans h)
      · cases hp.symm.trans hnone
  · next hp =>
    rw [List.contains_iff_mem]
    constructor
    · exact .address hp
    · rintro (h | ⟨_, ha⟩)
      · cases hp.symm.trans h
      · exact ha

theorem matchesSeed_eq (d : Descriptor) (c : Candidate) :
    matchesSeed d c = c.destination.isOf d := by
  cases hp : c.peer <;> simp only [matchesSeed, Candidate.destination, Destination.isOf, hp]

theorem any_matchesSeed (cs : List Candidate) (d : Descriptor) :
    cs.any (matchesSeed d) = (cs.map (·.destination)).any (·.isOf d) := by
  rw [List.any_map]
  exact congrArg cs.any (funext (matchesSeed_eq d))

theorem any_seeds (s : Seeding) (d : Descriptor) :
    s.seeds.any (matchesSeed d) = (s.configured ++ s.given).any (matchesSeed d) := by
  rw [seeds, any_matchesSeed, any_matchesSeed, Bool.eq_iff_iff, List.any_eq_true, List.any_eq_true]
  simp only [mem_destinations_firsts, List.not_mem_nil, not_false_eq_true, true_and]

theorem accepts_eq (s : Seeding) (d : Descriptor) :
    s.accepts d = (!s.onlySeeds || (s.configured ++ s.given).any (matchesSeed d)) := by
  rw [accepts, any_seeds]

theorem accepts_add (s : Seeding) (c : Candidate) (d : Descriptor) :
    (s.add c).accepts d = (s.accepts d || matchesSeed d c) := by
  unfold add
  split
  · next h =>
    have hmem : c ∈ s.configured ++ s.given := List.mem_append.mpr h.symm
    cases hm : matchesSeed d c with
    | false => rw [Bool.or_false]
    | true =>
      have hany : (s.configured ++ s.given).any (matchesSeed d) = true :=
        List.any_eq_true.mpr ⟨c, hmem, hm⟩
      rw [accepts_eq, hany, Bool.or_true, Bool.or_true]
  · simp only [accepts_eq, List.any_append, List.any_cons, List.any_nil, Bool.or_false,
      Bool.or_assoc]

end Seeding

end LeaseOverlay
