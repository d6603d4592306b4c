import LeaseOverlay.Proofs.Remembrance
import LeaseOverlay.Proofs.Seeds

namespace LeaseOverlay

namespace Seeding

inductive Gift
  | route (r : Route)
  | address (text : String)

def Gift.candidate? : Gift → Option Candidate
  | route r => some (.ofRoute r)
  | address text => (Candidate.parse text).toOption

def give (s : Seeding) : Gift → Seeding
  | .route r => s.addRoute r
  | .address text => s.addAddress text

def giveAll : Seeding → List Gift → Seeding
  | s, [] => s
  | s, g :: gs => giveAll (s.give g) gs

def sameDestination (c d : Candidate) : Bool := c.destination = d.destination

variable {s : Seeding} {seen seen' : List Destination} {cs ds : List Candidate} {c : Candidate}
  {g : Gift} {gs : List Gift} {cache : Cache} {now : Time}

theorem firsts_eq (seen : List Destination) (cs : List Candidate) :
    firsts seen cs = (cs.filter fun c => c.destination ∉ seen).eraseDupsBy sameDestination := by
  induction cs generalizing seen with
  | nil => rfl
  | cons c cs ih =>
    rw [firsts]
    split
    · next h => rw [ih, List.filter_cons_of_neg (by simpa using h)]
    · next h =>
      rw [ih, List.filter_cons_of_pos (by simpa using h), List.eraseDupsBy_cons, List.filter_filter]
      simp [sameDestination, not_or]

theorem firsts_congr (h : ∀ k, k ∈ seen ↔ k ∈ seen') (cs : List Candidate) :
    firsts seen cs = firsts seen' cs := by
  rw [firsts_eq, firsts_eq]
  simp only [h]

theorem firsts_append (seen : List Destination) (cs ds : List Candidate) :
    firsts seen (cs ++ ds) = firsts seen cs ++ firsts (cs.map (·.destination) ++ seen) ds := by
  induction cs generalizing seen with
  | nil => rfl
  | cons c cs ih =>
    rw [List.cons_append, firsts, firsts, List.map_cons]
    split
    · next h =>
      have hknown : firsts (cs.map (·.destination) ++ seen) ds =
          firsts (c.destination :: cs.map (·.destination) ++ seen) ds := by
        refine firsts_congr (fun k => ?_) ds
        rw [List.cons_append, List.mem_cons, or_iff_right_of_imp]
        rintro rfl
        exact List.mem_append_right _ h
      rw [ih, hknown]
    · have hmoved : firsts (cs.map (·.destination) ++ c.destination :: seen) ds =
          firsts (c.destination :: cs.map (·.destination) ++ seen) ds :=
        firsts_congr (fun k => List.perm_middle.mem_iff) ds
      rw [ih, hmoved]
      rfl

theorem firsts_of_nodup (h : (cs.map (·.destination)).Nodup) (seen : List Destination) :
    firsts seen cs = cs.filter fun c => c.destination ∉ seen := by
  induction cs generalizing seen with
  | nil => rfl
  | cons c cs ih =>
    obtain ⟨hc, hcs⟩ := List.nodup_cons.mp h
    rw [firsts]
    split
    · next hseen => rw [ih hcs, List.filter_cons_of_neg (by simpa using hseen)]
    · next hseen =>
      rw [ih hcs, List.filter_cons_of_pos (by simpa using hseen)]
      refine congrArg (c :: ·) (List.filter_congr fun d hd => ?_)
      have hne : d.destination ≠ c.destination := fun heq => hc (List.mem_map.mpr ⟨d, hd, heq⟩)
      simp [hne]

theorem nodup_seeds (s : Seeding) : (s.seeds.map (·.destination)).Nodup := nodup_firsts _ _

theorem mem_destinations_seeds {k : Destination} :
    k ∈ s.seeds.map (·.destination) ↔ k ∈ (s.configured ++ s.given).map (·.destination) := by
  rw [seeds, mem_destinations_firsts]
  simp

theorem seeds_add (s : Seeding) (c : Candidate) :
    (s.add c).seeds =
      if c.destination ∈ s.seeds.map (·.destination) then s.seeds else s.seeds ++ [c] := by
  rw [add]
  split
  · next h =>
    have hmem : c ∈ s.configured ++ s.given := List.mem_append.mpr h.symm
    rw [if_pos (mem_destinations_seeds.mpr (List.mem_map_of_mem hmem))]
  · have hlast : firsts ((s.configured ++ s.given).map (·.destination) ++ []) [c] =
        if c.destination ∈ s.seeds.map (·.destination) then [] else [c] := by
      simp only [List.append_nil, firsts, mem_destinations_seeds]
    rw [seeds, ← List.append_assoc, firsts_append, hlast, seeds]
    split <;> simp

theorem give_eq (s : Seeding) (g : Gift) : s.give g = (g.candidate?.map s.add).getD s := by
  cases g with
  | route r => rfl
  | address text =>
    rw [give, addAddress, Gift.candidate?]
    cases Candidate.parse text <;> rfl

theorem add_eq (s : Seeding) (c : Candidate) : ∃ cs, s.add c = { s with given := cs } := by
  unfold add
  split
  · exact ⟨s.given, rfl⟩
  · exact ⟨_, rfl⟩

theorem exists_giveAll_eq (s : Seeding) (gs : List Gift) :
    ∃ cs, s.giveAll gs = { s with given := cs } := by
  induction gs generalizing s with
  | nil => exact ⟨s.given, rfl⟩
  | cons g gs ih =>
    obtain ⟨cs, hgive⟩ : ∃ cs, s.give g = { s with given := cs } := by
      rw [give_eq]
      cases g.candidate? with
      | none => exact ⟨s.given, rfl⟩
      | some c => exact s.add_eq c
    obtain ⟨ds, hrest⟩ := ih (s.give g)
    exact ⟨ds, by rw [giveAll, hrest, hgive]⟩

inductive Grows (cs : List Candidate) (g : Gift) : List Candidate → Prop
  | gains {c : Candidate} (valid : g.candidate? = some c)
      (new : c.destination ∉ cs.map (·.destination)) : Grows cs g (cs ++ [c])
  | keeps (vain : ∀ c, g.candidate? = some c → c.destination ∈ cs.map (·.destination)) :
      Grows cs g cs

theorem grows_seeds (s : Seeding) (g : Gift) : Grows s.seeds g (s.give g).seeds := by
  rw [give_eq]
  cases hg : g.candidate? with
  | none => exact .keeps fun c hc => by cases hg.symm.trans hc
  | some c =>
    have hadd : ((some c).map s.add).getD s = s.add c := rfl
    rw [hadd, seeds_add]
    split
    · next h => exact .keeps fun d hd => Option.some.inj (hg.symm.trans hd) ▸ h
    · next h => exact .gains hg h

def fallback (s : Seeding) : Seeding := { s with kind := .uri }

def known (s : Seeding) (cache : Cache) (now : Time) : List Descriptor :=
  (cache.descriptors now).filter fun d => d.peer ≠ s.owner && s.accepts d

theorem candidates_fallback (h : s.stopped = false) (cache : Cache) (now : Time) :
    s.fallback.candidates cache now = s.seeds := by
  have hopen : ¬s.fallback.stopped = true := by simp [fallback, h]
  rw [candidates, if_neg hopen]
  exact (firsts_of_nodup s.nodup_seeds []).trans (List.filter_eq_self.mpr fun c _ => by simp)

theorem nodup_known (h : cache.WellFormed) (s : Seeding) (now : Time) :
    ((s.known cache now).map (·.peer)).Nodup := by
  have hpeers : ((cache.descriptors now).map (·.peer)).Nodup := by
    rw [h.map_peer_descriptors]
    exact Table.nodup_keys _
  exact hpeers.sublist (List.filter_sublist.map _)

theorem mem_known {d : Descriptor} (h : cache.WellFormed) :
    d ∈ s.known cache now ↔
      (∃ e, cache.entries.get? d.peer = some e ∧ now < e.expiresAt ∧ e.descriptor = d) ∧
        d.peer ≠ s.owner ∧ s.accepts d = true := by
  rw [known, List.mem_filter, h.mem_descriptors]
  simp only [Cache.current, Option.filter_eq_some_iff, decide_eq_true_eq, Bool.and_eq_true,
    and_assoc]

theorem candidates_cache (hkind : s.kind = .cache) (hopen : s.stopped = false)
    (h : cache.WellFormed) (now : Time) :
    s.candidates cache now = (s.known cache now).map (fun d => .ofRoute d.route) ++
      (s.seeds.filter fun c => c.destination ∉ (s.known cache now).map fun d => .peer d.peer) := by
  have hremembered : s.remembered cache now =
      (s.known cache now).map fun d => .ofRoute d.route := by
    rw [remembered, hkind]
    rfl
  have hdests : ((s.known cache now).map fun d => Candidate.ofRoute d.route).map (·.destination) =
      (s.known cache now).map fun d => .peer d.peer := List.map_map
  have hnodup : ((s.known cache now).map fun d => Destination.peer d.peer).Nodup := by
    have hpeers := (nodup_known h s now).map (f := Destination.peer) fun p q => Destination.peer.inj
    rwa [List.map_map] at hpeers
  rw [candidates, hopen, if_neg Bool.false_ne_true, hremembered, firsts_append,
    firsts_of_nodup (hdests ▸ hnodup), firsts_of_nodup s.nodup_seeds, List.append_nil, hdests]
  congr 1
  exact List.filter_eq_self.mpr fun c _ => by simp

theorem firsts_configured_prefix (s : Seeding) :
    s.configured.eraseDupsBy sameDestination <+: s.seeds := by
  have hall : firsts [] s.configured = s.configured.eraseDupsBy sameDestination := by
    rw [firsts_eq]
    simp
  rw [seeds, firsts_append, hall]
  exact List.prefix_append _ _

/-- Without the cache, the list of candidates has every destination once. It begins with the first
configured seed of each destination, and a gift that is valid and brings a new destination comes to
its end, while any other gift is in vain. With the cache, peers stand in front that it remembers and
that are acceptable, each once, and the seeds follow that lead elsewhere. Once stopped, there are no
candidates, whatever is given. -/
theorem seed_list_grows_at_its_end {kind : SeedingKind} {owner : PeerId} {uris : List String}
    {onlySeeds : Bool} {s₀ : Seeding} (h : ofUris kind owner uris onlySeeds = .ok s₀)
    (gs : List Gift) (limit : Nat) (vs : List Cache.Visit) (now : Time) :
    let s := s₀.giveAll gs
    let cache := (Cache.withLimit limit).run vs
    let list := s.fallback.candidates cache now
    (list.map (·.destination)).Nodup ∧
    (∃ cs, uris.mapM Candidate.parse = .ok cs ∧ cs.eraseDupsBy sameDestination <+: list) ∧
    (∀ g, Grows list g ((s.give g).fallback.candidates cache now)) ∧
    (kind = .uri → s.candidates cache now = list) ∧
    (kind = .cache →
      ((s.candidates cache now).map (·.destination)).Nodup ∧
      ((s.known cache now).map (·.peer)).Nodup ∧
      (∀ d, d ∈ s.known cache now ↔
        (∃ e, cache.entries.get? d.peer = some e ∧ now < e.expiresAt ∧ e.descriptor = d) ∧
          d.peer ≠ owner ∧ s.accepts d = true) ∧
      s.candidates cache now = (s.known cache now).map (fun d => .ofRoute d.route) ++
        list.filter fun c => c.destination ∉ (s.known cache now).map fun d => .peer d.peer) ∧
    ∀ later, (s.stop.giveAll later).candidates cache now = [] := by
  intro s cache list
  obtain ⟨cs, hparse, rfl⟩ : ∃ cs, uris.mapM Candidate.parse = .ok cs ∧
      ⟨kind, owner, cs, [], onlySeeds, false⟩ = s₀ := by
    unfold ofUris at h
    cases hparse : uris.mapM Candidate.parse with
    | error e =>
      rw [hparse] at h
      cases h
    | ok cs =>
      rw [hparse] at h
      exact ⟨cs, rfl, Except.ok.inj h⟩
  obtain ⟨ds, hs⟩ : ∃ ds, s = ⟨kind, owner, cs, ds, onlySeeds, false⟩ := exists_giveAll_eq _ gs
  have hwf : cache.WellFormed := (Cache.WellFormed.withLimit limit).run vs
  have hopen : s.stopped = false := by rw [hs]
  have hlist : list = s.seeds := candidates_fallback hopen cache now
  refine ⟨hlist ▸ s.nodup_seeds, ⟨cs, hparse, ?_⟩, fun g => ?_, ?_, ?_, fun later => ?_⟩
  · have hconfigured : s.configured = cs := by rw [hs]
    rw [hlist, ← hconfigured]
    exact s.firsts_configured_prefix
  · have hgiven : (s.give g).stopped = false := by
      obtain ⟨_, hgive⟩ := exists_giveAll_eq s [g]
      exact (congrArg stopped hgive).trans hopen
    rw [hlist, candidates_fallback hgiven]
    exact s.grows_seeds g
  · rintro rfl
    have hsame : s.fallback = s := by rw [hs]; rfl
    exact congrArg (candidates · cache now) hsame.symm
  · rintro rfl
    have howner : s.owner = owner := by rw [hs]
    have hkind : s.kind = .cache := by rw [hs]
    refine ⟨s.nodup_candidates cache now, nodup_known hwf s now, fun d => ?_, ?_⟩
    · rw [mem_known hwf, howner]
    · rw [hlist]
      exact candidates_cache hkind hopen hwf now
  · obtain ⟨_, hlater⟩ := exists_giveAll_eq s.stop later
    rw [hlater]
    rfl

def repetitive : Seeding :=
  ⟨.cache, .filled 9, ["udp://a", "udp://b", "udp://a"].map .ofAddress, [], false, false⟩

def repeatedGifts : List Gift :=
  [.route ⟨.filled 1, ["udp://c"]⟩, .address "nowhere", .address "udp://b",
    .route ⟨.filled 1, ["udp://d"]⟩]

def neighbours : List Cache.Visit :=
  [⟨0, .publish ⟨.filled 1, "seed", []⟩ 10⟩, ⟨0, .publish ⟨.filled 2, "other", []⟩ 10⟩,
    ⟨0, .publish ⟨.filled 9, "owner", []⟩ 10⟩, ⟨0, .publish ⟨.filled 3, "brief", []⟩ 4⟩]

theorem cached_peers_stand_in_front :
    ofUris .cache (.filled 9) ["udp://a", "udp://b", "udp://a"] false = .ok repetitive ∧
    ((repetitive.giveAll repeatedGifts).candidates ((Cache.withLimit 8).run neighbours) 5).map
      (·.destination) =
        [.peer (.filled 1), .peer (.filled 2), .address "udp://a", .address "udp://b"] ∧
    ((repetitive.giveAll repeatedGifts).fallback.candidates ((Cache.withLimit 8).run neighbours)
      5).map (·.destination) = [.address "udp://a", .address "udp://b", .peer (.filled 1)] ∧
    ((repetitive.giveAll repeatedGifts).stop.addAddress "udp://e").candidates
      ((Cache.withLimit 8).run neighbours) 5 = [] := by
  have hs : ofUris .cache (.filled 9) ["udp://a", "udp://b", "udp://a"] false = .ok repetitive := by
    decide +kernel
  obtain ⟨_, _, _, _, hcache, hstopped⟩ :=
    seed_list_grows_at_its_end hs repeatedGifts 8 neighbours 5
  obtain ⟨_, _, _, hlist⟩ := hcache rfl
  refine ⟨hs, ?_, by decide +kernel, hstopped [.address "udp://e"]⟩
  rw [hlist]
  decide +kernel

end Seeding

end LeaseOverlay
