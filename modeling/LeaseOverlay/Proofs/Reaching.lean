import LeaseOverlay.Proofs.Connecting

namespace LeaseOverlay

/-- A lease request goes to the address, or to a peer that was said before to be there. -/
inductive Reaches (self : Descriptor) (a : String) : List Effect → Prop
  | directly (before after : List Effect) {moment : Time} {error : Option SendError} :
      Reaches self a
        (before ++ .sent moment (.address a) error (Control.request self).toMessage :: after)
  | byRoute (before after : List Effect) {moment : Time} {error : Option SendError} {r : Route}
      (told : .route r ∈ before) (listed : a ∈ r.addresses) :
      Reaches self a
        (before ++ .sent moment (.peer r.peer) error (Control.request self).toMessage :: after)

def Effect.mentions (a : String) : Effect → Bool
  | .sent _ dest _ _ => dest = .address a
  | .route r => r.addresses.contains a
  | _ => false

namespace Reaches

variable {self : Descriptor} {a : String} {es : List Effect}

theorem any_mentions (h : Reaches self a es) : es.any (·.mentions a) = true := by
  rw [List.any_eq_true]
  cases h with
  | directly _ _ => exact ⟨_, List.mem_append_right _ List.mem_cons_self, decide_eq_true rfl⟩
  | byRoute _ _ told listed =>
    exact ⟨_, List.mem_append_left _ told, List.contains_iff_mem.mpr listed⟩

theorem append (h : Reaches self a es) (sooner later : List Effect) :
    Reaches self a (sooner ++ es ++ later) := by
  cases h with
  | directly before after =>
    simpa using Reaches.directly (sooner ++ before) (after ++ later)
  | byRoute before after told listed =>
    simpa using Reaches.byRoute (sooner ++ before) (after ++ later)
      (List.mem_append_right sooner told) listed

end Reaches

namespace Candidate

variable {s : String} {c : Candidate}

theorem exists_address_of_parse (h : parse s = .ok c) :
    ∃ cs peer, isAddress cs = true ∧ c = ⟨String.ofList cs, peer, none⟩ := by
  rw [parse] at h
  split at h
  · next peer cs _ =>
    split at h
    · next haddress => exact ⟨cs, peer, haddress, (Except.ok.inj h).symm⟩
    · cases h
  · cases h

theorem route_of_parse (h : parse s = .ok c) : c.route = none := by
  obtain ⟨_, _, _, rfl⟩ := exists_address_of_parse h
  rfl

theorem address_ne_of_parse (h : parse s = .ok c) : c.address ≠ "" := by
  obtain ⟨cs, _, haddress, rfl⟩ := exists_address_of_parse h
  intro hempty
  have hnil : cs = [] := by simpa using hempty
  rw [hnil] at haddress
  exact Bool.noConfusion haddress

end Candidate

namespace Node

variable {env : Surroundings} {now : Time} {c : Candidate}

theorem trace_requestSeed {n : Node} (hopen : n.leaseStopped = false) (env : Surroundings)
    (now : Time) (c : Candidate) :
    (n.requestSeed env now c).1.trace = n.trace ++ n.asking env now c := by
  rw [requestSeed_eq hopen]
  simp [asked]

theorem reaches_hinted (n : Node) (r : Route) (a : String) :
    Reaches n.self a (n.asking env now { Candidate.ofRoute r with address := a }) ↔
      a ∈ r.addresses := by
  have hasking : n.asking env now { Candidate.ofRoute r with address := a } =
      [.route r, .sent now (.peer r.peer) (env.fault (.peer r.peer))
        (Control.request n.self).toMessage] := rfl
  rw [hasking]
  constructor
  · intro h
    simpa [Effect.mentions] using h.any_mentions
  · intro hlisted
    exact .byRoute [.route r] [] List.mem_cons_self hlisted

theorem reaches_parsed {s : String} (h : Candidate.parse s = .ok c) (n : Node) :
    Reaches n.self c.address (n.asking env now c) := by
  cases hpeer : c.peer with
  | none =>
    have hhint : c.hint = none := by rw [Candidate.hint, hpeer, Option.map_none]
    have hdest : c.destination = .address c.address := by rw [Candidate.destination, hpeer]
    rw [asking, hhint, hdest]
    exact .directly [] []
  | some q =>
    have hhint : c.hint = some ⟨q, [c.address]⟩ := by
      rw [Candidate.hint, hpeer, Candidate.route_of_parse h]
      simp [Candidate.address_ne_of_parse h]
    have hdest : c.destination = .peer q := by rw [Candidate.destination, hpeer]
    rw [asking, hhint, hdest]
    exact .byRoute [.route ⟨q, [c.address]⟩] [] List.mem_cons_self List.mem_cons_self

end Node

namespace EdgePeer

variable {p : EdgePeer} {s s' : Seeding} {address : String} {hint : Option Route}
  {c : Candidate} {cs : List Candidate} {t : Turn}

theorem reaches_supplied (h : supplied s address hint = some (c, s')) (hne : address ≠ "") :
    ∃ d, Candidate.parse address = .ok d ∧ ∀ (n : Node) env now,
      Reaches n.self d.address (n.asking env now c) ↔
        ∀ r, hint = some r → d.address ∈ r.addresses := by
  cases hint with
  | none =>
    simp only [supplied] at h
    split at h
    · cases h
    · next d hparse =>
      cases h
      exact ⟨c, hparse, fun n _ _ => iff_of_true (n.reaches_parsed hparse) fun _ hr => by cases hr⟩
  | some r =>
    simp only [supplied, String.isEmpty_iff, if_neg hne] at h
    split at h
    · cases h
    · next d hparse =>
      split at h
      · cases h
      · cases h
        refine ⟨d, hparse, fun n env now => ?_⟩
        rw [n.reaches_hinted]
        simp

theorem Poised.trace (h : p.Poised t c cs) (hmax : 0 < p.node.settings.maxAttempts)
    (hopen : (p.node.upkept t.env t.now).leaseStopped = false) (hdone : p.Completes t) :
    ((p.node.upkept t.env t.now).requestSeed t.env t.now c).1.trace <+:
      (p.after t).node.trace := by
  obtain ⟨ds, hbatch⟩ :=
    Node.exists_batch_cons h.queue h.free (settings_upkept p t ▸ hmax) t.now
  rw [Node.trace_requestSeed hopen, h.node,
    Node.bootstrap_of_fits h.ready t.now (.inr (h.fits hdone)), hbatch,
    Node.askAll_eq (by exact hopen)]
  refine ⟨ds.flatMap ((p.node.upkept t.env t.now).asking t.env t.now), ?_⟩
  rw [List.append_assoc]
  rfl

section New

variable {cfg : Config} {self : Descriptor} {seeds : Seeding} {cache : Cache}

/-- The request to a supplied seed reaches its address, unless a hint came with it that does not
list the address. The next cycle that finds room begins with this request. -/
theorem supplied_address_is_used_if_hint_lists_it
    (hp : EdgePeer.new cfg self seeds cache = .ok p) (ts : List Turn) {now : Time}
    (htaken : ((p.run ts).connect now address hint).2 = true) (hne : address ≠ "") :
    let x := ((p.run ts).connect now address hint).1
    ∃ c d, Candidate.parse address = .ok d ∧ x.node.queue.head? = some c ∧
      (∀ (n : Node) env moment, n.leaseStopped = false →
        ∃ es, (n.requestSeed env moment c).1.trace = n.trace ++ es ∧
          (Reaches n.self d.address es ↔ ∀ r, hint = some r → d.address ∈ r.addresses)) ∧
      ∀ us t, x.Waits us → (x.run us).Completes t → (x.run us).RoomFor t c.destination →
        (x.run us).node.leaseStopped = false →
        (((x.run us).node.upkept t.env t.now).requestSeed t.env t.now c).1.trace <+:
          ((x.run us).after t).node.trace := by
  intro x
  obtain ⟨c, s, hs, hafter⟩ := exists_supplied_of_connect htaken
  obtain ⟨d, hparse, hreaches⟩ := reaches_supplied hs hne
  have hqueue : x.node.queue =
      c :: (p.run ts).node.queue.filter (fun d => d.destination ≠ c.destination) := by
    rw [hafter]
    rfl
  refine ⟨c, d, hparse, by rw [hqueue, List.head?_cons], fun n env moment hopen => ?_, ?_⟩
  · exact ⟨_, Node.trace_requestSeed hopen env moment c, hreaches n env moment⟩
  intro us t hwaits hdone hroom hopen
  have ⟨report, hreport⟩ := hdone
  have hholds := holds_run hwaits (.inr hqueue)
  have hrun : x.run us = p.run (ts ++ ⟨{}, now, .connect address hint⟩ :: us) :=
    (run_append p ts (⟨{}, now, .connect address hint⟩ :: us)).symm
  rw [hrun] at hdone hreport hroom hopen hholds ⊢
  have hpoised :=
    poised_of_holds (orderly_run_of_new hp _) hholds hreport (by simp) (by simp) hroom
  have hopen' := (Node.leaseStopped_upkept (keyed_run_of_new hp _) t.env t.now).trans hopen
  refine hpoised.trace ?_ hopen' hdone
  rw [settings_run]
  exact maxAttempts_pos_of_new hp

end New

theorem listed_address_is_used :
    let x := (seeded fiveSeeds).connect 0 "udp://f" (some ⟨.filled 7, ["udp://g", "udp://f"]⟩)
    x.2 = true ∧ Reaches { peer := .filled 0 } "udp://f"
      ((x.1.run [⟨{}, 0, .start⟩]).after ⟨{}, 1, .tick⟩).node.trace := by
  intro x
  have htaken : x.2 = true := by decide +kernel
  obtain ⟨c, d, hparse, hhead, hrequest, hnext⟩ :=
    supplied_address_is_used_if_hint_lists_it (new_seeded fiveSeeds) [] htaken (by decide)
  have hd : d.address = "udp://f" := by
    have hplain : Candidate.parse "udp://f" = .ok (.ofAddress "udp://f") := by decide +kernel
    rw [← Except.ok.inj (hplain.symm.trans hparse)]
    rfl
  have hdest : c.destination = .peer (.filled 7) := by
    have hfront : x.1.node.queue.head?.map (·.destination) = some (.peer (.filled 7)) := by
      decide +kernel
    have hhead : x.1.node.queue.head? = some c := hhead
    rw [hhead] at hfront
    exact Option.some.inj hfront
  have hwaits : x.1.Waits [⟨{}, 0, .start⟩] :=
    .cons (fun _ _ h => by cases h) (fun _ h => by cases h) (.nil _)
  have hdone : (x.1.run [⟨{}, 0, .start⟩]).Completes ⟨{}, 1, .tick⟩ :=
    ⟨⟨0, 0, 0, 1⟩, by decide +kernel⟩
  have hroom : (x.1.run [⟨{}, 0, .start⟩]).RoomFor ⟨{}, 1, .tick⟩ c.destination := by
    rw [hdest]
    refine roomFor_of_hasCapacity (by decide +kernel) (fun q hq => ?_) _
    cases hq
    decide +kernel
  obtain ⟨rest, htrace⟩ := hnext _ _ hwaits hdone hroom (by decide +kernel)
  obtain ⟨es, hes, hreaches⟩ := hrequest
    ((x.1.run [⟨{}, 0, .start⟩]).node.upkept {} 1) {} 1 (by decide +kernel)
  rw [hd] at hreaches
  have hlisted : Reaches { peer := .filled 0 } "udp://f" es :=
    hreaches.mpr fun r hr => by simp [← Option.some.inj hr]
  have hreached := hlisted.append ((x.1.run [⟨{}, 0, .start⟩]).node.upkept {} 1).trace rest
  rw [← hes] at hreached
  exact ⟨htaken, htrace ▸ hreached⟩

def unsown : Seeding where
  kind := .uri
  owner := .filled 0
  configured := []
  given := []
  onlySeeds := false
  stopped := false

theorem unlisted_address_is_not_used :
    let x := (seeded unsown).connect 0 "udp://10.0.0.9:9700" (some ⟨.filled 3, []⟩)
    let y := (x.1.after ⟨{}, 0, .start⟩).after ⟨{}, 0, .tick⟩
    x.2 = true ∧
    y.node.trace = [.event 0 .becameEdge, .route ⟨.filled 3, []⟩,
      .sent 0 (.peer (.filled 3)) none (Control.request { peer := .filled 0 }).toMessage] ∧
    ¬Reaches { peer := .filled 0 } "udp://10.0.0.9:9700" y.node.trace := by
  intro x y
  have htrace : y.node.trace = [.event 0 .becameEdge, .route ⟨.filled 3, []⟩,
      .sent 0 (.peer (.filled 3)) none (Control.request { peer := .filled 0 }).toMessage] := by
    decide +kernel
  refine ⟨by decide +kernel, htrace, fun h => ?_⟩
  rw [htrace] at h
  simpa [Effect.mentions] using h.any_mentions

end EdgePeer

end LeaseOverlay
