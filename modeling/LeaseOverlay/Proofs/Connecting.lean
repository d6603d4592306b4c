import LeaseOverlay.Proofs.Discipline
import LeaseOverlay.Proofs.Draining
import LeaseOverlay.Proofs.Shutdown

namespace LeaseOverlay

def Change.Wanes : Change → Prop
  | told _ | expired .. => True
  | _ => False

namespace Registry

variable {r s t : Registry}

structure Within (s r : Registry) : Prop where
  contains : ∀ q, s.contains q = true → r.contains q = true
  hasCapacity : r.hasCapacity = true → s.hasCapacity = true

theorem Within.refl (r : Registry) : r.Within r := ⟨fun _ => id, id⟩

theorem Within.trans (h : t.Within s) (h' : s.Within r) : t.Within r :=
  ⟨fun q hq => h'.contains q (h.contains q hq), fun hr => h.hasCapacity (h'.hasCapacity hr)⟩

theorem within_remove (r : Registry) (p : PeerId) : (r.remove p).Within r := by
  constructor
  · intro q hq
    rw [← mem_members, members_remove] at hq
    exact mem_members.mp (Finset.mem_of_mem_erase hq)
  · intro hroom
    have hsize : r.size < r.capacity := of_decide_eq_true hroom
    exact decide_eq_true (Nat.lt_of_le_of_lt (size_remove_le r p) hsize)

theorem within_of_books {cs : List Change} (hb : Books r cs s) (h : ∀ c ∈ cs, c.Wanes) :
    s.Within r := by
  induction hb with
  | nil r => exact .refl r
  | @cons r _ c _ _ _ ih =>
    refine (ih fun c hc => h c (List.mem_cons_of_mem _ hc)).trans ?_
    have hc := h c List.mem_cons_self
    cases c with
    | told e => exact .refl r
    | expired now p due => exact r.within_remove p
    | _ => exact hc.elim

end Registry

def Agenda.Holds (cs : List Candidate) (a : Agenda) : Prop :=
  a.bootstrapStopped = true ∨ a.queue = cs

namespace Node

variable {n : Node} {env : Surroundings} {now : Time} {c : Candidate} {cs : List Candidate}

theorem lineup_of_queue (h : n.queue = c :: cs) (now : Time) : n.lineup now = c :: cs := by
  simp [lineup, h]

theorem exists_batch_cons (h : n.queue = c :: cs) (hfree : c.free n.registry.contains = true)
    (hmax : 0 < n.settings.maxAttempts) (now : Time) : ∃ ds, (n.batch now).1 = c :: ds := by
  refine ⟨(cs.filter (·.free n.registry.contains)).take (n.settings.maxAttempts - 1), ?_⟩
  rw [batch, takeBatch_fst, lineup_of_queue h, List.filter_cons_of_pos hfree,
    List.take_cons hmax]

theorem head?_requested (hready : n.Ready env) (h : n.queue = c :: cs)
    (hfree : c.free n.registry.contains = true) (hmax : 0 < n.settings.maxAttempts) (now : Time) :
    (n.requested env now).head? =
      if n.leaseStopped = false ∧ n.settings.maxAttempts ≤ batchLimit then
        some (c.destination, env.fault c.destination)
      else none := by
  by_cases hfits : n.settings.maxAttempts ≤ batchLimit
  · obtain ⟨ds, hbatch⟩ := exists_batch_cons h hfree hmax now
    rw [requested_eq hready now (.inr hfits), hbatch, posted]
    cases n.leaseStopped <;> simp [hfits]
  · obtain ⟨hnone, _⟩ := bootstrap_of_vast hready (Nat.lt_of_not_le hfits) now
    simp [hnone, hfits]

theorem idles_or_works (env : Surroundings) (now : Time) (n : Node) :
    ((n.cycle env now).1 = n ∧
      ((n.cycle env now).2 = .skipped ∨ (n.cycle env now).2 = .notReady)) ∨
    (n.monitorStopped = false ∧ env.routingReady = true ∧
      (n.cycle env now).2 ≠ .skipped ∧ (n.cycle env now).2 ≠ .notReady) := by
  cases hgoing : n.monitorStopped with
  | true => exact .inl (by simp [cycle, hgoing])
  | false =>
  cases hready : env.routingReady with
  | false => exact .inl (by simp [cycle, hgoing, hready])
  | true =>
    obtain ⟨r, heq⟩ := cycle_of_ready hgoing hready now
    rw [heq]
    split <;> exact .inr ⟨rfl, rfl, by simp, by simp⟩

theorem fits_of_completed {report : CycleReport} (hready : (n.upkept env now).Ready env)
    (hq : (n.upkept env now).queue = c :: cs) (h : (n.cycle env now).2 = .completed report) :
    n.settings.maxAttempts ≤ batchLimit := by
  obtain ⟨_, hboot⟩ := bootstrap_of_completed (Prod.ext rfl h)
  have hmax : (n.upkept env now).settings = n.settings :=
    congrArg Agenda.settings (n.agenda_upkept env now)
  rcases bootstrap_of_ready hready now with ⟨_, _, heq⟩ | ⟨hdry | hfits, _⟩
  · have hnone := congrArg Prod.snd (hboot.symm.trans heq)
    cases hnone
  · simp [lineup_of_queue hq] at hdry
  · rwa [hmax] at hfits

theorem within_upkept (env : Surroundings) (now : Time) (n : Node) :
    (n.upkept env now).registry.Within n.registry := by
  have hq : Quiet n.self.peer Change.Wanes := fun _ _ _ => trivial
  have hbooked : n.Booked Change.Wanes (tendAll env now n {} n.registry.connections).1 :=
    booked_tendAll hq (fun _ => trivial) n {} _
  obtain ⟨cs, a, hcs⟩ := hbooked
  exact Registry.within_of_books a.books hcs

theorem leaseStopped_upkept (hk : n.registry.Keyed) (env : Surroundings) (now : Time) :
    (n.upkept env now).leaseStopped = n.leaseStopped := by
  obtain ⟨_, ⟨_, _, _, heq, _⟩, _⟩ := exists_tends_upkept hk env now
  rw [heq]

end Node

theorem Config.attempts_pos_of_validate {c : Config} {u : Unit} (h : c.validate = .ok u) :
    0 < c.rendezvous.maxSeedAttemptsPerCycle := by
  unfold validate at h
  split at h
  · cases h
  split at h
  · cases h
  split at h
  · cases h
  · next hne => exact Nat.pos_of_ne_zero hne

namespace EdgePeer

def Proper (address : String) (hint : Option Route) : Prop :=
  (∃ c, Candidate.parse address = .ok c ∧ ∀ r, hint = some r → ∀ q, c.peer = some q → q = r.peer) ∨
  (address = "" ∧ hint.isSome = true)

def sought? (address : String) : Option Route → Option Destination
  | some r => some (.peer r.peer)
  | none => (Candidate.parse address).toOption.map fun c =>
    match c.peer with
    | some q => .peer q
    | none => .address c.address

variable {p : EdgePeer} {s s' : Seeding} {address : String} {hint : Option Route} {c : Candidate}
  {now : Time} {t : Turn} {ts : List Turn}

theorem supplied_isSome_iff : (supplied s address hint).isSome = true ↔ Proper address hint := by
  unfold Proper
  cases hint with
  | none =>
    simp only [supplied]
    split <;> next h => simp [h]
  | some r =>
    simp only [supplied]
    split
    · next h => simp [String.isEmpty_iff.mp h]
    next hne =>
    rw [String.isEmpty_iff] at hne
    split
    · next h => simp [h, hne]
    · next d h =>
      cases hd : d.peer with
      | none => simp [h, hd]
      | some q => by_cases hq : q = r.peer <;> simp [h, hd, hq, hne]

theorem sought?_of_supplied (h : supplied s address hint = some (c, s')) :
    sought? address hint = some c.destination := by
  cases hint with
  | some r =>
    simp only [supplied] at h
    split at h
    · cases h
      rfl
    split at h
    · cases h
    split at h
    · cases h
    · cases h
      rfl
  | none =>
    simp only [supplied] at h
    split at h
    · cases h
    · next d hparse =>
      cases h
      rw [sought?, hparse]
      rfl

theorem connect_cases (now : Time) (p : EdgePeer) (address : String) (hint : Option Route) :
    (¬(p.node.leaseStopped = false ∧ Proper address hint) ∧
      p.connect now address hint = (p, false)) ∨
    ∃ c s, p.node.leaseStopped = false ∧ supplied p.node.seeding address hint = some (c, s) ∧
      p.connect now address hint =
        (kick now { p with node := { p.node with seeding := s }.enqueueFront c }, true) := by
  rw [← supplied_isSome_iff (s := p.node.seeding)]
  unfold connect
  split
  · next hstopped => exact .inl ⟨by simp [hstopped], rfl⟩
  next hopen =>
  split
  · next hnone => exact .inl ⟨by simp [hnone], rfl⟩
  · next c s hs => exact .inr ⟨c, s, by simpa using hopen, hs, rfl⟩

theorem connect_snd_iff :
    (p.connect now address hint).2 = true ↔ p.node.leaseStopped = false ∧ Proper address hint := by
  rcases connect_cases now p address hint with ⟨hno, heq⟩ | ⟨c, s, hopen, hs, heq⟩
  · rw [heq]
    exact iff_of_false Bool.false_ne_true hno
  · rw [heq]
    exact iff_of_true rfl ⟨hopen, supplied_isSome_iff.mp (Option.isSome_of_eq_some hs)⟩

theorem connect_of_refused (h : (p.connect now address hint).2 = false) :
    (p.connect now address hint).1 = p := by
  rcases connect_cases now p address hint with ⟨_, heq⟩ | ⟨c, s, _, _, heq⟩
  · rw [heq]
  · rw [heq] at h
    cases h

theorem exists_supplied_of_connect (h : (p.connect now address hint).2 = true) :
    ∃ c s, supplied p.node.seeding address hint = some (c, s) ∧
      (p.connect now address hint).1.node = { p.node with seeding := s }.enqueueFront c := by
  rcases connect_cases now p address hint with ⟨_, heq⟩ | ⟨c, s, _, hs, heq⟩
  · rw [heq] at h
    cases h
  · exact ⟨c, s, hs, by rw [heq, kick_node]⟩

/-- Meanwhile no seed is supplied, and no cycle comes to its bootstrap. -/
inductive Waits : EdgePeer → List Turn → Prop
  | nil (p : EdgePeer) : Waits p []
  | cons {p : EdgePeer} {t : Turn} {ts : List Turn}
      (seed : ∀ address hint, t.action ≠ .connect address hint)
      (cycle : ∀ o, p.outcome? t = some o → o = .skipped ∨ o = .notReady)
      (rest : Waits (p.after t) ts) : Waits p (t :: ts)

theorem holds_after {cs : List Candidate} (seed : ∀ address hint, t.action ≠ .connect address hint)
    (cycle : ∀ o, p.outcome? t = some o → o = .skipped ∨ o = .notReady)
    (h : p.node.agenda.Holds cs) : (p.after t).node.agenda.Holds cs := by
  have hcycled {o : CycleOutcome} (ho : p.outcome? t = some o) :
      (p.after t).node.agenda.Holds cs := by
    obtain ⟨hnode, rfl⟩ := cycle_of_outcome? ho
    rcases p.node.idles_or_works t.env t.now with ⟨hsame, _⟩ | ⟨_, _, hskip, hwait⟩
    · rwa [hnode, hsame]
    · exact ((cycle _ ho).elim hskip hwait).elim
  cases hc : t.action.concernsAgenda with
  | false => rwa [agenda_after hc]
  | true =>
    obtain ⟨env, now, a⟩ := t
    cases a with
    | stop =>
      by_cases hs : p.lifecycle = .stopped
      · simpa only [after, act, stop_of_stopped hs] using h
      · simp only [after, act, stop_of_ne hs]
        exact .inl rfl
    | connect address hint => exact absurd rfl (seed address hint)
    | addSeedRoute r => exact h
    | addSeedAddress address => exact h
    | cycle => exact hcycled rfl
    | tick =>
      cases hd : p.dueCycle now with
      | none => simpa only [after, act, tick, hd] using h
      | some due =>
        have ho : p.outcome? ⟨env, now, .tick⟩ = some (p.node.cycle env now).2 := by
          simp only [outcome?, hd, Option.map_some]
        exact hcycled ho
    | _ => cases hc

theorem holds_run {cs : List Candidate} (hw : p.Waits ts) (h : p.node.agenda.Holds cs) :
    (p.run ts).node.agenda.Holds cs := by
  induction hw with
  | nil => exact h
  | cons seed cycle _ ih => exact ih (holds_after seed cycle h)

theorem lifecycle_after_ne (h : p.lifecycle ≠ .stopped) (ha : t.action ≠ .stop) :
    (p.after t).lifecycle ≠ .stopped := by
  obtain ⟨env, now, a⟩ := t
  cases a with
  | start =>
    simp only [after, act, start]
    split
    · exact fun hs => by cases hs
    · exact h
  | stop => exact absurd rfl ha
  | connect address hint =>
    simp only [after, act, connect]
    split
    · exact h
    split
    · exact h
    · unfold kick
      split
      · exact fun hs => by cases hs
      · exact h
  | tick =>
    simp only [after, act, tick]
    split
    · exact fun hs => by cases hs
    · exact h
  | _ => exact h

theorem stopped_or_live_run (hp : p.lifecycle ≠ .stopped) (hn : p.node.Live)
    (h : ∀ t ∈ ts, t.action ≠ .stopLease ∧ t.action ≠ .brace) :
    (p.run ts).Stopped ∨ ((p.run ts).lifecycle ≠ .stopped ∧ (p.run ts).node.Live) := by
  induction ts generalizing p with
  | nil => exact .inr ⟨hp, hn⟩
  | cons t ts ih =>
    obtain ⟨hlease, hbrace⟩ := h t List.mem_cons_self
    by_cases hs : t.action = .stop
    · have hstop : (p.after t).Stopped := by
        rw [after, hs]
        exact stopped_stop hp t.env t.now
      exact .inl (stopped_run hstop ts)
    · have hlive : (p.after t).node.Live := by
        refine (booked_after p t).live ?_ hn
        rintro (ha | ha | ha)
        · exact hs ha
        · exact hlease ha
        · exact hbrace ha
      exact ih (lifecycle_after_ne hp hs) hlive fun u hu => h u (List.mem_cons_of_mem _ hu)

theorem leaseStopped_run_iff (hp : p.lifecycle ≠ .stopped) (hn : p.node.Live)
    (h : ∀ t ∈ ts, t.action ≠ .stopLease ∧ t.action ≠ .brace) :
    (p.run ts).node.leaseStopped = true ↔ (p.run ts).lifecycle = .stopped := by
  rcases stopped_or_live_run hp hn h with hs | ⟨hrunning, hlive⟩
  · exact iff_of_true hs.lease hs.lifecycle
  · exact iff_of_false (by simp [hlive.1]) hrunning

/-- When the cycle of the turn comes to its bootstrap, there is room for a lease and `dest` holds
none. -/
structure RoomFor (p : EdgePeer) (t : Turn) (dest : Destination) : Prop where
  room : (p.node.upkept t.env t.now).registry.hasCapacity = true
  free : ∀ q, dest = .peer q → (p.node.upkept t.env t.now).registry.contains q = false

theorem roomFor_of_hasCapacity {dest : Destination} (hroom : p.node.registry.hasCapacity = true)
    (hfree : ∀ q, dest = .peer q → p.node.registry.contains q = false) (t : Turn) :
    p.RoomFor t dest := by
  have hwithin := p.node.within_upkept t.env t.now
  refine ⟨hwithin.hasCapacity hroom, fun q hq => ?_⟩
  rw [Bool.eq_false_iff]
  intro hin
  exact Bool.noConfusion ((hfree q hq).symm.trans (hwithin.contains q hin))

/-- Of all candidates, the bootstrap of the turn asks `dest` first, if it asks any. -/
structure AsksFirst (p : EdgePeer) (t : Turn) (dest : Destination) : Prop where
  node : (p.after t).node = ((p.node.upkept t.env t.now).bootstrap t.env t.now).1
  only : ∀ r, ((p.node.upkept t.env t.now).requested t.env t.now).head? = some r →
    r = (dest, t.env.fault dest)
  asked : p.node.leaseStopped = false → p.Completes t →
    ((p.node.upkept t.env t.now).requested t.env t.now).head? = some (dest, t.env.fault dest)

structure Poised (p : EdgePeer) (t : Turn) (c : Candidate) (cs : List Candidate) : Prop where
  node : (p.after t).node = ((p.node.upkept t.env t.now).bootstrap t.env t.now).1
  ready : (p.node.upkept t.env t.now).Ready t.env
  queue : (p.node.upkept t.env t.now).queue = c :: cs
  free : c.free (p.node.upkept t.env t.now).registry.contains = true

theorem poised_of_holds {cs : List Candidate} {o : CycleOutcome}
    (horderly : p.node.agenda.Orderly) (hholds : p.node.agenda.Holds (c :: cs))
    (ho : p.outcome? t = some o) (hskip : o ≠ .skipped) (hwait : o ≠ .notReady)
    (hroom : p.RoomFor t c.destination) : p.Poised t c cs := by
  obtain ⟨hnode, rfl⟩ := cycle_of_outcome? ho
  obtain ⟨hgoing, hup⟩ : p.node.monitorStopped = false ∧ t.env.routingReady = true := by
    rcases p.node.idles_or_works t.env t.now with ⟨_, hidle⟩ | ⟨hgoing, hup, _⟩
    · exact (hidle.elim hskip hwait).elim
    · exact ⟨hgoing, hup⟩
  have hopen : p.node.agenda.bootstrapStopped ≠ true := fun hs =>
    Bool.noConfusion ((horderly.stopped hs).symm.trans hgoing)
  have hagenda := p.node.agenda_upkept t.env t.now
  have hqueue : (p.node.upkept t.env t.now).queue = c :: cs :=
    (congrArg Agenda.queue hagenda).trans (hholds.resolve_left hopen)
  refine ⟨hnode.trans (Node.cycle_fst hgoing hup), ⟨?_, hroom.room, ?_⟩, hqueue, ?_⟩
  · exact (congrArg Agenda.bootstrapStopped hagenda).trans (Bool.not_eq_true _ ▸ hopen)
  · exact fun hdry => absurd (hqueue.symm.trans hdry) (List.cons_ne_nil c cs)
  · cases hc : c.peer with
    | none => simp [Candidate.free, hc]
    | some q => simp [Candidate.free, hc, hroom.free q (by simp [Candidate.destination, hc])]

theorem settings_upkept (p : EdgePeer) (t : Turn) :
    (p.node.upkept t.env t.now).settings = p.node.settings :=
  congrArg Agenda.settings (p.node.agenda_upkept t.env t.now)

theorem Poised.fits {cs : List Candidate} (h : p.Poised t c cs) (hdone : p.Completes t) :
    (p.node.upkept t.env t.now).settings.maxAttempts ≤ Node.batchLimit := by
  obtain ⟨report, hreport⟩ := hdone
  rw [settings_upkept]
  exact Node.fits_of_completed h.ready h.queue (cycle_of_outcome? hreport).2

theorem asksFirst_of_holds {cs : List Candidate} {o : CycleOutcome}
    (horderly : p.node.agenda.Orderly) (hk : p.node.registry.Keyed)
    (hmax : 0 < p.node.settings.maxAttempts) (hholds : p.node.agenda.Holds (c :: cs))
    (ho : p.outcome? t = some o) (hskip : o ≠ .skipped) (hwait : o ≠ .notReady)
    (hroom : p.RoomFor t c.destination) : p.AsksFirst t c.destination := by
  have h := poised_of_holds horderly hholds ho hskip hwait hroom
  have hhead := Node.head?_requested h.ready h.queue h.free (settings_upkept p t ▸ hmax) t.now
  refine ⟨h.node, fun r hr => ?_, fun hlease hdone => ?_⟩
  · rw [hhead] at hr
    obtain ⟨_, heq⟩ := Option.ite_none_right_eq_some.mp hr
    exact (Option.some.inj heq).symm
  · rw [hhead, Node.leaseStopped_upkept hk, if_pos ⟨hlease, h.fits hdone⟩]

section New

variable {cfg : Config} {self : Descriptor} {seeds : Seeding} {cache : Cache}

theorem validate_of_new (h : EdgePeer.new cfg self seeds cache = .ok p) :
    cfg.validate = .ok () := by
  unfold EdgePeer.new at h
  cases hv : cfg.validate with
  | error e =>
    rw [hv] at h
    cases h
  | ok u => rfl

theorem idle_of_new (h : EdgePeer.new cfg self seeds cache = .ok p) : p.lifecycle = .idle := by
  have hv := validate_of_new h
  unfold EdgePeer.new at h
  rw [hv] at h
  cases h
  rfl

theorem maxAttempts_pos_of_new (h : EdgePeer.new cfg self seeds cache = .ok p) :
    0 < p.node.settings.maxAttempts := by
  rw [node_of_new h]
  exact Config.attempts_pos_of_validate (validate_of_new h)

theorem orderly_run_of_new (h : EdgePeer.new cfg self seeds cache = .ok p) (ts : List Turn) :
    (p.run ts).node.agenda.Orderly := by
  refine orderly_run ?_ ts
  rw [node_of_new h]
  exact ⟨List.nodup_nil, id⟩

theorem keyed_run_of_new (h : EdgePeer.new cfg self seeds cache = .ok p) (ts : List Turn) :
    (p.run ts).node.registry.Keyed := by
  have hregistry : p.node.registry =
      .new cfg.rendezvous.maxConnections cfg.rendezvous.leaseMargin := by rw [node_of_new h]
  exact keyed_run hregistry ts

/-- A seed is taken if the peer is not stopped and the seed is proper. One that is not taken changes
nothing. One that is taken stands at the head of the queue, in place of any other candidate with its
destination and in front of the others in their order, and the next cycle that finds room asks it
first, unless its peer has come to hold a lease. -/
theorem connect_is_all_or_nothing (hp : EdgePeer.new cfg self seeds cache = .ok p)
    (ts : List Turn) (now : Time) (address : String) (hint : Option Route) :
    let q := p.run ts
    let x := q.connect now address hint
    (x.2 = true ↔ q.node.leaseStopped = false ∧ Proper address hint) ∧
    ((∀ t ∈ ts, t.action ≠ .stopLease ∧ t.action ≠ .brace) →
      (q.node.leaseStopped = true ↔ q.lifecycle = .stopped)) ∧
    (x.2 = false → x.1 = q) ∧
    (x.2 = true → ∃ c, sought? address hint = some c.destination ∧
      x.1.node.queue = c :: q.node.queue.filter (fun d => d.destination ≠ c.destination) ∧
      ∀ us t o, x.1.Waits us → (x.1.run us).outcome? t = some o → o ≠ .skipped → o ≠ .notReady →
        (x.1.run us).RoomFor t c.destination → (x.1.run us).AsksFirst t c.destination) := by
  intro q x
  have hnode := node_of_new hp
  have hlive : p.node.Live := by
    rw [hnode]
    exact ⟨rfl, rfl⟩
  have horderly : p.node.agenda.Orderly := by
    rw [hnode]
    exact ⟨List.nodup_nil, id⟩
  have hregistry : p.node.registry =
      .new cfg.rendezvous.maxConnections cfg.rendezvous.leaseMargin := by rw [hnode]
  refine ⟨connect_snd_iff, leaseStopped_run_iff (by simp [idle_of_new hp]) hlive,
    connect_of_refused, fun htaken => ?_⟩
  obtain ⟨c, s, hs, hafter⟩ := exists_supplied_of_connect htaken
  have hqueue : x.1.node.queue =
      c :: q.node.queue.filter (fun d => d.destination ≠ c.destination) := by
    rw [hafter]
    rfl
  refine ⟨c, sought?_of_supplied hs, hqueue, fun us t o hwaits ho hskip hwait hroom => ?_⟩
  have hholds := holds_run hwaits (.inr hqueue)
  have hrun : x.1.run us = p.run (ts ++ ⟨{}, now, .connect address hint⟩ :: us) :=
    (run_append p ts (⟨{}, now, .connect address hint⟩ :: us)).symm
  rw [hrun] at ho hroom hholds ⊢
  refine asksFirst_of_holds (orderly_run horderly _) (keyed_run hregistry _) ?_ hholds ho hskip
    hwait hroom
  rw [settings_run]
  exact maxAttempts_pos_of_new hp

end New

def latecomer : EdgePeer :=
  (((seeded fiveSeeds).run [⟨{}, 0, .cycle⟩]).connect 0 "udp://f"
    (some ⟨.filled 7, ["udp://g"]⟩)).1

theorem latecomer_is_asked_first :
    latecomer.node.queue.map (·.destination) =
      [.peer (.filled 7), .address "udp://d", .address "udp://e"] ∧
    (((latecomer.run [⟨{}, 0, .start⟩]).node.upkept {} 1).requested {} 1).head? =
      some (.peer (.filled 7), none) := by
  have htaken : (((seeded fiveSeeds).run [⟨{}, 0, .cycle⟩]).connect 0 "udp://f"
      (some ⟨.filled 7, ["udp://g"]⟩)).2 = true := by decide +kernel
  have ho : (latecomer.run [⟨{}, 0, .start⟩]).outcome? ⟨{}, 1, .tick⟩ =
      some (.completed ⟨0, 0, 0, 3⟩) := by decide +kernel
  have hwaits : latecomer.Waits [⟨{}, 0, .start⟩] :=
    .cons (fun _ _ h => by cases h) (fun _ h => by cases h) (.nil _)
  have hroom : (latecomer.run [⟨{}, 0, .start⟩]).RoomFor ⟨{}, 1, .tick⟩ (.peer (.filled 7)) := by
    refine roomFor_of_hasCapacity (by decide +kernel) (fun q hq => ?_) _
    cases hq
    decide +kernel
  obtain ⟨_, _, _, hseed⟩ := connect_is_all_or_nothing (new_seeded fiveSeeds)
    [⟨{}, 0, .cycle⟩] 0 "udp://f" (some ⟨.filled 7, ["udp://g"]⟩)
  obtain ⟨c, hsought, _, hfirst⟩ := hseed htaken
  have hdest : c.destination = .peer (.filled 7) := (Option.some.inj hsought).symm
  rw [hdest] at hfirst
  have hasks := hfirst _ _ _ hwaits ho (by decide) (by decide) hroom
  exact ⟨by decide +kernel, hasks.asked (by decide +kernel) ⟨_, ho⟩⟩

end EdgePeer

end LeaseOverlay
