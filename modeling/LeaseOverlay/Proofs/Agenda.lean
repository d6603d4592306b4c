import LeaseOverlay.Proofs.Batch
import LeaseOverlay.Proofs.Cycle
import LeaseOverlay.Proofs.FanOut
import LeaseOverlay.Proofs.Seeds

namespace LeaseOverlay

structure Agenda where
  settings : NodeSettings
  seeding : Seeding
  queue : List Candidate
  bootstrapStopped : Bool
  monitorStopped : Bool

namespace Node

def agenda (n : Node) : Agenda :=
  ⟨n.settings, n.seeding, n.queue, n.bootstrapStopped, n.monitorStopped⟩

variable {n m : Node} {env : Surroundings} {now : Time}

theorem agenda_request (n : Node) (dest : Destination) :
    (n.request env now dest).1.agenda = n.agenda := by
  unfold request
  split
  · rfl
  · cases hf : env.fault dest <;> simp only [send, hf] <;> rfl

theorem agenda_drop (n : Node) (q : PeerId) (e : Event) : (n.drop now q e).1.agenda = n.agenda := by
  unfold drop
  split <;> rfl

theorem agenda_check (n : Node) (d : Descriptor) : (n.check d).1.agenda = n.agenda := by
  simp only [check]
  split <;> rfl

theorem agenda_offered (n : Node) (r : LeaseReply) : (n.offered r).1.agenda = n.agenda := by
  unfold offered
  split
  · next d _ =>
    split
    · rfl
    · have hc := n.agenda_check d
      split <;> next h => rwa [h] at hc
  · rfl

theorem agenda_install (n : Node) (q : PeerId) (d : Descriptor) (lease : Time) :
    (n.install now q d lease).1.agenda = n.agenda := by
  unfold install
  split
  · rfl
  split
  · rfl
  · dsimp only
    split <;> rfl

theorem agenda_answer (n : Node) (r : LeaseReply) : (n.answer now r).1.agenda = n.agenda := by
  unfold answer
  split
  · rfl
  split
  · have hd : (n.drop now r.peer (.failed r.peer)).1.agenda = n.agenda := n.agenda_drop _ _
    split <;> next h => rwa [h] at hd
  · have ho := n.agenda_offered r
    split
    · next h => rwa [h] at ho
    · next m d h =>
      rw [h] at ho
      exact (m.agenda_install _ _ _).trans ho

theorem agenda_handleReply (n : Node) (r : LeaseReply) (source : Option Destination) :
    (n.handleReply now r source).1.agenda = n.agenda := by
  rw [handleReply_eq, agenda_answer]
  rfl

theorem agenda_handleNotice (n : Node) (q : PeerId) :
    (n.handleNotice now q).1.agenda = n.agenda :=
  n.agenda_drop q _

theorem agenda_handleMessage (n : Node) (m : Message) (source : Option Destination) :
    (n.handleMessage now m source).1.agenda = n.agenda := by
  unfold handleMessage
  split
  · rfl
  · exact n.agenda_handleReply _ _
  · exact n.agenda_handleNotice _
  · rfl
  · rfl

theorem agenda_disconnect (n : Node) (q : PeerId) :
    (n.disconnect env now q).1.agenda = n.agenda := by
  unfold disconnect
  split <;> rfl

theorem agenda_challenge (n : Node) (q : PeerId) (delayMs : Int) :
    (n.challenge now q delayMs).1.agenda = n.agenda := by
  unfold challenge
  split
  · exact n.agenda_drop _ _
  · split <;> rfl

theorem agenda_expire (n : Node) (q : PeerId) (due : Time) :
    (n.expire now q due).1.agenda = n.agenda := by
  unfold expire
  split <;> rfl

theorem agenda_tend (n : Node) (c : Connection) (r : CycleReport) :
    (n.tend env now c r).1.agenda = n.agenda := by
  unfold tend
  split
  · have he : (n.expire now c.peer now).1.agenda = n.agenda := n.agenda_expire _ _
    split <;> next h => rwa [h] at he
  split
  · have hr : (n.request env now (.peer c.peer)).1.agenda = n.agenda := n.agenda_request _
    split <;> next h => rwa [h] at hr
  · rfl

theorem agenda_tendAll (n : Node) (r : CycleReport) (cs : List Connection) :
    (tendAll env now n r cs).1.agenda = n.agenda := by
  induction cs generalizing n r with
  | nil => rfl
  | cons c cs ih => exact (ih _ _).trans (n.agenda_tend c r)

theorem agenda_disconnectAll (n : Node) : (n.disconnectAll env now).1.agenda = n.agenda := by
  rw [disconnectAll_fst]
  rfl

theorem agenda_fanOut (n : Node) (m : Message) (h : Header) :
    (n.fanOut env now m h).1.agenda = n.agenda := by
  obtain ⟨es, reached, _, heq⟩ := n.fanOut_eq env now m h
  rw [heq]
  rfl

theorem agenda_propagateInGroup (n : Node) (p : Propagation) :
    (n.propagateInGroup env now p).1.agenda = n.agenda := by
  unfold propagateInGroup
  split
  · rfl
  · exact n.agenda_fanOut _ _

theorem agenda_propagate (n : Node) (p : Propagation) :
    (n.propagate env now p).1.agenda = n.agenda := by
  unfold propagate
  split
  · rfl
  · exact n.agenda_fanOut p.message _

theorem agenda_propagateToNeighbors (n : Node) (p : Propagation) :
    (n.propagateToNeighbors env p).1.agenda = n.agenda := by
  unfold propagateToNeighbors
  split <;> rfl

theorem Asks.agenda_eq {rs : List (Destination × Option SendError)} (h : n.Asks rs m) :
    m.agenda = n.agenda := by
  obtain ⟨pending, es, rfl, _⟩ := h
  rfl

end Node

namespace Agenda

def Leftover (a : Agenda) (cs : List Candidate) : Prop :=
  cs <:+ a.queue ∨ ∃ cache now, cs <:+ a.seeding.candidates cache now

inductive Next (a : Agenda) : Option Candidate → Agenda → Prop
  | same : Next a none a
  | given (seed : Candidate) : Next a (some seed) { a with seeding := a.seeding.add seed }
  | supplied (seed c : Candidate) : Next a (some seed) { a with
      seeding := a.seeding.add seed
      queue := c :: a.queue.filter fun d => d.destination ≠ c.destination }
  | worked {cs : List Candidate} (h : a.Leftover cs) : Next a none { a with queue := cs }
  | stopped : Next a none { a with
      seeding := a.seeding.stop
      queue := []
      bootstrapStopped := true
      monitorStopped := true }

theorem Next.settings_eq {a b : Agenda} {seed : Option Candidate} (h : a.Next seed b) :
    b.settings = a.settings := by
  cases h <;> rfl

end Agenda

namespace Node

variable {n m : Node} {env : Surroundings} {now : Time}

theorem leftover_lineup (now : Time) (n : Node) : n.agenda.Leftover (n.lineup now) := by
  unfold lineup
  split
  · exact .inr ⟨n.cache, now, List.suffix_rfl⟩
  · exact .inl List.suffix_rfl

theorem leftover_batch (now : Time) (n : Node) : n.agenda.Leftover (n.batch now).2 := by
  have hsuffix : (n.batch now).2 <:+ n.lineup now := takeBatch_snd_suffix _ _ _
  rcases n.leftover_lineup now with h | ⟨cache, now', h⟩
  · exact .inl (hsuffix.trans h)
  · exact .inr ⟨cache, now', hsuffix.trans h⟩

theorem next_bootstrap (env : Surroundings) (now : Time) (n : Node) :
    n.agenda.Next none (n.bootstrap env now).1.agenda := by
  have h := n.bootstrapped env now
  generalize n.bootstrap env now = r at h
  cases h with
  | stopped => exact .same
  | full => exact .worked (.inl (List.nil_suffix))
  | silent => exact .same
  | vast => exact .worked (n.leftover_lineup now)
  | asked _ _ h =>
    have hasks := asks_askAll env now { n with queue := (n.batch now).2 } (n.batch now).1
    rw [h] at hasks
    rw [hasks.agenda_eq]
    exact .worked (n.leftover_batch now)

theorem agenda_upkept (env : Surroundings) (now : Time) (n : Node) :
    (n.upkept env now).agenda = n.agenda :=
  n.agenda_tendAll {} _

theorem cycle_of_ready (hgoing : n.monitorStopped = false) (hready : env.routingReady = true)
    (now : Time) :
    ∃ r : CycleReport, n.cycle env now =
      match (n.upkept env now).bootstrap env now with
      | (m, none) => (m, .broken)
      | (m, some attempts) => (m, .completed { r with attempts := attempts }) := by
  unfold cycle
  rw [if_neg (by simp [hgoing]), if_neg (by simp [hready])]
  let tended := tendAll env now n {} n.registry.connections
  exact ⟨{ tended.2 with pruned := (tended.1.prune now tended.1.settings.pendingTimeout).2 }, rfl⟩

theorem cycle_fst (hgoing : n.monitorStopped = false) (hready : env.routingReady = true) :
    (n.cycle env now).1 = ((n.upkept env now).bootstrap env now).1 := by
  obtain ⟨r, h⟩ := cycle_of_ready hgoing hready now
  rw [h]
  split <;> next hm => rw [hm]

theorem next_cycle (env : Surroundings) (now : Time) (n : Node) :
    n.agenda.Next none (n.cycle env now).1.agenda := by
  cases hgoing : n.monitorStopped with
  | true =>
    simp only [cycle, hgoing]
    exact .same
  | false =>
  cases hready : env.routingReady with
  | false =>
    simp only [cycle, hgoing, hready]
    exact .same
  | true =>
    have hboot := (n.upkept env now).next_bootstrap env now
    rwa [agenda_upkept, ← cycle_fst hgoing hready] at hboot

end Node

def Action.concernsAgenda : Action → Bool
  | stop | connect .. | addSeedRoute _ | addSeedAddress _ | cycle | tick => true
  | _ => false

namespace EdgePeer

theorem node_of_new {c : Config} {self : Descriptor} {seeding : Seeding} {cache : Cache}
    {p : EdgePeer} (h : EdgePeer.new c self seeding cache = .ok p) :
    p.node = {
      self := self
      settings := {
        maxAttempts := c.rendezvous.maxSeedAttemptsPerCycle
        pendingTimeout := c.rendezvous.pendingRequestTimeout
        cacheLifetime := c.cache.descriptorLifetime
        maxTtl := c.rendezvous.maxTtl }
      registry := .new c.rendezvous.maxConnections c.rendezvous.leaseMargin
      seeding := seeding
      cache := cache } := by
  unfold EdgePeer.new at h
  cases hv : c.validate with
  | error e =>
    rw [hv] at h
    cases h
  | ok u =>
    rw [hv] at h
    cases h
    rfl

def seeded (s : Seeding) : EdgePeer :=
  (bare 2 (.ofMillis 300000)).withNode
    { (bare 2 (.ofMillis 300000)).node with seeding := s }

theorem new_seeded (s : Seeding) :
    EdgePeer.new { rendezvous := { maxConnections := 2 } } { peer := .filled 0 } s
      (.withLimit 1024) = .ok (seeded s) := rfl

def fiveSeeds : Seeding where
  kind := .uri
  owner := .filled 0
  configured := [.ofAddress "udp://a", ⟨"udp://b", some (.filled 1), none⟩, .ofAddress "udp://c",
    .ofAddress "udp://d", .ofAddress "udp://e"]
  given := []
  onlySeeds := false
  stopped := false

def seed? (address : String) : Option Route → Option Candidate
  | some r => some (.ofRoute r)
  | none => (Candidate.parse address).toOption

def given? (p : EdgePeer) (t : Turn) : Option Candidate :=
  match t.action with
  | .connect address hint =>
    if (p.connect t.now address hint).2 then seed? address hint else none
  | .addSeedRoute r => seed? "" (some r)
  | .addSeedAddress address => seed? address none
  | _ => none

theorem seed?_of_supplied {s s' : Seeding} {address : String} {hint : Option Route} {c : Candidate}
    (h : supplied s address hint = some (c, s')) :
    ∃ seed, seed? address hint = some seed ∧ s' = s.add seed := by
  cases hint with
  | some r =>
    refine ⟨.ofRoute r, rfl, ?_⟩
    simp only [supplied] at h
    split at h
    · cases h
      rfl
    split at h
    · cases h
    split at h
    · cases h
    · cases h
      rfl
  | none =>
    simp only [supplied] at h
    split at h
    · cases h
    · next c' hparse =>
      cases h
      refine ⟨c, ?_, ?_⟩
      · rw [seed?, hparse]
        rfl
      · rw [Seeding.addAddress, hparse]

theorem next_connect (env : Surroundings) (now : Time) (p : EdgePeer) (address : String)
    (hint : Option Route) : p.node.agenda.Next (p.given? ⟨env, now, .connect address hint⟩)
      (p.connect now address hint).1.node.agenda := by
  simp only [given?]
  unfold connect
  split
  · exact .same
  split
  · exact .same
  · next c s hs =>
    obtain ⟨seed, hseed, rfl⟩ := seed?_of_supplied hs
    dsimp only
    rw [if_pos rfl, hseed, kick_node]
    exact .supplied seed c

theorem next_addAddress (n : Node) (address : String) :
    n.agenda.Next (seed? address none)
      { n with seeding := n.seeding.addAddress address }.agenda := by
  unfold Seeding.addAddress
  cases h : Candidate.parse address with
  | ok c =>
    rw [seed?, h]
    exact .given c
  | error e =>
    rw [seed?, h]
    exact .same

theorem next_stop (env : Surroundings) (now : Time) (p : EdgePeer) :
    p.node.agenda.Next none (p.stop env now).node.agenda := by
  by_cases h : p.lifecycle = .stopped
  · rw [stop_of_stopped h]
    exact .same
  · rw [stop_of_ne h]
    exact .stopped

theorem next_tick (env : Surroundings) (now : Time) (p : EdgePeer) :
    p.node.agenda.Next none (p.tick env now).node.agenda := by
  rcases p.tick_node env now with h | h
  · rw [h]
    exact .same
  · rw [h]
    exact p.node.next_cycle env now

theorem agenda_start (now : Time) (p : EdgePeer) : (p.start now).1.node.agenda = p.node.agenda := by
  unfold start
  split <;> rfl

theorem agenda_after {p : EdgePeer} {t : Turn} (h : t.action.concernsAgenda = false) :
    (p.after t).node.agenda = p.node.agenda := by
  obtain ⟨env, now, a⟩ := t
  cases a with
  | start => exact p.agenda_start now
  | disconnect q => exact p.node.agenda_disconnect q
  | challenge q delayMs => exact p.node.agenda_challenge q delayMs
  | propagate m => exact p.node.agenda_propagate m
  | propagateInGroup m => exact p.node.agenda_propagateInGroup m
  | propagateToNeighbors m => exact p.node.agenda_propagateToNeighbors m
  | walk m => exact p.node.agenda_propagateInGroup m
  | walkTo dests m => exact p.node.agenda_propagateInGroup m
  | receive m source => exact p.node.agenda_handleMessage m source
  | reply r source => exact p.node.agenda_handleReply r source
  | notice q => exact p.node.agenda_handleNotice q
  | expire q due => exact p.node.agenda_expire q due
  | disconnectAll => exact p.node.agenda_disconnectAll
  | stopLease => rfl
  | brace => rfl
  | _ => cases h

theorem next_after (p : EdgePeer) (t : Turn) :
    p.node.agenda.Next (p.given? t) (p.after t).node.agenda := by
  cases hc : t.action.concernsAgenda with
  | false =>
    have hnone : p.given? t = none := by
      unfold given?
      split <;> next ha => first | rfl | (rw [ha] at hc; cases hc)
    rw [hnone, agenda_after hc]
    exact .same
  | true =>
    obtain ⟨env, now, a⟩ := t
    cases a with
    | stop => exact p.next_stop env now
    | connect address hint => exact p.next_connect env now address hint
    | addSeedRoute r => exact .given (.ofRoute r)
    | addSeedAddress address => exact next_addAddress p.node address
    | cycle => exact p.node.next_cycle env now
    | tick => exact p.next_tick env now
    | _ => cases hc

end EdgePeer

end LeaseOverlay
