import LeaseOverlay.Proofs.Cause
import LeaseOverlay.Proofs.Reply

namespace LeaseOverlay

namespace EdgePeer

variable {now : Time}

theorem le_of_dueCycle {p : EdgePeer} {due : Time} (h : p.dueCycle now = some due) : due ≤ now := by
  unfold dueCycle at h
  split at h
  · obtain ⟨hle, ⟨⟩⟩ := Option.ite_none_right_eq_some.mp h
    exact hle
  · cases h

theorem tick_node_of_dueCycle {p : EdgePeer} {due : Time} (h : p.dueCycle now = some due)
    (env : Surroundings) : (p.tick env now).node = (p.node.cycle env now).1 := by
  simp only [tick, h, runCycle, Nat.max_eq_left (le_of_dueCycle h)]

theorem tick_node (env : Surroundings) (now : Time) (p : EdgePeer) :
    (p.tick env now).node = p.node ∨ (p.tick env now).node = (p.node.cycle env now).1 := by
  cases h : p.dueCycle now with
  | none =>
    left
    simp only [tick, h]
  | some due => exact .inr (tick_node_of_dueCycle h env)

theorem booked_stop (P : Change → Prop) (env : Surroundings) (now : Time) (p : EdgePeer)
    (hc : P .closed) (ht : ∀ q, P (.told (.notice env now p.node.self.peer q)))
    (hP : ∀ q, P (.parted now q)) : p.node.Booked P (p.stop env now).node := by
  have hstop : p.node.Booked P p.node.stopLease.stopMonitor.stopBootstrap.stopSeeding :=
    .single (c := .closed) trivial hc rfl (List.append_nil _).symm rfl fun h => absurd rfl h
  unfold stop
  split
  · exact .refl
  · exact hstop.trans (Node.booked_disconnectAll _ ht hP)

theorem booked_start (P : Change → Prop) (hb : P (.told (.event now .becameEdge)))
    (p : EdgePeer) : p.node.Booked P (p.start now).1.node := by
  unfold start
  split
  · exact .record rfl hb
  · exact .refl

theorem kick_node (p : EdgePeer) : (p.kick now).node = p.node := by
  unfold kick
  split <;> rfl

theorem booked_connect (P : Change → Prop) (address : String) (hint : Option Route)
    (p : EdgePeer) : p.node.Booked P (p.connect now address hint).1.node := by
  unfold connect
  split
  · exact .refl
  split
  · exact .refl
  · dsimp only
    rw [kick_node]
    exact .of_eq rfl rfl rfl id

theorem after_of_reply? {t : Turn} {r : LeaseReply} (h : t.action.reply? = some r)
    (p : EdgePeer) :
    p.after t = p.withNode (p.node.handleReply t.now r t.action.source?).1 := by
  obtain ⟨env, now, a⟩ := t
  have hc := Action.control?_of_reply? h
  cases a with
  | reply r' source =>
    cases hc
    rfl
  | receive m source =>
    have hm : Control.ofMessage m = .ok (some (.reply r)) := by
      simp only [Action.control?] at hc
      split at hc
      · next hok => rw [hok, hc]
      · cases hc
    simp only [after, act, Node.handleMessage, hm]
    rfl
  | _ => cases hc

theorem registry_after_of_accepted {t : Turn} {r : LeaseReply} (h : t.action.reply? = some r)
    {p : EdgePeer} {o : ReplyOutcome} (ho : p.answer? t = some o) (ha : o.accepted = true) :
    ∃ d lease, r.lease = some lease ∧ (p.after t).node.registry =
      p.node.registry.put r.peer (.granted r.peer d t.now lease p.node.registry.margin) := by
  rw [answer?, h, Option.map_some, Option.some.injEq, Node.handleReply_eq] at ho
  rw [after_of_reply? h, Node.handleReply_eq]
  exact Node.registry_answer (n := p.node.settled r t.action.source?) (by rwa [ho])

theorem booked_reply {t : Turn} {r : LeaseReply} (h : t.action.control? = some (.reply r))
    (self : PeerId) (n : Node) (source : Option Destination) :
    n.Booked (t.Permits self) (n.handleReply t.now r source).1 := by
  refine Node.booked_handleReply (t.quiet_permits self) ?_ ?_ n source
  · intro lease hlease
    have hr : t.action.reply? = some r := by simp only [Action.reply?, h]
    exact Turn.grants_of_reply hr hlease
  · intro hlease
    have hc : t.action.cause? r.peer = some .revocation :=
      (Action.cause?_of_control? h r.peer).trans (if_pos ⟨rfl, hlease⟩)
    exact ⟨rfl, ⟨.revocation, hc, rfl⟩, by simp [hc]⟩

theorem booked_notice {t : Turn} {q : PeerId} (h : t.action.control? = some (.disconnect q))
    (self : PeerId) (n : Node) : n.Booked (t.Permits self) (n.handleNotice t.now q).1 :=
  Node.booked_handleNotice n
    ⟨rfl, .notice, (Action.cause?_of_control? h q).trans (if_pos rfl), rfl⟩

theorem booked_after (p : EdgePeer) (t : Turn) :
    p.node.Booked (t.Permits p.node.self.peer) (p.after t).node := by
  have hq := t.quiet_permits p.node.self.peer
  obtain ⟨env, now, a⟩ := t
  have hcycle (hc : ∀ q, a.cause? q = some .expiry) :
      p.node.Booked (Turn.Permits p.node.self.peer ⟨env, now, a⟩) (p.node.cycle env now).1 :=
    Node.booked_cycle hq (fun q => ⟨rfl, ⟨.expiry, hc q, rfl⟩, .inl rfl⟩) p.node
  have hnotice (q : PeerId) {c : Cause} (hc : a.cause? q = some c) (hn : c.notifies = true) :
      Turn.Permits p.node.self.peer ⟨env, now, a⟩ (.told (.notice env now p.node.self.peer q)) := by
    intro q' hq'
    rw [Effect.notice?_notice] at hq'
    cases hq'
    exact ⟨c, hc, hn⟩
  cases a with
  | start => exact booked_start _ (hq _ rfl rfl) p
  | stop =>
    exact booked_stop _ env now p (.inl rfl) (fun q => hnotice q rfl rfl)
      fun q => ⟨rfl, .shutdown, rfl, rfl⟩
  | connect address hint => exact booked_connect _ address hint p
  | addSeedRoute r => exact .of_eq rfl rfl rfl id
  | addSeedAddress address => exact .of_eq rfl rfl rfl id
  | disconnect q =>
    have hc : (Action.disconnect q).cause? q = some .farewell := if_pos rfl
    exact Node.booked_disconnect p.node (hnotice q hc rfl) ⟨rfl, .farewell, hc, rfl⟩
  | challenge q delayMs =>
    refine Node.booked_challenge p.node ?_ ?_
    · intro hd
      have hc : (Action.challenge q delayMs).cause? q = some .challenge := if_pos ⟨rfl, hd⟩
      exact ⟨rfl, ⟨.challenge, hc, rfl⟩, by simp [hc]⟩
    · intro hd
      exact ⟨rfl, delayMs, hd, rfl, rfl⟩
  | propagate m => exact Node.booked_propagate hq _ m
  | propagateInGroup m => exact Node.booked_propagateInGroup hq _ m
  | propagateToNeighbors m => exact Node.booked_propagateToNeighbors hq _ m
  | walk m => exact Node.booked_propagateInGroup hq _ m
  | walkTo dests m => exact Node.booked_propagateInGroup hq _ m
  | receive m source =>
    simp only [after, act, withNode, Node.handleMessage]
    split
    · exact .refl
    · next r h =>
      have hr : (Action.receive m source).control? = some (.reply r) := by
        simp only [Action.control?, h]
      exact booked_reply (t := ⟨env, now, .receive m source⟩) hr _ p.node source
    · next q h =>
      have hr : (Action.receive m source).control? = some (.disconnect q) := by
        simp only [Action.control?, h]
      exact booked_notice (t := ⟨env, now, .receive m source⟩) hr _ p.node
    · exact .refl
    · exact .refl
  | reply r source => exact booked_reply rfl _ p.node source
  | notice q => exact booked_notice (t := ⟨env, now, .notice q⟩) rfl _ p.node
  | expire q due =>
    exact Node.booked_expire p.node ⟨rfl, ⟨.expiry, if_pos rfl, rfl⟩, .inr rfl⟩
  | disconnectAll =>
    exact Node.booked_disconnectAll p.node (fun q => hnotice q rfl rfl)
      fun q => ⟨rfl, .shutdown, rfl, rfl⟩
  | cycle => exact hcycle fun _ => rfl
  | tick =>
    simp only [after, act]
    rcases tick_node env now p with h | h
    · rw [h]
      exact .refl
    · rw [h]
      exact hcycle fun _ => rfl
  | stopLease =>
    exact .single (c := .closed) trivial (.inr (.inl rfl)) rfl (List.append_nil _).symm rfl
      fun h => absurd rfl h
  | brace =>
    exact .single (c := .closed) trivial (.inr (.inr rfl)) rfl (List.append_nil _).symm rfl
      fun h => absurd rfl h

theorem self_after (p : EdgePeer) (t : Turn) : (p.after t).node.self = p.node.self :=
  (booked_after p t).self_eq

theorem self_run (p : EdgePeer) (ts : List Turn) : (p.run ts).node.self = p.node.self := by
  refine run_induction (P := fun q => q.node.self = p.node.self) ?_ rfl ts
  intro q t h
  rw [self_after, h]

theorem exists_changes (p : EdgePeer) (t : Turn) :
    ∃ cs, Books p.node.registry cs (p.after t).node.registry ∧
      p.effects t = cs.flatMap Change.effects ∧ ∀ c ∈ cs, t.Permits p.node.self.peer c := by
  obtain ⟨cs, a, hcs⟩ := booked_after p t
  refine ⟨cs, a.books, ?_, hcs⟩
  rw [effects, a.trace, List.drop_left]

theorem effects_eq_of_trace {p : EdgePeer} {t : Turn} {es : List Effect}
    (h : (p.after t).node.trace = p.node.trace ++ es) : p.effects t = es := by
  rw [effects, h, List.drop_left]

theorem effects_disconnect (env : Surroundings) (now : Time) (p : EdgePeer) (q : PeerId) :
    p.effects ⟨env, now, .disconnect q⟩ =
      if p.node.registry.contains q then
        [.notice env now p.node.self.peer q, .event now (.disconnected q)]
      else [] := by
  apply effects_eq_of_trace
  simp only [after, act, withNode]
  cases h : p.node.registry.contains q with
  | true => rw [Node.disconnect_of_contains h, if_pos rfl]
  | false =>
    rw [Node.disconnect_of_not_contains h]
    exact (List.append_nil _).symm

def farewells (env : Surroundings) (now : Time) (p : EdgePeer) : List Effect :=
  p.node.registry.peers.map (Effect.notice env now p.node.self.peer) ++
    p.node.registry.peers.map fun q => .event now (.disconnected q)

theorem effects_disconnectAll (env : Surroundings) (now : Time) (p : EdgePeer) :
    p.effects ⟨env, now, .disconnectAll⟩ = p.farewells env now := by
  apply effects_eq_of_trace
  simp only [after, act, withNode, Node.disconnectAll_fst, farewells, List.append_assoc]

theorem stop_of_stopped {p : EdgePeer} (h : p.lifecycle = .stopped) (env : Surroundings)
    (now : Time) : p.stop env now = p := by
  rw [stop, h]

theorem stop_of_ne {p : EdgePeer} (h : p.lifecycle ≠ .stopped) (env : Surroundings) (now : Time) :
    p.stop env now = { p with
      lifecycle := .stopped
      node := { p.node with
        registry := p.node.registry.clear
        seeding := p.node.seeding.stop
        pending := {}
        queue := []
        leaseStopped := true
        bootstrapStopped := true
        monitorStopped := true
        trace := p.node.trace ++ p.farewells env now } } := by
  unfold stop
  split
  · next hs => exact absurd hs h
  · simp only [Node.disconnectAll_fst, farewells, List.append_assoc]
    rfl

theorem effects_stop_of_stopped {p : EdgePeer} (h : p.lifecycle = .stopped) (env : Surroundings)
    (now : Time) : p.effects ⟨env, now, .stop⟩ = [] := by
  apply effects_eq_of_trace
  simp only [after, act, stop_of_stopped h, List.append_nil]

theorem effects_stop_of_ne {p : EdgePeer} (h : p.lifecycle ≠ .stopped) (env : Surroundings)
    (now : Time) : p.effects ⟨env, now, .stop⟩ = p.farewells env now := by
  apply effects_eq_of_trace
  simp only [after, act, stop_of_ne h]

end EdgePeer

end LeaseOverlay
