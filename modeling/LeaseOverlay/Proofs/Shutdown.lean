import LeaseOverlay.Proofs.Membership

namespace LeaseOverlay

def Effect.IsGroup (e : Effect) : Prop := ∃ taken m, e = .group taken m

namespace EdgePeer

structure Stopped (p : EdgePeer) : Prop where
  lifecycle : p.lifecycle = .stopped
  lease : p.node.leaseStopped = true
  monitor : p.node.monitorStopped = true
  leases : p.node.registry.peers = []
  pending : p.node.pending = {}
  queue : p.node.queue = []

/-- Nothing changed but the seeds, the flag of a coming shutdown, and what was given to the group. -/
def Idles (p q : EdgePeer) : Prop :=
  ∃ seeding due es, (∀ e ∈ es, e.IsGroup) ∧
    q = p.withNode { p.node with
      seeding := seeding
      shutdownDue := due
      trace := p.node.trace ++ es }

variable {p q : EdgePeer} {env : Surroundings} {now : Time}

theorem Idles.refl (p : EdgePeer) : p.Idles p := by
  refine ⟨p.node.seeding, p.node.shutdownDue, [], by simp, ?_⟩
  simp [withNode]

theorem Idles.stopped (h : p.Idles q) (hp : p.Stopped) : q.Stopped := by
  obtain ⟨seeding, due, es, _, rfl⟩ := h
  exact ⟨hp.lifecycle, hp.lease, hp.monitor, hp.leases, hp.pending, hp.queue⟩

namespace Stopped

theorem contains (h : p.Stopped) (q : PeerId) : p.node.registry.contains q = false :=
  Registry.not_contains_of_peers h.leases q

theorem get? (h : p.Stopped) (q : PeerId) : p.node.registry.get? q = none :=
  Registry.contains_eq_false_iff.mp (h.contains q)

theorem drop (h : p.Stopped) (q : PeerId) (e : Event) : p.node.drop now q e = (p.node, false) := by
  simp [Node.drop, h.contains q]

theorem start (h : p.Stopped) (now : Time) : p.start now = (p, false) := by
  simp only [EdgePeer.start, h.lifecycle]

theorem stop (h : p.Stopped) (env : Surroundings) (now : Time) : p.stop env now = p :=
  stop_of_stopped h.lifecycle env now

theorem connect (h : p.Stopped) (now : Time) (address : String) (hint : Option Route) :
    p.connect now address hint = (p, false) := by
  simp [EdgePeer.connect, h.lease]

theorem disconnect (h : p.Stopped) (env : Surroundings) (now : Time) (q : PeerId) :
    p.node.disconnect env now q = (p.node, false) := by
  simp [Node.disconnect, h.contains q]

theorem challenge (h : p.Stopped) (now : Time) (q : PeerId) (delayMs : Int) :
    p.node.challenge now q delayMs = (p.node, false) := by
  simp [Node.challenge, h.drop, h.contains q]

theorem stateOf (h : p.Stopped) (now : Time) (q : PeerId) :
    p.node.stateOf now q = .unconnected := by
  simp [Node.stateOf, h.get?, h.pending, Pending.contains]

theorem dueCycle (h : p.Stopped) (now : Time) : p.dueCycle now = none := by
  simp only [EdgePeer.dueCycle, h.lifecycle]

theorem advance (h : p.Stopped) (env : Surroundings) (now target : Time) :
    p.advance env now target = p := by
  simp only [EdgePeer.advance, runDue, h.lifecycle]

theorem handleReply (h : p.Stopped) (now : Time) (r : LeaseReply) (source : Option Destination) :
    p.node.handleReply now r source = (p.node, .rejected) := by
  have hs : p.node.pending.settle r.peer source = p.node.pending := by
    rw [h.pending]
    exact Pending.settle_empty r.peer source
  simp only [Node.handleReply, hs]
  rw [if_pos h.lease]

theorem handleNotice (h : p.Stopped) (now : Time) (q : PeerId) :
    p.node.handleNotice now q = (p.node, false) :=
  h.drop q _

theorem handleMessage (h : p.Stopped) (now : Time) (m : Message) (source : Option Destination) :
    (p.node.handleMessage now m source).1 = p.node := by
  unfold Node.handleMessage
  split
  · rfl
  · rw [h.handleReply]
  · rw [h.handleNotice]
  · rfl
  · rfl

theorem expire (h : p.Stopped) (now : Time) (q : PeerId) (due : Time) :
    p.node.expire now q due = (p.node, false) := by
  simp [Node.expire, Registry.removeIf, h.get?]

theorem cycle (h : p.Stopped) (env : Surroundings) (now : Time) :
    p.node.cycle env now = (p.node, .skipped) := by
  simp [Node.cycle, h.monitor]

theorem disconnectAll (h : p.Stopped) (env : Surroundings) (now : Time) :
    (p.node.disconnectAll env now).1 = p.node := by
  rw [Node.disconnectAll_fst, h.leases, ← Registry.eq_clear_of_peers h.leases, ← h.pending]
  simp

theorem fanOut (h : p.Stopped) (env : Surroundings) (now : Time) (m : Message) (hd : Header) :
    p.node.fanOut env now m hd = (p.node, 0) := by
  simp [Node.fanOut, h.leases, Node.sendEach]

theorem propagateInGroup (h : p.Stopped) (env : Surroundings) (now : Time) (m : Propagation) :
    (p.node.propagateInGroup env now m).1 = p.node := by
  unfold Node.propagateInGroup
  split
  · rfl
  · rw [h.fanOut]

end Stopped

theorem idles_of_node_eq {n : Node} (h : n = p.node) : p.Idles (p.withNode n) := by
  rw [h]
  exact .refl p

theorem idles_sendToGroup (env : Surroundings) (p : EdgePeer) (m : Message) (hd : Header) :
    p.Idles (p.withNode (p.node.sendToGroup env m hd).1) := by
  refine ⟨p.node.seeding, p.node.shutdownDue, [.group env.groupUp (hd.attach m)], ?_, rfl⟩
  intro e he
  exact ⟨_, _, List.mem_singleton.mp he⟩

theorem idles_after (h : p.Stopped) (t : Turn) : p.Idles (p.after t) := by
  obtain ⟨env, now, a⟩ := t
  cases a with
  | start =>
    simp only [after, act, h.start]
    exact .refl p
  | stop =>
    simp only [after, act, h.stop]
    exact .refl p
  | connect address hint =>
    simp only [after, act, h.connect]
    exact .refl p
  | addSeedRoute r =>
    exact ⟨p.node.seeding.addRoute r, p.node.shutdownDue, [], by simp, by simp [after, act]⟩
  | addSeedAddress a =>
    exact ⟨p.node.seeding.addAddress a, p.node.shutdownDue, [], by simp, by simp [after, act]⟩
  | disconnect q => exact idles_of_node_eq (by rw [h.disconnect])
  | challenge q delayMs => exact idles_of_node_eq (by rw [h.challenge])
  | propagate m =>
    simp only [after, act, Node.propagate]
    split
    · exact .refl p
    · rw [h.fanOut]
      exact idles_sendToGroup env p m.message _
  | propagateInGroup m => exact idles_of_node_eq (h.propagateInGroup env now m)
  | propagateToNeighbors m =>
    simp only [after, act, Node.propagateToNeighbors]
    split
    · exact .refl p
    · exact idles_sendToGroup env p m.message _
  | walk m => exact idles_of_node_eq (h.propagateInGroup env now m)
  | walkTo dests m => exact idles_of_node_eq (h.propagateInGroup env now m)
  | receive m source => exact idles_of_node_eq (h.handleMessage now m source)
  | reply r source => exact idles_of_node_eq (by rw [h.handleReply])
  | notice q => exact idles_of_node_eq (by rw [h.handleNotice])
  | expire q due => exact idles_of_node_eq (by rw [h.expire])
  | disconnectAll => exact idles_of_node_eq (h.disconnectAll env now)
  | cycle => exact idles_of_node_eq (by rw [h.cycle])
  | tick =>
    simp only [after, act, tick, h.dueCycle]
    exact .refl p
  | stopLease =>
    have hn : p.node.stopLease = p.node := by
      rw [Node.stopLease, ← h.lease]
    exact idles_of_node_eq hn
  | brace => exact ⟨p.node.seeding, true, [], by simp, by simp [after, act]⟩

theorem effects_of_idles {t : Turn} (h : p.Idles (p.after t)) : ∀ e ∈ p.effects t, e.IsGroup := by
  obtain ⟨seeding, due, es, hes, hafter⟩ := h
  have heffects : p.effects t = es := by
    apply effects_eq_of_trace
    rw [hafter]
    rfl
  rwa [heffects]

theorem stopped_run (h : p.Stopped) (ts : List Turn) : (p.run ts).Stopped :=
  run_induction (P := Stopped) (fun _ t hq => (idles_after hq t).stopped hq) h ts

theorem log_of_stopped (h : p.Stopped) (ts : List Turn) : ∀ e ∈ p.log ts, e.IsGroup := by
  induction ts generalizing p with
  | nil => simp [log]
  | cons t ts ih =>
    intro e he
    have hidles := idles_after h t
    rcases List.mem_append.mp he with he | he
    · exact effects_of_idles hidles e he
    · exact ih (hidles.stopped h) e he

theorem stopped_stop (h : p.lifecycle ≠ .stopped) (env : Surroundings) (now : Time) :
    (p.stop env now).Stopped := by
  rw [stop_of_ne h]
  exact ⟨rfl, rfl, rfl, rfl, rfl, rfl⟩

/-- What a stopped peer shows to whoever asks: it holds nothing, and declines everything. -/
structure AtRest (p : EdgePeer) : Prop where
  leased : p.leased = ∅
  pending : p.node.pending = {}
  queue : p.node.queue = []
  state : ∀ now q, p.node.stateOf now q = .unconnected
  start : ∀ now, p.start now = (p, false)
  connect : ∀ now address hint, p.connect now address hint = (p, false)
  disconnect : ∀ env now q, p.node.disconnect env now q = (p.node, false)
  challenge : ∀ now q delayMs, p.node.challenge now q delayMs = (p.node, false)
  stop : ∀ env now, p.stop env now = p
  advance : ∀ env now target, p.advance env now target = p

theorem Stopped.atRest (h : p.Stopped) : p.AtRest where
  leased := by
    rw [EdgePeer.leased, Registry.members, h.leases]
    rfl
  pending := h.pending
  queue := h.queue
  state := h.stateOf
  start := h.start
  connect := h.connect
  disconnect := h.disconnect
  challenge := h.challenge
  stop := h.stop
  advance := h.advance

/-- The first stop tells every leased peer once, whether the notice arrives or not, reports the end
of every lease once, and leaves nothing; and whatever follows it, the peer remains at rest and gives
messages to the group only. -/
theorem stop_is_complete_and_final (h : p.lifecycle ≠ .stopped) (env : Surroundings) (now : Time)
    (ts : List Turn) :
    (p.effects ⟨env, now, .stop⟩ =
        p.node.registry.peers.map (fun q => .sent now (.peer q) (env.fault (.peer q))
          (Control.disconnect p.node.self.peer).toMessage) ++
        p.node.registry.peers.map (fun q => .event now (.disconnected q)) ∧
      p.node.registry.peers.Nodup) ∧
    ((p.stop env now).run ts).AtRest ∧
    ∀ e ∈ (p.stop env now).log ts, ∃ taken m, e = .group taken m := by
  have hs := stopped_stop h env now
  refine ⟨⟨effects_stop_of_ne h env now, p.node.registry.nodup_peers⟩, ?_, ?_⟩
  · exact (stopped_run hs ts).atRest
  · exact log_of_stopped hs ts

theorem stop_with_an_unreachable_peer :
    ((bare 2 10).run [.grant 0 (.filled 1) 30, .grant 0 (.filled 2) 30]).node.registry.size = 2 ∧
    ((((bare 2 10).run [.grant 0 (.filled 1) 30, .grant 0 (.filled 2) 30]).stop
      { fault := fun d => if d = .peer (.filled 1) then some .closed else none } 4).run
        [.grant 6 (.filled 1) 30]).AtRest := by
  refine ⟨by decide, ?_⟩
  exact (stop_is_complete_and_final (by decide) _ 4 [.grant 6 (.filled 1) 30]).2.1

end EdgePeer

end LeaseOverlay
