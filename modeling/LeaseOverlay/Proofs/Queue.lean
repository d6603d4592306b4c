import Mathlib.Data.List.Perm.Basic
import LeaseOverlay.Proofs.Agenda

namespace LeaseOverlay

inductive Move
  | bootstrap (env : Surroundings) (now : Time)
  | enqueue (c : Candidate)
  | stop
  /-- Whatever does not concern the bootstrap: leases come and go, seeds and descriptors arrive. -/
  | elsewhere (m : Node)

namespace Node

variable {n m : Node} {env : Surroundings} {now : Time} {mv : Move} {mvs : List Move}
  {c : Candidate}

def moved (n : Node) : Move → Node
  | .bootstrap env now => (n.bootstrap env now).1
  | .enqueue c => n.enqueueFront c
  | .stop => n.stopBootstrap
  | .elsewhere m => { m with
      settings := n.settings
      queue := n.queue
      bootstrapStopped := n.bootstrapStopped }

def play : Node → List Move → Node
  | n, [] => n
  | n, mv :: mvs => play (n.moved mv) mvs

def requested (env : Surroundings) (now : Time) (n : Node) :
    List (Destination × Option SendError) :=
  requests n.self ((n.bootstrap env now).1.trace.drop n.trace.length)

def arrivals (n : Node) : Move → List Candidate
  | .bootstrap env now =>
    if !n.bootstrapStopped && n.registry.hasCapacity && n.queue.isEmpty && env.seedsAnswer then
      n.seeding.candidates n.cache now
    else []
  | .enqueue c => [c]
  | .stop | .elsewhere _ => []

def arrived : Node → List Move → List Candidate
  | _, [] => []
  | n, mv :: mvs => n.arrivals mv ++ arrived (n.moved mv) mvs

inductive Leaves (n : Node) (c : Candidate) : Move → Prop
  | asked {env : Surroundings} {now : Time} (room : n.registry.hasCapacity = true)
      (free : c.free n.registry.contains = true)
      (request : n.leaseStopped = false →
        (c.destination, env.fault c.destination) ∈ n.requested env now) :
      Leaves n c (.bootstrap env now)
  | leased {env : Surroundings} {now : Time} {q : PeerId} (room : n.registry.hasCapacity = true)
      (peer : c.peer = some q) (lease : n.registry.contains q = true) :
      Leaves n c (.bootstrap env now)
  | full {env : Surroundings} {now : Time} (h : n.registry.hasCapacity = false) :
      Leaves n c (.bootstrap env now)
  | replaced {d : Candidate} (h : d.destination = c.destination) : Leaves n c (.enqueue d)
  | stopped : Leaves n c .stop

/-- What a move does to the queue: `gone` leaves it, `fresh` comes to its head, and `kept` stays
behind that. -/
structure Turnover (n : Node) (mv : Move) (gone fresh kept : List Candidate) : Prop where
  queue : (n.moved mv).queue = fresh ++ kept
  fresh : fresh.Sublist (n.arrivals mv)
  kept : kept.Sublist n.queue
  balance : (n.queue ++ n.arrivals mv).Perm (gone ++ (n.moved mv).queue)
  reason : ∀ c ∈ gone, n.Leaves c mv

theorem exists_turnover_enqueue (n : Node) (c : Candidate) :
    ∃ gone fresh kept, n.Turnover (.enqueue c) gone fresh kept := by
  let same (d : Candidate) : Bool := d.destination = c.destination
  refine ⟨n.queue.filter same, [c], n.queue.filter fun d => !same d, ?_⟩
  have hqueue : (n.enqueueFront c).queue = c :: n.queue.filter fun d => !same d := by
    simp [enqueueFront, same]
  refine ⟨hqueue, List.Sublist.refl _, List.filter_sublist, ?_, ?_⟩
  · rw [moved, hqueue, arrivals]
    refine ((List.filter_append_perm same n.queue).symm.append_right [c]).trans ?_
    rw [List.append_assoc]
    exact (List.perm_append_singleton c _).append_left _
  · intro d hd
    exact .replaced (of_decide_eq_true (List.mem_filter.mp hd).2).symm

theorem lineup_eq (h : n.Ready env) (now : Time) :
    n.lineup now = n.queue ++ n.arrivals (.bootstrap env now) := by
  cases hq : n.queue with
  | nil => simp [lineup, arrivals, hq, h.going, h.room, h.source hq]
  | cons c cs => simp [lineup, arrivals, hq]

theorem arrivals_of_queue (h : n.queue ≠ []) (env : Surroundings) (now : Time) :
    n.arrivals (.bootstrap env now) = [] := by
  simp [arrivals, h]

theorem turnover_of_suffix {gone rest : List Candidate} (h : n.Ready env)
    (hlineup : n.lineup now = gone ++ rest) (hrest : (n.bootstrap env now).1.queue = rest)
    (hgone : ∀ c ∈ gone, n.Leaves c (.bootstrap env now)) :
    ∃ gone fresh kept, n.Turnover (.bootstrap env now) gone fresh kept := by
  have hbalance : (n.queue ++ n.arrivals (.bootstrap env now)).Perm
      (gone ++ (n.moved (.bootstrap env now)).queue) := by
    rw [← lineup_eq h, hlineup, moved, hrest]
  have hsuffix : rest <:+ n.queue ++ n.arrivals (.bootstrap env now) := by
    rw [← lineup_eq h, hlineup]
    exact List.suffix_append gone rest
  cases hq : n.queue with
  | nil =>
    rw [hq, List.nil_append] at hsuffix
    exact ⟨gone, rest, [], by rw [List.append_nil]; exact hrest, hsuffix.sublist,
      List.nil_sublist _, hbalance, hgone⟩
  | cons c cs =>
    rw [arrivals_of_queue (by simp [hq]), List.append_nil] at hsuffix
    exact ⟨gone, [], rest, hrest, List.nil_sublist _, hsuffix.sublist, hbalance, hgone⟩

theorem queue_bootstrap (h : n.Ready env) (now : Time)
    (hfits : n.lineup now = [] ∨ n.settings.maxAttempts ≤ batchLimit) :
    (n.bootstrap env now).1.queue = (n.batch now).2 :=
  congrArg Agenda.queue (asks_bootstrap h now hfits).agenda_eq

theorem requested_eq (h : n.Ready env) (now : Time)
    (hfits : n.lineup now = [] ∨ n.settings.maxAttempts ≤ batchLimit) :
    n.requested env now = n.posted env ((n.batch now).1.map (·.destination)) := by
  obtain ⟨pending, es, hm, hes⟩ := asks_bootstrap h now hfits
  rw [requested, hm, List.drop_left, ← hes]

theorem leaves_of_taken (h : n.Ready env)
    (hfits : n.lineup now = [] ∨ n.settings.maxAttempts ≤ batchLimit) {taken : List Candidate}
    (hbatch : (n.batch now).1 = n.eligible taken) (hc : c ∈ taken) :
    n.Leaves c (.bootstrap env now) := by
  cases hfree : c.free n.registry.contains with
  | true =>
    refine .asked h.room hfree fun hopen => ?_
    have hmem : c ∈ (n.batch now).1 := hbatch ▸ List.mem_filter.mpr ⟨hc, hfree⟩
    rw [requested_eq h now hfits, posted, hopen]
    exact List.mem_map_of_mem (List.mem_map_of_mem hmem)
  | false =>
    rw [Candidate.free, Bool.not_eq_false', Option.any_eq_true] at hfree
    obtain ⟨q, hpeer, hlease⟩ := hfree
    exact .leased h.room hpeer hlease

theorem turnover_same (hq : (n.moved mv).queue = n.queue) (ha : n.arrivals mv = []) :
    n.Turnover mv [] [] n.queue := by
  refine ⟨hq, List.nil_sublist _, List.Sublist.refl _, ?_, fun _ hc => absurd hc List.not_mem_nil⟩
  rw [ha, hq, List.append_nil, List.nil_append]

theorem turnover_cleared (hq : (n.moved mv).queue = []) (ha : n.arrivals mv = [])
    (hgone : ∀ c, n.Leaves c mv) : n.Turnover mv n.queue [] [] := by
  refine ⟨hq, List.nil_sublist _, List.nil_sublist _, ?_, fun c _ => hgone c⟩
  rw [ha, hq]

theorem exists_turnover_bootstrap (env : Surroundings) (now : Time) (n : Node) :
    ∃ gone fresh kept, n.Turnover (.bootstrap env now) gone fresh kept := by
  have hcases := n.bootstrapped env now
  generalize hr : n.bootstrap env now = r at hcases
  have hm : n.moved (.bootstrap env now) = r.1 := congrArg Prod.fst hr
  cases hcases with
  | stopped hstopped => exact ⟨_, _, _, turnover_same (by rw [hm]) (by simp [arrivals, hstopped])⟩
  | full _ hfull =>
    exact ⟨_, _, _, turnover_cleared (by rw [hm]) (by simp [arrivals, hfull]) fun _ => .full hfull⟩
  | silent _ _ hsilent =>
    exact ⟨_, _, _, turnover_same (by rw [hm]) (by simp [arrivals, hsilent])⟩
  | vast hready _ _ =>
    -- broken off, but only after the queue has been filled
    exact turnover_of_suffix hready rfl (by rw [hr]; rfl) fun _ hc => absurd hc List.not_mem_nil
  | asked hready hfits _ =>
    obtain ⟨taken, hlineup, hbatch⟩ :=
      exists_taken n.registry.contains n.settings.maxAttempts (n.lineup now)
    exact turnover_of_suffix hready hlineup (queue_bootstrap hready now hfits)
      fun _ hc => leaves_of_taken hready hfits hbatch hc

theorem exists_turnover (n : Node) (mv : Move) :
    ∃ gone fresh kept, n.Turnover mv gone fresh kept := by
  cases mv with
  | bootstrap env now => exact n.exists_turnover_bootstrap env now
  | enqueue c => exact n.exists_turnover_enqueue c
  | stop => exact ⟨_, _, _, turnover_cleared rfl rfl fun _ => .stopped⟩
  | elsewhere m => exact ⟨_, _, _, turnover_same rfl rfl⟩

/-- What a run does to the queue: of the candidates that were there or have come, `gone` have left
it, each in the move that stands with it. What is `kept` from the beginning is in its old order,
behind what is `fresh`. -/
structure Ledger (n : Node) (mvs : List Move) (gone : List (Nat × Candidate))
    (fresh kept : List Candidate) : Prop where
  queue : (n.play mvs).queue = fresh ++ kept
  fresh : fresh.Subperm (n.arrived mvs)
  kept : kept.Sublist n.queue
  balance : (n.queue ++ n.arrived mvs).Perm (gone.map (·.2) ++ (n.play mvs).queue)
  reason : ∀ g ∈ gone, ∃ mv, mvs[g.1]? = some mv ∧ (n.play (mvs.take g.1)).Leaves g.2 mv

theorem ledger_nil (n : Node) : n.Ledger [] [] [] n.queue := by
  refine ⟨rfl, List.nil_subperm, List.Sublist.refl _, ?_, fun _ hg => absurd hg List.not_mem_nil⟩
  rw [arrived, List.append_nil]
  rfl

def postponed (gone : List (Nat × Candidate)) : List (Nat × Candidate) :=
  gone.map fun g => (g.1 + 1, g.2)

theorem ledger_cons {gone fresh kept fresh' kept' : List Candidate} {gone' : List (Nat × Candidate)}
    (h : n.Turnover mv gone fresh kept) (h' : (n.moved mv).Ledger mvs gone' fresh' kept') :
    ∃ fresh kept, n.Ledger (mv :: mvs) (gone.map (Prod.mk 0) ++ postponed gone') fresh kept := by
  have hkept := h'.kept
  rw [h.queue] at hkept
  -- what the rest of the run keeps is partly new in this move and partly older
  obtain ⟨newer, older, rfl, hnewer, holder⟩ := List.sublist_append_iff.mp hkept
  refine ⟨fresh' ++ newer, older, ?_, ?_, holder.trans h.kept, ?_, ?_⟩
  · rw [play, h'.queue, List.append_assoc]
  · have hcame : newer.Subperm (n.arrivals mv) := (hnewer.trans h.fresh).subperm
    exact (List.perm_append_comm.subperm).trans (hcame.append h'.fresh)
  · have hgone : List.map Prod.snd (gone.map (Prod.mk 0) ++ postponed gone') =
        gone ++ gone'.map (·.2) := by
      simp [postponed, Function.comp_def]
    rw [hgone, arrived, play, ← List.append_assoc, List.append_assoc gone]
    refine (h.balance.append_right _).trans ?_
    rw [List.append_assoc]
    exact h'.balance.append_left gone
  · intro g hg
    rcases List.mem_append.mp hg with hg | hg
    · obtain ⟨c, hc, rfl⟩ := List.mem_map.mp hg
      exact ⟨mv, rfl, h.reason c hc⟩
    · obtain ⟨g', hg', rfl⟩ := List.mem_map.mp hg
      exact h'.reason g' hg'

theorem exists_ledger (n : Node) (mvs : List Move) :
    ∃ gone fresh kept, n.Ledger mvs gone fresh kept := by
  induction mvs generalizing n with
  | nil => exact ⟨[], [], n.queue, n.ledger_nil⟩
  | cons mv mvs ih =>
    obtain ⟨_, _, _, hturnover⟩ := n.exists_turnover mv
    obtain ⟨_, _, _, hledger⟩ := ih (n.moved mv)
    exact ⟨_, ledger_cons hturnover hledger⟩

theorem play_append (n : Node) (mvs mvs' : List Move) :
    n.play (mvs ++ mvs') = (n.play mvs).play mvs' := by
  induction mvs generalizing n with
  | nil => rfl
  | cons mv mvs ih => exact ih (n.moved mv)

theorem moved_elsewhere (hs : m.settings = n.settings) (hq : m.queue = n.queue)
    (hb : m.bootstrapStopped = n.bootstrapStopped) : n.moved (.elsewhere m) = m := by
  rw [moved, ← hs, ← hq, ← hb]

theorem moved_elsewhere_of_agenda (h : m.agenda = n.agenda) : n.moved (.elsewhere m) = m :=
  moved_elsewhere (congrArg Agenda.settings h) (congrArg Agenda.queue h)
    (congrArg Agenda.bootstrapStopped h)

theorem exists_moves_cycle (env : Surroundings) (now : Time) (n : Node) :
    ∃ mvs, (n.cycle env now).1 = n.play mvs := by
  cases hgoing : n.monitorStopped with
  | true => exact ⟨[], by simp [cycle, hgoing, play]⟩
  | false =>
  cases hready : env.routingReady with
  | false => exact ⟨[], by simp [cycle, hgoing, hready, play]⟩
  | true =>
    have hupkept : n.moved (.elsewhere (n.upkept env now)) = n.upkept env now :=
      moved_elsewhere_of_agenda (n.agenda_upkept env now)
    refine ⟨[.elsewhere (n.upkept env now), .bootstrap env now], ?_⟩
    rw [cycle_fst hgoing hready, play, hupkept]
    rfl

end Node

namespace EdgePeer

theorem exists_moves (p : EdgePeer) (t : Turn) : ∃ mvs, (p.after t).node = p.node.play mvs := by
  cases hc : t.action.concernsAgenda with
  | false =>
    refine ⟨[.elsewhere (p.after t).node], ?_⟩
    exact (Node.moved_elsewhere_of_agenda (agenda_after hc)).symm
  | true =>
    obtain ⟨env, now, a⟩ := t
    cases a with
    | stop =>
      by_cases h : p.lifecycle = .stopped
      · exact ⟨[], congrArg EdgePeer.node (stop_of_stopped h env now)⟩
      · have hmoved : p.node.stopBootstrap.moved (.elsewhere (p.stop env now).node) =
            (p.stop env now).node := by
          rw [stop_of_ne h]
          exact Node.moved_elsewhere rfl rfl rfl
        exact ⟨[.stop, .elsewhere (p.stop env now).node], hmoved.symm⟩
    | connect address hint =>
      simp only [after, act]
      unfold connect
      split
      · exact ⟨[], rfl⟩
      split
      · exact ⟨[], rfl⟩
      · next c s _ =>
        refine ⟨[.elsewhere { p.node with seeding := s }, .enqueue c], ?_⟩
        dsimp only
        rw [kick_node]
        rfl
    | addSeedRoute r => exact ⟨[.elsewhere (p.after ⟨env, now, .addSeedRoute r⟩).node], rfl⟩
    | addSeedAddress address =>
      exact ⟨[.elsewhere (p.after ⟨env, now, .addSeedAddress address⟩).node], rfl⟩
    | cycle => exact p.node.exists_moves_cycle env now
    | tick =>
      rcases p.tick_node env now with h | h
      · exact ⟨[], h⟩
      · obtain ⟨mvs, hmvs⟩ := p.node.exists_moves_cycle env now
        exact ⟨mvs, h.trans hmvs⟩
    | _ => cases hc

theorem exists_moves_run (p : EdgePeer) (ts : List Turn) :
    ∃ mvs, (p.run ts).node = p.node.play mvs := by
  induction ts generalizing p with
  | nil => exact ⟨[], rfl⟩
  | cons t ts ih =>
    obtain ⟨mvs, hmvs⟩ := p.exists_moves t
    obtain ⟨mvs', hmvs'⟩ := ih (p.after t)
    refine ⟨mvs ++ mvs', ?_⟩
    rw [run, hmvs', hmvs, Node.play_append]

theorem exists_ledger_run (p : EdgePeer) (ts : List Turn) : ∃ mvs gone fresh kept,
    (p.run ts).node = p.node.play mvs ∧ p.node.Ledger mvs gone fresh kept := by
  obtain ⟨mvs, hmvs⟩ := p.exists_moves_run ts
  obtain ⟨gone, fresh, kept, hledger⟩ := p.node.exists_ledger mvs
  exact ⟨mvs, gone, fresh, kept, hmvs, hledger⟩

end EdgePeer

end LeaseOverlay
