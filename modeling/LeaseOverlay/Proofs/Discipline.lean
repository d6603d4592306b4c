import LeaseOverlay.Proofs.Agenda

namespace LeaseOverlay

namespace Agenda

variable {a b : Agenda} {seed : Option Candidate}

structure Orderly (a : Agenda) : Prop where
  distinct : (a.queue.map (·.destination)).Nodup
  stopped : a.bootstrapStopped = true → a.monitorStopped = true

theorem Leftover.distinct {cs : List Candidate} (h : a.Leftover cs)
    (ha : (a.queue.map (·.destination)).Nodup) : (cs.map (·.destination)).Nodup := by
  rcases h with h | ⟨cache, now, h⟩
  · exact ha.sublist (h.sublist.map _)
  · exact (a.seeding.nodup_candidates cache now).sublist (h.sublist.map _)

theorem nodup_enqueued {c : Candidate} {cs : List Candidate}
    (h : (cs.map (·.destination)).Nodup) :
    ((c :: cs.filter fun d => d.destination ≠ c.destination).map (·.destination)).Nodup := by
  refine List.nodup_cons.mpr ⟨?_, h.sublist (List.filter_sublist.map _)⟩
  intro hmem
  obtain ⟨d, hd, heq⟩ := List.mem_map.mp hmem
  exact of_decide_eq_true (List.mem_filter.mp hd).2 heq

theorem Next.orderly (h : a.Next seed b) (ha : a.Orderly) : b.Orderly := by
  cases h with
  | same => exact ha
  | given seed => exact ⟨ha.distinct, ha.stopped⟩
  | supplied seed c => exact ⟨nodup_enqueued ha.distinct, ha.stopped⟩
  | worked hcs => exact ⟨hcs.distinct ha.distinct, ha.stopped⟩
  | stopped => exact ⟨List.nodup_nil, fun _ => rfl⟩

end Agenda

/-- A cycle does `upkeep` before its bootstrap and `asking` in it, and leaves `m` behind. -/
structure Disciplined (env : Surroundings) (now : Time) (n : Node) (upkeep asking : List Effect)
    (m : Node) : Prop where
  upkept_trace : (n.upkept env now).trace = n.trace ++ upkeep
  trace : m.trace = n.trace ++ upkeep ++ asking
  once : ((requests n.self (upkeep ++ asking)).map (·.1)).Nodup
  unleased : ∀ q, (n.upkept env now).registry.contains q = true →
    .peer q ∉ (requests n.self asking).map (·.1)
  few : (requests n.self asking).length ≤ n.settings.maxAttempts
  full : (n.upkept env now).registry.hasCapacity = false →
    asking = [] ∧ m.queue = []

namespace Node

variable {n m : Node} {env : Surroundings} {now : Time}

theorem bootstrap_of_completed {report : CycleReport}
    (h : n.cycle env now = (m, .completed report)) : n.monitorStopped = false ∧
      (n.upkept env now).bootstrap env now = (m, some report.attempts) := by
  cases hgoing : n.monitorStopped with
  | true => simp [cycle, hgoing] at h
  | false =>
  cases hready : env.routingReady with
  | false => simp [cycle, hgoing, hready] at h
  | true =>
    obtain ⟨r, heq⟩ := cycle_of_ready hgoing hready now
    rw [heq] at h
    split at h
    · cases h
    · next hm =>
      cases h
      exact ⟨rfl, hm⟩

def Tends (n : Node) (rs : List (Destination × Option SendError)) (m : Node) : Prop :=
  ∃ registry, Asks { n with registry := registry } rs m

theorem Tends.trans {l : Node} {rs rs' : List (Destination × Option SendError)}
    (h : n.Tends rs m) (h' : m.Tends rs' l) : n.Tends (rs ++ rs') l := by
  obtain ⟨_, _, es, rfl, rfl⟩ := h
  obtain ⟨registry, pending, es', rfl, rfl⟩ := h'
  refine ⟨registry, pending, es ++ es', ?_, requests_append _ _ _⟩
  rw [List.append_assoc]

theorem tends_tend_of_closed (h : n.leaseStopped = true) (c : Connection) (r : CycleReport) :
    n.Tends [] (n.tend env now c r).1 := by
  have hsame : n.Tends [] n := ⟨n.registry, n.pending, [], by simp, rfl⟩
  unfold tend
  split
  · have he : n.Tends [] (n.expire now c.peer now).1 := by
      unfold expire
      split
      · exact ⟨_, n.pending, [.event now (.failed c.peer)], rfl, rfl⟩
      · exact hsame
    split <;> next heq => rwa [heq] at he
  split
  · rw [request_of_closed h]
    exact hsame
  · exact hsame

theorem tends_tendAll_of_closed (h : n.leaseStopped = true) (r : CycleReport)
    (cs : List Connection) : n.Tends [] (tendAll env now n r cs).1 := by
  induction cs generalizing n r with
  | nil => exact ⟨n.registry, n.pending, [], by simp [tendAll], rfl⟩
  | cons c cs ih =>
    have hc : n.Tends [] (n.tend env now c r).1 := tends_tend_of_closed h c r
    have hclosed : (n.tend env now c r).1.leaseStopped = true := by
      obtain ⟨_, _, _, heq, _⟩ := hc
      rw [heq]
      exact h
    exact hc.trans (ih hclosed _)

theorem exists_tends_upkept (hk : n.registry.Keyed) (env : Surroundings) (now : Time) :
    ∃ rs, n.Tends rs (n.upkept env now) ∧ (rs.map (·.1)).Nodup ∧
      ∀ d ∈ rs.map (·.1), ∃ q, d = .peer q ∧ (n.upkept env now).registry.contains q = true := by
  cases hopen : n.leaseStopped with
  | true =>
    obtain ⟨registry, pending, es, heq, hes⟩ :
        n.Tends [] (tendAll env now n {} n.registry.connections).1 :=
      tends_tendAll_of_closed hopen _ _
    refine ⟨[], ⟨registry, pending.prune now n.settings.pendingTimeout, es, ?_, hes⟩,
      List.nodup_nil, by simp⟩
    rw [upkept, heq]
    rfl
  | false =>
    have hupkept : n.upkept env now = _ := upkept_eq hopen hk
    have hleaves : n.registry.Leaves now (n.upkept env now).registry := by
      rw [hupkept]
      exact hk.leaves_without
    have hdue : (requests n.self (n.registry.connections.flatMap (n.tending env now))).map (·.1) =
        (n.registry.peers.filter fun q =>
          ((n.upkept env now).registry.get? q).any (·.renewAt ≤ now)).map Destination.peer := by
      rw [map_fst_requests_tending, hleaves.peers_due hk, List.map_map]
      rfl
    refine ⟨_, ⟨_, _, _, hupkept, rfl⟩, ?_, ?_⟩
    · rw [hdue]
      exact (n.registry.nodup_peers.filter _).map fun _ _ h => Destination.peer.inj h
    · intro d hd
      rw [hdue] at hd
      obtain ⟨q, hq, rfl⟩ := List.mem_map.mp hd
      obtain ⟨c, hc, _⟩ := (Option.any_eq_true _ _).mp (List.mem_filter.mp hq).2
      exact ⟨q, rfl, Registry.contains_iff.mpr ⟨c, hc⟩⟩

theorem peer_notMem_batch {q : PeerId} (hq : n.registry.contains q = true) :
    .peer q ∉ (n.batch now).1.map (·.destination) := by
  intro hmem
  obtain ⟨c, hc, hdest⟩ := List.mem_map.mp hmem
  have hfree : c.peer.any n.registry.contains = false := not_leased_of_mem_takeBatch hc
  rw [Candidate.peer_of_destination hdest, Option.any_some, hq] at hfree
  cases hfree

theorem nodup_batch (h : n.agenda.Orderly) :
    ((n.batch now).1.map (·.destination)).Nodup := by
  have hlineup := (n.leftover_lineup now).distinct h.distinct
  exact hlineup.sublist ((takeBatch_fst_sublist _ _ _).map _)

theorem exists_asking_of_bootstrap {count : Nat} (hgoing : n.bootstrapStopped = false)
    (ha : n.agenda.Orderly) (h : n.bootstrap env now = (m, some count)) :
    ∃ asking, m.trace = n.trace ++ asking ∧
      ((requests n.self asking).map (·.1)).Nodup ∧
      (∀ q, n.registry.contains q = true → .peer q ∉ (requests n.self asking).map (·.1)) ∧
      (requests n.self asking).length ≤ n.settings.maxAttempts ∧
      (n.registry.hasCapacity = false → asking = [] ∧ m.queue = []) := by
  rcases exists_asks_of_bootstrap h with ⟨hstopped, _⟩ | ⟨_, rfl⟩ | ⟨hready, _, asking, rfl, hasks⟩
  · cases hgoing.symm.trans hstopped
  · refine ⟨[], (List.append_nil _).symm, List.nodup_nil, fun _ _ => List.not_mem_nil,
      Nat.zero_le _, fun _ => ⟨rfl, rfl⟩⟩
  · have hrequests : requests n.self asking =
        n.posted env ((n.batch now).1.map (·.destination)) := hasks
    have hbatch : ((requests n.self asking).map (·.1)).Sublist
        ((n.batch now).1.map (·.destination)) := by
      rw [hrequests]
      exact map_fst_posted_sublist env n _
    refine ⟨asking, rfl, (nodup_batch ha).sublist hbatch, ?_, ?_, ?_⟩
    · intro q hq hmem
      exact peer_notMem_batch hq (hbatch.subset hmem)
    · have hlength := hbatch.length_le
      rw [List.length_map, List.length_map, batch, length_takeBatch_fst] at hlength
      exact hlength.trans (Nat.min_le_left _ _)
    · intro hfull
      cases hfull.symm.trans hready.room

theorem disciplined_of_completed {report : CycleReport} (hk : n.registry.Keyed)
    (ha : n.agenda.Orderly) (h : n.cycle env now = (m, .completed report)) :
    ∃ upkeep asking, Disciplined env now n upkeep asking m := by
  obtain ⟨hgoing, hboot⟩ := bootstrap_of_completed h
  obtain ⟨rs, ⟨_, _, upkeep, hupkept, rfl⟩, hdistinct, hleased⟩ := exists_tends_upkept hk env now
  have hself : (n.upkept env now).self = n.self := by rw [hupkept]
  have htrace : (n.upkept env now).trace = n.trace ++ upkeep := by rw [hupkept]
  have hagenda := n.agenda_upkept env now
  have hgoing' : (n.upkept env now).bootstrapStopped = false := by
    cases hb : (n.upkept env now).bootstrapStopped with
    | false => rfl
    | true =>
      have hn : n.bootstrapStopped = true :=
        (congrArg Agenda.bootstrapStopped hagenda).symm.trans hb
      cases hgoing.symm.trans (ha.stopped hn)
  obtain ⟨asking, hm, honce, hnew, hfew, hfull⟩ :=
    exists_asking_of_bootstrap hgoing' (hagenda ▸ ha) hboot
  rw [hself] at honce hnew hfew
  have hmax : (n.upkept env now).settings.maxAttempts = n.settings.maxAttempts :=
    congrArg (·.settings.maxAttempts) hagenda
  refine ⟨upkeep, asking, htrace, ?_, ?_, hnew, hmax ▸ hfew, hfull⟩
  · rw [hm, htrace]
  · rw [requests_append, List.map_append]
    -- a renewal goes to a peer that holds a lease, and the bootstrap passes over those
    refine hdistinct.append honce fun d hd hd' => ?_
    obtain ⟨q, rfl, hq⟩ := hleased d hd
    exact hnew q hq hd'

end Node

namespace EdgePeer

theorem orderly_run {p : EdgePeer} (h : p.node.agenda.Orderly) (ts : List Turn) :
    (p.run ts).node.agenda.Orderly :=
  run_induction (P := fun q => q.node.agenda.Orderly) (fun q t hq => (q.next_after t).orderly hq) h
    ts

theorem settings_run (p : EdgePeer) (ts : List Turn) :
    (p.run ts).node.settings = p.node.settings := by
  refine run_induction (P := fun q => q.node.settings = p.node.settings) ?_ rfl ts
  intro q t hq
  exact (q.next_after t).settings_eq.trans hq

/-- At any time, the queue of a peer has every destination once, and whatever cycle comes next asks
no destination twice, no candidate that holds a lease, no more candidates than are configured, and
none at all if the registry is full. -/
theorem request_discipline {c : Config} {self : Descriptor} {s : Seeding} {cache : Cache}
    {p : EdgePeer} (hp : EdgePeer.new c self s cache = .ok p) (ts : List Turn) :
    ((p.run ts).node.queue.map (·.destination)).Nodup ∧
    (p.run ts).node.settings.maxAttempts = c.rendezvous.maxSeedAttemptsPerCycle ∧
    ∀ env now m report, (p.run ts).node.cycle env now = (m, .completed report) →
      ∃ upkeep asking, Disciplined env now (p.run ts).node upkeep asking m := by
  have hnode := node_of_new hp
  have hstart : p.node.agenda.Orderly := by
    rw [hnode]
    exact ⟨List.nodup_nil, fun h => h⟩
  have horderly := orderly_run hstart ts
  have hregistry : p.node.registry =
      .new c.rendezvous.maxConnections c.rendezvous.leaseMargin := by rw [hnode]
  refine ⟨horderly.distinct, ?_, ?_⟩
  · rw [settings_run, hnode]
  · intro env now m report h
    exact Node.disciplined_of_completed (keyed_run hregistry ts) horderly h

theorem renewal_and_three_attempts :
    let n := ((seeded fiveSeeds).run [.grant 0 (.filled 1) 20]).node
    (n.cycle {} 30).2 = .completed ⟨1, 0, 0, 3⟩ ∧
    (n.cycle {} 30).1.queue = [.ofAddress "udp://e"] ∧
    ∃ upkeep asking, Disciplined {} 30 n upkeep asking (n.cycle {} 30).1 := by
  intro n
  have hreport : (n.cycle {} 30).2 = .completed ⟨1, 0, 0, 3⟩ := by decide +kernel
  obtain ⟨_, _, hcycle⟩ :=
    request_discipline (new_seeded fiveSeeds) [.grant 0 (.filled 1) 20]
  exact ⟨hreport, by decide +kernel, hcycle {} 30 _ _ (Prod.ext rfl hreport)⟩

end EdgePeer

end LeaseOverlay
