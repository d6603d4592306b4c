import LeaseOverlay.Proofs.Asking
import LeaseOverlay.Proofs.WellFormed

namespace LeaseOverlay

namespace Pending

variable {fault : Destination → Option SendError} {now timeout : Time} {q : Pending}
  {r : Destination × Time}

theorem mem_prune : r ∈ (q.prune now timeout).requests ↔ r ∈ q.requests ∧ now - r.2 < timeout := by
  simp [prune]

theorem size_sub_size_prune_asked (q : Pending) (ds : List Destination) :
    (q.asked fault now ds).size - ((q.asked fault now ds).prune now timeout).size =
      (q.requests.countP fun r => r.1 ∉ ds ∧ timeout ≤ now - r.2) +
        if timeout = 0 then ds.countP fun d => (fault d).isNone else 0 := by
  have hpruned (p : Pending) :
      p.size - (p.prune now timeout).size = p.requests.countP fun r => timeout ≤ now - r.2 := by
    have hsplit := List.length_eq_countP_add_countP (fun r : Destination × Time =>
      decide (now - r.2 < timeout)) (l := p.requests)
    simp only [size, prune, ← List.countP_eq_length_filter]
    simp at hsplit
    omega
  -- what has just been asked is pruned only if nothing is ever waited for
  have hfresh (fresh : List Destination) :
      (fresh.map fun d => (d, now)).countP (fun r => timeout ≤ now - r.2) =
        if timeout = 0 then fresh.length else 0 := by
    rw [List.countP_map]
    by_cases hz : timeout = 0 <;> simp [Function.comp_def, hz]
  rw [hpruned, asked, List.countP_append, List.countP_filter, hfresh,
    ← List.countP_eq_length_filter]
  simp only [Bool.decide_and, Bool.and_comm]

end Pending

namespace Registry

variable {r s : Registry} {now : Time} {c : Connection}

def Leaves (now : Time) (r s : Registry) : Prop :=
  ∀ q, s.get? q = (r.get? q).filter fun c => c.connected && now < c.leaseEnd

theorem Leaves.get?_peer (h : r.Leaves now s) (hk : r.Keyed) (hc : c ∈ r.connections) :
    s.get? c.peer = if c.isOver now then none else some c := by
  rw [h, hk.get?_peer hc, Option.filter_some, Connection.connected_and_lt]
  cases c.isOver now <;> rfl

theorem Leaves.peers_gone (h : r.Leaves now s) (hk : r.Keyed) :
    r.peers.filter (fun q => !s.contains q) =
      (r.connections.filter (·.isOver now)).map (·.peer) := by
  refine hk.filter_peers fun c hc => ?_
  have hcontains : s.contains c.peer = (s.get? c.peer).isSome := rfl
  rw [hcontains, h.get?_peer hk hc]
  cases c.isOver now <;> rfl

theorem Leaves.peers_due (h : r.Leaves now s) (hk : r.Keyed) :
    r.peers.filter (fun q => (s.get? q).any (·.renewAt ≤ now)) =
      (r.connections.filter (·.isDue now)).map (·.peer) := by
  refine hk.filter_peers fun c hc => ?_
  rw [h.get?_peer hk hc, Connection.isDue]
  cases c.isOver now <;> rfl

theorem Keyed.leaves_without (hk : r.Keyed) :
    r.Leaves now (r.without ((r.connections.filter (·.isOver now)).map (·.peer))) := by
  intro q
  have hmem : q ∈ (r.connections.filter (·.isOver now)).map (·.peer) ↔
      ∃ c, r.get? q = some c ∧ c.isOver now = true := by
    simp only [List.mem_map, List.mem_filter]
    constructor
    · rintro ⟨c, ⟨hc, hover⟩, rfl⟩
      exact ⟨c, hk.get?_peer hc, hover⟩
    · rintro ⟨c, hc, hover⟩
      exact ⟨c, ⟨mem_connections.mpr ⟨q, hc⟩, hover⟩, hk q c hc⟩
  simp only [get?_without, hmem, Connection.connected_and_lt]
  cases r.get? q with
  | none => simp
  | some c => cases hover : c.isOver now <;> simp [Option.filter_some, hover]

end Registry

namespace Node

variable {n m : Node} {env : Surroundings} {now : Time}

def upkept (env : Surroundings) (now : Time) (n : Node) : Node :=
  let m := (tendAll env now n {} n.registry.connections).1
  (m.prune now m.settings.pendingTimeout).1

theorem tendAll_connections (hopen : n.leaseStopped = false) (hk : n.registry.Keyed) :
    tendAll env now n {} n.registry.connections =
      (n.swept env now n.registry.connections,
        CycleReport.add env now {} n.registry.connections) := by
  have hnodup : (n.registry.connections.map (·.peer)).Nodup :=
    hk.map_peer ▸ n.registry.nodup_peers
  exact tendAll_eq hopen hnodup (fun c hc => hk.get?_peer hc) {}

theorem upkept_eq (hopen : n.leaseStopped = false) (hk : n.registry.Keyed) :
    n.upkept env now = ((n.swept env now n.registry.connections).prune now
      n.settings.pendingTimeout).1 := by
  rw [upkept, tendAll_connections hopen hk]
  rfl

theorem cycle_eq (hopen : n.leaseStopped = false) (hk : n.registry.Keyed) {report : CycleReport}
    (h : n.cycle env now = (m, .completed report)) :
    (n.upkept env now).bootstrap env now = (m, some report.attempts) ∧
    report.expired = n.registry.connections.countP (·.isOver now) ∧
    report.renewals = n.registry.connections.countP
      (fun c => c.isDue now && (env.fault (.peer c.peer)).isNone) ∧
    report.pruned =
      ((n.swept env now n.registry.connections).prune now n.settings.pendingTimeout).2 := by
  rw [upkept_eq hopen hk]
  unfold cycle at h
  split at h
  · cases h
  split at h
  · cases h
  rw [tendAll_connections hopen hk] at h
  dsimp only at h
  split at h
  · cases h
  · next heq =>
    cases h
    exact ⟨heq, Nat.zero_add _, Nat.zero_add _, rfl⟩

end Node

/-- What a completed cycle makes of a node: `upkeep` is done before the bootstrap and `asking` by
it, `m` is left behind. -/
structure CycleEffect (env : Surroundings) (now : Time) (n : Node) (upkeep asking : List Effect)
    (m : Node) (report : CycleReport) : Prop where
  bootstrap : (n.upkept env now).bootstrap env now = (m, some report.attempts)
  upkept_trace : (n.upkept env now).trace = n.trace ++ upkeep
  trace : m.trace = n.trace ++ upkeep ++ asking
  registry (q : PeerId) :
    m.registry.get? q = (n.registry.get? q).filter fun c => c.connected && now < c.leaseEnd
  events : Membership.events (upkeep ++ asking) =
    (n.registry.peers.filter fun q => !m.registry.contains q).map .failed
  renewal : requests n.self upkeep =
    (n.registry.peers.filter fun q => (m.registry.get? q).any (·.renewAt ≤ now)).map
      fun q => (.peer q, env.fault (.peer q))
  once : ∀ r ∈ requests n.self asking, ∀ q, m.registry.contains q = true → r.1 ≠ .peer q
  young : ∀ r ∈ (n.upkept env now).pending.requests, now - r.2 < n.settings.pendingTimeout
  waiting : ∀ r ∈ n.pending.requests, now - r.2 < n.settings.pendingTimeout →
    r.1 ∉ (requests n.self upkeep).map (·.1) →
    r ∈ (n.upkept env now).pending.requests ∧
    (r.1 ∉ (requests n.self asking).map (·.1) → r ∈ m.pending.requests)
  expired : report.expired = (n.registry.peers.filter fun q => !m.registry.contains q).length
  renewals : report.renewals = (requests n.self upkeep).countP (·.2.isNone)
  /-- Old requests that were not renewed; without a timeout those just made as well. -/
  pruned : report.pruned =
    (n.pending.requests.countP fun r => r.1 ∉ (requests n.self upkeep).map (·.1) ∧
      n.settings.pendingTimeout ≤ now - r.2) +
    if n.settings.pendingTimeout = 0 then report.renewals else 0
  attempts : report.attempts = (requests n.self asking).countP (·.2.isNone)

theorem EdgePeer.keyed_run {p : EdgePeer} {capacity : Nat} {margin : Time}
    (h : p.node.registry = .new capacity margin) (ts : List Turn) :
    (p.run ts).node.registry.Keyed := by
  have hwf : (p.run ts).node.registry.WellFormed capacity margin :=
    wellFormed_run (h ▸ .new capacity margin) ts
  intro q c hc
  exact (hwf.entry q c hc).peer

namespace Node

variable {n m : Node} {env : Surroundings} {now : Time}

theorem cycle_effect {report : CycleReport} (hopen : n.leaseStopped = false)
    (hk : n.registry.Keyed) (h : n.cycle env now = (m, .completed report)) :
    ∃ upkeep asking, CycleEffect env now n upkeep asking m report := by
  obtain ⟨hboot, hexpired, hrenewals, hpruned⟩ := cycle_eq hopen hk h
  have hupkept : n.upkept env now = _ := upkept_eq hopen hk
  have hopen' : (n.upkept env now).leaseStopped = false := by
    rw [hupkept]
    exact hopen
  obtain ⟨cs, queue, hcs, hm, hcount⟩ := bootstrap_eq hopen' hboot
  have hleaves : n.registry.Leaves now m.registry := by
    rw [hm, hupkept]
    exact hk.leaves_without
  refine ⟨n.registry.connections.flatMap (n.tending env now), cs.flatMap (n.asking env now), {
    bootstrap := hboot
    upkept_trace := ?upkept_trace
    trace := ?trace
    registry := hleaves
    events := ?events
    renewal := ?renewal
    once := ?once
    young := ?young
    waiting := ?waiting
    expired := ?expired
    renewals := ?renewals
    pruned := ?pruned
    attempts := ?attempts }⟩
  case upkept_trace =>
    rw [hupkept]
    rfl
  case trace =>
    rw [hm, hupkept]
    rfl
  case events =>
    rw [Membership.events_append, events_tending, events_asking, hleaves.peers_gone hk,
      List.map_map, List.append_nil]
    rfl
  case renewal =>
    rw [requests_tending, hleaves.peers_due hk, List.map_map]
    rfl
  case once =>
    intro r hr q hq hdest
    rw [requests_asking] at hr
    obtain ⟨c, hc, rfl⟩ := List.mem_map.mp hr
    have hnew := hcs c hc
    rw [Candidate.peer_of_destination hdest] at hnew
    rw [hm] at hq
    exact Bool.noConfusion (hq.symm.trans hnew)
  case young =>
    intro r hr
    rw [hupkept] at hr
    exact (Pending.mem_prune.mp hr).2
  case waiting =>
    intro r hr hyoung hother
    rw [map_fst_requests_tending] at hother
    have hstays : r ∈ (n.upkept env now).pending.requests := by
      rw [hupkept]
      exact Pending.mem_prune.mpr ⟨Pending.mem_asked_of_notMem hr hother, hyoung⟩
    refine ⟨hstays, fun hnew => ?_⟩
    rw [map_fst_requests_asking] at hnew
    rw [hm]
    exact Pending.mem_foldl_asked hstays hnew
  case expired =>
    rw [hleaves.peers_gone hk, hexpired, List.length_map, List.countP_eq_length_filter]
  case renewals =>
    rw [hrenewals, requests_tending, List.countP_map, List.countP_filter]
    simp only [Function.comp_def, Bool.and_comm]
  case pruned =>
    rw [hpruned, map_fst_requests_tending, hrenewals]
    refine (Pending.size_sub_size_prune_asked _ _).trans ?_
    rw [List.countP_map, List.countP_filter]
    simp only [Function.comp_def, Bool.and_comm]
  case attempts =>
    rw [hcount, requests_asking, List.countP_map]
    rfl

end Node

namespace CycleEffect

def lease (i : UInt8) (renewAt leaseEnd : Time) (connected : Bool) : PeerId × Connection :=
  (.filled i, ⟨.filled i, ⟨.filled i, "", []⟩, leaseEnd, renewAt, connected⟩)

/-- A lease that has ended, one that is due, one that is due and cannot be asked for, one that is
marked as disconnected and one that is not due; an old request, a young one and an old one that is
made again; a candidate with a lease and one without. -/
def mixed : Node where
  self := ⟨.filled 9, "", []⟩
  settings := ⟨8, 20, 60, 4⟩
  registry := ⟨6, 10, .ofList [lease 1 50 90 true, lease 2 90 150 true, lease 3 100 150 true,
    lease 4 120 150 false, lease 5 101 150 true]⟩
  seeding := ⟨.uri, .filled 9, [], [], false, false⟩
  cache := ⟨4, .empty⟩
  pending := ⟨[(.address "udp://a", 80), (.address "udp://b", 81), (.peer (.filled 2), 10)]⟩
  queue := [⟨"udp://c", some (.filled 5), none⟩, .ofAddress "udp://d"]

def partly : Surroundings where
  fault dest := if dest = .peer (.filled 3) then some .closed else none

theorem mixed_cycle :
    ∃ upkeep asking,
      CycleEffect partly 100 mixed upkeep asking (mixed.cycle partly 100).1 ⟨1, 2, 1, 1⟩ ∧
      Membership.events (upkeep ++ asking) = [.failed (.filled 1), .failed (.filled 4)] ∧
      requests mixed.self upkeep =
        [(.peer (.filled 2), none), (.peer (.filled 3), some .closed)] := by
  have hk : mixed.registry.Keyed := Registry.keyed_iff.mpr (by decide +kernel)
  have h : (mixed.cycle partly 100).2 = .completed ⟨1, 2, 1, 1⟩ := by
    decide +kernel
  obtain ⟨upkeep, asking, he⟩ := Node.cycle_effect rfl hk (Prod.ext rfl h)
  refine ⟨upkeep, asking, he, he.events.trans ?_, he.renewal.trans ?_⟩
  · decide +kernel
  · decide +kernel

end CycleEffect

end LeaseOverlay
