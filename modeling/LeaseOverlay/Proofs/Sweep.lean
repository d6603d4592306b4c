import LeaseOverlay.Proofs.Membership
import LeaseOverlay.Proofs.Renewal

namespace LeaseOverlay

namespace Effect

def request? (d : Descriptor) : Effect → Option (Destination × Option SendError)
  | sent _ dest error m => if m = (Control.request d).toMessage then some (dest, error) else none
  | _ => none

@[simp] theorem request?_event (d : Descriptor) (now : Time) (e : Event) :
    (event now e).request? d = none := rfl

@[simp] theorem request?_route (d : Descriptor) (r : Route) : (route r).request? d = none := rfl

@[simp] theorem request?_request (d : Descriptor) (now : Time) (dest : Destination)
    (error : Option SendError) :
    (sent now dest error (Control.request d).toMessage).request? d = some (dest, error) := by
  simp [request?]

end Effect

def requests (d : Descriptor) (es : List Effect) : List (Destination × Option SendError) :=
  es.filterMap (·.request? d)

theorem requests_append (d : Descriptor) (es fs : List Effect) :
    requests d (es ++ fs) = requests d es ++ requests d fs :=
  List.filterMap_append

namespace Connection

def isDue (c : Connection) (now : Time) : Bool := !c.isOver now && c.needsRenewal now

theorem connected_and_lt (c : Connection) (now : Time) :
    (c.connected && decide (now < c.leaseEnd)) = !c.isOver now := by
  simp [isOver, expired, ← decide_not]

end Connection

namespace Registry

def Keyed (r : Registry) : Prop := ∀ q c, r.get? q = some c → c.peer = q

def without (r : Registry) (ps : List PeerId) : Registry :=
  { r with table := r.table.filter fun q _ => q ∉ ps }

variable {r : Registry} {q : PeerId} {c : Connection}

theorem get?_without (r : Registry) (ps : List PeerId) (q : PeerId) :
    (r.without ps).get? q = if q ∈ ps then none else r.get? q := by
  have h : (r.without ps).get? q = (r.get? q).filter fun _ => q ∉ ps :=
    Table.get?_filter r.table _ q
  rw [h]
  cases r.get? q <;> by_cases hq : q ∈ ps <;> simp [hq]

@[simp] theorem without_nil (r : Registry) : r.without [] = r := by
  refine ext_get? rfl rfl fun q => ?_
  rw [get?_without, if_neg List.not_mem_nil]

theorem without_remove (r : Registry) (p : PeerId) (ps : List PeerId) :
    (r.remove p).without ps = r.without (p :: ps) := by
  refine ext_get? rfl rfl fun q => ?_
  rw [get?_without, get?_without, get?_remove]
  by_cases hp : q = p <;> simp [hp]

theorem keyed_iff : r.Keyed ↔ ∀ e ∈ r.table.entries, e.2.peer = e.1 := by
  constructor
  · intro h e he
    exact h e.1 e.2 (Table.get?_eq_some_iff.mpr he)
  · intro h q c hc
    exact h (q, c) (Table.get?_eq_some_iff.mp hc)

theorem Keyed.get?_peer (hk : r.Keyed) (hc : c ∈ r.connections) : r.get? c.peer = some c := by
  obtain ⟨q, hq⟩ := mem_connections.mp hc
  rwa [hk q c hq]

theorem Keyed.map_peer (hk : r.Keyed) : r.connections.map (·.peer) = r.peers := by
  rw [connections, peers, Table.values, Table.keys, List.map_map]
  exact List.map_congr_left (keyed_iff.mp hk)

theorem Keyed.filter_peers (hk : r.Keyed) {f : PeerId → Bool}
    {g : Connection → Bool} (h : ∀ c ∈ r.connections, f c.peer = g c) :
    r.peers.filter f = (r.connections.filter g).map (·.peer) := by
  rw [← hk.map_peer, List.filter_map]
  exact congrArg _ (List.filter_congr h)

end Registry

namespace Pending

def asked (fault : Destination → Option SendError) (now : Time) (q : Pending)
    (ds : List Destination) : Pending :=
  ⟨(q.requests.filter fun r => r.1 ∉ ds) ++
    (ds.filter fun d => (fault d).isNone).map fun d => (d, now)⟩

variable {fault : Destination → Option SendError} {now : Time} {q : Pending}
  {r : Destination × Time}

@[simp] theorem asked_nil (q : Pending) : q.asked fault now [] = q := by
  have hall : q.requests.filter (fun r => r.1 ∉ []) = q.requests :=
    List.filter_eq_self.mpr (by simp)
  rw [asked, hall, List.filter_nil, List.map_nil, List.append_nil]

theorem asked_cons (q : Pending) {d : Destination} {ds : List Destination} (h : d ∉ ds) :
    (q.asked fault now [d]).asked fault now ds = q.asked fault now (d :: ds) := by
  cases hf : fault d with
  | none => simp [asked, hf, h, List.filter_filter, Bool.and_comm]
  | some e => simp [asked, hf, List.filter_filter, Bool.and_comm]

theorem mem_asked_of_notMem {ds : List Destination} (hr : r ∈ q.requests) (hd : r.1 ∉ ds) :
    r ∈ (q.asked fault now ds).requests := by
  simp [asked, hr, hd]

end Pending

namespace Node

variable {n m : Node} {env : Surroundings} {now : Time} {c : Connection} {cs : List Connection}

theorem request_eq (h : n.leaseStopped = false) (dest : Destination) :
    n.request env now dest = ({ n with
      pending := n.pending.asked env.fault now [dest]
      trace := n.trace ++
        [.sent now dest (env.fault dest) (Control.request n.self).toMessage] },
      env.fault dest) := by
  rw [request, if_neg (by simp [h])]
  cases hf : env.fault dest with
  | none => simp [send, record, Pending.put, Pending.drop, Pending.asked, hf]
  | some e =>
    simp [send, record, Pending.put, Pending.drop, Pending.asked, hf, List.filter_filter]

def tending (env : Surroundings) (now : Time) (n : Node) (c : Connection) : List Effect :=
  if c.isOver now then [.event now (.failed c.peer)]
  else if c.needsRenewal now then [n.requestTo env now c.peer]
  else []

def swept (env : Surroundings) (now : Time) (n : Node) (cs : List Connection) : Node :=
  { n with
    registry := n.registry.without ((cs.filter (·.isOver now)).map (·.peer))
    pending := n.pending.asked env.fault now
      ((cs.filter (·.isDue now)).map fun c => .peer c.peer)
    trace := n.trace ++ cs.flatMap (n.tending env now) }

end Node

namespace CycleReport

def add (env : Surroundings) (now : Time) (r : CycleReport) (cs : List Connection) : CycleReport :=
  { r with
    expired := r.expired + cs.countP (·.isOver now)
    renewals := r.renewals + cs.countP fun c => c.isDue now && (env.fault (.peer c.peer)).isNone }

theorem add_cons (env : Surroundings) (now : Time) (r : CycleReport) (c : Connection)
    (cs : List Connection) : (r.add env now [c]).add env now cs = r.add env now (c :: cs) := by
  simp only [add, List.countP_cons, List.countP_nil]
  congr 1 <;> omega

end CycleReport

namespace Node

variable {n m : Node} {env : Surroundings} {now : Time} {c : Connection} {cs : List Connection}

theorem swept_of_isOver (n : Node) (h : c.isOver now = true) :
    n.swept env now [c] = { n with
      registry := n.registry.remove c.peer
      trace := n.trace ++ [.event now (.failed c.peer)] } := by
  have hdue : c.isDue now = false := by simp [Connection.isDue, h]
  have hremove : n.registry.without [c.peer] = n.registry.remove c.peer := by
    rw [← Registry.without_remove, Registry.without_nil]
  simp [swept, tending, h, hdue, hremove]

theorem swept_of_isDue (n : Node) (h : c.isDue now = true) :
    n.swept env now [c] = { n with
      pending := n.pending.asked env.fault now [.peer c.peer]
      trace := n.trace ++ [n.requestTo env now c.peer] } := by
  obtain ⟨hover, hrenewal⟩ := (Bool.and_eq_true _ _).mp h
  rw [Bool.not_eq_true'] at hover
  simp [swept, tending, h, hover, hrenewal]

theorem swept_of_quiet (n : Node) (hover : c.isOver now = false)
    (hdue : c.needsRenewal now = false) : n.swept env now [c] = n := by
  simp [swept, tending, Connection.isDue, hover, hdue]

theorem swept_cons (n : Node) (h : c.peer ∉ cs.map (·.peer)) :
    (n.swept env now [c]).swept env now cs = n.swept env now (c :: cs) := by
  have hnew : Destination.peer c.peer ∉
      (cs.filter (·.isDue now)).map fun c => Destination.peer c.peer := by
    intro hmem
    obtain ⟨c', hc', heq⟩ := List.mem_map.mp hmem
    exact h (List.mem_map.mpr ⟨c', (List.mem_filter.mp hc').1, Destination.peer.inj heq⟩)
  have htending : (n.swept env now [c]).tending env now = n.tending env now := rfl
  have htrace : (n.swept env now [c]).trace ++ cs.flatMap (n.tending env now) =
      n.trace ++ (c :: cs).flatMap (n.tending env now) := by
    simp [swept]
  have hregistry : (n.swept env now [c]).registry.without
      ((cs.filter (·.isOver now)).map (·.peer)) =
        n.registry.without (((c :: cs).filter (·.isOver now)).map (·.peer)) := by
    cases hover : c.isOver now with
    | true => simp [swept_of_isOver n hover, Registry.without_remove, hover]
    | false => simp [swept, hover]
  have hpending : (n.swept env now [c]).pending.asked env.fault now
      ((cs.filter (·.isDue now)).map fun c => .peer c.peer) =
        n.pending.asked env.fault now
          (((c :: cs).filter (·.isDue now)).map fun c => .peer c.peer) := by
    cases hdue : c.isDue now with
    | true => simp [swept_of_isDue n hdue, Pending.asked_cons _ hnew, hdue]
    | false => simp [swept, hdue]
  rw [swept, htending, htrace, hregistry, hpending]
  rfl

theorem tend_eq (hopen : n.leaseStopped = false) (hc : n.registry.get? c.peer = some c)
    (r : CycleReport) : n.tend env now c r = (n.swept env now [c], r.add env now [c]) := by
  cases hover : c.isOver now with
  | true =>
    have hremoved : n.registry.removeIf c.peer (fun c => c.isOver now) =
        some (n.registry.remove c.peer) :=
      Registry.removeIf_eq_some_iff.mpr ⟨⟨c, hc, hover⟩, rfl⟩
    simp [tend, expire, hremoved, swept_of_isOver n hover, emit, record, hover, CycleReport.add,
      Connection.isDue]
  | false =>
    cases hdue : c.needsRenewal now with
    | true =>
      have hd : c.isDue now = true := by simp [Connection.isDue, hover, hdue]
      rw [swept_of_isDue n hd, tend, request_eq hopen]
      cases hf : env.fault (.peer c.peer) <;>
        simp [requestTo, hover, hdue, hf, CycleReport.add, Connection.isDue]
    | false =>
      simp [tend, swept_of_quiet n hover hdue, hover, hdue, CycleReport.add, Connection.isDue]

theorem tendAll_eq (hopen : n.leaseStopped = false) (hnodup : (cs.map (·.peer)).Nodup)
    (hcs : ∀ c ∈ cs, n.registry.get? c.peer = some c) (r : CycleReport) :
    tendAll env now n r cs = (n.swept env now cs, r.add env now cs) := by
  induction cs generalizing n r with
  | nil => simp [tendAll, swept, CycleReport.add]
  | cons c cs ih =>
    obtain ⟨hnew, hnodup⟩ := List.nodup_cons.mp hnodup
    obtain ⟨hc, hcs⟩ := List.forall_mem_cons.mp hcs
    -- a snapshot has each peer once, so that the rest of it is still as it was
    have hkept : ∀ c' ∈ cs, (n.swept env now [c]).registry.get? c'.peer = some c' := by
      intro c' hc'
      have hne : c'.peer ≠ c.peer := fun h => hnew (List.mem_map.mpr ⟨c', hc', h⟩)
      have hgone : c'.peer ∉ ([c].filter (·.isOver now)).map (·.peer) := by
        cases hover : c.isOver now <;> simp [hover, hne]
      rw [swept, Registry.get?_without, if_neg hgone, hcs c' hc']
    rw [tendAll, tend_eq hopen hc]
    dsimp only
    rw [ih (n := n.swept env now [c]) hopen hnodup hkept, swept_cons n hnew, CycleReport.add_cons]

theorem events_tending (n : Node) (cs : List Connection) :
    Membership.events (cs.flatMap (n.tending env now)) =
      (cs.filter (·.isOver now)).map fun c => .failed c.peer := by
  induction cs with
  | nil => rfl
  | cons c cs ih =>
    rw [List.flatMap_cons, Membership.events_append, ih]
    cases hover : c.isOver now with
    | true => simp [tending, Membership.events, Effect.event?, hover]
    | false =>
      cases hdue : c.needsRenewal now <;>
        simp [tending, requestTo, Membership.events, Effect.event?, hover, hdue]

theorem requests_tending (n : Node) (cs : List Connection) :
    requests n.self (cs.flatMap (n.tending env now)) =
      (cs.filter (·.isDue now)).map fun c => (.peer c.peer, env.fault (.peer c.peer)) := by
  induction cs with
  | nil => rfl
  | cons c cs ih =>
    rw [List.flatMap_cons, requests_append, ih]
    cases hover : c.isOver now with
    | true => simp [tending, requests, Connection.isDue, hover]
    | false =>
      cases hdue : c.needsRenewal now <;>
        simp [tending, requests, requestTo, Connection.isDue, hover, hdue]

theorem map_fst_requests_tending (n : Node) (cs : List Connection) :
    (requests n.self (cs.flatMap (n.tending env now))).map (·.1) =
      (cs.filter (·.isDue now)).map fun c => .peer c.peer := by
  rw [requests_tending, List.map_map]
  rfl

end Node

end LeaseOverlay
