import LeaseOverlay.Proofs.Reply

namespace LeaseOverlay

def ReplyOutcome.heeded : ReplyOutcome → Bool
  | connected | reconnected | revoked => true
  | atCapacity | rejected => false

namespace Node

variable {now : Time} {n : Node} {r : LeaseReply} {d : Descriptor} {lease : Time}

def offer (n : Node) (r : LeaseReply) : Option Descriptor :=
  match r.descriptor with
  | some d => if d.peer = r.peer ∧ n.seeding.accepts d = true then some d else none
  | none => (n.registry.get? r.peer).map (·.descriptor)

def closed (n : Node) : Node := { n.stopLease with shutdownDue := false }

def interrupted (n : Node) (r : LeaseReply) : Bool :=
  n.shutdownDue && r.descriptor.any fun d => d.peer = r.peer

def checked (n : Node) (r : LeaseReply) : Node := if n.interrupted r then n.closed else n

theorem offered_eq (n : Node) (r : LeaseReply) : n.offered r = (n.checked r, n.offer r) := by
  cases hd : r.descriptor with
  | none => simp [offered, checked, interrupted, offer, hd]
  | some d =>
    by_cases hpeer : d.peer = r.peer
    · cases hdue : n.shutdownDue <;> cases haccepts : n.seeding.accepts d <;>
        simp [offered, checked, interrupted, offer, check, closed, stopLease, hd, hpeer, hdue,
          haccepts]
    · simp [offered, checked, interrupted, offer, hd, hpeer]

theorem checked_of_not_interrupted (h : n.interrupted r = false) : n.checked r = n := by
  simp [checked, h]

theorem checked_of_interrupted (h : n.interrupted r = true) : n.checked r = n.closed := by
  simp [checked, h]

def lend (now : Time) (n : Node) (p : PeerId) (d : Descriptor) (lease : Time) : Registry :=
  n.registry.put p (.granted p d now lease n.registry.margin)

def leased (now : Time) (n : Node) (p : PeerId) (d : Descriptor) (lease : Time) (e : Event) :
    Node :=
  { n with
    registry := n.lend now p d lease
    cache := (n.cache.publish now d n.settings.cacheLifetime).1
    trace := n.trace ++ [.route d.route, .event now e] }

def ended (now : Time) (n : Node) (p : PeerId) (e : Event) : Node :=
  { n with registry := n.registry.remove p, trace := n.trace ++ [.event now e] }

theorem drop_of_contains {p : PeerId} (h : n.registry.contains p = true) (e : Event) :
    n.drop now p e = (n.ended now p e, true) := by
  rw [drop, if_pos h]
  rfl

theorem drop_of_not_contains {p : PeerId} (h : n.registry.contains p = false) (e : Event) :
    n.drop now p e = (n, false) := by
  simp [drop, h]

inductive Answered (now : Time) (n : Node) (r : LeaseReply) : Node × ReplyOutcome → Prop
  | closed (hs : n.leaseStopped = true) : Answered now n r (n, .rejected)
  | unknown (hs : n.leaseStopped = false) (hl : r.lease = none)
      (hc : n.registry.contains r.peer = false) : Answered now n r (n, .rejected)
  | revoked (hs : n.leaseStopped = false) (hl : r.lease = none)
      (hc : n.registry.contains r.peer = true) :
      Answered now n r (n.ended now r.peer (.failed r.peer), .revoked)
  | unfit {lease : Time} (hs : n.leaseStopped = false) (hl : r.lease = some lease)
      (ho : n.offer r = none) : Answered now n r (n.checked r, .rejected)
  | full {lease : Time} {d : Descriptor} (hs : n.leaseStopped = false) (hl : r.lease = some lease)
      (ho : n.offer r = some d) (hc : n.registry.contains r.peer = false)
      (hroom : n.registry.hasCapacity = false) : Answered now n r (n.checked r, .atCapacity)
  | undone {lease : Time} {d : Descriptor} (hs : n.leaseStopped = false)
      (hl : r.lease = some lease) (ho : n.offer r = some d) (hi : n.interrupted r = true)
      (hc : n.registry.contains r.peer = false) (hroom : n.registry.hasCapacity = true) :
      Answered now n r (n.closed, .rejected)
  /-- A renewal is not taken back then. -/
  | overtaken {lease : Time} {d : Descriptor} (hs : n.leaseStopped = false)
      (hl : r.lease = some lease) (ho : n.offer r = some d) (hi : n.interrupted r = true)
      (hc : n.registry.contains r.peer = true) :
      Answered now n r ({ n.closed with registry := n.lend now r.peer d lease }, .rejected)
  | connected {lease : Time} {d : Descriptor} (hs : n.leaseStopped = false)
      (hl : r.lease = some lease) (ho : n.offer r = some d) (hi : n.interrupted r = false)
      (hc : n.registry.contains r.peer = false) (hroom : n.registry.hasCapacity = true) :
      Answered now n r (n.leased now r.peer d lease (.connected r.peer), .connected)
  | reconnected {lease : Time} {d : Descriptor} (hs : n.leaseStopped = false)
      (hl : r.lease = some lease) (ho : n.offer r = some d) (hi : n.interrupted r = false)
      (hc : n.registry.contains r.peer = true) :
      Answered now n r (n.leased now r.peer d lease (.reconnected r.peer), .reconnected)

theorem answer_of_lease (hs : n.leaseStopped = false) (hl : r.lease = some lease) :
    n.answer now r = match n.offer r with
      | none => (n.checked r, .rejected)
      | some d => (n.checked r).install now r.peer d lease := by
  simp only [answer, hs, hl, offered_eq]
  cases n.offer r <;> rfl

theorem install_of_full {p : PeerId} (hc : n.registry.contains p = false)
    (hroom : n.registry.hasCapacity = false) (d : Descriptor) (lease : Time) :
    n.install now p d lease = (n, .atCapacity) := by
  simp [install, Registry.grant_of_full hc hroom]

theorem install_closed_of_contains {p : PeerId} (hc : n.registry.contains p = true)
    (d : Descriptor) (lease : Time) :
    n.closed.install now p d lease =
      ({ n.closed with registry := n.lend now p d lease }, .rejected) := by
  have hgrant : n.closed.registry.grant now p d lease = some (n.lend now p d lease, false) :=
    Registry.grant_of_contains hc now d lease
  rw [install, hgrant]
  rfl

theorem install_closed_of_hasCapacity {p : PeerId} (hc : n.registry.contains p = false)
    (hroom : n.registry.hasCapacity = true) (d : Descriptor) (lease : Time) :
    n.closed.install now p d lease = (n.closed, .rejected) := by
  have hgrant : n.closed.registry.grant now p d lease = some (n.lend now p d lease, true) :=
    Registry.grant_of_hasCapacity hc hroom now d lease
  have hundone : (n.lend now p d lease).remove p = n.registry := Registry.remove_put _ hc
  rw [install, hgrant]
  change ({ n.closed with registry := (n.lend now p d lease).remove p }, _) = _
  rw [hundone]
  rfl

theorem install_of_open_of_contains {p : PeerId} (hs : n.leaseStopped = false)
    (hc : n.registry.contains p = true) (d : Descriptor) (lease : Time) :
    n.install now p d lease = (n.leased now p d lease (.reconnected p), .reconnected) := by
  simp [install, Registry.grant_of_contains hc, hs, learnRoute, publish, emit, record, leased, lend]

theorem install_of_open_of_hasCapacity {p : PeerId} (hs : n.leaseStopped = false)
    (hc : n.registry.contains p = false) (hroom : n.registry.hasCapacity = true) (d : Descriptor)
    (lease : Time) :
    n.install now p d lease = (n.leased now p d lease (.connected p), .connected) := by
  simp [install, Registry.grant_of_hasCapacity hc hroom, hs, learnRoute, publish, emit, record,
    leased, lend]

theorem registry_checked (n : Node) (r : LeaseReply) : (n.checked r).registry = n.registry := by
  unfold checked
  split <;> rfl

theorem Answered.answer_eq {x : Node × ReplyOutcome} (h : Answered now n r x) :
    n.answer now r = x := by
  cases h with
  | closed hs => simp [answer, hs]
  | unknown hs hl hc => simp [answer, hs, hl, drop_of_not_contains hc]
  | revoked hs hl hc => simp [answer, hs, hl, drop_of_contains hc]
  | unfit hs hl ho => rw [answer_of_lease hs hl, ho]
  | full hs hl ho hc hroom =>
    have hregistry := n.registry_checked r
    rw [answer_of_lease hs hl, ho]
    exact install_of_full (by rwa [hregistry]) (by rwa [hregistry]) _ _
  | undone hs hl ho hi hc hroom =>
    rw [answer_of_lease hs hl, ho, checked_of_interrupted hi]
    exact install_closed_of_hasCapacity hc hroom _ _
  | overtaken hs hl ho hi hc =>
    rw [answer_of_lease hs hl, ho, checked_of_interrupted hi]
    exact install_closed_of_contains hc _ _
  | connected hs hl ho hi hc hroom =>
    rw [answer_of_lease hs hl, ho, checked_of_not_interrupted hi]
    exact install_of_open_of_hasCapacity hs hc hroom _ _
  | reconnected hs hl ho hi hc =>
    rw [answer_of_lease hs hl, ho, checked_of_not_interrupted hi]
    exact install_of_open_of_contains hs hc _ _

theorem exists_answered (now : Time) (n : Node) (r : LeaseReply) : ∃ x, Answered now n r x := by
  cases hs : n.leaseStopped with
  | true => exact ⟨_, .closed hs⟩
  | false =>
  cases hl : r.lease with
  | none =>
    cases hc : n.registry.contains r.peer with
    | true => exact ⟨_, .revoked hs hl hc⟩
    | false => exact ⟨_, .unknown hs hl hc⟩
  | some lease =>
  cases ho : n.offer r with
  | none => exact ⟨_, .unfit hs hl ho⟩
  | some d =>
  cases hc : n.registry.contains r.peer with
  | true =>
    cases hi : n.interrupted r with
    | true => exact ⟨_, .overtaken hs hl ho hi hc⟩
    | false => exact ⟨_, .reconnected hs hl ho hi hc⟩
  | false =>
  cases hroom : n.registry.hasCapacity with
  | false => exact ⟨_, .full hs hl ho hc hroom⟩
  | true =>
    cases hi : n.interrupted r with
    | true => exact ⟨_, .undone hs hl ho hi hc hroom⟩
    | false => exact ⟨_, .connected hs hl ho hi hc hroom⟩

theorem answered_iff {x : Node × ReplyOutcome} : Answered now n r x ↔ n.answer now r = x := by
  constructor
  · exact Answered.answer_eq
  · rintro rfl
    obtain ⟨x, hx⟩ := exists_answered now n r
    rwa [hx.answer_eq]

theorem answered (now : Time) (n : Node) (r : LeaseReply) : Answered now n r (n.answer now r) :=
  answered_iff.mpr rfl

theorem checked_settled (n : Node) (r : LeaseReply) (source : Option Destination) :
    (n.settled r source).checked r = (n.checked r).settled r source := by
  cases hi : n.interrupted r with
  | true =>
    rw [checked_of_interrupted hi]
    exact checked_of_interrupted hi
  | false =>
    rw [checked_of_not_interrupted hi]
    exact checked_of_not_interrupted hi

theorem handleReply_eq_answer (now : Time) (n : Node) (r : LeaseReply)
    (source : Option Destination) :
    n.handleReply now r source =
      ((n.answer now r).1.settled r source, (n.answer now r).2) := by
  have ha := n.answered now r
  rw [handleReply_eq]
  generalize n.answer now r = x at ha
  refine Answered.answer_eq ?_
  cases ha with
  | closed hs => exact .closed hs
  | unknown hs hl hc => exact .unknown hs hl hc
  | revoked hs hl hc => exact .revoked hs hl hc
  | unfit hs hl ho => exact n.checked_settled r source ▸ .unfit hs hl ho
  | full hs hl ho hc hroom => exact n.checked_settled r source ▸ .full hs hl ho hc hroom
  | undone hs hl ho hi hc hroom => exact .undone hs hl ho hi hc hroom
  | overtaken hs hl ho hi hc => exact .overtaken hs hl ho hi hc
  | connected hs hl ho hi hc hroom => exact .connected hs hl ho hi hc hroom
  | reconnected hs hl ho hi hc => exact .reconnected hs hl ho hi hc

theorem handleMessage_of_ok (now : Time) (n : Node) (source : Option Destination) {m : Message}
    {c : Option Control} : Control.ofMessage m = .ok c → n.handleMessage now m source = match c with
      | none => (n, false)
      | some (.reply r) => ((n.handleReply now r source).1, true)
      | some (.disconnect p) => ((n.handleNotice now p).1, true)
      | some (.request _) => (n, true) := by
  intro h
  rw [handleMessage, h]
  rcases c with _ | _ | _ | _ <;> rfl

theorem handleMessage_of_error (now : Time) (n : Node) (source : Option Destination) {m : Message}
    {e : WireError} (h : Control.ofMessage m = .error e) :
    n.handleMessage now m source = (n, true) := by
  rw [handleMessage, h]

end Node

end LeaseOverlay
