import LeaseOverlay.Proofs.Answer
import LeaseOverlay.Proofs.Codec
import LeaseOverlay.Proofs.Run

namespace LeaseOverlay

namespace Control

def elements : List String := [replyElement, disconnectElement, requestElement]

def decisive (m : Message) : Option (String × List UInt8) :=
  elements.findSome? fun name => (m.get? name).map fun bs => (name, bs)

def lone : Option (String × List UInt8) → Message
  | none => .empty
  | some e => Message.empty.set e.1 e.2

def peer : Control → PeerId
  | request d => d.peer
  | reply r => r.peer
  | disconnect p => p

variable {m : Message}

theorem ofMessage_lone_decisive (m : Message) : ofMessage (lone (decisive m)) = ofMessage m := by
  have hreply (bs : List UInt8) :
      (Message.empty.set disconnectElement bs).get? replyElement = none :=
    Message.get?_set_ne _ _ (by decide)
  have hboth (bs : List UInt8) :
      (Message.empty.set requestElement bs).get? replyElement = none ∧
      (Message.empty.set requestElement bs).get? disconnectElement = none :=
    ⟨Message.get?_set_ne _ _ (by decide), Message.get?_set_ne _ _ (by decide)⟩
  have hempty (name : String) : Message.empty.get? name = none := rfl
  cases hr : m.get? replyElement with
  | some bs =>
    cases hd : Json.decode? Draft.ofJson? bs <;>
      simp [decisive, elements, lone, ofMessage, Message.json?, hr, hd]
  | none =>
  cases hn : m.get? disconnectElement with
  | some bs =>
    cases hd : Json.decode? disconnectOfJson? bs <;>
      simp [decisive, elements, lone, ofMessage, Message.json?, hr, hn, hd, hreply]
  | none =>
  cases hq : m.get? requestElement with
  | some bs => simp [decisive, elements, lone, ofMessage, Message.json?, hr, hn, hq, hboth]
  | none => simp [decisive, elements, lone, ofMessage, Message.json?, hr, hn, hq, hempty]

theorem ofMessage_eq_none_iff :
    ofMessage m = .ok none ↔ ∀ name ∈ elements, m.has name = false := by
  have hhas (name : String) : m.has name = (m.get? name).isSome := rfl
  cases hr : m.get? replyElement with
  | some bs =>
    cases hd : Json.decode? Draft.ofJson? bs with
    | none => simp [elements, ofMessage, Message.json?, hhas, hr, hd]
    | some d => cases hd' : d.reply <;>
        simp [elements, ofMessage, Message.json?, hhas, hr, hd, hd', Except.map]
  | none =>
  cases hn : m.get? disconnectElement with
  | some bs =>
    cases hd : Json.decode? disconnectOfJson? bs <;>
      simp [elements, ofMessage, Message.json?, hhas, hr, hn, hd]
  | none =>
  cases hq : m.get? requestElement with
  | some bs =>
    cases hd : Json.decode? requestOfJson? bs <;>
      simp [elements, ofMessage, Message.json?, hhas, hr, hn, hq, hd]
  | none => simp [elements, ofMessage, Message.json?, hhas, hr, hn, hq]

end Control

theorem Pending.settle_requests (q : Pending) (p : PeerId) (source : Option Destination) :
    (q.settle p source).requests =
      q.requests.filter fun e => e.1 ≠ .peer p ∧ some e.1 ≠ source := by
  cases source with
  | none => simp [settle, drop]
  | some s =>
    simp only [settle, drop, List.filter_filter]
    exact List.filter_congr fun e _ => by simp [Bool.and_comm]

namespace Node

variable {now : Time} {n m : Node} {r : LeaseReply} {source : Option Destination}

inductive Declines (n : Node) (r : LeaseReply) : Prop
  | closed (hs : n.leaseStopped = true)
  | unknown (hl : r.lease = none) (hc : n.registry.contains r.peer = false)
  | foreign {d : Descriptor} (hl : r.lease.isSome = true) (hd : r.descriptor = some d)
      (hpeer : d.peer ≠ r.peer)
  | unacceptable {d : Descriptor} (hl : r.lease.isSome = true) (hd : r.descriptor = some d)
      (haccepts : n.seeding.accepts d = false)
  | undescribed (hl : r.lease.isSome = true) (hd : r.descriptor = none)
      (hc : n.registry.contains r.peer = false)
  | full (hl : r.lease.isSome = true) (hc : n.registry.contains r.peer = false)
      (hroom : n.registry.hasCapacity = false)
  | interrupted {d : Descriptor} (hl : r.lease.isSome = true) (hd : r.descriptor = some d)
      (hpeer : d.peer = r.peer) (hdue : n.shutdownDue = true)

structure Overtaken (n : Node) (r : LeaseReply) (d : Descriptor) (lease : Time) : Prop where
  going : n.leaseStopped = false
  due : n.shutdownDue = true
  lease : r.lease = some lease
  descriptor : r.descriptor = some d
  peer : d.peer = r.peer
  accepted : n.seeding.accepts d = true
  held : n.registry.contains r.peer = true

/-- Nothing of a reply stays in `m` but that it settles requests. If a shutdown was due, it may have
arrived. -/
structure Unmarked (n : Node) (r : LeaseReply) (source : Option Destination) (m : Node) : Prop where
  same : m = { n with
    pending := m.pending, leaseStopped := m.leaseStopped, shutdownDue := m.shutdownDue }
  pending : m.pending.requests =
    n.pending.requests.filter fun e => e.1 ≠ .peer r.peer ∧ some e.1 ≠ source
  calm : n.shutdownDue = false →
    m.leaseStopped = n.leaseStopped ∧ m.shutdownDue = n.shutdownDue

theorem unmarked_settled (n : Node) (r : LeaseReply) (source : Option Destination) :
    n.Unmarked r source (n.settled r source) :=
  ⟨rfl, n.pending.settle_requests r.peer source, fun _ => ⟨rfl, rfl⟩⟩

theorem unmarked_closed (hdue : n.shutdownDue = true) (r : LeaseReply)
    (source : Option Destination) : n.Unmarked r source (n.settled r source).closed :=
  ⟨rfl, n.pending.settle_requests r.peer source, fun h => by simp [hdue] at h⟩

theorem interrupted_iff : n.interrupted r = true ↔
    n.shutdownDue = true ∧ ∃ d, r.descriptor = some d ∧ d.peer = r.peer := by
  simp [interrupted, Option.any_eq_true]

theorem unmarked_checked (n : Node) (r : LeaseReply) (source : Option Destination) :
    n.Unmarked r source ((n.checked r).settled r source) := by
  cases hi : n.interrupted r with
  | true =>
    rw [checked_of_interrupted hi]
    exact unmarked_closed (interrupted_iff.mp hi).1 r source
  | false =>
    rw [checked_of_not_interrupted hi]
    exact n.unmarked_settled r source

theorem offer_eq_none_iff : n.offer r = none ↔
    (∃ d, r.descriptor = some d ∧ (d.peer ≠ r.peer ∨ n.seeding.accepts d = false)) ∨
    r.descriptor = none ∧ n.registry.contains r.peer = false := by
  rw [Registry.contains_eq_false_iff]
  cases hd : r.descriptor with
  | none => simp [offer, hd]
  | some d =>
    simp only [offer, hd, ite_eq_right_iff, reduceCtorEq, imp_false, not_and_or, false_and,
      or_false]
    simp

theorem offer_eq_some_of_descriptor {d d' : Descriptor} (hd : r.descriptor = some d) :
    n.offer r = some d' ↔ d' = d ∧ d.peer = r.peer ∧ n.seeding.accepts d = true := by
  simp only [offer, hd, Option.ite_none_right_eq_some, Option.some.injEq]
  constructor
  · rintro ⟨h, rfl⟩
    exact ⟨rfl, h⟩
  · rintro ⟨rfl, h⟩
    exact ⟨h, rfl⟩

theorem declines_of_answer (h : (n.answer now r).2.heeded = false) : n.Declines r := by
  have ha := n.answered now r
  generalize n.answer now r = x at ha h
  have hsome {lease : Time} (hl : r.lease = some lease) : r.lease.isSome = true := by rw [hl]; rfl
  cases ha with
  | closed hs => exact .closed hs
  | unknown hs hl hc => exact .unknown hl hc
  | revoked => cases h
  | unfit hs hl ho =>
    rcases offer_eq_none_iff.mp ho with ⟨d, hd, hpeer | haccepts⟩ | ⟨hd, hc⟩
    · exact .foreign (hsome hl) hd hpeer
    · exact .unacceptable (hsome hl) hd haccepts
    · exact .undescribed (hsome hl) hd hc
  | full hs hl ho hc hroom => exact .full (hsome hl) hc hroom
  | undone hs hl ho hi =>
    obtain ⟨hdue, d, hd, hpeer⟩ := interrupted_iff.mp hi
    exact .interrupted (hsome hl) hd hpeer hdue
  | overtaken hs hl ho hi =>
    obtain ⟨hdue, d, hd, hpeer⟩ := interrupted_iff.mp hi
    exact .interrupted (hsome hl) hd hpeer hdue
  | connected => cases h
  | reconnected => cases h

theorem not_declines {d : Descriptor} (hs : n.leaseStopped = false) (hl : r.lease.isSome = true)
    (ho : n.offer r = some d) (hi : n.interrupted r = false)
    (hroom : n.registry.contains r.peer = true ∨ n.registry.hasCapacity = true) :
    ¬n.Declines r := by
  have hnone : ¬n.offer r = none := by simp [ho]
  intro h
  cases h with
  | closed hs' => simp [hs] at hs'
  | unknown hl' => simp [hl'] at hl
  | foreign _ hd hpeer => exact hnone (offer_eq_none_iff.mpr (.inl ⟨_, hd, .inl hpeer⟩))
  | unacceptable _ hd haccepts => exact hnone (offer_eq_none_iff.mpr (.inl ⟨_, hd, .inr haccepts⟩))
  | undescribed _ hd hc => exact hnone (offer_eq_none_iff.mpr (.inr ⟨hd, hc⟩))
  | full _ hc hfull => simp [hc, hfull] at hroom
  | interrupted _ hd hpeer hdue =>
    have hi' : n.interrupted r = true := interrupted_iff.mpr ⟨hdue, _, hd, hpeer⟩
    simp [hi] at hi'

theorem declines_iff (now : Time) (n : Node) (r : LeaseReply) :
    (n.answer now r).2.heeded = false ↔ n.Declines r := by
  refine ⟨declines_of_answer, fun h => ?_⟩
  have ha := n.answered now r
  generalize n.answer now r = x at ha
  cases ha with
  | revoked hs hl hc =>
    cases h with
    | closed hs' => simp [hs] at hs'
    | unknown _ hc' => simp [hc] at hc'
    | _ hl' => simp [hl] at hl'
  | connected hs hl ho hi hc hroom =>
    exact absurd h (not_declines hs (by rw [hl]; rfl) ho hi (.inr hroom))
  | reconnected hs hl ho hi hc =>
    exact absurd h (not_declines hs (by rw [hl]; rfl) ho hi (.inl hc))
  | _ => rfl

theorem unmarked_of_refused (h : (n.answer now r).2.heeded = false)
    (hn : ∀ d lease, ¬n.Overtaken r d lease) :
    n.Unmarked r source ((n.answer now r).1.settled r source) := by
  have ha := n.answered now r
  generalize n.answer now r = x at ha h
  cases ha with
  | closed => exact n.unmarked_settled r source
  | unknown => exact n.unmarked_settled r source
  | revoked => cases h
  | unfit => exact n.unmarked_checked r source
  | full => exact n.unmarked_checked r source
  | undone _ _ _ hi => exact unmarked_closed (interrupted_iff.mp hi).1 r source
  | overtaken hs hl ho hi hc =>
    obtain ⟨hdue, d, hd, hpeer⟩ := interrupted_iff.mp hi
    obtain ⟨rfl, _, haccepts⟩ := (offer_eq_some_of_descriptor hd).mp ho
    exact absurd ⟨hs, hdue, hl, hd, hpeer, haccepts, hc⟩ (hn _ _)
  | connected => cases h
  | reconnected => cases h

theorem answer_of_overtaken {d : Descriptor} {lease : Time} (h : n.Overtaken r d lease) :
    n.answer now r = ({ n.closed with registry := n.lend now r.peer d lease }, .rejected) := by
  refine Answered.answer_eq (.overtaken h.going h.lease ?_ ?_ h.held)
  · exact (offer_eq_some_of_descriptor h.descriptor).mpr ⟨rfl, h.peer, h.accepted⟩
  · exact interrupted_iff.mpr ⟨h.due, d, h.descriptor, h.peer⟩

theorem get?_answer_ne {q : PeerId} (hq : q ≠ r.peer) :
    (n.answer now r).1.registry.get? q = n.registry.get? q := by
  have ha := n.answered now r
  generalize n.answer now r = x at ha
  have hlend {d : Descriptor} {lease : Time} :
      (n.lend now r.peer d lease).get? q = n.registry.get? q := by
    rw [lend, Registry.get?_put, if_neg hq]
  cases ha with
  | closed => rfl
  | unknown => rfl
  | revoked =>
    rw [ended, Registry.get?_remove, if_neg hq]
  | unfit => rw [registry_checked]
  | full => rw [registry_checked]
  | undone => rfl
  | overtaken => exact hlend
  | connected => exact hlend
  | reconnected => exact hlend

theorem get?_handleNotice_ne {p q : PeerId} (hq : q ≠ p) :
    (n.handleNotice now p).1.registry.get? q = n.registry.get? q := by
  cases hc : n.registry.contains p with
  | true => rw [handleNotice, drop_of_contains hc, ended, Registry.get?_remove, if_neg hq]
  | false => rw [handleNotice, drop_of_not_contains hc]

theorem handleMessage_eq_false_iff {m : Message} :
    (n.handleMessage now m source).2 = false ↔ Control.ofMessage m = .ok none := by
  cases hm : Control.ofMessage m with
  | error e => simp [n.handleMessage_of_error now source hm]
  | ok c =>
    rw [n.handleMessage_of_ok now source hm]
    rcases c with _ | _ | _ | _ <;> simp

/-- A message is somebody else's unless it has an element of the lease protocol. What is malformed,
asks for a lease or takes leave of nobody changes nothing, and neither does a reply that is refused,
but that it settles the requests to its peer and its source, and that a lease is renewed by a reply
that a shutdown has overtaken. Whatever is acted on leaves the leases of others alone. All of this is
up to the one element that the message is judged by. -/
theorem refused_message_leaves_no_trace (now : Time) (n : Node) (m : Message)
    (source : Option Destination) :
    ((n.handleMessage now m source).2 = false ↔ ∀ name ∈ Control.elements, m.has name = false) ∧
    ((n.handleMessage now m source).2 = false → (n.handleMessage now m source).1 = n) ∧
    (∀ e, Control.ofMessage m = .error e → n.handleMessage now m source = (n, true)) ∧
    (∀ d, Control.ofMessage m = .ok (some (.request d)) →
      n.handleMessage now m source = (n, true)) ∧
    (∀ p, Control.ofMessage m = .ok (some (.disconnect p)) → n.registry.contains p = false →
      n.handleMessage now m source = (n, true)) ∧
    (∀ r, Control.ofMessage m = .ok (some (.reply r)) →
      n.handleMessage now m source = ((n.handleReply now r source).1, true) ∧
      ((n.handleReply now r source).2.heeded = false ↔ n.Declines r) ∧
      (n.Declines r → (∀ d lease, ¬n.Overtaken r d lease) →
        n.Unmarked r source (n.handleReply now r source).1) ∧
      ∀ d lease, n.Overtaken r d lease → ∃ k, n.Unmarked r source k ∧
        n.handleReply now r source = ({ k with
          registry := n.registry.put r.peer (.granted r.peer d now lease n.registry.margin) },
          .rejected)) ∧
    (∀ c, Control.ofMessage m = .ok (some c) → ∀ q, q ≠ c.peer →
      (n.handleMessage now m source).1.registry.get? q = n.registry.get? q) ∧
    ∀ m', Control.decisive m' = Control.decisive m →
      n.handleMessage now m' source = n.handleMessage now m source := by
  refine ⟨?_, ?_, ?_, ?_, ?_, ?_, ?_, ?_⟩
  · rw [handleMessage_eq_false_iff, Control.ofMessage_eq_none_iff]
  · intro h
    rw [n.handleMessage_of_ok now source (handleMessage_eq_false_iff.mp h)]
  · intro e h
    exact n.handleMessage_of_error now source h
  · intro d h
    exact n.handleMessage_of_ok now source h
  · intro p h hc
    rw [n.handleMessage_of_ok now source h]
    simp only [handleNotice, drop_of_not_contains hc]
  · intro r h
    refine ⟨n.handleMessage_of_ok now source h, ?_, ?_, ?_⟩
    · rw [handleReply_eq_answer]
      exact n.declines_iff now r
    · intro hd hn
      rw [handleReply_eq_answer]
      exact unmarked_of_refused ((n.declines_iff now r).mpr hd) hn
    · intro d lease ho
      refine ⟨(n.settled r source).closed, unmarked_closed ho.due r source, ?_⟩
      rw [handleReply_eq_answer, answer_of_overtaken ho]
      rfl
  · intro c h q hq
    rw [n.handleMessage_of_ok now source h]
    cases c with
    | reply r =>
      dsimp only
      rw [handleReply_eq_answer]
      exact get?_answer_ne hq
    | disconnect p => exact get?_handleNotice_ne hq
    | request d => rfl
  · intro m' h
    have hm : Control.ofMessage m' = Control.ofMessage m := by
      rw [← Control.ofMessage_lone_decisive m', h, Control.ofMessage_lone_decisive]
    simp only [handleMessage, hm]

def hosting (capacity : Nat) : Node :=
  ((EdgePeer.bare capacity (.ofMillis 300000)).run [.grant 0 (.filled 1) 60000]).node

theorem full_node_passes_over_another_peer :
    let r : LeaseReply := ⟨.filled 2, 60000, some { peer := .filled 2 }⟩
    let m := (Control.reply r).toMessage.set Control.requestElement [0x7B]
    ((hosting 1).handleMessage 4 m none).2 = true ∧
    (hosting 1).Unmarked r none ((hosting 1).handleMessage 4 m none).1 := by
  intro r m
  have hfits : (Control.reply r).Fits := by
    constructor <;> decide
  have hm : Control.ofMessage (Control.reply r).toMessage = .ok (some (.reply r)) :=
    Control.ofMessage_toMessage hfits
  obtain ⟨_, _, _, _, _, hreply, _, hsame⟩ :=
    refused_message_leaves_no_trace 4 (hosting 1) (Control.reply r).toMessage none
  obtain ⟨heq, _, hunmarked, _⟩ := hreply r hm
  have hdecisive : Control.decisive m = Control.decisive (Control.reply r).toMessage := rfl
  rw [hsame m hdecisive, heq]
  refine ⟨rfl, hunmarked (.full rfl (by decide +kernel) (by decide +kernel)) ?_⟩
  exact fun d lease ho => absurd ho.held (by decide +kernel)

/-- A lease of a minute is cut to a second by a reply that is refused. -/
theorem overtaken_renewal_is_not_taken_back :
    let n : Node := { hosting 2 with shutdownDue := true }
    let r : LeaseReply := ⟨.filled 1, 999, some { peer := .filled 1 }⟩
    let m := (Control.reply r).toMessage
    n = ((EdgePeer.bare 2 (.ofMillis 300000)).run
      [.grant 0 (.filled 1) 60000, ⟨{}, 0, .brace⟩]).node ∧
    (n.handleReply 0 r none).2 = .rejected ∧
    (n.handleMessage 0 m none).1 = (n.handleReply 0 r none).1 ∧
    (n.registry.get? (.filled 1)).map (·.leaseEnd) = some (.ofMillis 60000) ∧
    ((n.handleMessage 0 m none).1.registry.get? (.filled 1)).map (·.leaseEnd) =
      some (.ofMillis 999) := by
  intro n r m
  have hfits : (Control.reply r).Fits := by
    constructor <;> decide
  have heq : n.handleMessage 0 m none = ((n.handleReply 0 r none).1, true) :=
    n.handleMessage_of_ok 0 none (Control.ofMessage_toMessage hfits)
  rw [heq]
  exact ⟨rfl, by decide +kernel, rfl, by decide +kernel, by decide +kernel⟩

end Node

end LeaseOverlay
