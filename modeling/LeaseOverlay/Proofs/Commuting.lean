import LeaseOverlay.Proofs.Answer
import LeaseOverlay.Proofs.WellFormed

namespace LeaseOverlay

namespace Registry

variable {p q : PeerId}

def assign (r : Registry) (p : PeerId) : Option Connection → Registry
  | some c => r.put p c
  | none => r.remove p

theorem get?_assign (r : Registry) (p q : PeerId) (o : Option Connection) :
    (r.assign p o).get? q = if q = p then o else r.get? q := by
  cases o with
  | some c => exact get?_put r p q c
  | none => exact get?_remove r p q

theorem capacity_assign (r : Registry) (p : PeerId) (o : Option Connection) :
    (r.assign p o).capacity = r.capacity := by
  cases o <;> rfl

theorem margin_assign (r : Registry) (p : PeerId) (o : Option Connection) :
    (r.assign p o).margin = r.margin := by
  cases o <;> rfl

theorem assign_get? (r : Registry) (p : PeerId) : r.assign p (r.get? p) = r := by
  refine ext_get? (capacity_assign _ _ _) (margin_assign _ _ _) fun q => ?_
  rw [get?_assign]
  split
  · next h => rw [h]
  · rfl

theorem assign_comm (h : p ≠ q) (r : Registry) (o o' : Option Connection) :
    (r.assign p o).assign q o' = (r.assign q o').assign p o := by
  refine ext_get? (by simp only [capacity_assign]) (by simp only [margin_assign]) fun k => ?_
  simp only [get?_assign]
  by_cases hq : k = q
  · have hp : k ≠ p := fun hp => h (hp.symm.trans hq)
    simp [hq, hq ▸ hp]
  · simp [hq]

theorem modify_eq_assign (r : Registry) (p : PeerId) (f : Connection → Connection) :
    r.modify p f = r.assign p ((r.get? p).map f) := by
  cases h : r.get? p with
  | some c => exact modify_of_get? h f
  | none =>
    have hsame := r.assign_get? p
    rw [h] at hsame
    rw [modify, h]
    exact hsame.symm

theorem size_assign_le (r : Registry) (p : PeerId) (o : Option Connection) :
    (r.assign p o).size ≤ r.size + 1 := by
  cases o with
  | none => exact Nat.le_succ_of_le (size_remove_le r p)
  | some c =>
    cases hc : r.contains p with
    | true => exact Nat.le_succ_of_le (Nat.le_of_eq (size_put_of_contains hc c))
    | false => exact Nat.le_of_eq (size_put_of_not_contains hc c)

end Registry

theorem Pending.settle_comm (q : Pending) (p p' : PeerId) (source source' : Option Destination) :
    (q.settle p source).settle p' source' = (q.settle p' source').settle p source := by
  cases source <;> cases source' <;>
    simp only [settle, drop, List.filter_filter, Pending.mk.injEq] <;>
    exact List.filter_congr fun e _ => by ac_rfl

inductive Dealing
  | reply (r : LeaseReply) (source : Option Destination)
  | notice (p : PeerId)
  | disconnect (p : PeerId)
  | challenge (p : PeerId) (delayMs : Int)

namespace Dealing

inductive Result
  | reply (o : ReplyOutcome)
  | done (b : Bool)

def peer : Dealing → PeerId
  | reply r _ => r.peer
  | notice p | disconnect p | challenge p _ => p

def perform (env : Surroundings) (now : Time) (n : Node) : Dealing → Node × Result
  | reply r source => ((n.handleReply now r source).1, .reply (n.handleReply now r source).2)
  | notice p => ((n.handleNotice now p).1, .done (n.handleNotice now p).2)
  | disconnect p => ((n.disconnect env now p).1, .done (n.disconnect env now p).2)
  | challenge p delayMs => ((n.challenge now p delayMs).1, .done (n.challenge now p delayMs).2)

def Enters (n : Node) : Dealing → Prop
  | reply r _ => r.lease.isSome = true ∧ n.registry.contains r.peer = false
  | _ => False

def Interrupted (n : Node) : Dealing → Prop
  | reply r _ => n.leaseStopped = false ∧ r.lease.isSome = true ∧ n.interrupted r = true
  | _ => False

def settle (q : Pending) : Dealing → Pending
  | reply r source => q.settle r.peer source
  | _ => q

theorem settle_comm (q : Pending) (a b : Dealing) :
    b.settle (a.settle q) = a.settle (b.settle q) := by
  cases a <;> cases b <;> first | rfl | exact Pending.settle_comm _ _ _ _ _

/-- What an operation does: the lease that its peer has then, a descriptor for the cache, and the
effects. -/
structure Deed where
  lease : Option Connection
  published : Option Descriptor
  effects : List Effect
  result : Result

def apply (now : Time) (n : Node) (a : Dealing) (x : Deed) : Node :=
  { n with
    registry := n.registry.assign a.peer x.lease
    pending := a.settle n.pending
    cache := match x.published with
      | some d => (n.cache.publish now d n.settings.cacheLifetime).1
      | none => n.cache
    trace := n.trace ++ x.effects }

/-- Nodes between which the operation sees no difference. -/
structure Alike (a : Dealing) (n m : Node) : Prop where
  lease : m.registry.get? a.peer = n.registry.get? a.peer
  margin : m.registry.margin = n.registry.margin
  room : a.Enters n → m.registry.hasCapacity = n.registry.hasCapacity
  stopped : m.leaseStopped = n.leaseStopped
  due : m.shutdownDue = n.shutdownDue
  seeding : m.seeding = n.seeding
  self : m.self = n.self

variable {a b : Dealing} {n m : Node} {env : Surroundings} {now : Time} {p : PeerId}

theorem Alike.refl (a : Dealing) (n : Node) : a.Alike n n :=
  ⟨rfl, rfl, fun _ => rfl, rfl, rfl, rfl, rfl⟩

theorem Alike.contains (h : a.Alike n m) :
    m.registry.contains a.peer = n.registry.contains a.peer :=
  congrArg Option.isSome h.lease

/-- `x` is what `a` does to `n`, and to every node like it. -/
structure Does (env : Surroundings) (now : Time) (a : Dealing) (n : Node) (x : Deed) : Prop where
  perform : ∀ m, a.Alike n m → a.perform env now m = (a.apply now m x, x.result)
  about : ∀ e ∈ Membership.events x.effects, e.peer? = some a.peer

def idle (n : Node) (a : Dealing) (o : Result) : Deed := ⟨n.registry.get? a.peer, none, [], o⟩

theorem apply_idle (h : a.Alike n m) (o : Result) :
    a.apply now m (idle n a o) = { m with pending := a.settle m.pending } := by
  have hregistry : m.registry.assign a.peer (n.registry.get? a.peer) = m.registry := by
    rw [← h.lease, Registry.assign_get?]
  simp only [apply, idle, hregistry, List.append_nil]

theorem exists_does_idle (o : Result)
    (h : ∀ m, a.Alike n m → a.perform env now m = ({ m with pending := a.settle m.pending }, o)) :
    ∃ x, a.Does env now n x := by
  refine ⟨idle n a o, fun m hm => ?_, by simp [idle, Membership.events]⟩
  rw [h m hm, apply_idle hm]
  rfl

section Reply

variable {r : LeaseReply} {source : Option Destination}

theorem perform_reply (env : Surroundings) (now : Time) (n : Node) (r : LeaseReply)
    (source : Option Destination) :
    (reply r source).perform env now n =
      ((n.answer now r).1.settled r source, .reply (n.answer now r).2) := by
  rw [perform, Node.handleReply_eq_answer]

theorem Alike.offer (h : (reply r source).Alike n m) : m.offer r = n.offer r := by
  have hlease : m.registry.get? r.peer = n.registry.get? r.peer := h.lease
  simp only [Node.offer, hlease, h.seeding]

theorem Alike.interrupted (h : (reply r source).Alike n m) :
    m.interrupted r = n.interrupted r := by
  simp only [Node.interrupted, h.due]

theorem exists_does_refused (o : ReplyOutcome)
    (h : ∀ m, (reply r source).Alike n m → Node.Answered now m r (m, o)) :
    ∃ x, (reply r source).Does env now n x := by
  refine exists_does_idle (.reply o) fun m hm => ?_
  rw [perform_reply, (h m hm).answer_eq]
  rfl

theorem exists_does_lease {d : Descriptor} {lease : Time} (e : Event) (o : ReplyOutcome)
    (he : e.peer? = some r.peer) (h : ∀ m, (reply r source).Alike n m →
      Node.Answered now m r (m.leased now r.peer d lease e, o)) :
    ∃ x, (reply r source).Does env now n x := by
  refine ⟨⟨some (.granted r.peer d now lease n.registry.margin), some d,
    [.route d.route, .event now e], .reply o⟩, fun m hm => ?_, ?_⟩
  · rw [perform_reply, (h m hm).answer_eq, ← hm.margin]
    rfl
  · intro e' he'
    obtain rfl : e = e' := by simpa [Membership.events, Effect.event?] using he'
    exact he

theorem exists_does_reply (hcalm : ¬(reply r source).Interrupted n) (env : Surroundings)
    (now : Time) : ∃ x, (reply r source).Does env now n x := by
  have hsome {lease : Time} (hl : r.lease = some lease) : r.lease.isSome = true := by
    rw [hl]
    rfl
  have hquiet {lease : Time} (hs : n.leaseStopped = false) (hl : r.lease = some lease) :
      n.interrupted r = false :=
    Bool.eq_false_of_not_eq_true fun hi => hcalm ⟨hs, hsome hl, hi⟩
  have hchecked {m : Node} {lease : Time} (hm : (reply r source).Alike n m)
      (hs : n.leaseStopped = false) (hl : r.lease = some lease) : m.checked r = m :=
    Node.checked_of_not_interrupted (hm.interrupted.trans (hquiet hs hl))
  -- a node like `n` comes to the same case, since all that decides it is in `Alike`
  obtain ⟨x, hx⟩ := Node.exists_answered now n r
  cases hx with
  | closed hs => exact exists_does_refused .rejected fun m hm => .closed (hm.stopped.trans hs)
  | unknown hs hl hc =>
    exact exists_does_refused .rejected fun m hm =>
      .unknown (hm.stopped.trans hs) hl (hm.contains.trans hc)
  | revoked hs hl hc =>
    refine ⟨⟨none, none, [.event now (.failed r.peer)], .reply .revoked⟩, fun m hm => ?_, ?_⟩
    · have ha : Node.Answered now m r _ :=
        .revoked (hm.stopped.trans hs) hl (hm.contains.trans hc)
      rw [perform_reply, ha.answer_eq]
      rfl
    · simp [Membership.events, Effect.event?, Event.peer?, peer]
  | unfit hs hl ho =>
    refine exists_does_refused .rejected fun m hm => ?_
    have ha : Node.Answered now m r _ := .unfit (hm.stopped.trans hs) hl (hm.offer.trans ho)
    rwa [hchecked hm hs hl] at ha
  | full hs hl ho hc hroom =>
    refine exists_does_refused .atCapacity fun m hm => ?_
    have ha : Node.Answered now m r _ := .full (hm.stopped.trans hs) hl (hm.offer.trans ho)
      (hm.contains.trans hc) ((hm.room ⟨hsome hl, hc⟩).trans hroom)
    rwa [hchecked hm hs hl] at ha
  | undone hs hl _ hi => exact absurd ⟨hs, hsome hl, hi⟩ hcalm
  | overtaken hs hl _ hi => exact absurd ⟨hs, hsome hl, hi⟩ hcalm
  | connected hs hl ho hi hc hroom =>
    exact exists_does_lease (.connected r.peer) .connected rfl fun m hm =>
      .connected (hm.stopped.trans hs) hl (hm.offer.trans ho) (hm.interrupted.trans hi)
        (hm.contains.trans hc) ((hm.room ⟨hsome hl, hc⟩).trans hroom)
  | reconnected hs hl ho hi hc =>
    exact exists_does_lease (.reconnected r.peer) .reconnected rfl fun m hm =>
      .reconnected (hm.stopped.trans hs) hl (hm.offer.trans ho) (hm.interrupted.trans hi)
        (hm.contains.trans hc)

end Reply

theorem exists_does_drop (e : Event) (he : e.peer? = some a.peer)
    (hsettle : ∀ q, a.settle q = q)
    (h : ∀ m, a.perform env now m = ((m.drop now a.peer e).1, .done (m.drop now a.peer e).2)) :
    ∃ x, a.Does env now n x := by
  cases hc : n.registry.contains a.peer with
  | true =>
    refine ⟨⟨none, none, [.event now e], .done true⟩, fun m hm => ?_, ?_⟩
    · rw [h, Node.drop_of_contains (hm.contains.trans hc), apply, hsettle]
      rfl
    · intro e' he'
      rwa [Membership.mem_events_event.mp he']
  | false =>
    refine exists_does_idle (.done false) fun m hm => ?_
    rw [h, Node.drop_of_not_contains (hm.contains.trans hc), hsettle]

theorem exists_does_disconnect (env : Surroundings) (now : Time) (n : Node) (p : PeerId) :
    ∃ x, (disconnect p).Does env now n x := by
  cases hc : n.registry.contains p with
  | true =>
    refine ⟨⟨none, none, [.notice env now n.self.peer p, .event now (.disconnected p)],
      .done true⟩, fun m hm => ?_, ?_⟩
    · have hcm : m.registry.contains p = true := hm.contains.trans hc
      have hdone : (m.disconnect env now p).2 = true := by simp [Node.disconnect, hcm]
      rw [perform, Node.disconnect_of_contains hcm, hdone, ← hm.self]
      rfl
    · simp [Membership.events, Effect.event?, Effect.notice, Event.peer?, peer]
  | false =>
    refine exists_does_idle (.done false) fun m hm => ?_
    have hcm : m.registry.contains p = false := hm.contains.trans hc
    simp only [perform, Node.disconnect, hcm]
    rfl

theorem exists_does_challenge (env : Surroundings) (now : Time) (n : Node) (p : PeerId)
    (delayMs : Int) : ∃ x, (challenge p delayMs).Does env now n x := by
  by_cases hdelay : delayMs ≤ 0
  · refine exists_does_drop (.failed p) rfl (fun _ => rfl) fun m => ?_
    simp only [perform, Node.challenge, if_pos hdelay]
    rfl
  cases hc : n.registry.contains p with
  | true =>
    let f : Connection → Connection := fun c => c.shrink now (.ofMillis delayMs.toNat)
    refine ⟨⟨(n.registry.get? p).map f, none, [], .done true⟩, fun m hm => ?_,
      by simp [Membership.events]⟩
    have hcm : m.registry.contains p = true := hm.contains.trans hc
    have hlease : m.registry.get? p = n.registry.get? p := hm.lease
    simp only [perform, Node.challenge, if_neg hdelay, hcm, if_true, apply, List.append_nil,
      Registry.modify_eq_assign, hlease]
    rfl
  | false =>
    refine exists_does_idle (.done false) fun m hm => ?_
    have hcm : m.registry.contains p = false := hm.contains.trans hc
    simp only [perform, Node.challenge, if_neg hdelay, hcm]
    rfl

theorem exists_does (hcalm : ¬a.Interrupted n) (env : Surroundings) (now : Time) :
    ∃ x, a.Does env now n x := by
  cases a with
  | reply r source => exact exists_does_reply hcalm env now
  | notice p => exact exists_does_drop (.disconnected p) rfl (fun _ => rfl) fun _ => rfl
  | disconnect p => exact exists_does_disconnect env now n p
  | challenge p delayMs => exact exists_does_challenge env now n p delayMs

theorem alike_apply (hpeer : a.peer ≠ b.peer)
    (hroom : n.registry.size + 2 ≤ n.registry.capacity ∨ ¬a.Enters n) (now : Time) (x : Deed) :
    a.Alike n (b.apply now n x) where
  lease := by rw [apply, Registry.get?_assign, if_neg hpeer]
  margin := Registry.margin_assign _ _ _
  room hent := by
    have hfree : n.registry.size + 2 ≤ n.registry.capacity :=
      hroom.resolve_right (not_not.mpr hent)
    have hle : (b.apply now n x).registry.size ≤ n.registry.size + 1 :=
      Registry.size_assign_le n.registry b.peer x.lease
    have hcap : (b.apply now n x).registry.capacity = n.registry.capacity :=
      Registry.capacity_assign _ _ _
    rw [Registry.hasCapacity, Registry.hasCapacity, hcap, decide_eq_true (by omega),
      decide_eq_true (by omega)]
  stopped := rfl
  due := rfl
  seeding := rfl
  self := rfl

theorem apply_comm (hpeer : a.peer ≠ b.peer) (now : Time) (n : Node) (x y : Deed) :
    b.apply now (a.apply now n x) y =
      { a.apply now (b.apply now n y) x with
        cache := (b.apply now (a.apply now n x) y).cache
        trace := n.trace ++ x.effects ++ y.effects } := by
  simp only [apply, Registry.assign_comm hpeer, settle_comm n.pending a b]

/-- Two operations about different peers may change places, unless a shutdown arrives in the middle
of one or they are after the same free place. Each comes to the same end and tells the same either
way, and the node is left the same but for its cache and the order in which its trace tells the two:
all leases and all requests are the same. -/
theorem dealings_commute (hpeer : a.peer ≠ b.peer) (hcalm : ¬a.Interrupted n ∧ ¬b.Interrupted n)
    (hroom : n.registry.size + 2 ≤ n.registry.capacity ∨ ¬a.Enters n ∧ ¬b.Enters n)
    (env : Surroundings) (now : Time) :
    let ab := b.perform env now (a.perform env now n).1
    let ba := a.perform env now (b.perform env now n).1
    ba.2 = (a.perform env now n).2 ∧ ab.2 = (b.perform env now n).2 ∧
    ab.1 = { ba.1 with cache := ab.1.cache, trace := ab.1.trace } ∧
    ∃ es fs, ab.1.trace = n.trace ++ es ++ fs ∧ ba.1.trace = n.trace ++ fs ++ es ∧
      (∀ e ∈ Membership.events es, e.peer? = some a.peer) ∧
      ∀ e ∈ Membership.events fs, e.peer? = some b.peer := by
  intro ab ba
  obtain ⟨x, hx⟩ := exists_does hcalm.1 env now
  obtain ⟨y, hy⟩ := exists_does hcalm.2 env now
  have ha := hx.perform n (.refl a n)
  have hb := hy.perform n (.refl b n)
  have hab : ab = (b.apply now (a.apply now n x) y, y.result) := by
    have hlike := alike_apply (a := b) (Ne.symm hpeer) (hroom.imp_right And.right) now x
    simp only [ab, ha]
    exact hy.perform _ hlike
  have hba : ba = (a.apply now (b.apply now n y) x, x.result) := by
    have hlike := alike_apply hpeer (hroom.imp_right And.left) now y
    simp only [ba, hb]
    exact hx.perform _ hlike
  rw [hab, hba, ha, hb]
  exact ⟨rfl, rfl, apply_comm hpeer now n x y, x.effects, y.effects, rfl, rfl, hx.about, hy.about⟩

def welcome (p : PeerId) : Dealing := .reply ⟨p, 60000, some { peer := p }⟩ none

theorem two_newcomers_in_either_order :
    let n := (EdgePeer.bare 2 10).node
    (welcome (.filled 1)).Enters n ∧ (welcome (.filled 2)).Enters n ∧
    ((welcome (.filled 2)).perform {} 0 ((welcome (.filled 1)).perform {} 0 n).1).1.registry =
      ((welcome (.filled 1)).perform {} 0 ((welcome (.filled 2)).perform {} 0 n).1).1.registry := by
  intro n
  have hcalm (p : PeerId) : ¬(welcome p).Interrupted n := fun h => Bool.false_ne_true h.2.2
  have hroom : n.registry.size + 2 ≤ n.registry.capacity := by decide
  obtain ⟨_, _, hsame, _⟩ := dealings_commute (a := welcome (.filled 1)) (b := welcome (.filled 2))
    (n := n) (by decide) ⟨hcalm _, hcalm _⟩ (.inl hroom) {} 0
  have hregistry := congrArg Node.registry hsame
  exact ⟨⟨rfl, rfl⟩, ⟨rfl, rfl⟩, hregistry⟩

example :
    let n := (EdgePeer.bare 1 10).node
    ((welcome (.filled 2)).perform {} 0 ((welcome (.filled 1)).perform {} 0 n).1).1.registry.peers =
      [.filled 1] ∧
    ((welcome (.filled 1)).perform {} 0 ((welcome (.filled 2)).perform {} 0 n).1).1.registry.peers =
      [.filled 2] := by
  decide +kernel

end Dealing

end LeaseOverlay
