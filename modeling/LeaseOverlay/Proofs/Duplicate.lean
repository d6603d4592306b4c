import LeaseOverlay.Proofs.Answer
import LeaseOverlay.Proofs.Datagram
import LeaseOverlay.Proofs.Membership
import LeaseOverlay.Proofs.Purging

namespace LeaseOverlay

namespace Effect

def outgoing : Effect → Bool
  | sent .. | group .. => true
  | route _ | event .. => false

def hint? : Effect → Option Udp.Input
  | route r => some (.hint r)
  | _ => none

end Effect

namespace Udp

def heard (u : Udp) (es : List Effect) : Udp := u.run (es.filterMap Effect.hint?)

theorem learn_learn (u : Udp) (r : Route) : (u.learn r).learn r = u.learn r := by
  by_cases hself : r.peer = u.self
  · simp [learn, hself]
  cases he : r.addresses.findSome? endpoint? with
  | none => simp [learn, hself, he]
  | some e => simp [learn, hself, he, Table.insert_insert]

end Udp

theorem Registry.put_put (r : Registry) (p : PeerId) (c : Connection) :
    (r.put p c).put p c = r.put p c :=
  congrArg (Registry.mk r.capacity r.margin) (Table.insert_insert _ _ _ _)

theorem Pending.settle_settle (q : Pending) (p : PeerId) (source : Option Destination) :
    (q.settle p source).settle p source = q.settle p source := by
  cases source with
  | none => simp [settle, drop]
  | some s =>
    simp only [settle, drop, List.filter_filter, Pending.mk.injEq]
    exact List.filter_congr fun e _ => by simp only [Bool.and_left_comm, Bool.and_self]; simp

namespace Node

variable {now : Time} {n : Node} {r : LeaseReply} {p : PeerId} {d : Descriptor} {lease : Time}

def renewal (now : Time) (d : Descriptor) (p : PeerId) : List Effect :=
  [.route d.route, .event now (.reconnected p)]

theorem leased_leased (now : Time) (n : Node) (p : PeerId) (d : Descriptor) (lease : Time)
    (e : Event) : (n.leased now p d lease e).leased now p d lease (.reconnected p) =
      { n.leased now p d lease e with
        trace := (n.leased now p d lease e).trace ++ renewal now d p } := by
  have hregistry : (n.leased now p d lease e).lend now p d lease = n.lend now p d lease :=
    n.registry.put_put p _
  have hcache := n.cache.fst_publish_publish now d n.settings.cacheLifetime
  simp only [leased] at hregistry ⊢
  rw [hregistry, hcache]
  rfl

theorem contains_leased (now : Time) (n : Node) (p : PeerId) (d : Descriptor) (lease : Time)
    (e : Event) : (n.leased now p d lease e).registry.contains p = true :=
  Registry.contains_iff.mpr ⟨_, Table.get?_insert_self _ _ _⟩

theorem offer_leased (ho : n.offer r = some d) (e : Event) :
    (n.leased now r.peer d lease e).offer r = some d := by
  cases hd : r.descriptor with
  | some d' =>
    simp only [offer, hd] at ho ⊢
    exact ho
  | none =>
    have hget : (n.leased now r.peer d lease e).registry.get? r.peer =
        some (.granted r.peer d now lease n.registry.margin) := Table.get?_insert_self _ _ _
    simp [offer, hd, hget, Connection.granted]

theorem answer_leased (hs : n.leaseStopped = false) (hl : r.lease = some lease)
    (ho : n.offer r = some d) (hi : n.interrupted r = false) (e : Event) :
    ((n.leased now r.peer d lease e).answer now r).1 = { n.leased now r.peer d lease e with
      trace := (n.leased now r.peer d lease e).trace ++ renewal now d r.peer } := by
  have hagain : Answered now (n.leased now r.peer d lease e) r _ :=
    .reconnected hs hl (offer_leased ho e) hi (contains_leased now n r.peer d lease e)
  rw [hagain.answer_eq]
  exact leased_leased now n r.peer d lease e

theorem answer_checked (h : n.answer now r = (n.checked r, (n.answer now r).2)) :
    ((n.checked r).answer now r).1 = n.checked r := by
  cases hi : n.interrupted r with
  | true =>
    rw [checked_of_interrupted hi, (Answered.closed rfl).answer_eq]
  | false =>
    rw [checked_of_not_interrupted hi] at h ⊢
    rw [h]

theorem answer_again_of_not_accepted (h : (n.answer now r).2.accepted = false) :
    ((n.answer now r).1.answer now r).1 = (n.answer now r).1 := by
  have ha := n.answered now r
  generalize hx : n.answer now r = x at ha h
  cases ha with
  -- a node that the first reply leaves as it was does the same again
  | closed => rw [hx]
  | unknown => rw [hx]
  | revoked hs hl =>
    have hc : (n.ended now r.peer (.failed r.peer)).registry.contains r.peer = false :=
      Registry.contains_eq_false_iff.mpr (Table.get?_erase_self _ _)
    have hagain : Answered now (n.ended now r.peer (.failed r.peer)) r _ := .unknown hs hl hc
    rw [hagain.answer_eq]
  | unfit => exact answer_checked (by rw [hx])
  | full => exact answer_checked (by rw [hx])
  | undone => rw [(Answered.closed rfl).answer_eq]
  | overtaken => rw [(Answered.closed rfl).answer_eq]
  | connected => cases h
  | reconnected => cases h

theorem answer_again_of_accepted (h : (n.answer now r).2.accepted = true) :
    ∃ d e, (n.answer now r).1.trace = n.trace ++ [.route d.route, .event now e] ∧
      ((n.answer now r).1.answer now r).1 = { (n.answer now r).1 with
        trace := (n.answer now r).1.trace ++ renewal now d r.peer } := by
  have ha := n.answered now r
  generalize n.answer now r = x at ha h
  cases ha with
  | connected hs hl ho hi => exact ⟨_, _, rfl, answer_leased hs hl ho hi _⟩
  | reconnected hs hl ho hi => exact ⟨_, _, rfl, answer_leased hs hl ho hi _⟩
  | _ => cases h

theorem settled_settled (n : Node) (r : LeaseReply) (source : Option Destination) :
    (n.settled r source).settled r source = n.settled r source := by
  simp only [settled, Pending.settle_settle]

theorem handleReply_again (now : Time) (n : Node) (r : LeaseReply) (source : Option Destination) :
    ((n.handleReply now r source).1.handleReply now r source).1 =
      ((n.answer now r).1.answer now r).1.settled r source := by
  rw [handleReply_eq_answer now n, handleReply_eq, settled_settled, ← handleReply_eq,
    handleReply_eq_answer]

theorem handleNotice_again (now : Time) (n : Node) (p : PeerId) :
    ((n.handleNotice now p).1.handleNotice now p).1 = (n.handleNotice now p).1 := by
  cases hc : n.registry.contains p with
  | true =>
    have hended : (n.ended now p (.disconnected p)).registry.contains p = false :=
      Registry.contains_eq_false_iff.mpr (Table.get?_erase_self _ _)
    simp only [handleNotice, drop_of_contains hc, drop_of_not_contains hended]
  | false => simp only [handleNotice, drop_of_not_contains hc]

theorem trace_handleReply (now : Time) (n : Node) (r : LeaseReply) (source : Option Destination) :
    n.trace <+: (n.handleReply now r source).1.trace := by
  have hq : Quiet n.self.peer fun _ => True := fun _ _ _ => trivial
  refine (booked_handleReply hq (fun lease _ => ?_) (fun _ => trivial) n source).trace_extends
  exact ⟨fun _ => trivial, fun _ => trivial, fun _ => trivial⟩

theorem trace_handleMessage (now : Time) (n : Node) (m : Message) (source : Option Destination) :
    n.trace <+: (n.handleMessage now m source).1.trace := by
  unfold handleMessage
  split
  · exact List.prefix_rfl
  · exact n.trace_handleReply now _ source
  · exact (n.booked_handleNotice (P := fun _ => True) trivial).trace_extends
  · exact List.prefix_rfl
  · exact List.prefix_rfl

def Accepts (now : Time) (n : Node) (m : Message) (source : Option Destination)
    (r : LeaseReply) : Prop :=
  Control.ofMessage m = .ok (some (.reply r)) ∧ (n.handleReply now r source).2.accepted = true

theorem handleMessage_again_of_not_accepts {m : Message} {source : Option Destination}
    (h : ∀ r, ¬n.Accepts now m source r) :
    (n.handleMessage now m source).1.handleMessage now m source = n.handleMessage now m source := by
  cases hm : Control.ofMessage m with
  | error e => simp only [handleMessage_of_error now _ source hm]
  | ok c =>
    simp only [handleMessage_of_ok now _ source hm]
    cases c with
    | none => rfl
    | some c =>
    cases c with
    | request d => rfl
    | reply r =>
      have hr : (n.answer now r).2.accepted = false := by
        have hn := h r
        rw [Accepts, handleReply_eq_answer] at hn
        simpa [hm] using hn
      dsimp only
      rw [handleReply_again, answer_again_of_not_accepted hr, handleReply_eq_answer]
    | disconnect p =>
      dsimp only
      rw [handleNotice_again]

theorem handleMessage_again_of_accepts {m : Message} {source : Option Destination}
    (h : n.Accepts now m source r) : ∃ d e,
      (n.handleMessage now m source).1.trace = n.trace ++ [.route d.route, .event now e] ∧
      (n.handleMessage now m source).1.handleMessage now m source =
        ({ (n.handleMessage now m source).1 with
          trace := (n.handleMessage now m source).1.trace ++ renewal now d r.peer }, true) := by
  obtain ⟨hm, hr⟩ := h
  simp only [handleMessage_of_ok now _ source hm]
  rw [handleReply_again]
  rw [handleReply_eq_answer] at hr ⊢
  obtain ⟨d, e, htrace, hagain⟩ := answer_again_of_accepted hr
  refine ⟨d, e, htrace, ?_⟩
  rw [hagain]
  rfl

/-- Nothing goes out with the effects `fs`, and the routes among them are those of `es`. -/
structure Redundant (es fs : List Effect) : Prop where
  kept : ∀ e ∈ fs, e.outgoing = false
  learnt : ∀ u : Udp, u.heard (es ++ fs) = u.heard es

theorem redundant_nil (es : List Effect) : Redundant es [] :=
  ⟨by simp, fun u => by rw [List.append_nil]⟩

theorem redundant_renewal (now : Time) (d : Descriptor) (e : Event) (p : PeerId) :
    Redundant [.route d.route, .event now e] (renewal now d p) := by
  refine ⟨by simp [renewal, Effect.outgoing], fun u => ?_⟩
  simp only [Udp.heard, renewal, List.cons_append, List.nil_append, List.filterMap_cons,
    List.filterMap_nil, Effect.hint?, Udp.run, Udp.input, Udp.learn_learn]

/-- A message that arrives again at once changes nothing of a node but its trace, and it gets the
same answer. No message goes out and no route is learnt the second time. There is no event either,
unless the message is a lease reply that was accepted: that one renews its lease once more. -/
theorem duplicate_is_harmless (now : Time) (n : Node) (m : Message)
    (source : Option Destination) :
    ∃ es fs, (n.handleMessage now m source).1.trace = n.trace ++ es ∧
      (n.handleMessage now m source).1.handleMessage now m source =
        ({ (n.handleMessage now m source).1 with trace := n.trace ++ es ++ fs },
          (n.handleMessage now m source).2) ∧
      Redundant es fs ∧
      (∀ r, n.Accepts now m source r → Membership.events fs = [.reconnected r.peer]) ∧
      ((∀ r, ¬n.Accepts now m source r) → Membership.events fs = []) := by
  by_cases h : ∃ r, n.Accepts now m source r
  · obtain ⟨r, hr⟩ := h
    obtain ⟨d, e, htrace, hagain⟩ := handleMessage_again_of_accepts hr
    have htrue : (n.handleMessage now m source).2 = true := by
      rw [handleMessage_of_ok now n source hr.1]
    refine ⟨_, renewal now d r.peer, htrace, ?_, redundant_renewal now d e r.peer, ?_, ?_⟩
    · rw [hagain, htrue, htrace]
    · intro r' hr'
      obtain ⟨rfl⟩ : r = r' := by simpa using hr.1.symm.trans hr'.1
      rfl
    · exact fun hn => absurd hr (hn r)
  · have hn : ∀ r, ¬n.Accepts now m source r := not_exists.mp h
    obtain ⟨es, hes⟩ := n.trace_handleMessage now m source
    refine ⟨es, [], hes.symm, ?_, redundant_nil es, fun r hr => absurd hr (hn r), fun _ => rfl⟩
    rw [handleMessage_again_of_not_accepts hn, List.append_nil, hes]

example :
    let n := (EdgePeer.bare 2 10).node
    let r : LeaseReply := ⟨.filled 1, 60000, some { peer := .filled 1 }⟩
    Membership.events ((n.handleReply 0 r none).1.handleReply 0 r none).1.trace =
      [.connected (.filled 1), .reconnected (.filled 1)] := by
  decide +kernel

end Node

end LeaseOverlay
