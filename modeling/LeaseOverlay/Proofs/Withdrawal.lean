import LeaseOverlay.Proofs.Sweep

namespace LeaseOverlay

namespace Pending

variable {q : Pending} {dest d : Destination}

theorem drop_eq_self_iff : q.drop dest = q ↔ q.contains dest = false := by
  obtain ⟨rs⟩ := q
  simp [drop, contains, List.filter_eq_self]

theorem contains_drop_self (q : Pending) (dest : Destination) :
    (q.drop dest).contains dest = false := by
  simp [drop, contains]

theorem contains_drop_ne (q : Pending) (h : d ≠ dest) :
    (q.drop dest).contains d = q.contains d := by
  rw [Bool.eq_iff_iff]
  simp only [drop, contains, List.any_eq_true, List.mem_filter, decide_eq_true_eq]
  constructor
  · rintro ⟨r, ⟨hr, _⟩, hd⟩
    exact ⟨r, hr, hd⟩
  · rintro ⟨r, hr, rfl⟩
    exact ⟨r, ⟨hr, h⟩, rfl⟩

end Pending

namespace Node

variable {n m : Node} {env : Surroundings} {now moment : Time} {dest : Destination} {e : SendError}
  {q : PeerId}

def attempt (env : Surroundings) (now : Time) (n : Node) (dest : Destination) : Effect :=
  .sent now dest (env.fault dest) (Control.request n.self).toMessage

theorem request_of_fault (hopen : n.leaseStopped = false) (hf : env.fault dest = some e) :
    n.request env now dest = ({ n with
      pending := n.pending.drop dest
      trace := n.trace ++ [n.attempt env now dest] }, some e) := by
  rw [request_eq hopen, hf]
  simp [Pending.asked, Pending.drop, attempt, hf]

theorem of_request_eq_error (h : n.request env now dest = (m, some e)) :
    (n.leaseStopped = true ∧ m = n) ∨
    (n.leaseStopped = false ∧ m = { n with
      pending := n.pending.drop dest
      trace := n.trace ++ [n.attempt env now dest] }) := by
  by_cases hs : n.leaseStopped = true
  · rw [request, if_pos hs] at h
    exact .inl ⟨hs, (Prod.mk.inj h).1.symm⟩
  · rw [Bool.not_eq_true] at hs
    have hf : env.fault dest = some e := by
      rw [request_eq hs] at h
      exact (Prod.mk.inj h).2
    rw [request_of_fault hs hf] at h
    exact .inr ⟨hs, (Prod.mk.inj h).1.symm⟩

def waiting (n : Node) (q : PeerId) : LeaseState :=
  if n.pending.contains (.peer q) then .awaitingReply else .unconnected

theorem stateOf_congr (hr : m.registry = n.registry)
    (hp : m.pending.contains (.peer q) = n.pending.contains (.peer q)) :
    m.stateOf moment q = n.stateOf moment q := by
  simp only [stateOf, hr, hp]

theorem stateOf_eq_or_waiting (hr : m.registry = n.registry) (moment : Time) (q : PeerId) :
    m.stateOf moment q = n.stateOf moment q ∨
      (n.stateOf moment q = n.waiting q ∧ m.stateOf moment q = m.waiting q) := by
  unfold stateOf
  rw [hr]
  cases n.registry.get? q with
  | none => exact .inr ⟨rfl, rfl⟩
  | some c =>
    cases hc : c.connected with
    | true => exact .inl (by simp [hc])
    | false => exact .inr ⟨by simp [hc, waiting], by simp [hc, waiting]⟩

theorem events_attempt (env : Surroundings) (now : Time) (n : Node) (dest : Destination) :
    Membership.events [n.attempt env now dest] = [] := rfl

theorem awaiting_of_stateOf_ne (hr : m.registry = n.registry)
    (hp : m.pending = n.pending.drop dest) (hne : m.stateOf moment q ≠ n.stateOf moment q) :
    dest = .peer q ∧ n.stateOf moment q = .awaitingReply ∧ m.stateOf moment q = .unconnected := by
  have hdest : .peer q = dest := by
    by_contra hother
    exact hne (stateOf_congr hr (hp ▸ n.pending.contains_drop_ne hother))
  subst hdest
  rcases stateOf_eq_or_waiting hr moment q with heq | ⟨hn, hm⟩
  · exact absurd heq hne
  · have hgone : m.waiting q = .unconnected := by
      rw [waiting, hp, Pending.contains_drop_self]
      rfl
    rw [hm, hn, hgone] at hne
    rw [hm, hn, hgone]
    cases hq : n.pending.contains (.peer q) with
    | true => exact ⟨rfl, if_pos hq, rfl⟩
    | false => exact absurd (if_neg (Bool.not_eq_true _ ▸ hq)).symm hne

/-- A request that fails changes no lease and is no event, and it is not waited for. All requests
that wait, and the states of all peers, stay as they were if none of them is to its destination. If
one is, it is forgotten as well, and nothing else; a peer that holds no lease was awaited by it and
counts as unconnected then. -/
theorem failed_request_is_withdrawn (h : n.request env now dest = (m, some e)) :
    (m.registry = n.registry ∧ Membership.events m.trace = Membership.events n.trace) ∧
    (n.leaseStopped = true ∨ n.pending.contains dest = false →
      m.pending = n.pending ∧ ∀ moment q, m.stateOf moment q = n.stateOf moment q) ∧
    (n.leaseStopped = false → n.pending.contains dest = true →
      m.pending.requests = n.pending.requests.filter (fun r => r.1 ≠ dest) ∧
      m.pending ≠ n.pending ∧
      ∀ moment q, m.stateOf moment q ≠ n.stateOf moment q →
        dest = .peer q ∧ n.stateOf moment q = .awaitingReply ∧
          m.stateOf moment q = .unconnected) := by
  rcases of_request_eq_error h with ⟨hs, rfl⟩ | ⟨hs, hm⟩
  · exact ⟨⟨rfl, rfl⟩, fun _ => ⟨rfl, fun _ _ => rfl⟩, fun hopen => by simp [hs] at hopen⟩
  · have hregistry : m.registry = n.registry := by rw [hm]
    have hpending : m.pending = n.pending.drop dest := by rw [hm]
    have htrace : m.trace = n.trace ++ [n.attempt env now dest] := by rw [hm]
    refine ⟨⟨hregistry, ?_⟩, fun hnew => ?_, fun _ hwaits => ⟨?_, ?_, ?_⟩⟩
    · rw [htrace, Membership.events_append, events_attempt, List.append_nil]
    · have hnone : n.pending.contains dest = false := hnew.resolve_left (by simp [hs])
      have hsame : m.pending = n.pending := hpending.trans (Pending.drop_eq_self_iff.mpr hnone)
      exact ⟨hsame, fun moment q => stateOf_congr hregistry (by rw [hsame])⟩
    · rw [hpending]
      rfl
    · intro hsame
      have hnone := Pending.drop_eq_self_iff.mp (hpending.symm.trans hsame)
      exact Bool.noConfusion (hnone.symm.trans hwaits)
    · intro moment q hne
      exact awaiting_of_stateOf_ne hregistry hpending hne

def expectant : Node :=
  ((EdgePeer.bare 2 (.ofMillis 300000)).node.request {} 0 (.peer (.filled 1))).1

def cutOff : Surroundings where
  fault dest := some (.noRoute dest)

theorem failed_request_elsewhere_is_harmless :
    let dest := Destination.address "udp://10.0.0.1:9700"
    let x := expectant.request cutOff 4 dest
    x.2 = some (.noRoute dest) ∧ x.1.pending = expectant.pending ∧
    expectant.pending.requests = [(.peer (.filled 1), 0)] ∧
    x.1.stateOf 4 (.filled 1) = .awaitingReply := by
  intro dest x
  have h : expectant.request cutOff 4 dest = (x.1, some (.noRoute dest)) := rfl
  obtain ⟨_, hnew, _⟩ := failed_request_is_withdrawn h
  obtain ⟨hpending, hstates⟩ := hnew (.inr (by decide +kernel))
  refine ⟨rfl, hpending, by decide +kernel, ?_⟩
  rw [hstates]
  decide +kernel

/-- The same request is made again and cannot be sent: the first one, still without an answer, is
not waited for any longer. -/
theorem failed_repetition_forgets_the_first_request :
    (expectant.request cutOff 4 (.peer (.filled 1))).2 = some (.noRoute (.peer (.filled 1))) ∧
    expectant.pending.requests = [(.peer (.filled 1), 0)] ∧
    (expectant.request cutOff 4 (.peer (.filled 1))).1.pending.requests = [] ∧
    expectant.stateOf 4 (.filled 1) = .awaitingReply ∧
    (expectant.request cutOff 4 (.peer (.filled 1))).1.stateOf 4 (.filled 1) = .unconnected := by
  refine ⟨rfl, ?_, ?_, ?_, ?_⟩ <;> decide +kernel

end Node

end LeaseOverlay
