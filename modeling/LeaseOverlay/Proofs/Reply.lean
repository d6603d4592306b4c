import LeaseOverlay.Proofs.Operations

namespace LeaseOverlay

def ReplyOutcome.accepted : ReplyOutcome → Bool
  | connected | reconnected => true
  | revoked | atCapacity | rejected => false

namespace Registry

theorem eq_put_of_grant {r s : Registry} {now : Time} {p : PeerId} {d : Descriptor} {lease : Time}
    {isNew : Bool} (h : r.grant now p d lease = some (s, isNew)) :
    s = r.put p (.granted p d now lease r.margin) := by
  unfold grant at h
  split at h
  · cases h
    rfl
  · split at h
    · cases h
      rfl
    · cases h

end Registry

namespace Node

variable {now : Time} {n m : Node} {r : LeaseReply} {p : PeerId} {d : Descriptor} {lease : Time}

theorem registry_install (h : (n.install now p d lease).2.accepted = true) :
    (n.install now p d lease).1.registry =
      n.registry.put p (.granted p d now lease n.registry.margin) := by
  unfold install at h ⊢
  split at h
  · cases h
  next s isNew hg =>
  have hs : s = n.registry.put p (.granted p d now lease n.registry.margin) :=
    Registry.eq_put_of_grant hg
  split at h
  · cases h
  next hstopped =>
  dsimp only
  rw [if_neg hstopped]
  split <;> exact hs

theorem install_of_stopped (hn : n.leaseStopped = true) (p : PeerId) (d : Descriptor)
    (lease : Time) : (n.install now p d lease).2.accepted = false := by
  unfold install
  split
  · rfl
  · rw [if_pos hn]
    rfl

theorem install_of_contains (hn : n.Live) (hc : n.registry.contains p = true) (d : Descriptor)
    (lease : Time) : (n.install now p d lease).2 = .reconnected := by
  simp [install, Registry.grant_of_contains hc, hn.1]

theorem stopped_of_offered (hdue : n.shutdownDue = true) (hnew : n.registry.get? r.peer = none)
    (h : n.offered r = (m, some d)) : m.leaseStopped = true := by
  unfold offered at h
  split at h
  · split at h
    · cases h
    · simp only [check, hdue, if_true, stopLease] at h
      split at h
      · next heq =>
        obtain ⟨rfl, _⟩ := Prod.mk.inj heq
        cases h
        rfl
      · cases h
  · simp [hnew] at h

theorem offered_of_get? {c : Connection} (hn : n.Live) (hc : n.registry.get? r.peer = some c)
    (hd : ∀ d, r.descriptor = some d → d.peer = r.peer ∧ n.seeding.accepts d = true) :
    n.offered r = (n, some (r.descriptor.getD c.descriptor)) := by
  unfold offered
  cases h : r.descriptor with
  | none => simp [hc]
  | some d =>
    obtain ⟨hpeer, haccepts⟩ := hd d h
    simp [hpeer, check_of_live hn, haccepts]

theorem exists_install_of_accepted (h : (n.answer now r).2.accepted = true) :
    ∃ m d lease, n.leaseStopped = false ∧ r.lease = some lease ∧ n.offered r = (m, some d) ∧
      n.answer now r = m.install now r.peer d lease := by
  unfold answer at h ⊢
  split at h
  · cases h
  next hstopped =>
  rw [if_neg hstopped]
  split at h
  · split at h <;> cases h
  next lease hlease =>
  split at h
  · cases h
  next m d ho =>
  exact ⟨m, d, lease, by simpa using hstopped, hlease, ho, rfl⟩

theorem registry_answer (h : (n.answer now r).2.accepted = true) :
    ∃ d lease, r.lease = some lease ∧ (n.answer now r).1.registry =
      n.registry.put r.peer (.granted r.peer d now lease n.registry.margin) := by
  obtain ⟨m, d, lease, _, hlease, ho, heq⟩ := exists_install_of_accepted h
  obtain ⟨hm, _⟩ := held_of_offered ho
  rw [heq] at h ⊢
  refine ⟨d, lease, hlease, ?_⟩
  rw [registry_install h, hm]

theorem live_of_accepted (hnew : n.registry.get? r.peer = none)
    (h : (n.answer now r).2.accepted = true) : n.Live := by
  obtain ⟨m, d, lease, hstopped, _, ho, heq⟩ := exists_install_of_accepted h
  refine ⟨hstopped, ?_⟩
  cases hdue : n.shutdownDue with
  | false => rfl
  | true =>
    have hm : m.leaseStopped = true := stopped_of_offered hdue hnew ho
    rw [heq, install_of_stopped hm] at h
    cases h

theorem answer_of_get? {c : Connection} (hn : n.Live) (hc : n.registry.get? r.peer = some c)
    (hl : r.lease = some lease)
    (hd : ∀ d, r.descriptor = some d → d.peer = r.peer ∧ n.seeding.accepts d = true) :
    (n.answer now r).2 = .reconnected := by
  have hcontains : n.registry.contains r.peer = true := Registry.contains_iff.mpr ⟨c, hc⟩
  simp only [answer, hn.1, hl, offered_of_get? hn hc hd]
  exact install_of_contains hn hcontains _ lease

end Node

end LeaseOverlay
