import LeaseOverlay.Proofs.Membership

namespace LeaseOverlay

namespace Connection

structure WellFormed (q : PeerId) (c : Connection) : Prop where
  peer : c.peer = q
  connected : c.connected = true
  descriptor : c.descriptor.peer = q
  renewal : c.renewAt ≤ c.leaseEnd

variable {q : PeerId}

theorem wellFormed_granted {d : Descriptor} (hd : d.peer = q) (now lease margin : Time) :
    (granted q d now lease margin).WellFormed q :=
  ⟨rfl, rfl, hd, Nat.sub_le _ _⟩

theorem WellFormed.shrink {c : Connection} (h : c.WellFormed q) (now delay : Time) :
    (c.shrink now delay).WellFormed q :=
  ⟨h.peer, h.connected, h.descriptor, Nat.min_le_right _ _⟩

end Connection

namespace Registry

structure WellFormed (capacity : Nat) (margin : Time) (r : Registry) : Prop where
  capacity_eq : r.capacity = capacity
  margin_eq : r.margin = margin
  size_le : r.size ≤ capacity
  nodup : r.peers.Nodup
  entry : ∀ q c, r.get? q = some c → c.WellFormed q

variable {capacity : Nat} {margin : Time} {r s : Registry} {p : PeerId} {c : Connection}

theorem size_put_of_contains (h : r.contains p = true) (c : Connection) :
    (r.put p c).size = r.size := by
  rw [← card_members, ← card_members, members_put, Finset.insert_eq_of_mem (mem_members.mpr h)]

theorem size_put_of_not_contains (h : r.contains p = false) (c : Connection) :
    (r.put p c).size = r.size + 1 := by
  have hp : p ∉ r.members := fun hm => by simpa [h] using mem_members.mp hm
  rw [← card_members, ← card_members, members_put, Finset.card_insert_of_notMem hp]

theorem size_remove_le (r : Registry) (p : PeerId) : (r.remove p).size ≤ r.size := by
  rw [← card_members, ← card_members, members_remove]
  exact Finset.card_erase_le

namespace WellFormed

theorem new (capacity : Nat) (margin : Time) :
    (Registry.new capacity margin).WellFormed capacity margin := by
  refine ⟨rfl, rfl, Nat.zero_le _, List.nodup_nil, ?_⟩
  intro q c h
  cases h

theorem put (h : r.WellFormed capacity margin) (hc : c.WellFormed p)
    (hs : (r.put p c).size ≤ capacity) : (r.put p c).WellFormed capacity margin := by
  refine ⟨h.capacity_eq, h.margin_eq, hs, nodup_peers _, ?_⟩
  intro q c' hq
  rw [get?_put] at hq
  split at hq
  · next he =>
    cases hq
    rwa [he]
  · exact h.entry q c' hq

theorem remove (h : r.WellFormed capacity margin) (p : PeerId) :
    (r.remove p).WellFormed capacity margin := by
  refine ⟨h.capacity_eq, h.margin_eq, ?_, nodup_peers _, ?_⟩
  · exact Nat.le_trans (size_remove_le r p) h.size_le
  · intro q c hq
    rw [get?_remove] at hq
    split at hq
    · cases hq
    · exact h.entry q c hq

theorem renew (h : r.WellFormed capacity margin) {d : Descriptor} (hd : Change.Held r p d)
    (now lease : Time) :
    (r.put p (.granted p d now lease r.margin)).WellFormed capacity margin := by
  obtain ⟨c, hc, hpeer⟩ := hd
  have hd : d.peer = p := by
    rcases hpeer with hpeer | rfl
    · exact hpeer
    · exact (h.entry p c hc).descriptor
  refine h.put (Connection.wellFormed_granted hd _ _ _) ?_
  rw [size_put_of_contains (contains_iff.mpr ⟨c, hc⟩)]
  exact h.size_le

theorem change {c : Change} (hc : c.Legal r) (h : r.WellFormed capacity margin) :
    (c.apply r).WellFormed capacity margin := by
  cases c with
  | told e => exact h
  | admitted now p d lease =>
    obtain ⟨hnew, hroom, hpeer⟩ := hc
    have hlt : r.size < r.capacity := by simpa [hasCapacity] using hroom
    refine h.put (Connection.wellFormed_granted hpeer _ _ _) ?_
    rw [size_put_of_not_contains hnew, ← h.capacity_eq]
    exact hlt
  | renewed now p d lease => exact h.renew hc now lease
  | prolonged now p d lease => exact h.renew hc now lease
  | shrunk now p delay =>
    obtain ⟨c, hget⟩ := contains_iff.mp hc
    rw [Change.apply, modify_of_get? hget]
    refine h.put ((h.entry p c hget).shrink now delay) ?_
    rw [size_put_of_contains hc]
    exact h.size_le
  | lost now p => exact h.remove p
  | expired now p due => exact h.remove p
  | parted now p => exact h.remove p
  | closed => exact h

theorem books {cs : List Change} (hb : Books r cs s) (h : r.WellFormed capacity margin) :
    s.WellFormed capacity margin := by
  induction hb with
  | nil => exact h
  | cons legal _ ih => exact ih (h.change legal)

end WellFormed

end Registry

namespace EdgePeer

variable {capacity : Nat} {margin : Time} {p : EdgePeer} {t : Turn} {r : LeaseReply}

theorem wellFormed_run (h : p.node.registry.WellFormed capacity margin) (ts : List Turn) :
    (p.run ts).node.registry.WellFormed capacity margin := by
  refine run_induction (P := fun p => p.node.registry.WellFormed capacity margin) ?_ h ts
  intro p t hp
  obtain ⟨cs, hbooks, _, _⟩ := p.exists_changes t
  exact hp.books hbooks

theorem not_ends_of_reply? (hr : t.action.reply? = some r) (hl : r.lease.isSome = true)
    (q : PeerId) (e : Event) : ¬t.Ends q e := by
  obtain ⟨lease, hlease⟩ := Option.isSome_iff_exists.mp hl
  rintro ⟨c, hc, _⟩
  rw [Action.cause?_of_control? (Action.control?_of_reply? hr)] at hc
  obtain ⟨⟨_, hno⟩, _⟩ := Option.ite_none_right_eq_some.mp hc
  rw [hlease] at hno
  cases hno

theorem apply_of_full {self : PeerId} {reg : Registry} {c : Change}
    (hr : t.action.reply? = some r) (hl : r.lease.isSome = true)
    (hnew : reg.contains r.peer = false) (hfull : reg.hasCapacity = false)
    (hlegal : c.Legal reg) (hc : t.Permits self c) : c.apply reg = reg := by
  have hheld {q : PeerId} {d : Descriptor} {lease : Time} (h : Change.Held reg q d) :
      ¬t.Offers q lease := by
    rintro ⟨r', hr', rfl, _⟩
    rw [hr] at hr'
    cases hr'
    have hmem := Registry.mem_members.mp (Membership.mem_of_held h)
    rw [hnew] at hmem
    cases hmem
  have hends := not_ends_of_reply? hr hl
  cases c with
  | told e => rfl
  | admitted now q d lease =>
    have hroom := hlegal.2.1
    rw [hfull] at hroom
    cases hroom
  | renewed now q d lease => exact absurd hc.2 (hheld hlegal)
  | prolonged now q d lease => exact absurd hc.2 (hheld hlegal)
  | shrunk now q delay =>
    obtain ⟨_, delayMs, _, ha, _⟩ := hc
    rw [ha] at hr
    cases hr
  | lost now q => exact absurd hc.2.1 (hends q _)
  | expired now q due => exact absurd hc.2.1 (hends q _)
  | parted now q => exact absurd hc.2 (hends q _)
  | closed => rfl

theorem books_of_full {self : PeerId} {reg s : Registry} {cs : List Change}
    (hr : t.action.reply? = some r) (hl : r.lease.isSome = true)
    (hnew : reg.contains r.peer = false) (hfull : reg.hasCapacity = false)
    (hb : Books reg cs s) (hcs : ∀ c ∈ cs, t.Permits self c) : s = reg := by
  induction hb with
  | nil => rfl
  | cons legal _ ih =>
    have hsame := apply_of_full hr hl hnew hfull legal (hcs _ List.mem_cons_self)
    have hrest := ih (by rwa [hsame]) (by rwa [hsame]) fun c hc => hcs c (List.mem_cons_of_mem _ hc)
    rw [hrest, hsame]

/-- Whatever a peer is put through, its registry stays well formed. The reply of a new peer changes
nothing in it once it is full, while a peer that has a lease there renews it all the same. -/
theorem registry_of_run (h : p.node.registry = .new capacity margin) (ts : List Turn) :
    (p.run ts).node.registry.WellFormed capacity margin ∧
    (∀ t r, t.action.reply? = some r → r.lease.isSome = true → r.peer ∉ (p.run ts).leased →
      (p.run ts).node.registry.size = capacity →
        ((p.run ts).after t).node.registry = (p.run ts).node.registry) ∧
    (∀ t r lease, t.action.reply? = some r → r.lease = some lease → r.peer ∈ (p.run ts).leased →
      (p.run ts).node.registry.size = capacity → (p.run ts).node.Live →
      (∀ d, r.descriptor = some d →
        d.peer = r.peer ∧ (p.run ts).node.seeding.accepts d = true) →
        (p.run ts).answer? t = some .reconnected ∧
        ∃ d, ((p.run ts).after t).node.registry =
          (p.run ts).node.registry.put r.peer (.granted r.peer d t.now lease margin)) := by
  have hwf : (p.run ts).node.registry.WellFormed capacity margin :=
    wellFormed_run (h ▸ .new capacity margin) ts
  generalize p.run ts = m at hwf ⊢
  refine ⟨hwf, ?_, ?_⟩
  · intro t r hr hl hnew hsize
    obtain ⟨cs, hbooks, _, hcs⟩ := m.exists_changes t
    have hnew : m.node.registry.contains r.peer = false := by
      simpa [leased, Registry.mem_members] using hnew
    have hfull : m.node.registry.hasCapacity = false := by
      simp [Registry.hasCapacity, hsize, hwf.capacity_eq]
    exact books_of_full hr hl hnew hfull hbooks hcs
  · intro t r lease hr hl hmem _ hlive hd
    obtain ⟨c, hc⟩ := Registry.contains_iff.mp (Registry.mem_members.mp hmem)
    have hanswer : ((m.node.settled r t.action.source?).answer t.now r).2 = .reconnected :=
      Node.answer_of_get? (n := m.node.settled r t.action.source?) hlive hc hl hd
    have ho : m.answer? t = some .reconnected := by
      rw [answer?, hr, Option.map_some, Node.handleReply_eq, hanswer]
    obtain ⟨d, lease', hlease', hreg⟩ := registry_after_of_accepted hr ho rfl
    rw [hl] at hlease'
    cases hlease'
    rw [hwf.margin_eq] at hreg
    exact ⟨ho, d, hreg⟩

theorem registry_with_room_for_one :
    ((bare 1 10).run [.grant 0 (.filled 1) 30]).node.registry.size = 1 ∧
    (((bare 1 10).run [.grant 0 (.filled 1) 30]).after (.grant 4 (.filled 2) 30)).node.registry =
      ((bare 1 10).run [.grant 0 (.filled 1) 30]).node.registry ∧
    ((bare 1 10).run [.grant 0 (.filled 1) 30]).answer? (.grant 8 (.filled 1) 30) =
      some .reconnected := by
  obtain ⟨_, hfull, hrenew⟩ := registry_of_run (p := bare 1 10) rfl [.grant 0 (.filled 1) 30]
  have hsize : ((bare 1 10).run [.grant 0 (.filled 1) 30]).node.registry.size = 1 := by decide
  refine ⟨hsize, ?_, ?_⟩
  · exact hfull (.grant 4 (.filled 2) 30) _ rfl rfl (by decide) hsize
  · refine (hrenew (.grant 8 (.filled 1) 30) _ _ rfl rfl (by decide) hsize ⟨rfl, rfl⟩ ?_).1
    intro d hd
    cases hd
    exact ⟨rfl, rfl⟩

end EdgePeer

end LeaseOverlay
