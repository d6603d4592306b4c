import LeaseOverlay.Proofs.Turn

namespace LeaseOverlay

namespace Node

def Did (n m : Node) (e : Effect) : Prop := ∃ es, m.trace = n.trace ++ es ∧ e ∈ es

variable {n m l : Node} {e : Effect} {env : Surroundings} {now : Time} {c : Connection}

namespace Did

theorem later (h : n.Did m e) (hm : m.trace <+: l.trace) : n.Did l e := by
  obtain ⟨es, hes, he⟩ := h
  obtain ⟨fs, hfs⟩ := hm
  refine ⟨es ++ fs, ?_, List.mem_append_left _ he⟩
  rw [← hfs, hes, List.append_assoc]

theorem earlier (hn : n.trace <+: m.trace) (h : m.Did l e) : n.Did l e := by
  obtain ⟨es, hes⟩ := hn
  obtain ⟨fs, hfs, he⟩ := h
  refine ⟨es ++ fs, ?_, List.mem_append_right _ he⟩
  rw [hfs, ← hes, List.append_assoc]

end Did

def requestTo (env : Surroundings) (now : Time) (n : Node) (q : PeerId) : Effect :=
  .sent now (.peer q) (env.fault (.peer q)) (Control.request n.self).toMessage

theorem did_request (h : n.leaseStopped = false) (q : PeerId) :
    n.Did (n.request env now (.peer q)).1 (n.requestTo env now q) := by
  refine ⟨[n.requestTo env now q], ?_, List.mem_singleton_self _⟩
  rw [request, if_neg (by simp [h])]
  cases hf : env.fault (.peer q) <;> simp only [send, hf, record, requestTo]

theorem did_tend (hn : n.Live) (hover : c.isOver now = false) (hdue : c.needsRenewal now = true)
    (r : CycleReport) : n.Did (n.tend env now c r).1 (n.requestTo env now c.peer) := by
  have hd : n.Did (n.request env now (.peer c.peer)).1 (n.requestTo env now c.peer) :=
    did_request hn.1 c.peer
  rw [tend, if_neg (by simp [hover]), if_pos hdue]
  split <;> next h => rwa [h] at hd

theorem quiet_open (self : PeerId) : Quiet self (· ≠ .closed) := by
  intro e _ _ h
  cases h

theorem booked_tend_open (n : Node) (c : Connection) (r : CycleReport) :
    n.Booked (· ≠ .closed) (n.tend env now c r).1 :=
  booked_tend (quiet_open n.self.peer) (fun _ h => by cases h) n c r

theorem did_tendAll {cs : List Connection} (hn : n.Live) (hc : c ∈ cs)
    (hover : c.isOver now = false) (hdue : c.needsRenewal now = true) (r : CycleReport) :
    n.Did (tendAll env now n r cs).1 (n.requestTo env now c.peer) := by
  induction cs generalizing n r with
  | nil => cases hc
  | cons c' cs ih =>
    have hb : n.Booked (· ≠ .closed) (n.tend env now c' r).1 := booked_tend_open n c' r
    rcases List.mem_cons.mp hc with rfl | hc
    · have hrest : (n.tend env now c r).1.Booked (· ≠ .closed) (tendAll env now n r (c :: cs)).1 :=
        booked_tendAll (quiet_open n.self.peer) (fun _ h => by cases h) _ _ _
      exact (did_tend hn hover hdue r).later hrest.trace_extends
    · have hrest := ih (hb.live (fun h => h rfl) hn) hc (n.tend env now c' r).2
      rw [requestTo, hb.self_eq] at hrest
      exact hrest.earlier hb.trace_extends

theorem did_cycle {q : PeerId} {report : CycleReport} (hn : n.Live)
    (hc : n.registry.get? q = some c) (hover : c.isOver now = false)
    (hdue : c.needsRenewal now = true) (h : (n.cycle env now).2 = .completed report) :
    n.Did (n.cycle env now).1 (n.requestTo env now c.peer) := by
  have hd : n.Did (tendAll env now n {} n.registry.connections).1 (n.requestTo env now c.peer) :=
    did_tendAll hn (Registry.mem_connections.mpr ⟨q, hc⟩) hover hdue {}
  unfold cycle at h ⊢
  split at h
  · cases h
  next hm =>
  split at h
  · cases h
  next hr =>
  rw [if_neg hm, if_neg hr]
  dsimp only at h ⊢
  generalize (tendAll env now n {} n.registry.connections).1 = m at h hd ⊢
  have hp : m.Booked (· ≠ .closed) (m.prune now m.settings.pendingTimeout).1 := .of_eq rfl rfl rfl id
  have hb : m.Booked (· ≠ .closed) ((m.prune now m.settings.pendingTimeout).1.bootstrap env now).1 :=
    hp.trans (booked_bootstrap (quiet_open m.self.peer) _)
  split <;>
  · next heq =>
    rw [heq] at hb
    exact hd.later hb.trace_extends

end Node

/-- An action that takes the lease of `q` away or shortens it, or shuts the lease protocol. -/
inductive Action.Disturbs (q : PeerId) : Action → Prop
  | disconnect : Disturbs q (.disconnect q)
  | notice {a : Action} (h : a.control? = some (.disconnect q)) : Disturbs q a
  | challenge (delayMs : Int) : Disturbs q (.challenge q delayMs)
  | disconnectAll : Disturbs q .disconnectAll
  | stop : Disturbs q .stop
  | stopLease : Disturbs q .stopLease
  | brace : Disturbs q .brace

namespace Action

theorem disturbs_of_cause? {a : Action} {q : PeerId} {c : Cause} (h : a.cause? q = some c) :
    a.Disturbs q ∨ (∃ r, a.reply? = some r ∧ r.peer = q) ∨ c = .expiry := by
  have hfits := fits_of_cause? h
  cases c with
  | notice => exact .inl (.notice hfits)
  | farewell =>
    cases hfits
    exact .inl .disconnect
  | shutdown =>
    rcases hfits with rfl | rfl
    · exact .inl .stop
    · exact .inl .disconnectAll
  | revocation =>
    obtain ⟨r, hr, hpeer, _⟩ := hfits
    exact .inr (.inl ⟨r, hr, hpeer⟩)
  | challenge =>
    obtain ⟨delayMs, _, rfl⟩ := hfits
    exact .inl (.challenge delayMs)
  | expiry => exact .inr (.inr rfl)

end Action

theorem Connection.isOver_mono {c : Connection} {due now : Time} (h : due ≤ now)
    (ho : c.isOver due = true) : c.isOver now = true := by
  simp only [isOver, expired, Bool.or_eq_true, decide_eq_true_eq] at ho ⊢
  exact ho.imp_right fun he => Nat.le_trans he h

namespace Turn

structure Spares (t : Turn) (q : PeerId) : Prop where
  reply : ∀ r, t.action.reply? = some r → r.peer ≠ q
  disturbs : ¬t.action.Disturbs q
  past : ∀ due, t.action = .expire q due → due ≤ t.now

variable {t : Turn} {q : PeerId} {self : PeerId} {r s : Registry} {c : Connection}

theorem Spares.get?_apply (h : t.Spares q) {ch : Change} (hp : t.Permits self ch)
    (hlegal : ch.Legal r) (hc : r.get? q = some c) (hover : c.isOver t.now = false) :
    (ch.apply r).get? q = some c := by
  have hput {p : PeerId} {lease : Time} (ho : t.Offers p lease) (c' : Connection) :
      (r.put p c').get? q = some c := by
    obtain ⟨r', hr', rfl, _⟩ := ho
    rw [Registry.get?_put, if_neg (h.reply r' hr').symm, hc]
  have hremove {p : PeerId} (hne : p ≠ q) : (r.remove p).get? q = some c := by
    rw [Registry.get?_remove, if_neg hne.symm, hc]
  have hends {e : Event} (he : t.Ends q e) (hex : t.action.cause? q ≠ some .expiry) : False := by
    obtain ⟨c', hc', _⟩ := he
    rcases Action.disturbs_of_cause? hc' with hd | ⟨r', hr', hpeer⟩ | rfl
    · exact h.disturbs hd
    · exact h.reply r' hr' hpeer
    · exact hex hc'
  cases ch with
  | told e => exact hc
  | admitted now p d lease => exact hput hp.2 _
  | renewed now p d lease => exact hput hp.2 _
  | prolonged now p d lease => exact hput hp.2 _
  | shrunk now p delay =>
    obtain ⟨_, delayMs, _, ha, _⟩ := hp
    have hne : q ≠ p := by
      rintro rfl
      exact h.disturbs (ha ▸ .challenge delayMs)
    obtain ⟨c', hc'⟩ := Registry.contains_iff.mp hlegal
    rw [Change.apply, Registry.modify_of_get? hc', Registry.get?_put, if_neg hne, hc]
  | lost now p =>
    refine hremove ?_
    rintro rfl
    exact hends hp.2.1 hp.2.2
  | expired now p due =>
    refine hremove ?_
    rintro rfl
    obtain ⟨c', hc', hover'⟩ := hlegal
    rw [hc] at hc'
    cases hc'
    have hdue : due ≤ t.now := by
      rcases hp.2.2 with rfl | ha
      · exact Nat.le_refl _
      · exact h.past due ha
    rw [Connection.isOver_mono hdue hover'] at hover
    cases hover
  | parted now p =>
    refine hremove ?_
    rintro rfl
    refine hends hp.2 fun hx => ?_
    obtain ⟨c', hc', he⟩ := hp.2
    rw [hx] at hc'
    cases hc'
    cases he
  | closed => exact hc

theorem Spares.get?_books (h : t.Spares q) {cs : List Change} (hb : Books r cs s)
    (hp : ∀ ch ∈ cs, t.Permits self ch) (hc : r.get? q = some c)
    (hover : c.isOver t.now = false) : s.get? q = some c := by
  induction hb with
  | nil => exact hc
  | cons legal _ ih =>
    have hnext := h.get?_apply (hp _ List.mem_cons_self) legal hc hover
    exact ih (fun ch hch => hp ch (List.mem_cons_of_mem _ hch)) hnext

end Turn

namespace EdgePeer

variable {p : EdgePeer} {t : Turn} {q : PeerId} {c : Connection}

theorem get?_after_of_spares (h : t.Spares q) (hc : p.node.registry.get? q = some c)
    (hover : c.isOver t.now = false) : (p.after t).node.registry.get? q = some c := by
  obtain ⟨cs, hbooks, _, hcs⟩ := p.exists_changes t
  exact h.get?_books hbooks hcs hc hover

theorem live_after (hn : p.node.Live) (hd : ¬t.action.Disturbs q) : (p.after t).node.Live := by
  refine (booked_after p t).live ?_ hn
  rintro (h | h | h)
  · exact hd (h ▸ .stop)
  · exact hd (h ▸ .stopLease)
  · exact hd (h ▸ .brace)

theorem margin_after (p : EdgePeer) (t : Turn) :
    (p.after t).node.registry.margin = p.node.registry.margin := by
  obtain ⟨cs, hbooks, _, _⟩ := p.exists_changes t
  exact hbooks.margin_eq

def Asks (p : EdgePeer) (t : Turn) (q : PeerId) : Prop :=
  ∃ error, .sent t.now (.peer q) error (Control.request p.node.self).toMessage ∈ p.effects t

def Completes (p : EdgePeer) (t : Turn) : Prop := ∃ report, p.outcome? t = some (.completed report)

theorem cycle_of_outcome? {o : CycleOutcome} (h : p.outcome? t = some o) :
    (p.after t).node = (p.node.cycle t.env t.now).1 ∧ (p.node.cycle t.env t.now).2 = o := by
  obtain ⟨env, now, a⟩ := t
  cases a with
  | cycle => exact ⟨rfl, Option.some.inj h⟩
  | tick =>
    obtain ⟨due, hdue, ho⟩ := Option.map_eq_some_iff.mp h
    exact ⟨tick_node_of_dueCycle hdue env, ho⟩
  | _ => cases h

theorem asks_of_completes (h : p.Completes t) (hn : p.node.Live)
    (hc : p.node.registry.get? q = some c) (hpeer : c.peer = q) (hover : c.isOver t.now = false)
    (hdue : c.needsRenewal t.now = true) : p.Asks t q := by
  obtain ⟨report, ho⟩ := h
  obtain ⟨hnode, hreport⟩ := cycle_of_outcome? ho
  obtain ⟨es, hes, he⟩ := Node.did_cycle hn hc hover hdue hreport
  refine ⟨t.env.fault (.peer q), ?_⟩
  rw [effects_eq_of_trace (hnode ▸ hes)]
  rwa [hpeer] at he

end EdgePeer

end LeaseOverlay
