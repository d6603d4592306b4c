import LeaseOverlay.Proofs.Membership

namespace LeaseOverlay

namespace Event

def ends? : Event → Option PeerId
  | disconnected p | failed p => some p
  | _ => none

end Event

namespace Membership

def endings (q : PeerId) (es : List Effect) : List Event :=
  (events es).filter fun e => e.ends? = some q

def notices (self q : PeerId) (es : List Effect) : Nat := (es.filterMap (·.notice? self)).count q

variable {p q : PeerId}

theorem balance_erase (q : PeerId) {m : Finset PeerId} (hp : p ∈ m) :
    (if q ∈ m then 1 else 0) = (if p = q then 1 else 0) + (if q ∈ m.erase p then 1 else 0) := by
  by_cases hq : p = q
  · subst hq
    simp [hp]
  · simp [hq, Ne.symm hq]

theorem balance_insert (q : PeerId) {m : Finset PeerId} (hp : p ∉ m) :
    (if p = q then 1 else 0) + (if q ∈ m then 1 else 0) = if q ∈ insert p m then 1 else 0 := by
  by_cases hq : p = q
  · subst hq
    simp [hp]
  · simp [hq, Ne.symm hq]

theorem balance_event (q : PeerId) {m l : Finset PeerId} {e : Event} (h : follow m e = some l) :
    (if e = .connected q then 1 else 0) + (if q ∈ m then 1 else 0) =
      (if e.ends? = some q then 1 else 0) + (if q ∈ l then 1 else 0) := by
  cases e with
  | connected p =>
    obtain ⟨hp, ⟨⟩⟩ := Option.ite_none_right_eq_some.mp h
    simpa [Event.ends?] using balance_insert q hp
  | reconnected p =>
    obtain ⟨_, ⟨⟩⟩ := Option.ite_none_right_eq_some.mp h
    simp [Event.ends?]
  | disconnected p =>
    obtain ⟨hp, ⟨⟩⟩ := Option.ite_none_right_eq_some.mp h
    simpa [Event.ends?] using balance_erase q hp
  | failed p =>
    obtain ⟨hp, ⟨⟩⟩ := Option.ite_none_right_eq_some.mp h
    simpa [Event.ends?] using balance_erase q hp
  | becameEdge =>
    cases h
    simp [Event.ends?]
  | becameRendezvous =>
    cases h
    simp [Event.ends?]

theorem balance (q : PeerId) {m m' : Finset PeerId} {es : List Event} (h : replay m es = some m') :
    es.count (.connected q) + (if q ∈ m then 1 else 0) =
      (es.filter fun e => e.ends? = some q).length + (if q ∈ m' then 1 else 0) := by
  induction es generalizing m with
  | nil =>
    cases h
    simp
  | cons e es ih =>
    obtain ⟨l, hl, hrest⟩ := Option.bind_eq_some_iff.mp h
    have hrest' := ih hrest
    have he := balance_event q hl
    have hcount : (e :: es).count (.connected q) =
        es.count (.connected q) + (if e = .connected q then 1 else 0) := by
      simp [List.count_cons]
    have hlength : ((e :: es).filter fun e => e.ends? = some q).length =
        (es.filter fun e => e.ends? = some q).length + (if e.ends? = some q then 1 else 0) := by
      rw [List.filter_cons]
      split <;> simp_all
    omega

variable {t : Turn} {e : Event}

theorem exists_change_of_event {p : EdgePeer} (h : e ∈ events (p.effects t)) :
    ∃ c r, c.Legal r ∧ t.Permits p.node.self.peer c ∧ e ∈ events c.effects := by
  obtain ⟨cs, hbooks, heffects, hcs⟩ := p.exists_changes t
  rw [heffects, events, List.filterMap_flatMap] at h
  obtain ⟨c, hc, he⟩ := List.mem_flatMap.mp h
  obtain ⟨r, hr⟩ := hbooks.exists_legal hc
  exact ⟨c, r, hr, hcs c hc, he⟩

theorem not_mem_of_silent {f : Effect} (h : f.Silent) (he : e.peer? = some q) : e ∉ events [f] := by
  intro hm
  cases hf : f.event? with
  | none => simp [events, hf] at hm
  | some e' =>
    obtain rfl : e = e' := by simpa [events, hf] using hm
    rw [Effect.Silent, hf, Option.bind_some, he] at h
    cases h

theorem peer?_of_ends? (h : e.ends? = some q) : e.peer? = some q := by
  cases e <;> first | exact h | cases h

theorem ends_of_mem_endings {p : EdgePeer} (h : e ∈ endings q (p.effects t)) : t.Ends q e := by
  obtain ⟨hmem, hends⟩ := List.mem_filter.mp h
  have hends : e.ends? = some q := by simpa using hends
  obtain ⟨c, r, hlegal, hpermits, he⟩ := exists_change_of_event hmem
  cases c with
  | told f => exact absurd he (not_mem_of_silent hlegal (peer?_of_ends? hends))
  | admitted now p d lease =>
    obtain rfl : e = .connected p := mem_events_event.mp he
    cases hends
  | renewed now p d lease =>
    obtain rfl : e = .reconnected p := mem_events_event.mp he
    cases hends
  | lost now p =>
    obtain rfl : e = .failed p := mem_events_event.mp he
    cases hends
    exact hpermits.2.1
  | expired now p due =>
    obtain rfl : e = .failed p := mem_events_event.mp he
    cases hends
    exact hpermits.2.1
  | parted now p =>
    obtain rfl : e = .disconnected p := mem_events_event.mp he
    cases hends
    exact hpermits.2
  | _ => cases he

theorem offers_of_connected {p : EdgePeer} (h : .connected q ∈ events (p.effects t)) :
    ∃ lease, t.Offers q lease := by
  obtain ⟨c, r, hlegal, hpermits, he⟩ := exists_change_of_event h
  cases c with
  | told f => exact absurd he (not_mem_of_silent hlegal rfl)
  | admitted now p d lease =>
    cases mem_events_event.mp he
    exact ⟨lease, hpermits.2⟩
  | renewed | lost | expired | parted => cases mem_events_event.mp he
  | prolonged | shrunk | closed => cases he

theorem cause?_of_offers {lease : Time} (h : t.Offers q lease) : t.action.cause? q = none := by
  obtain ⟨r, hr, rfl, hlease⟩ := h
  rw [Action.cause?_of_control? (Action.control?_of_reply? hr), Control.cause?]
  simp [hlease]

def EndsLease (p : EdgePeer) (t : Turn) (q : PeerId) : Prop := q ∈ p.leased ∧ q ∉ (p.after t).leased

theorem balance_effects (p : EdgePeer) (t : Turn) (q : PeerId) :
    (events (p.effects t)).count (.connected q) + (if q ∈ p.leased then 1 else 0) =
      (endings q (p.effects t)).length + (if q ∈ (p.after t).leased then 1 else 0) :=
  balance q (replay_effects p t)

theorem endings_effects (p : EdgePeer) (t : Turn) (q : PeerId) :
    (EndsLease p t q ∧ ∃ c, t.action.cause? q = some c ∧ endings q (p.effects t) = [c.event q]) ∨
      (¬EndsLease p t q ∧ endings q (p.effects t) = []) := by
  have hbalance := balance_effects p t q
  cases h : endings q (p.effects t) with
  | nil =>
    right
    refine ⟨?_, rfl⟩
    rintro ⟨hbefore, hafter⟩
    simp [h, hbefore, hafter] at hbalance
  | cons e es =>
    left
    have he : e ∈ endings q (p.effects t) := by simp [h]
    obtain ⟨c, hc, rfl⟩ := ends_of_mem_endings he
    have hnew : (events (p.effects t)).count (.connected q) = 0 := by
      apply List.count_eq_zero.mpr
      intro hm
      obtain ⟨lease, ho⟩ := offers_of_connected hm
      rw [cause?_of_offers ho] at hc
      cases hc
    rw [hnew, h, List.length_cons] at hbalance
    have hes : es.length = 0 := by
      split at hbalance <;> omega
    have hends : EndsLease p t q := by
      constructor
      · by_contra hn
        rw [if_neg hn] at hbalance
        omega
      · intro hy
        rw [if_pos hy] at hbalance
        split at hbalance <;> omega
    refine ⟨hends, c, hc, ?_⟩
    rw [List.length_eq_zero_iff.mp hes]

theorem not_leased_of_connected {p : EdgePeer} (h : .connected q ∈ events (p.effects t)) :
    q ∉ p.leased := by
  intro hq
  have hbalance := balance_effects p t q
  have hone : 0 < (events (p.effects t)).count (.connected q) := List.count_pos_iff.mpr h
  obtain ⟨lease, ho⟩ := offers_of_connected h
  rcases endings_effects p t q with ⟨_, c, hc, _⟩ | ⟨_, he⟩
  · rw [cause?_of_offers ho] at hc
    cases hc
  · rw [he, if_pos hq, List.length_nil] at hbalance
    split at hbalance <;> omega

variable {self : PeerId}

theorem notices_append (self q : PeerId) (es fs : List Effect) :
    notices self q (es ++ fs) = notices self q es + notices self q fs := by
  rw [notices, List.filterMap_append, List.count_append]
  rfl

theorem notices_events (self q : PeerId) (now : Time) (f : PeerId → Event) (ps : List PeerId) :
    notices self q (ps.map fun p => .event now (f p)) = 0 := by
  rw [notices, List.filterMap_map]
  exact List.count_eq_zero.mpr fun h => by simp at h

theorem notices_map (env : Surroundings) (now : Time) (self q : PeerId) (ps : List PeerId) :
    notices self q (ps.map (Effect.notice env now self)) = ps.count q := by
  rw [notices, List.filterMap_map]
  congr 1
  simp

theorem notices_farewells (env : Surroundings) (now : Time) (p : EdgePeer) (q : PeerId) :
    notices p.node.self.peer q (p.farewells env now) = if q ∈ p.leased then 1 else 0 := by
  rw [EdgePeer.farewells, notices_append, notices_events, notices_map, Nat.add_zero,
    p.node.registry.nodup_peers.count]
  simp [EdgePeer.leased, Registry.members]

theorem notices_of_not_notifies {p : EdgePeer}
    (h : ∀ c, t.action.cause? q = some c → c.notifies = false) :
    notices p.node.self.peer q (p.effects t) = 0 := by
  apply List.count_eq_zero.mpr
  intro hm
  obtain ⟨e, he, hq⟩ := List.mem_filterMap.mp hm
  obtain ⟨cs, _, heffects, hcs⟩ := p.exists_changes t
  rw [heffects] at he
  obtain ⟨c, hc, hec⟩ := List.mem_flatMap.mp he
  have hpermits := hcs c hc
  cases c with
  | told f =>
    obtain rfl : e = f := by simpa [Change.effects] using hec
    obtain ⟨c, hcause, hn⟩ := hpermits q hq
    rw [h c hcause] at hn
    cases hn
  | admitted | renewed | lost | expired | parted =>
    obtain rfl := List.mem_singleton.mp hec
    cases hq
  | prolonged | shrunk | closed => cases hec

theorem leased_disconnectAll (env : Surroundings) (now : Time) (p : EdgePeer) :
    (p.after ⟨env, now, .disconnectAll⟩).leased = ∅ := by
  simp only [EdgePeer.after, EdgePeer.act, EdgePeer.leased, EdgePeer.withNode,
    Node.disconnectAll_fst]
  rfl

theorem leased_stop {p : EdgePeer} (h : p.lifecycle ≠ .stopped) (env : Surroundings) (now : Time) :
    (p.after ⟨env, now, .stop⟩).leased = ∅ := by
  simp only [EdgePeer.after, EdgePeer.act, EdgePeer.leased, EdgePeer.stop_of_ne h]
  rfl

theorem action_of_notifies {a : Action} {c : Cause} (h : a.cause? q = some c)
    (hn : c.notifies = true) : a = .disconnect q ∨ a = .stop ∨ a = .disconnectAll := by
  have hfits := Action.fits_of_cause? h
  cases c with
  | farewell => exact .inl hfits
  | shutdown => exact .inr hfits
  | _ => cases hn

theorem notices_of_farewells {p : EdgePeer} (he : p.effects t = p.farewells t.env t.now)
    (hl : (p.after t).leased = ∅) (q : PeerId) :
    (EndsLease p t q ∧ notices p.node.self.peer q (p.effects t) = 1) ∨
      (¬EndsLease p t q ∧ notices p.node.self.peer q (p.effects t) = 0) := by
  rw [he, notices_farewells]
  by_cases hq : q ∈ p.leased
  · exact .inl ⟨⟨hq, by simp [hl]⟩, if_pos hq⟩
  · exact .inr ⟨fun h => hq h.1, if_neg hq⟩

theorem notices_of_notifies {p : EdgePeer} {c : Cause} (hc : t.action.cause? q = some c)
    (hn : c.notifies = true) :
    (EndsLease p t q ∧ notices p.node.self.peer q (p.effects t) = 1) ∨
      (¬EndsLease p t q ∧ notices p.node.self.peer q (p.effects t) = 0) := by
  obtain ⟨env, now, a⟩ := t
  rcases action_of_notifies hc hn with rfl | rfl | rfl
  · rw [EdgePeer.effects_disconnect]
    cases hq : p.node.registry.contains q with
    | true =>
      have hafter : (p.after ⟨env, now, .disconnect q⟩).leased = p.leased.erase q := by
        simp only [EdgePeer.after, EdgePeer.act, EdgePeer.leased, EdgePeer.withNode,
          Node.disconnect_of_contains hq, Registry.members_remove]
      refine .inl ⟨⟨Registry.mem_members.mpr hq, ?_⟩, ?_⟩
      · rw [hafter]
        exact Finset.notMem_erase q _
      · simp [notices, List.filterMap_cons]
    | false =>
      refine .inr ⟨fun h => ?_, rfl⟩
      rw [Registry.mem_members.mp h.1] at hq
      cases hq
  · by_cases hs : p.lifecycle = .stopped
    · rw [EdgePeer.effects_stop_of_stopped hs]
      refine .inr ⟨fun h => h.2 ?_, rfl⟩
      simp only [EdgePeer.after, EdgePeer.act, EdgePeer.stop_of_stopped hs]
      exact h.1
    · exact notices_of_farewells (EdgePeer.effects_stop_of_ne hs env now)
        (leased_stop hs env now) q
  · exact notices_of_farewells (EdgePeer.effects_disconnectAll env now p)
      (leased_disconnectAll env now p) q

theorem notices_of_endsLease {p : EdgePeer} {c : Cause} (h : EndsLease p t q)
    (hc : t.action.cause? q = some c) :
    notices p.node.self.peer q (p.effects t) = if c.notifies then 1 else 0 := by
  cases hn : c.notifies with
  | true =>
    rcases notices_of_notifies hc hn with ⟨_, hone⟩ | ⟨hno, _⟩
    · exact hone
    · exact absurd h hno
  | false =>
    apply notices_of_not_notifies
    intro c' hc'
    rw [hc] at hc'
    cases hc'
    exact hn

theorem notices_of_not_endsLease {p : EdgePeer} (h : ¬EndsLease p t q) :
    notices p.node.self.peer q (p.effects t) = 0 := by
  by_cases htold : ∃ c, t.action.cause? q = some c ∧ c.notifies = true
  · obtain ⟨c, hc, hn⟩ := htold
    rcases notices_of_notifies hc hn with ⟨hends, _⟩ | ⟨_, hnone⟩
    · exact absurd hends h
    · exact hnone
  · apply notices_of_not_notifies
    intro c hc
    cases hn : c.notifies with
    | true => exact absurd ⟨c, hc, hn⟩ htold
    | false => rfl

/-- The events of a run and its registry agree at every moment. Every lease that ends in a turn ends
with the one event of its cause, and its peer is told once if the cause is of this side's choosing;
for no other lease there is such an event or such a notice. -/
theorem log_agrees_with_registry (p : EdgePeer) (ts : List Turn) :
    (∀ us, us <+: ts → replay p.leased (events (p.log us)) = some (p.run us).leased) ∧
    ∀ before t after, ts = before ++ t :: after → ∀ q,
      (EndsLease (p.run before) t q → ∃ c, t.action.cause? q = some c ∧
        endings q ((p.run before).effects t) = [c.event q] ∧
        notices p.node.self.peer q ((p.run before).effects t) = if c.notifies then 1 else 0) ∧
      (¬EndsLease (p.run before) t q →
        endings q ((p.run before).effects t) = [] ∧
        notices p.node.self.peer q ((p.run before).effects t) = 0) := by
  constructor
  · intro us _
    exact replay_run p us
  intro before t after _ q
  rw [← EdgePeer.self_run p before]
  generalize p.run before = m
  constructor
  · intro hends
    rcases endings_effects m t q with ⟨_, c, hc, he⟩ | ⟨hno, _⟩
    · exact ⟨c, hc, he, notices_of_endsLease hends hc⟩
    · exact absurd hends hno
  · intro hno
    rcases endings_effects m t q with ⟨hends, _⟩ | ⟨_, he⟩
    · exact absurd hends hno
    · exact ⟨he, notices_of_not_endsLease hno⟩

theorem farewell_to_an_unreachable_peer :
    replay ∅ (events ((EdgePeer.bare 1 10).log [.grant 0 (.filled 1) 30,
      ⟨{ fault := fun _ => some .closed }, 4, .disconnect (.filled 1)⟩])) = some ∅ ∧
    endings (.filled 1) (((EdgePeer.bare 1 10).run [.grant 0 (.filled 1) 30]).effects
      ⟨{ fault := fun _ => some .closed }, 4, .disconnect (.filled 1)⟩) =
        [.disconnected (.filled 1)] ∧
    notices (.filled 0) (.filled 1)
      (((EdgePeer.bare 1 10).run [.grant 0 (.filled 1) 30]).effects
        ⟨{ fault := fun _ => some .closed }, 4, .disconnect (.filled 1)⟩) = 1 := by
  have hends : EndsLease ((EdgePeer.bare 1 10).run [.grant 0 (.filled 1) 30])
      ⟨{ fault := fun _ => some .closed }, 4, .disconnect (.filled 1)⟩ (.filled 1) := by
    refine ⟨by decide, by decide⟩
  obtain ⟨hreplay, hlast⟩ := log_agrees_with_registry (.bare 1 10) [.grant 0 (.filled 1) 30,
    ⟨{ fault := fun _ => some .closed }, 4, .disconnect (.filled 1)⟩]
  obtain ⟨c, hc, he, hn⟩ := (hlast [.grant 0 (.filled 1) 30] _ [] rfl (.filled 1)).1 hends
  cases hc
  exact ⟨hreplay _ List.prefix_rfl, he, hn⟩

end Membership

end LeaseOverlay
