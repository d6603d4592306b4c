import LeaseOverlay.Proofs.Ending
import LeaseOverlay.Proofs.Renewal
/-!
Upkeep: a peer that answers every renewal in time is never given up, as long as cycles come often
enough. Every cycle between the moment to renew and the end of the lease asks for a new one, so that
the last lease cannot be over before its successor is there.
-/

namespace LeaseOverlay

/-- Time never runs back, and no lease is swept for a moment that is yet to come. -/
structure Timely (ts : List Turn) : Prop where
  ordered : ts.Pairwise fun t u => t.now ≤ u.now
  past : ∀ t ∈ ts, ∀ q due, t.action = .expire q due → due ≤ t.now

def renewalWindow (margin lease : Time) : Time := min margin (lease / 2)

/-- From turn `i` on, in which `q` is connected, `q` grants its lease whenever it replies, nobody
interferes with the lease, every interval as long as the renewal window contains a completed cycle,
and every request for a renewal is answered before the lease that it is for is over. -/
structure Upheld (p : EdgePeer) (ts : List Turn) (i : Nat) (start : Turn) (q : PeerId)
    (lease : Time) : Prop where
  first : ts[i]? = some start
  connected : .event start.now (.connected q) ∈ (p.before ts i).effects start
  granted : ∀ j t r, i ≤ j → ts[j]? = some t → t.action.reply? = some r → r.peer = q →
    r.lease = some lease ∧ ∃ o, (p.before ts j).answer? t = some o ∧ o.accepted = true
  undisturbed : ∀ j t, i ≤ j → ts[j]? = some t → ¬t.action.Disturbs q
  watched : ∀ a, start.now ≤ a →
    (∃ t ∈ ts, a + renewalWindow p.node.registry.margin lease ≤ t.now) →
      ∃ k t, ts[k]? = some t ∧ (p.before ts k).Completes t ∧ a ≤ t.now ∧
        t.now < a + renewalWindow p.node.registry.margin lease
  answered : ∀ j t c, i ≤ j → ts[j]? = some t → (p.before ts j).Asks t q →
    (p.before ts j).node.registry.get? q = some c →
      (∀ u ∈ ts, u.now < c.leaseEnd) ∨
        ∃ k u r, j < k ∧ ts[k]? = some u ∧ u.action.reply? = some r ∧ r.peer = q ∧
          u.now < c.leaseEnd

theorem LeaseReply.lease_pos {r : LeaseReply} {lease : Time} (h : r.lease = some lease) :
    0 < lease := by
  obtain ⟨hpos, ⟨⟩⟩ := Option.ite_none_right_eq_some.mp h
  have hms : 0 < r.leaseMs.toNat := by omega
  exact Nat.mul_pos Nat.two_pos hms

theorem renewalWindow_lt (margin : Nat) {lease : Nat} (h : 0 < lease) :
    renewalWindow margin lease < lease := by
  have hhalf : lease / 2 < lease := Nat.div_lt_self h Nat.one_lt_two
  exact Nat.lt_of_le_of_lt (Nat.min_le_right _ _) hhalf

theorem moment_to_renew (now : Nat) {lease w : Nat} (h : w < lease) :
    now < now + lease - w ∧ now + lease - w + w = now + lease := by
  omega

theorem Timely.le {ts : List Turn} (h : Timely ts) {j k : Nat} {t u : Turn} (ht : ts[j]? = some t)
    (hu : ts[k]? = some u) (hjk : j ≤ k) : t.now ≤ u.now := by
  obtain ⟨hj, rfl⟩ := List.getElem?_eq_some_iff.mp ht
  obtain ⟨hk, rfl⟩ := List.getElem?_eq_some_iff.mp hu
  rcases Nat.lt_or_eq_of_le hjk with hlt | rfl
  · exact List.pairwise_iff_getElem.mp h.ordered j k hj hk hlt
  · exact Nat.le_refl _

theorem Timely.lt_of_now_lt {ts : List Turn} (h : Timely ts) {j k : Nat} {t u : Turn}
    (ht : ts[j]? = some t) (hu : ts[k]? = some u) (hlt : t.now < u.now) : j < k := by
  by_contra hkj
  exact absurd (h.le hu ht (Nat.le_of_not_lt hkj)) (Nat.not_le_of_lt hlt)

namespace Connection

variable {q : PeerId} {d : Descriptor} {now lease margin moment : Time}

theorem isOver_granted (h : moment < now + lease) :
    (granted q d now lease margin).isOver moment = false := by
  simp only [isOver, granted, expired, leaseWindow, Bool.not_true, Bool.false_or]
  exact decide_eq_false (Nat.not_le_of_lt h)

theorem needsRenewal_granted (h : now + lease - renewalWindow margin lease ≤ moment) :
    (granted q d now lease margin).needsRenewal moment = true :=
  decide_eq_true h

end Connection

namespace EdgePeer

theorem margin_before (p : EdgePeer) (ts : List Turn) (i : Nat) :
    (p.before ts i).node.registry.margin = p.node.registry.margin := by
  refine run_induction (P := fun m => m.node.registry.margin = p.node.registry.margin) ?_ rfl _
  intro m t h
  rw [margin_after, h]

end EdgePeer

/-- At turn `m`, the lease of `q` is still the one that was granted in turn `l`. -/
structure Since (p : EdgePeer) (ts : List Turn) (i : Nat) (q : PeerId) (lease : Time) (l : Nat)
    (u : Turn) (d : Descriptor) (m : Nat) : Prop where
  first : i ≤ l
  turn : ts[l]? = some u
  later : l < m
  entry : ∀ k, l < k → k ≤ m → (p.before ts k).node.registry.get? q =
    some (.granted q d u.now lease p.node.registry.margin)
  live : ∀ k, l < k → k ≤ m → (p.before ts k).node.Live
  unanswered : ∀ k t r, l < k → k < m → ts[k]? = some t → t.action.reply? = some r → r.peer ≠ q

namespace Upheld

variable {p : EdgePeer} {ts : List Turn} {i : Nat} {start : Turn} {q : PeerId} {lease : Time}

theorem reply_at_start (h : Upheld p ts i start q lease) :
    ∃ r, start.action.reply? = some r ∧ r.peer = q ∧ (p.before ts i).node.registry.get? q = none := by
  have hmem : .connected q ∈ Membership.events ((p.before ts i).effects start) :=
    List.mem_filterMap.mpr ⟨_, h.connected, rfl⟩
  obtain ⟨granted, hoffers⟩ := Membership.offers_of_connected hmem
  obtain ⟨r, hr, hpeer, _⟩ := hoffers
  refine ⟨r, hr, hpeer, ?_⟩
  have hno : q ∉ (p.before ts i).leased := Membership.not_leased_of_connected hmem
  rw [EdgePeer.leased, Registry.mem_members, Bool.not_eq_true] at hno
  exact Registry.contains_eq_false_iff.mp hno

theorem lease_pos (h : Upheld p ts i start q lease) : 0 < lease := by
  obtain ⟨r, hr, hpeer, _⟩ := h.reply_at_start
  exact LeaseReply.lease_pos (h.granted i start r (Nat.le_refl i) h.first hr hpeer).1

theorem since_reply (h : Upheld p ts i start q lease) {m : Nat} {t : Turn} {r : LeaseReply}
    (him : i ≤ m) (ht : ts[m]? = some t) (hr : t.action.reply? = some r) (hpeer : r.peer = q)
    (hlive : (p.before ts m).node.Live) : ∃ d, Since p ts i q lease m t d (m + 1) := by
  obtain ⟨hlease, o, ho, ha⟩ := h.granted m t r him ht hr hpeer
  obtain ⟨d, lease', hlease', hreg⟩ := EdgePeer.registry_after_of_accepted hr ho ha
  rw [hlease] at hlease'
  cases hlease'
  have hnext := EdgePeer.before_succ ht p
  refine ⟨d, him, ht, Nat.lt_succ_self m, ?_, ?_, ?_⟩
  · intro k hk hk'
    obtain rfl : k = m + 1 := Nat.le_antisymm hk' hk
    rw [hnext, hreg, hpeer, Registry.get?_put, if_pos rfl, p.margin_before]
  · intro k hk hk'
    obtain rfl : k = m + 1 := Nat.le_antisymm hk' hk
    rw [hnext]
    exact EdgePeer.live_after hlive (h.undisturbed m t him ht)
  · intro k _ _ hk hk'
    exact absurd hk' (Nat.not_lt_of_le hk)

theorem since_start (h : Upheld p ts i start q lease) :
    ∃ d, Since p ts i q lease i start d (i + 1) := by
  obtain ⟨r, hr, hpeer, hnew⟩ := h.reply_at_start
  obtain ⟨_, o, ho, ha⟩ := h.granted i start r (Nat.le_refl i) h.first hr hpeer
  refine h.since_reply (Nat.le_refl i) h.first hr hpeer ?_
  rw [EdgePeer.answer?, hr, Option.map_some, Option.some.injEq, Node.handleReply_eq] at ho
  rw [← hpeer] at hnew
  exact Node.live_of_accepted (n := (p.before ts i).node.settled r _) hnew (by rwa [ho])

theorem now_lt (h : Upheld p ts i start q lease) (hts : Timely ts) {l m : Nat} {u t : Turn}
    {d : Descriptor} (hs : Since p ts i q lease l u d m) (ht : ts[m]? = some t) :
    t.now < u.now + lease := by
  by_contra hover
  have hover : u.now + lease ≤ t.now := Nat.le_of_not_lt hover
  have hw := renewalWindow_lt p.node.registry.margin h.lease_pos
  obtain ⟨hlate, hend⟩ := moment_to_renew u.now hw
  have hstart : start.now ≤ u.now := hts.le h.first hs.turn hs.first
  -- A cycle runs between the moment to renew and the end of the lease.
  obtain ⟨k, v, hv, hcompletes, hfrom, huntil⟩ :=
    h.watched _ (Nat.le_of_lt (Nat.lt_of_le_of_lt hstart hlate))
      ⟨t, List.mem_of_getElem? ht, by rwa [hend]⟩
  rw [hend] at huntil
  have hlk : l < k := hts.lt_of_now_lt hs.turn hv (Nat.lt_of_lt_of_le hlate hfrom)
  have hkm : k < m := hts.lt_of_now_lt hv ht (Nat.lt_of_lt_of_le huntil hover)
  have hentry := hs.entry k hlk (Nat.le_of_lt hkm)
  have hasks : (p.before ts k).Asks v q :=
    EdgePeer.asks_of_completes hcompletes (hs.live k hlk (Nat.le_of_lt hkm)) hentry rfl
      (Connection.isOver_granted huntil) (Connection.needsRenewal_granted hfrom)
  -- Its request is answered before the end, which is before turn `m`.
  have hik : i ≤ k := Nat.le_trans hs.first (Nat.le_of_lt hlk)
  rcases h.answered k v _ hik hv hasks hentry with hnever | ⟨k', w, r, hkk', hw', hr, hpeer, hbefore⟩
  · exact absurd (hnever t (List.mem_of_getElem? ht)) (Nat.not_lt_of_le hover)
  · have hkm' : k' < m := hts.lt_of_now_lt hw' ht (Nat.lt_of_lt_of_le hbefore hover)
    exact hs.unanswered k' w r (Nat.lt_trans hlk hkk') hkm' hw' hr hpeer

theorem since_succ (h : Upheld p ts i start q lease) (hts : Timely ts) {l m : Nat} {u t : Turn}
    {d : Descriptor} (hs : Since p ts i q lease l u d m) (ht : ts[m]? = some t) :
    ∃ l' u' d', Since p ts i q lease l' u' d' (m + 1) := by
  have him : i ≤ m := Nat.le_trans hs.first (Nat.le_of_lt hs.later)
  have hentry := hs.entry m hs.later (Nat.le_refl m)
  have hlive := hs.live m hs.later (Nat.le_refl m)
  by_cases hreply : ∃ r, t.action.reply? = some r ∧ r.peer = q
  · obtain ⟨r, hr, hpeer⟩ := hreply
    obtain ⟨d', hs'⟩ := h.since_reply him ht hr hpeer hlive
    exact ⟨m, t, d', hs'⟩
  · have hundisturbed := h.undisturbed m t him ht
    have hspares : t.Spares q := by
      refine ⟨fun r hr hpeer => hreply ⟨r, hr, hpeer⟩, hundisturbed, fun due ha => ?_⟩
      exact hts.past t (List.mem_of_getElem? ht) q due ha
    have hover : (Connection.granted q d u.now lease p.node.registry.margin).isOver t.now = false :=
      Connection.isOver_granted (h.now_lt hts hs ht)
    have hnext := EdgePeer.before_succ ht p
    refine ⟨l, u, d, hs.first, hs.turn, Nat.lt_succ_of_lt hs.later, ?_, ?_, ?_⟩
    · intro k hk hk'
      rcases Nat.lt_or_eq_of_le hk' with hlt | rfl
      · exact hs.entry k hk (Nat.le_of_lt_succ hlt)
      · rw [hnext]
        exact EdgePeer.get?_after_of_spares hspares hentry hover
    · intro k hk hk'
      rcases Nat.lt_or_eq_of_le hk' with hlt | rfl
      · exact hs.live k hk (Nat.le_of_lt_succ hlt)
      · rw [hnext]
        exact EdgePeer.live_after hlive hundisturbed
    · intro k v r hk hk' hv hr hpeer
      rcases Nat.lt_or_eq_of_le (Nat.le_of_lt_succ hk') with hlt | rfl
      · exact hs.unanswered k v r hk hlt hv hr hpeer
      · rw [ht] at hv
        cases hv
        exact hreply ⟨r, hr, hpeer⟩

theorem since_of_lt (h : Upheld p ts i start q lease) (hts : Timely ts) {m : Nat} (him : i < m)
    (hm : m ≤ ts.length) : ∃ l u d, Since p ts i q lease l u d m := by
  induction m, him using Nat.le_induction with
  | base =>
    obtain ⟨d, hs⟩ := h.since_start
    exact ⟨i, start, d, hs⟩
  | succ m _ ih =>
    obtain ⟨l, u, d, hs⟩ := ih (Nat.le_of_succ_le hm)
    exact h.since_succ hts hs (List.getElem?_eq_getElem hm)

theorem leased_of_lt (h : Upheld p ts i start q lease) (hts : Timely ts) {m : Nat} (him : i < m)
    (hm : m ≤ ts.length) : q ∈ (p.before ts m).leased := by
  obtain ⟨l, u, d, hs⟩ := h.since_of_lt hts him hm
  have hentry := hs.entry m hs.later (Nat.le_refl m)
  exact Registry.mem_members.mpr (Registry.contains_iff.mpr ⟨_, hentry⟩)

end Upheld

/-- A peer that answers its renewals in time stays in the registry, and is never reported failed. -/
theorem no_spurious_failure {p : EdgePeer} {ts : List Turn} {i : Nat} {start : Turn} {q : PeerId}
    {lease : Time} (hts : Timely ts) (h : Upheld p ts i start q lease) :
    (∀ m, i < m → m ≤ ts.length → q ∈ (p.before ts m).leased) ∧
    ∀ j t, i ≤ j → ts[j]? = some t → ∀ now,
      .event now (.failed q) ∉ (p.before ts j).effects t := by
  refine ⟨fun m him hm => h.leased_of_lt hts him hm, ?_⟩
  intro j t hij ht now hfailed
  have hmem : .failed q ∈ Membership.endings q ((p.before ts j).effects t) :=
    List.mem_filter.mpr ⟨List.mem_filterMap.mpr ⟨_, hfailed, rfl⟩, by simp [Event.ends?]⟩
  have hleased : q ∈ (p.before ts (j + 1)).leased :=
    h.leased_of_lt hts (Nat.lt_succ_of_le hij) (List.getElem?_eq_some_iff.mp ht).1
  rw [EdgePeer.before_succ ht] at hleased
  rcases Membership.endings_effects (p.before ts j) t q with ⟨hends, _⟩ | ⟨_, hnone⟩
  · exact hends.2 hleased
  · rw [hnone] at hmem
    cases hmem

def renewals (q other : PeerId) : List Turn :=
  [.grant 0 q 2, .grant 0 other 2, ⟨{}, 1, .cycle⟩, ⟨{}, 3, .cycle⟩, .grant 3 q 2, ⟨{}, 5, .cycle⟩,
    .grant 5 q 2]

theorem mem_renewals {q other : PeerId} {t : Turn} (ht : t ∈ renewals q other) :
    t.now ≤ 5 ∧ (t.action = .cycle ∨ ∃ r, t.action = .reply r none) := by
  simp only [renewals, List.mem_cons, List.not_mem_nil, or_false] at ht
  rcases ht with rfl | rfl | rfl | rfl | rfl | rfl | rfl <;> simp [Turn.grant]

theorem timely_renewals (q other : PeerId) : Timely (renewals q other) := by
  refine ⟨by simp [renewals, Turn.grant], ?_⟩
  intro t ht q' due ha
  rcases (mem_renewals ht).2 with h | ⟨r, h⟩
  · rw [h] at ha
    cases ha
  · rw [h] at ha
    cases ha

theorem upheld_renewals :
    Upheld (.bare 2 600000) (renewals (.filled 1) (.filled 2)) 0 (.grant 0 (.filled 1) 2) (.filled 1)
      4 where
  first := rfl
  connected := by decide
  granted := by
    intro j t r _ ht hr hpeer
    have hother : PeerId.filled 2 ≠ .filled 1 := by decide
    match j, ht with
    | 0, rfl =>
      cases hr
      exact ⟨rfl, .connected, by decide, rfl⟩
    | 1, rfl =>
      cases hr
      exact absurd hpeer hother
    | 4, rfl | 6, rfl =>
      cases hr
      exact ⟨rfl, .reconnected, by decide, rfl⟩
    | 2, rfl | 3, rfl | 5, rfl => cases hr
  undisturbed := by
    intro j t _ ht hd
    rcases (mem_renewals (List.mem_of_getElem? ht)).2 with h | ⟨r, h⟩
    · rw [h] at hd
      cases hd with
      | notice hc => cases hc
    · rw [h] at hd
      cases hd with
      | notice hc => cases hc
  watched := by
    rintro (a : Nat) _ ⟨t, ht, hle⟩
    have hw : renewalWindow (EdgePeer.bare 2 600000).node.registry.margin 4 = 2 := by decide
    rw [hw] at hle ⊢
    have ha : a + 2 ≤ 5 := Nat.le_trans hle (mem_renewals ht).1
    by_cases hone : a ≤ 1
    · refine ⟨2, _, rfl, ⟨⟨0, 0, 0, 0⟩, by decide⟩, hone, ?_⟩
      exact Nat.lt_add_left a Nat.one_lt_two
    · refine ⟨3, _, rfl, ⟨⟨2, 0, 0, 0⟩, by decide⟩, ?_, ?_⟩
      · exact Nat.le_of_add_le_add_right ha
      · exact Nat.add_lt_add_right (Nat.lt_of_not_le hone) 2
  answered := by
    intro j t c _ ht hasks hc
    have hend {k : Nat} {e : Time}
        (hk : ((EdgePeer.bare 2 600000).before (renewals (.filled 1) (.filled 2))
          k).node.registry.get? (.filled 1) = some c)
        (he : (((EdgePeer.bare 2 600000).before (renewals (.filled 1) (.filled 2))
          k).node.registry.get? (.filled 1)).map (·.leaseEnd) = some e) : c.leaseEnd = e := by
      rw [hk] at he
      exact Option.some.inj he
    match j, ht with
    | 0, rfl => cases hc
    | 1, rfl | 2, rfl | 3, rfl =>
      rw [hend hc (by decide : _ = some 4)]
      exact .inr ⟨4, _, _, by decide, rfl, rfl, rfl, by decide⟩
    | 4, rfl =>
      -- The reply itself asks for nothing.
      obtain ⟨error, he⟩ := hasks
      have heffects : ((EdgePeer.bare 2 600000).before (renewals (.filled 1) (.filled 2)) 4).effects
          (.grant 3 (.filled 1) 2) =
            [.route { peer := .filled 1 }, .event 3 (.reconnected (.filled 1))] := by decide
      rw [heffects] at he
      simp at he
    | 5, rfl =>
      rw [hend hc (by decide : _ = some 7)]
      exact .inr ⟨6, _, _, by decide, rfl, rfl, rfl, by decide⟩
    | 6, rfl =>
      rw [hend hc (by decide : _ = some 7)]
      exact .inl fun u hu => Nat.lt_of_le_of_lt (mem_renewals hu).1 (by decide)

theorem renewing_peer_outlives_the_other :
    .filled 1 ∈ ((EdgePeer.bare 2 600000).before (renewals (.filled 1) (.filled 2)) 7).leased ∧
    .event 5 (.failed (.filled 1)) ∉ ((EdgePeer.bare 2 600000).before
      (renewals (.filled 1) (.filled 2)) 5).effects ⟨{}, 5, .cycle⟩ ∧
    .event 5 (.failed (.filled 2)) ∈ ((EdgePeer.bare 2 600000).before
      (renewals (.filled 1) (.filled 2)) 5).effects ⟨{}, 5, .cycle⟩ := by
  obtain ⟨hstays, hnever⟩ := no_spurious_failure (timely_renewals _ _) upheld_renewals
  refine ⟨hstays 7 (by decide) (by decide), ?_, by decide⟩
  exact hnever 5 _ (by decide) rfl 5

end LeaseOverlay
