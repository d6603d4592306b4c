import Mathlib.Order.Bounds.Basic
import LeaseOverlay.Proofs.Renewal

namespace LeaseOverlay

theorem isLeast_foldl_min (e : Time) (ms : List Time) :
    IsLeast (insert e {m | m ∈ ms}) (ms.foldl min e) := by
  induction ms generalizing e with
  | nil => simp
  | cons m ms ih =>
    obtain ⟨hmem, hle⟩ := ih (min e m)
    have hfirst : ms.foldl min (min e m) ≤ min e m := hle (Set.mem_insert _ _)
    rw [List.foldl_cons]
    constructor
    · rcases hmem with heq | hmem
      · rw [heq]
        rcases Nat.le_total e m with h | h <;> simp [h]
      · exact .inr (List.mem_cons_of_mem m hmem)
    · rintro x (rfl | hx)
      · exact hfirst.trans (min_le_left _ _)
      · rcases List.mem_cons.mp hx with rfl | hx
        · exact hfirst.trans (min_le_right _ _)
        · exact hle (.inr hx)

namespace Connection

variable {c : Connection}

def capped (c : Connection) (m : Time) : Connection :=
  { c with leaseEnd := min c.leaseEnd m, renewAt := min c.renewAt (min c.leaseEnd m) }

theorem shrink_eq (c : Connection) (now delay : Time) :
    c.shrink now delay = c.capped (now + delay) :=
  rfl

theorem foldl_capped (h : c.renewAt ≤ c.leaseEnd) (ms : List Time) :
    ms.foldl capped c = { c with
      leaseEnd := ms.foldl min c.leaseEnd
      renewAt := min c.renewAt (ms.foldl min c.leaseEnd) } := by
  induction ms generalizing c with
  | nil => simp [h]
  | cons m ms ih =>
    have hle : ms.foldl min (min c.leaseEnd m) ≤ min c.leaseEnd m :=
      (isLeast_foldl_min _ ms).2 (Set.mem_insert _ _)
    rw [List.foldl_cons, ih (min_le_right _ _)]
    simp only [capped, List.foldl_cons, min_assoc, min_eq_right hle]

variable {q : PeerId} {d : Descriptor} {now lease margin : Time}

theorem granted_renewAt_le : (granted q d now lease margin).renewAt ≤
    (granted q d now lease margin).leaseEnd :=
  Nat.sub_le _ _

end Connection

theorem LeaseReply.two_mul_half {r : LeaseReply} {lease : Time} (h : r.lease = some lease) :
    2 * (lease / 2) = lease := by
  obtain ⟨_, heq⟩ := Option.ite_none_right_eq_some.mp h
  cases heq
  exact congrArg (2 * ·) (Nat.mul_div_cancel_left _ Nat.two_pos)

namespace Turn

variable {t : Turn} {q : PeerId} {self : PeerId} {r s : Registry}

structure Keeps (t : Turn) (q : PeerId) : Prop where
  reply : ∀ r, t.action.reply? = some r → r.peer ≠ q
  cause : t.action.cause? q = none

def deadline? (q : PeerId) (t : Turn) : Option Time :=
  match t.action with
  | .challenge p delayMs =>
    if p = q ∧ 0 < delayMs then some (t.now + .ofMillis delayMs.toNat) else none
  | _ => none

def deadlines (q : PeerId) (ts : List Turn) : List Time := ts.filterMap (deadline? q)

theorem deadline?_eq_some_iff {m : Time} : t.deadline? q = some m ↔
    ∃ delayMs, t.action = .challenge q delayMs ∧ 0 < delayMs ∧
      m = t.now + .ofMillis delayMs.toNat := by
  obtain ⟨env, now, a⟩ := t
  cases a with
  | challenge p delayMs =>
    simp only [deadline?]
    constructor
    · intro h
      obtain ⟨⟨rfl, hd⟩, ⟨⟩⟩ := Option.ite_none_right_eq_some.mp h
      exact ⟨delayMs, rfl, hd, rfl⟩
    · rintro ⟨_, heq, hd, rfl⟩
      cases heq
      exact if_pos ⟨rfl, hd⟩
  | _ => simp [deadline?]

theorem keeps_challenge (env : Surroundings) (now : Time) (q : PeerId) {delayMs : Int}
    (hd : 0 < delayMs) : Keeps ⟨env, now, .challenge q delayMs⟩ q where
  reply _ h := by cases h
  cause := if_neg fun h => absurd h.2 (Int.not_le.mpr hd)

theorem Keeps.get?_apply (h : t.Keeps q) (hnone : t.deadline? q = none) {ch : Change}
    (hp : t.Permits self ch) : (ch.apply r).get? q = r.get? q := by
  have hput {p : PeerId} {lease : Time} (ho : t.Offers p lease) (c : Connection) :
      (r.put p c).get? q = r.get? q := by
    obtain ⟨r', hr', rfl, _⟩ := ho
    rw [Registry.get?_put, if_neg (h.reply r' hr').symm]
  have hremove {p : PeerId} {e : Event} (he : t.Ends p e) : (r.remove p).get? q = r.get? q := by
    have hne : q ≠ p := by
      rintro rfl
      obtain ⟨c, hc, _⟩ := he
      rw [h.cause] at hc
      cases hc
    rw [Registry.get?_remove, if_neg hne]
  cases ch with
  | told e => rfl
  | admitted now p d lease => exact hput hp.2 _
  | renewed now p d lease => exact hput hp.2 _
  | prolonged now p d lease => exact hput hp.2 _
  | shrunk now p delay =>
    obtain ⟨_, delayMs, hd, ha, _⟩ := hp
    have hne : q ≠ p := by
      rintro rfl
      rw [deadline?_eq_some_iff.mpr ⟨delayMs, ha, hd, rfl⟩] at hnone
      cases hnone
    rw [Change.apply, Registry.modify]
    split
    · rw [Registry.get?_put, if_neg hne]
    · rfl
  | lost now p => exact hremove hp.2.1
  | expired now p due => exact hremove hp.2.1
  | parted now p => exact hremove hp.2
  | closed => rfl

theorem Keeps.get?_books (h : t.Keeps q) (hnone : t.deadline? q = none) {cs : List Change}
    (hb : Books r cs s) (hp : ∀ ch ∈ cs, t.Permits self ch) : s.get? q = r.get? q := by
  induction hb with
  | nil => rfl
  | cons _ _ ih =>
    rw [ih fun ch hch => hp ch (List.mem_cons_of_mem _ hch)]
    exact h.get?_apply hnone (hp _ List.mem_cons_self)

end Turn

namespace EdgePeer

open Turn

variable {p : EdgePeer} {t : Turn} {q : PeerId} {c : Connection} {ts us : List Turn}

theorem get?_after_challenge (env : Surroundings) (now : Time) {delayMs : Int} (hd : 0 < delayMs)
    (hc : p.node.registry.get? q = some c) :
    (p.after ⟨env, now, .challenge q delayMs⟩).node.registry.get? q =
      some (c.capped (now + .ofMillis delayMs.toNat)) := by
  have hin : p.node.registry.contains q = true := Registry.contains_iff.mpr ⟨c, hc⟩
  simp only [after, act, withNode, Node.challenge, if_neg (Int.not_le.mpr hd), hin, if_true]
  rw [Registry.modify_of_get? hc, Registry.get?_put, if_pos rfl, Connection.shrink_eq]

theorem get?_after_of_keeps (h : t.Keeps q) (hc : p.node.registry.get? q = some c) :
    (p.after t).node.registry.get? q = some ((t.deadline? q).toList.foldl Connection.capped c) := by
  cases hd : t.deadline? q with
  | none =>
    obtain ⟨cs, hbooks, _, hcs⟩ := p.exists_changes t
    rw [h.get?_books hd hbooks hcs, hc]
    rfl
  | some m =>
    obtain ⟨delayMs, ha, hpos, rfl⟩ := deadline?_eq_some_iff.mp hd
    obtain ⟨env, now, a⟩ := t
    cases ha
    exact get?_after_challenge env now hpos hc

theorem get?_run_of_keeps (h : ∀ u ∈ us, u.Keeps q) (hc : p.node.registry.get? q = some c) :
    (p.run us).node.registry.get? q = some ((deadlines q us).foldl Connection.capped c) := by
  induction us generalizing p c with
  | nil => exact hc
  | cons u us ih =>
    have hstep := get?_after_of_keeps (h u List.mem_cons_self) hc
    have hrest := ih (fun u hu => h u (List.mem_cons_of_mem _ hu)) hstep
    rw [run, hrest, deadlines, deadlines, List.filterMap_cons]
    cases u.deadline? q <;> rfl

theorem margin_run (p : EdgePeer) (ts : List Turn) :
    (p.run ts).node.registry.margin = p.node.registry.margin :=
  run_induction (P := fun q => q.node.registry.margin = p.node.registry.margin)
    (fun q t h => (margin_after q t).trans h) rfl ts

/-- When a reply has been accepted, the times of its lease are determined: by the moment of the
reply, the duration and the margin, and by the challenges that have come since. What there was
before the reply makes no difference, and a challenge never puts anything off. -/
theorem lease_times {r : LeaseReply} {o : ReplyOutcome} (hr : t.action.reply? = some r)
    (ho : (p.run ts).answer? t = some o) (ha : o.accepted = true)
    (hus : ∀ u ∈ us, u.Keeps r.peer) :
    ∃ lease l, r.lease = some lease ∧
      (p.run (ts ++ t :: us)).node.registry.get? r.peer = some l ∧
      IsLeast (insert (t.now + lease) {m | m ∈ deadlines r.peer us}) l.leaseEnd ∧
      l.renewAt = min l.leaseEnd (t.now + lease - min p.node.registry.margin (lease / 2)) ∧
      (deadlines r.peer us = [] →
        l.leaseEnd = t.now + lease ∧ t.now + lease / 2 ≤ l.renewAt ∧ l.renewAt ≤ l.leaseEnd) ∧
      (∀ env now delayMs, 0 < delayMs → ∃ l',
        ((p.run (ts ++ t :: us)).after ⟨env, now, .challenge r.peer delayMs⟩).node.registry.get?
          r.peer = some l' ∧ l'.leaseEnd ≤ l.leaseEnd ∧ l'.renewAt ≤ l.renewAt) ∧
      2 * (lease / 2) = lease ∧
      t.now ≤ t.now + lease - min p.node.registry.margin (lease / 2) ∧
      t.now + lease - min p.node.registry.margin (lease / 2) +
        min p.node.registry.margin (lease / 2) = t.now + lease := by
  obtain ⟨d, lease, hlease, hregistry⟩ := registry_after_of_accepted hr ho ha
  have hget : ((p.run ts).after t).node.registry.get? r.peer =
      some (.granted r.peer d t.now lease p.node.registry.margin) := by
    rw [hregistry, Registry.get?_put, if_pos rfl, margin_run]
  have hrun := get?_run_of_keeps hus hget
  rw [← run, ← run_append, Connection.foldl_capped Connection.granted_renewAt_le] at hrun
  have hmin : min p.node.registry.margin (lease / 2) ≤ lease / 2 := min_le_right _ _
  have hhalf : lease / 2 ≤ lease := Nat.div_le_self lease 2
  have hlate : t.now ≤ t.now + lease - min p.node.registry.margin (lease / 2) :=
    Nat.le_sub_of_add_le (Nat.add_le_add_left (hmin.trans hhalf) t.now)
  refine ⟨lease, _, hlease, hrun, isLeast_foldl_min _ _, min_comm _ _, ?whole, ?never,
    LeaseReply.two_mul_half hlease, hlate, ?exact⟩
  case whole =>
    intro hnone
    rw [hnone]
    have hearly : t.now + lease / 2 ≤ t.now + lease - min p.node.registry.margin (lease / 2) := by
      refine Nat.le_sub_of_add_le ?_
      rw [Nat.add_assoc]
      refine Nat.add_le_add_left ((Nat.add_le_add_left hmin _).trans ?_) _
      exact (Nat.two_mul _).symm.trans_le (Nat.mul_div_le lease 2)
    exact ⟨rfl, le_min hearly (Nat.add_le_add_left hhalf _), min_le_right _ _⟩
  case never =>
    intro env now delayMs hd
    exact ⟨_, get?_after_challenge env now hd hrun, min_le_left _ _, min_le_left _ _⟩
  case exact =>
    exact Nat.sub_add_cancel ((hmin.trans hhalf).trans (Nat.le_add_left _ _))

def challenged : List Turn :=
  [.grant (.ofMillis 100) (.filled 1) 30001,
    ⟨{}, .ofMillis 1000, .challenge (.filled 1) 20000⟩,
    ⟨{}, .ofMillis 2000, .challenge (.filled 1) 40000⟩]

theorem challenged_lease_ends_early :
    ∃ l, ((bare 2 (.ofMillis 300000)).run challenged).node.registry.get? (.filled 1) = some l ∧
      l.leaseEnd = .ofMillis 21000 ∧ l.renewAt = .ofMillis 100 + 30001 := by
  have ho : ((bare 2 (.ofMillis 300000)).run []).answer?
      (.grant (.ofMillis 100) (.filled 1) 30001) = some .connected := by
    decide +kernel
  have hkeeps : ∀ u ∈ challenged.drop 1, u.Keeps (.filled 1) := by
    intro u hu
    rcases List.mem_cons.mp hu with rfl | hu
    · exact keeps_challenge _ _ _ (by decide)
    · obtain rfl := List.mem_singleton.mp hu
      exact keeps_challenge _ _ _ (by decide)
  obtain ⟨lease, l, hlease, hl, hend, hrenew, _⟩ := lease_times rfl ho rfl hkeeps
  obtain rfl : lease = .ofMillis 30001 := (Option.some.inj hlease).symm
  have hleast : IsLeast (insert (Time.ofMillis 100 + .ofMillis 30001)
      {m | m ∈ deadlines (.filled 1) (challenged.drop 1)}) (.ofMillis 21000) :=
    isLeast_foldl_min _ _
  have hsame : l.leaseEnd = .ofMillis 21000 := hend.unique hleast
  refine ⟨l, hl, hsame, ?_⟩
  rw [hrenew, hsame]
  decide

end EdgePeer

end LeaseOverlay
