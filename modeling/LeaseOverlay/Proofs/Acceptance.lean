import LeaseOverlay.Proofs.Agenda
/-!
Acceptance: whom a peer may take a lease from. It is checked only when a reply brings a descriptor,
but seeds are never taken back, and so every lease stays acceptable for as long as it lasts.
-/

namespace LeaseOverlay

namespace Registry

variable {r s : Registry} {now : Time}

def Keeps (r s : Registry) : Prop :=
  ∀ q c, s.get? q = some c → ∃ c', r.get? q = some c' ∧ c'.descriptor = c.descriptor

theorem Keeps.refl (r : Registry) : r.Keeps r := fun _ c hc => ⟨c, hc, rfl⟩

theorem Keeps.trans {t : Registry} (h : r.Keeps s) (h' : s.Keeps t) : r.Keeps t := by
  intro q c hc
  obtain ⟨c', hc', hd⟩ := h' q c hc
  obtain ⟨c'', hc'', hd'⟩ := h q c' hc'
  exact ⟨c'', hc'', hd'.trans hd⟩

theorem keeps_remove (r : Registry) (p : PeerId) : r.Keeps (r.remove p) := by
  intro q c hc
  rw [get?_remove] at hc
  split at hc
  · cases hc
  · exact ⟨c, hc, rfl⟩

theorem keeps_shrink (r : Registry) (p : PeerId) (delay : Time) :
    r.Keeps (r.modify p fun c => c.shrink now delay) := by
  unfold modify
  split
  · next c hp =>
    intro q c' hc'
    rw [get?_put] at hc'
    split at hc'
    · next hq =>
      cases hc'
      exact ⟨c, hq ▸ hp, rfl⟩
    · exact ⟨c', hc', rfl⟩
  · exact .refl r

theorem keeps_apply {self : PeerId} {t : Turn} {c : Change} (ht : t.action.reply? = none)
    (hc : t.Permits self c) : r.Keeps (c.apply r) := by
  have hgrant {q : PeerId} {lease : Time} (h : t.Offers q lease) : False := by
    obtain ⟨r, hr, _⟩ := h
    rw [ht] at hr
    cases hr
  cases c with
  | told e => exact .refl r
  | admitted _ q d lease => exact (hgrant hc.2).elim
  | renewed _ q d lease => exact (hgrant hc.2).elim
  | prolonged _ q d lease => exact (hgrant hc.2).elim
  | shrunk _ q delay => exact r.keeps_shrink q delay
  | lost _ q => exact r.keeps_remove q
  | expired _ q due => exact r.keeps_remove q
  | parted _ q => exact r.keeps_remove q
  | closed => exact .refl r

theorem keeps_of_books {self : PeerId} {t : Turn} {cs : List Change}
    (ht : t.action.reply? = none) (hb : Books r cs s) (hcs : ∀ c ∈ cs, t.Permits self c) :
    r.Keeps s := by
  induction hb with
  | nil => exact .refl _
  | cons _ _ ih =>
    obtain ⟨hc, hcs⟩ := List.forall_mem_cons.mp hcs
    exact (keeps_apply ht hc).trans (ih hcs)

end Registry

namespace Node

variable {n m : Node} {now : Time} {r : LeaseReply} {d : Descriptor}

def Acceptable (n : Node) : Prop :=
  ∀ q c, n.registry.get? q = some c → n.seeding.accepts c.descriptor = true

theorem Acceptable.keeps (h : n.Acceptable) (hr : n.registry.Keeps m.registry)
    (hs : ∀ d, n.seeding.accepts d = true → m.seeding.accepts d = true) : m.Acceptable := by
  intro q c hc
  obtain ⟨c', hc', hd⟩ := hr q c hc
  rw [← hd]
  exact hs _ (h q c' hc')

theorem registry_offered (n : Node) (r : LeaseReply) : (n.offered r).1.registry = n.registry := by
  unfold offered
  split
  · next d _ =>
    split
    · rfl
    · have hc := registry_check n d
      split <;> next h => rwa [h] at hc
  · rfl

theorem accepts_of_offered (h : n.offered r = (m, some d)) :
    n.seeding.accepts d = true ∨ ∃ c, n.registry.get? r.peer = some c ∧ c.descriptor = d := by
  unfold offered at h
  split at h
  · next d' _ =>
    split at h
    · cases h
    · have hc : (n.check d').2 = n.seeding.accepts d' := by
        simp only [check]
        split <;> rfl
      split at h
      · next hd =>
        rw [hd] at hc
        cases h
        exact .inl hc.symm
      · cases h
  · cases hg : n.registry.get? r.peer with
    | none => simp [hg] at h
    | some c =>
      simp only [hg, Option.map_some] at h
      cases h
      exact .inr ⟨c, rfl, rfl⟩

theorem get?_install {p q : PeerId} {lease : Time} {c : Connection}
    (h : (n.install now p d lease).1.registry.get? q = some c) :
    n.registry.get? q = some c ∨ c.descriptor = d := by
  have hput {s : Registry} (hs : s = n.registry.put p (.granted p d now lease n.registry.margin))
      (hc : s.get? q = some c) : n.registry.get? q = some c ∨ c.descriptor = d := by
    rw [hs, Registry.get?_put] at hc
    split at hc
    · cases hc
      exact .inr rfl
    · exact .inl hc
  unfold install at h
  split at h
  · exact .inl h
  next s isNew hg =>
  have hs := Registry.eq_put_of_grant hg
  split at h
  · cases isNew with
    | true =>
      simp only [if_pos] at h
      rw [Registry.get?_remove] at h
      split at h
      · cases h
      · exact hput hs h
    | false => exact hput hs h
  · dsimp only at h
    split at h <;> exact hput hs h

theorem keeps_drop (n : Node) (q : PeerId) (e : Event) :
    n.registry.Keeps (n.drop now q e).1.registry := by
  unfold drop
  split
  · exact n.registry.keeps_remove q
  · exact .refl _

theorem accepts_of_agenda (h : m.agenda = n.agenda) (d : Descriptor)
    (hd : n.seeding.accepts d = true) : m.seeding.accepts d = true := by
  have hs : m.seeding = n.seeding := congrArg Agenda.seeding h
  rwa [hs]

theorem Acceptable.drop (h : n.Acceptable) (q : PeerId) (e : Event) :
    (n.drop now q e).1.Acceptable :=
  h.keeps (n.keeps_drop q e) (accepts_of_agenda (n.agenda_drop q e))

theorem Acceptable.offered (h : n.Acceptable) (r : LeaseReply) : (n.offered r).1.Acceptable := by
  refine h.keeps ?_ (accepts_of_agenda (n.agenda_offered r))
  rw [registry_offered]
  exact .refl _

theorem Acceptable.install (h : n.Acceptable) {p : PeerId} {lease : Time}
    (hd : n.seeding.accepts d = true) : (n.install now p d lease).1.Acceptable := by
  intro q c hc
  refine accepts_of_agenda (n.agenda_install p d lease) _ ?_
  rcases get?_install hc with hold | rfl
  · exact h q c hold
  · exact hd

theorem Acceptable.answer (h : n.Acceptable) (now : Time) (r : LeaseReply) :
    (n.answer now r).1.Acceptable := by
  unfold Node.answer
  split
  · exact h
  split
  · have hdrop : (n.drop now r.peer (.failed r.peer)).1.Acceptable := h.drop _ _
    split <;> next heq => rwa [heq] at hdrop
  · have hoffered := h.offered r
    have hseeding := n.agenda_offered r
    split
    · next heq => rwa [heq] at hoffered
    · next m d heq =>
      rw [heq] at hoffered hseeding
      refine hoffered.install (accepts_of_agenda hseeding d ?_)
      rcases accepts_of_offered heq with hd | ⟨c, hc, rfl⟩
      · exact hd
      · exact h r.peer c hc

end Node

theorem Agenda.Next.accepts_eq {a b : Agenda} {seed : Option Candidate} (h : a.Next seed b)
    (d : Descriptor) :
    b.seeding.accepts d = (a.seeding.accepts d || seed.any (Seeding.matchesSeed d)) := by
  cases h with
  | same => exact (Bool.or_false _).symm
  | given seed => exact Seeding.accepts_add _ _ _
  | supplied seed c => exact Seeding.accepts_add _ _ _
  | worked => exact (Bool.or_false _).symm
  | stopped => exact (Bool.or_false _).symm

namespace EdgePeer

variable {d : Descriptor}

def pushed : EdgePeer → List Turn → List Candidate
  | _, [] => []
  | p, t :: ts => (p.given? t).toList ++ pushed (p.after t) ts

theorem accepts_after (p : EdgePeer) (t : Turn) (d : Descriptor) :
    (p.after t).node.seeding.accepts d =
      (p.node.seeding.accepts d || (p.given? t).any (Seeding.matchesSeed d)) :=
  (p.next_after t).accepts_eq d

theorem accepts_run (p : EdgePeer) (ts : List Turn) (d : Descriptor) :
    (p.run ts).node.seeding.accepts d =
      (p.node.seeding.accepts d || (p.pushed ts).any (Seeding.matchesSeed d)) := by
  induction ts generalizing p with
  | nil => exact (Bool.or_false _).symm
  | cons t ts ih =>
    have hseed : (p.given? t).any (Seeding.matchesSeed d) =
        (p.given? t).toList.any (Seeding.matchesSeed d) := by
      cases p.given? t <;> simp
    rw [run, ih, accepts_after, pushed, List.any_append, hseed, Bool.or_assoc]

theorem accepts_mono {p : EdgePeer} (h : p.node.seeding.accepts d = true) (ts : List Turn) :
    (p.run ts).node.seeding.accepts d = true := by
  rw [accepts_run, h, Bool.true_or]

theorem acceptable_after {p : EdgePeer} (h : p.node.Acceptable) (t : Turn) :
    (p.after t).node.Acceptable := by
  -- nothing but a reply brings a descriptor into the registry
  cases hr : t.action.reply? with
  | none =>
    obtain ⟨cs, hbooks, _, hcs⟩ := p.exists_changes t
    refine h.keeps (Registry.keeps_of_books hr hbooks hcs) fun d hd => ?_
    rw [accepts_after, hd, Bool.true_or]
  | some r =>
    rw [after_of_reply? hr, withNode, Node.handleReply_eq]
    exact Node.Acceptable.answer (n := p.node.settled r t.action.source?) h t.now r

theorem acceptable_run {p : EdgePeer} (h : p.node.Acceptable) (ts : List Turn) :
    (p.run ts).node.Acceptable :=
  run_induction (P := fun q => q.node.Acceptable) (fun _ t hq => acceptable_after hq t) h ts

/-- A peer that takes leases from its seeds only holds no other, whatever it is put through. Its
seeds are those of its configuration and those given to it so far; they never become fewer, and
those left out of their list as duplicates count all the same. -/
theorem leases_are_acceptable {c : Config} {self : Descriptor} {kind : SeedingKind} {owner : PeerId}
    {uris : List String} {s : Seeding} {cache : Cache} {p : EdgePeer}
    (hs : Seeding.ofUris kind owner uris true = .ok s)
    (hp : EdgePeer.new c self s cache = .ok p) (ts : List Turn) :
    (∀ q lease, (p.run ts).node.registry.get? q = some lease →
      (p.run ts).node.seeding.accepts lease.descriptor = true) ∧
    (∀ d, (p.run ts).node.seeding.accepts d = true ↔
      ∃ seed ∈ s.configured ++ p.pushed ts, seed.Vouches d) ∧
    (∀ us d, (p.run ts).node.seeding.accepts d = true →
      (p.run (ts ++ us)).node.seeding.accepts d = true) ∧
    (∀ seed d, (p.run ts).node.seeding.accepts d = true →
      ((p.run ts).node.seeding.add seed).accepts d = true) ∧
    ∀ d, (p.run ts).node.seeding.seeds.any (Seeding.matchesSeed d) =
      ((p.run ts).node.seeding.configured ++ (p.run ts).node.seeding.given).any
        (Seeding.matchesSeed d) := by
  have hnode := node_of_new hp
  have hseeding : p.node.seeding = s := by rw [hnode]
  have hstart : p.node.Acceptable := by
    intro q lease hlease
    rw [hnode] at hlease
    cases hlease
  obtain ⟨honly, hgiven⟩ : s.onlySeeds = true ∧ s.given = [] := by
    unfold Seeding.ofUris at hs
    cases hcs : uris.mapM Candidate.parse with
    | error e =>
      rw [hcs] at hs
      cases hs
    | ok cs =>
      rw [hcs] at hs
      cases hs
      exact ⟨rfl, rfl⟩
  refine ⟨acceptable_run hstart ts, ?_, ?_, ?_, ?_⟩
  · intro d
    rw [accepts_run, hseeding, Seeding.accepts_eq, honly, hgiven, List.append_nil, Bool.not_true,
      Bool.false_or, ← List.any_append, List.any_eq_true]
    simp only [Seeding.matchesSeed_iff]
  · intro us d hd
    rw [run_append]
    exact accepts_mono hd us
  · intro seed d hd
    rw [Seeding.accepts_add, hd, Bool.true_or]
  · exact fun d => (p.run ts).node.seeding.any_seeds d

def choosy : Seeding := ⟨.cache, .filled 0, [.ofAddress "udp://a"], [], true, false⟩

def visitor : Descriptor := ⟨.filled 1, "visitor", ["udp://b"]⟩

def invitation : List Turn :=
  [⟨{}, 0, .reply ⟨.filled 1, 30, some visitor⟩ none⟩,
    ⟨{}, 1, .connect "" (some ⟨.filled 1, []⟩)⟩,
    ⟨{}, 2, .reply ⟨.filled 1, 30, some visitor⟩ none⟩,
    ⟨{}, 3, .reply ⟨.filled 1, 30, none⟩ none⟩]

theorem visitor_is_let_in :
    Seeding.ofUris .cache (.filled 0) ["udp://a"] true = .ok choosy ∧
    ((seeded choosy).run (invitation.take 1)).node.registry.contains (.filled 1) = false ∧
    ∃ lease, ((seeded choosy).run invitation).node.registry.get? (.filled 1) = some lease ∧
      lease.descriptor = visitor ∧
      ((seeded choosy).run invitation).node.seeding.accepts lease.descriptor = true := by
  have hs : Seeding.ofUris .cache (.filled 0) ["udp://a"] true = .ok choosy := rfl
  have hvisitor : (((seeded choosy).run invitation).node.registry.get? (.filled 1)).map
      (·.descriptor) = some visitor := by decide +kernel
  obtain ⟨lease, hlease, hd⟩ := Option.map_eq_some_iff.mp hvisitor
  obtain ⟨hleases, _⟩ := leases_are_acceptable hs (new_seeded choosy) invitation
  exact ⟨hs, by decide +kernel, lease, hlease, hd, hleases _ lease hlease⟩

end EdgePeer

end LeaseOverlay
