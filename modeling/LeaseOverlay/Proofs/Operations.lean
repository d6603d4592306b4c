import LeaseOverlay.Proofs.Books

namespace LeaseOverlay

def Quiet (self : PeerId) (P : Change → Prop) : Prop :=
  ∀ e : Effect, e.Silent → e.notice? self = none → P (.told e)

structure Grants (P : Change → Prop) (now : Time) (p : PeerId) (lease : Time) : Prop where
  admitted : ∀ d, P (.admitted now p d lease)
  renewed : ∀ d, P (.renewed now p d lease)
  prolonged : ∀ d, P (.prolonged now p d lease)

namespace Node

variable {P : Change → Prop} {self : PeerId} {env : Surroundings} {now : Time}

theorem booked_learnRoute (hq : Quiet self P) (n : Node) (r : Route) :
    n.Booked P (n.learnRoute r) :=
  .record rfl (hq _ rfl rfl)

theorem booked_request (hq : Quiet self P) (n : Node) (dest : Destination) :
    n.Booked P (n.request env now dest).1 := by
  have hs : (Effect.sent now dest (env.fault dest) (Control.request n.self).toMessage).Silent := rfl
  have hP := hq _ hs (Effect.notice?_of_ne (Effect.request_ne_notice n.self self) now dest _)
  unfold request
  split
  · exact .refl
  · cases hf : env.fault dest <;> simp only [send, hf] at hs hP ⊢
    · exact .single (c := .told _) hs hP rfl rfl rfl fun _ => id
    · exact .single (c := .told _) hs hP rfl rfl rfl fun _ => id

theorem booked_requestSeed (hq : Quiet self P) (n : Node) (c : Candidate) :
    n.Booked P (n.requestSeed env now c).1 := by
  unfold requestSeed
  split
  · next r _ => exact (booked_learnRoute hq n r).trans (booked_request hq _ _)
  · exact booked_request hq n _

theorem booked_drop {c : Change} {e : Event} {p : PeerId} (n : Node)
    (hc : n.registry.contains p = true → c.Legal n.registry) (hP : P c)
    (ha : c.apply n.registry = n.registry.remove p) (he : c.effects = [.event now e]) :
    n.Booked P (n.drop now p e).1 := by
  unfold drop
  split
  · next h => exact .single (hc h) hP ha.symm (by rw [he]; rfl) rfl fun _ => id
  · exact .refl

theorem registry_check (n : Node) (d : Descriptor) : (n.check d).1.registry = n.registry := by
  simp only [check]
  split <;> rfl

theorem check_of_live {n : Node} (h : n.Live) (d : Descriptor) :
    n.check d = (n, n.seeding.accepts d) := by
  simp [check, h.2]

theorem booked_check (n : Node) (d : Descriptor) : n.Booked P (n.check d).1 := by
  refine .of_eq (registry_check n d) ?_ ?_ fun h => by rwa [check_of_live h]
  · simp only [check]
    split <;> rfl
  · simp only [check]
    split <;> rfl

theorem booked_offered (n : Node) (r : LeaseReply) : n.Booked P (n.offered r).1 := by
  unfold offered
  split
  · next d _ =>
    split
    · exact .refl
    · have hc : n.Booked P (n.check d).1 := booked_check n d
      split <;> next h => rwa [h] at hc
  · exact .refl

theorem held_of_offered {n m : Node} {r : LeaseReply} {d : Descriptor}
    (h : n.offered r = (m, some d)) :
    m.registry = n.registry ∧ (d.peer = r.peer ∨ Change.Held m.registry r.peer d) := by
  unfold offered at h
  split at h
  · next d' _ =>
    split at h
    · cases h
    · next hne =>
      have hc := registry_check n d'
      split at h
      · next hd =>
        rw [hd] at hc
        cases h
        exact ⟨hc, .inl (by simpa using hne)⟩
      · cases h
  · cases hg : n.registry.get? r.peer with
    | none => simp [hg] at h
    | some c =>
      simp only [hg, Option.map_some] at h
      cases h
      exact ⟨rfl, .inr ⟨c, hg, .inr rfl⟩⟩

theorem booked_install (hq : Quiet self P) {p : PeerId} {lease : Time}
    (hg : Grants P now p lease) (n : Node) {d : Descriptor}
    (hd : d.peer = p ∨ Change.Held n.registry p d) : n.Booked P (n.install now p d lease).1 := by
  cases hc : n.registry.contains p with
  | true =>
    have hheld : Change.Held n.registry p d := by
      rcases hd with hd | hd
      · obtain ⟨c, hget⟩ := Registry.contains_iff.mp hc
        exact ⟨c, hget, .inl hd⟩
      · exact hd
    simp only [install, Registry.grant_of_contains hc]
    split
    · exact .single (c := .prolonged now p d lease) hheld (hg.prolonged d) rfl
        (List.append_nil _).symm rfl fun _ => id
    · refine (booked_learnRoute hq n d.route).trans ?_
      exact .single (c := .renewed now p d lease) hheld (hg.renewed d) rfl rfl rfl fun _ => id
  | false =>
    have hpeer : d.peer = p := by
      rcases hd with hd | ⟨c, hget, _⟩
      · exact hd
      · rw [Registry.contains_eq_false_iff.mp hc] at hget
        cases hget
    cases hroom : n.registry.hasCapacity with
    | false =>
      simp only [install, Registry.grant_of_full hc hroom]
      exact .refl
    | true =>
      simp only [install, Registry.grant_of_hasCapacity hc hroom]
      split
      · exact .of_eq (Registry.remove_put _ hc) rfl rfl id
      · refine (booked_learnRoute hq n d.route).trans ?_
        exact .single (c := .admitted now p d lease) ⟨hc, hroom, hpeer⟩ (hg.admitted d) rfl rfl rfl
          fun _ => id

def settled (n : Node) (r : LeaseReply) (source : Option Destination) : Node :=
  { n with pending := n.pending.settle r.peer source }

def answer (now : Time) (n : Node) (r : LeaseReply) : Node × ReplyOutcome :=
  if n.leaseStopped then (n, .rejected)
  else match r.lease with
    | none =>
      match n.drop now r.peer (.failed r.peer) with
      | (n, true) => (n, .revoked)
      | (n, false) => (n, .rejected)
    | some lease =>
      match n.offered r with
      | (n, none) => (n, .rejected)
      | (n, some d) => n.install now r.peer d lease

theorem handleReply_eq (n : Node) (r : LeaseReply) (source : Option Destination) :
    n.handleReply now r source = (n.settled r source).answer now r := rfl

theorem booked_answer (hq : Quiet self P) {r : LeaseReply}
    (hg : ∀ lease, r.lease = some lease → Grants P now r.peer lease)
    (hl : r.lease = none → P (.lost now r.peer)) (n : Node) :
    n.Booked P (n.answer now r).1 := by
  unfold answer
  split
  · exact .refl
  split
  · next hlease =>
    have hd := booked_drop (c := .lost now r.peer) (e := .failed r.peer) n id (hl hlease) rfl rfl
    split <;> next h => rwa [h] at hd
  · next lease hlease =>
    have ho : n.Booked P (n.offered r).1 := booked_offered n r
    split
    · next h => rwa [h] at ho
    · next m d h =>
      obtain ⟨_, hd⟩ := held_of_offered h
      rw [h] at ho
      exact ho.trans (booked_install hq (hg lease hlease) m hd)

theorem booked_handleReply (hq : Quiet self P) {r : LeaseReply}
    (hg : ∀ lease, r.lease = some lease → Grants P now r.peer lease)
    (hl : r.lease = none → P (.lost now r.peer)) (n : Node) (source : Option Destination) :
    n.Booked P (n.handleReply now r source).1 := by
  have hs : n.Booked P (n.settled r source) := .of_eq rfl rfl rfl id
  exact hs.trans (booked_answer hq hg hl _)

theorem booked_handleNotice (n : Node) {p : PeerId} (hP : P (.parted now p)) :
    n.Booked P (n.handleNotice now p).1 :=
  booked_drop (c := .parted now p) n id hP rfl rfl

theorem disconnect_of_contains {n : Node} {p : PeerId} (h : n.registry.contains p = true) :
    (n.disconnect env now p).1 = { n with
      registry := n.registry.remove p
      trace := n.trace ++ [.notice env now n.self.peer p, .event now (.disconnected p)] } := by
  simp only [disconnect, if_pos h, notify, send, emit, record, List.append_assoc]
  rfl

theorem disconnect_of_not_contains {n : Node} {p : PeerId} (h : n.registry.contains p = false) :
    (n.disconnect env now p).1 = n := by
  simp [disconnect, h]

theorem booked_disconnect (n : Node) {p : PeerId}
    (ht : P (.told (.notice env now n.self.peer p))) (hP : P (.parted now p)) :
    n.Booked P (n.disconnect env now p).1 := by
  cases h : n.registry.contains p with
  | false =>
    rw [disconnect_of_not_contains h]
    exact .refl
  | true =>
    rw [disconnect_of_contains h]
    have hs : (Effect.notice env now n.self.peer p).Silent := rfl
    have hn : n.Booked P (n.record (.notice env now n.self.peer p)) := .record hs ht
    refine hn.trans (.single (c := .parted now p) h hP rfl ?_ rfl fun _ => id)
    simp [record, Change.effects]

theorem booked_challenge (n : Node) {p : PeerId} {delayMs : Int}
    (hl : delayMs ≤ 0 → P (.lost now p))
    (hs : 0 < delayMs → P (.shrunk now p (.ofMillis delayMs.toNat))) :
    n.Booked P (n.challenge now p delayMs).1 := by
  unfold challenge
  split
  · next h => exact booked_drop (c := .lost now p) n id (hl h) rfl rfl
  · next h =>
    split
    · next hc =>
      exact .single (c := .shrunk now p _) hc (hs (by omega)) rfl (List.append_nil _).symm rfl
        fun _ => id
    · exact .refl

theorem booked_expire (n : Node) {p : PeerId} {due : Time} (hP : P (.expired now p due)) :
    n.Booked P (n.expire now p due).1 := by
  unfold expire
  split
  · next r h =>
    obtain ⟨hc, hr⟩ := Registry.removeIf_eq_some_iff.mp h
    exact .single (c := .expired now p due) hc hP hr rfl rfl fun _ => id
  · exact .refl

theorem booked_tend (hq : Quiet self P) (he : ∀ p, P (.expired now p now)) (n : Node)
    (c : Connection) (r : CycleReport) : n.Booked P (n.tend env now c r).1 := by
  unfold tend
  split
  · have hx : n.Booked P (n.expire now c.peer now).1 := booked_expire n (he c.peer)
    split <;> next h => rwa [h] at hx
  · split
    · have hr : n.Booked P (n.request env now (.peer c.peer)).1 := booked_request hq n _
      split <;> next h => rwa [h] at hr
    · exact .refl

theorem booked_tendAll (hq : Quiet self P) (he : ∀ p, P (.expired now p now)) (n : Node)
    (r : CycleReport) (cs : List Connection) : n.Booked P (tendAll env now n r cs).1 := by
  induction cs generalizing n r with
  | nil => exact .refl
  | cons c cs ih => exact (booked_tend hq he n c r).trans (ih _ _)

theorem booked_askAll (hq : Quiet self P) (n : Node) (cs : List Candidate) :
    n.Booked P (askAll env now n cs).1 := by
  induction cs generalizing n with
  | nil => exact .refl
  | cons c cs ih =>
    have hr : n.Booked P (n.requestSeed env now c).1 := booked_requestSeed hq n c
    unfold askAll
    split <;>
    · next h =>
      rw [h] at hr
      exact hr.trans (ih _)

theorem booked_askBatch (hq : Quiet self P) (n : Node) : n.Booked P (n.askBatch env now).1 := by
  have hn : n.Booked P { n with queue :=
    (takeBatch n.registry.contains n.settings.maxAttempts n.queue).2 } := .of_eq rfl rfl rfl id
  exact hn.trans (booked_askAll hq _ _)

theorem booked_bootstrap (hq : Quiet self P) (n : Node) : n.Booked P (n.bootstrap env now).1 := by
  have hf : n.Booked P { n with queue := n.seeding.candidates n.cache now } := .of_eq rfl rfl rfl id
  unfold bootstrap
  split
  · exact .refl
  split
  · exact .of_eq rfl rfl rfl id
  split
  · exact .refl
  dsimp only
  generalize hm : (if n.queue.isEmpty then { n with queue := n.seeding.candidates n.cache now }
    else n) = m
  have hnm : n.Booked P m := by
    rw [← hm]
    split
    · exact hf
    · exact .refl
  split
  · exact hnm
  split
  · exact hnm
  · exact hnm.trans (booked_askBatch hq m)

theorem booked_cycle (hq : Quiet self P) (he : ∀ p, P (.expired now p now)) (n : Node) :
    n.Booked P (n.cycle env now).1 := by
  have ht : n.Booked P (tendAll env now n {} n.registry.connections).1 :=
    booked_tendAll hq he n {} _
  unfold cycle
  split
  · exact .refl
  split
  · exact .refl
  dsimp only
  generalize (tendAll env now n {} n.registry.connections).1 = m at ht
  have hp : m.Booked P (m.prune now m.settings.pendingTimeout).1 := .of_eq rfl rfl rfl id
  have hb : n.Booked P ((m.prune now m.settings.pendingTimeout).1.bootstrap env now).1 :=
    ht.trans (hp.trans (booked_bootstrap hq _))
  split <;> next h => rwa [h] at hb

theorem booked_sendEach (hq : Quiet self P) {m : Message}
    (hm : m ≠ (Control.disconnect self).toMessage) (n : Node) (ps : List PeerId) :
    n.Booked P (sendEach env now m n ps).1 := by
  induction ps generalizing n with
  | nil => exact .refl
  | cons p ps ih =>
    have hs : (Effect.sent now (.peer p) (env.fault (.peer p)) m).Silent := rfl
    have hn : n.Booked P (n.send env now (.peer p) m).1 :=
      .record hs (hq _ hs (Effect.notice?_of_ne hm now _ _))
    unfold sendEach
    split <;>
    · next h =>
      rw [h] at hn
      exact hn.trans (ih _)

theorem booked_fanOut (hq : Quiet self P) (n : Node) (m : Message) (h : Header) :
    n.Booked P (n.fanOut env now m h).1 :=
  booked_sendEach hq (Effect.attach_ne_notice h m self) n _

theorem booked_sendToGroup (hq : Quiet self P) (n : Node) (m : Message) (h : Header) :
    n.Booked P (n.sendToGroup env m h).1 :=
  .record rfl (hq _ rfl rfl)

theorem booked_propagate (hq : Quiet self P) (n : Node) (p : Propagation) :
    n.Booked P (n.propagate env now p).1 := by
  unfold propagate
  split
  · exact .refl
  · next h _ => exact (booked_fanOut hq n p.message h).trans (booked_sendToGroup hq _ p.message h)

theorem booked_propagateInGroup (hq : Quiet self P) (n : Node) (p : Propagation) :
    n.Booked P (n.propagateInGroup env now p).1 := by
  unfold propagateInGroup
  split
  · exact .refl
  · next h _ => exact booked_fanOut hq n p.message h

theorem booked_propagateToNeighbors (hq : Quiet self P) (n : Node) (p : Propagation) :
    n.Booked P (n.propagateToNeighbors env p).1 := by
  unfold propagateToNeighbors
  split
  · exact .refl
  · next h _ => exact booked_sendToGroup hq n p.message h

theorem foldl_notify (n : Node) (ps : List PeerId) :
    ps.foldl (fun n p => n.notify env now p) n =
      { n with trace := n.trace ++ ps.map (Effect.notice env now n.self.peer) } := by
  induction ps generalizing n with
  | nil => simp
  | cons p ps ih =>
    rw [List.foldl_cons, ih]
    simp [notify, send, record, Effect.notice]

theorem foldl_emit (n : Node) (e : PeerId → Event) (ps : List PeerId) :
    ps.foldl (fun n p => n.emit now (e p)) n =
      { n with trace := n.trace ++ ps.map fun p => .event now (e p) } := by
  induction ps generalizing n with
  | nil => simp
  | cons p ps ih =>
    rw [List.foldl_cons, ih]
    simp [emit, record]

theorem disconnectAll_fst (n : Node) :
    (n.disconnectAll env now).1 = { n with
      registry := n.registry.clear
      pending := {}
      trace := n.trace ++ n.registry.peers.map (Effect.notice env now n.self.peer) ++
        n.registry.peers.map fun p => .event now (.disconnected p) } := by
  simp only [disconnectAll, foldl_notify, foldl_emit]

theorem booked_disconnectAll (n : Node)
    (ht : ∀ p, P (.told (.notice env now n.self.peer p))) (hP : ∀ p, P (.parted now p)) :
    n.Booked P (n.disconnectAll env now).1 := by
  let notices := n.registry.peers.map (Effect.notice env now n.self.peer)
  have hsilent : ∀ e ∈ notices, e.Silent := by
    intro e he
    obtain ⟨p, _, rfl⟩ := List.mem_map.mp he
    rfl
  rw [disconnectAll_fst]
  refine ⟨notices.map .told ++ n.registry.peers.map (.parted now), ⟨?_, ?_, rfl, fun _ => id⟩, ?_⟩
  · exact (Books.told hsilent).append (Books.parted now rfl)
  · simp only [List.flatMap_append, List.flatMap_map, Change.effects, List.append_assoc,
      ← List.map_eq_flatMap, notices]
  · intro c hc
    rcases List.mem_append.mp hc with hc | hc
    · obtain ⟨e, he, rfl⟩ := List.mem_map.mp hc
      obtain ⟨p, _, rfl⟩ := List.mem_map.mp he
      exact ht p
    · obtain ⟨p, _, rfl⟩ := List.mem_map.mp hc
      exact hP p

end Node

end LeaseOverlay
