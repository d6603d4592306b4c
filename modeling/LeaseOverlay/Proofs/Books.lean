import LeaseOverlay.Proofs.Run

namespace LeaseOverlay

namespace Effect

def event? : Effect → Option Event
  | event _ e => some e
  | _ => none

def notice? (self : PeerId) : Effect → Option PeerId
  | sent _ (.peer q) _ m => if m = (Control.disconnect self).toMessage then some q else none
  | _ => none

def notice (env : Surroundings) (now : Time) (self q : PeerId) : Effect :=
  .sent now (.peer q) (env.fault (.peer q)) (Control.disconnect self).toMessage

def Silent (e : Effect) : Prop := e.event?.bind Event.peer? = none

@[simp] theorem notice?_event (self : PeerId) (now : Time) (e : Event) :
    (event now e).notice? self = none := rfl

@[simp] theorem notice?_notice (env : Surroundings) (now : Time) (self q : PeerId) :
    (notice env now self q).notice? self = some q := by
  simp [notice, notice?]

theorem notice?_of_ne {m : Message} {self : PeerId} (h : m ≠ (Control.disconnect self).toMessage)
    (now : Time) (dest : Destination) (error : Option SendError) :
    (sent now dest error m).notice? self = none := by
  cases dest with
  | address _ => rfl
  | peer q => rw [notice?, if_neg h]

theorem request_ne_notice (d : Descriptor) (self : PeerId) :
    (Control.request d).toMessage ≠ (Control.disconnect self).toMessage := by
  intro h
  have hg := congrArg (·.get? Control.requestElement) h
  have hne : Control.requestElement ≠ Control.disconnectElement := by decide
  simp only [Control.toMessage, Message.setJson] at hg
  rw [Message.get?_set_self, Message.get?_set_ne _ _ hne] at hg
  cases hg

theorem attach_ne_notice (h : Header) (m : Message) (self : PeerId) :
    h.attach m ≠ (Control.disconnect self).toMessage := by
  intro he
  have hg := congrArg (·.get? Header.element) he
  have hne : Header.element ≠ Control.disconnectElement := by decide
  simp only [Header.attach, Control.toMessage, Message.setJson] at hg
  rw [Message.get?_set_self, Message.get?_set_ne _ _ hne] at hg
  cases hg

end Effect

inductive Change
  | told (e : Effect)
  | admitted (now : Time) (p : PeerId) (d : Descriptor) (lease : Time)
  | renewed (now : Time) (p : PeerId) (d : Descriptor) (lease : Time)
  /-- A renewal that a shutdown overtakes: the lease is replaced and nobody hears of it. -/
  | prolonged (now : Time) (p : PeerId) (d : Descriptor) (lease : Time)
  | shrunk (now : Time) (p : PeerId) (delay : Time)
  | lost (now : Time) (p : PeerId)
  | expired (now : Time) (p : PeerId) (due : Time)
  | parted (now : Time) (p : PeerId)
  | closed

namespace Change

def apply (r : Registry) : Change → Registry
  | told _ | closed => r
  | admitted now p d lease | renewed now p d lease | prolonged now p d lease =>
    r.put p (.granted p d now lease r.margin)
  | shrunk now p delay => r.modify p fun c => c.shrink now delay
  | lost _ p | expired _ p _ | parted _ p => r.remove p

def effects : Change → List Effect
  | told e => [e]
  | admitted now p _ _ => [.event now (.connected p)]
  | renewed now p _ _ => [.event now (.reconnected p)]
  | lost now p | expired now p _ => [.event now (.failed p)]
  | parted now p => [.event now (.disconnected p)]
  | prolonged .. | shrunk .. | closed => []

def Held (r : Registry) (p : PeerId) (d : Descriptor) : Prop :=
  ∃ c, r.get? p = some c ∧ (d.peer = p ∨ d = c.descriptor)

def Legal (r : Registry) : Change → Prop
  | told e => e.Silent
  | admitted _ p d _ => r.contains p = false ∧ r.hasCapacity = true ∧ d.peer = p
  | renewed _ p d _ | prolonged _ p d _ => Held r p d
  | shrunk _ p _ | lost _ p | parted _ p => r.contains p = true
  | expired _ p due => ∃ c, r.get? p = some c ∧ c.isOver due = true
  | closed => True

end Change

inductive Books : Registry → List Change → Registry → Prop
  | nil (r : Registry) : Books r [] r
  | cons {r s : Registry} {c : Change} {cs : List Change} (legal : c.Legal r)
      (rest : Books (c.apply r) cs s) : Books r (c :: cs) s

namespace Books

variable {r s t : Registry} {c : Change} {cs ds : List Change}

theorem single (h : c.Legal r) : Books r [c] (c.apply r) := .cons h (.nil _)

theorem append (h : Books r cs s) (h' : Books s ds t) : Books r (cs ++ ds) t := by
  induction h with
  | nil => exact h'
  | cons legal _ ih => exact .cons legal (ih h')

theorem exists_legal (h : Books r cs s) (hc : c ∈ cs) : ∃ l, c.Legal l := by
  induction h with
  | nil => cases hc
  | @cons r _ _ _ legal _ ih =>
    rcases List.mem_cons.mp hc with rfl | hc
    · exact ⟨r, legal⟩
    · exact ih hc

theorem margin_eq (h : Books r cs s) : s.margin = r.margin := by
  induction h with
  | nil => rfl
  | @cons r _ c _ _ _ ih =>
    rw [ih]
    cases c with
    | shrunk now p delay => exact Registry.modify_margin r p _
    | _ => rfl

theorem told {es : List Effect} (h : ∀ e ∈ es, e.Silent) : Books r (es.map .told) r := by
  induction es with
  | nil => exact .nil r
  | cons e es ih =>
    have he : e.Silent := h e (by simp)
    exact .cons he (ih fun e' he' => h e' (List.mem_cons_of_mem _ he'))

theorem parted (now : Time) {ps : List PeerId} (h : r.peers = ps) :
    Books r (ps.map (.parted now)) r.clear := by
  induction ps generalizing r with
  | nil =>
    rw [← Registry.eq_clear_of_peers h]
    exact .nil r
  | cons p ps ih =>
    have hp : p ∉ ps := by
      have hn := r.nodup_peers
      rw [h] at hn
      exact (List.nodup_cons.mp hn).1
    have hmem : p ∈ r.peers := by simp [h]
    have hrest : (r.remove p).peers = ps := by
      rw [Registry.peers_remove, h]
      simp only [ne_eq, decide_not, List.filter_cons, decide_true, Bool.not_true]
      refine List.filter_eq_self.mpr fun q hq => ?_
      have hqp : q ≠ p := fun e => hp (e ▸ hq)
      simpa using hqp
    exact .cons (Registry.mem_peers.mp hmem) (ih hrest)

end Books

namespace Node

def Live (n : Node) : Prop := n.leaseStopped = false ∧ n.shutdownDue = false

structure Account (n m : Node) (cs : List Change) : Prop where
  books : Books n.registry cs m.registry
  trace : m.trace = n.trace ++ cs.flatMap Change.effects
  self : m.self = n.self
  live : .closed ∉ cs → n.Live → m.Live

def Booked (P : Change → Prop) (n m : Node) : Prop :=
  ∃ cs, Account n m cs ∧ ∀ c ∈ cs, P c

variable {P : Change → Prop} {n m l : Node}

namespace Booked

theorem of_eq (hr : m.registry = n.registry) (ht : m.trace = n.trace) (hs : m.self = n.self)
    (hl : n.Live → m.Live) : n.Booked P m := by
  refine ⟨[], ⟨?_, ?_, hs, fun _ => hl⟩, by simp⟩
  · rw [hr]
    exact .nil _
  · simp [ht]

theorem refl : n.Booked P n := of_eq rfl rfl rfl id

theorem single {c : Change} (hc : c.Legal n.registry) (hP : P c)
    (hr : m.registry = c.apply n.registry) (ht : m.trace = n.trace ++ c.effects)
    (hs : m.self = n.self) (hl : c ≠ .closed → n.Live → m.Live) : n.Booked P m := by
  refine ⟨[c], ⟨?_, by simpa using ht, hs, fun h => hl fun e => h (by simp [e])⟩, by simpa using hP⟩
  rw [hr]
  exact .single hc

theorem trans (h : n.Booked P m) (h' : m.Booked P l) : n.Booked P l := by
  obtain ⟨cs, a, hcs⟩ := h
  obtain ⟨ds, b, hds⟩ := h'
  refine ⟨cs ++ ds, ⟨a.books.append b.books, ?_, b.self.trans a.self, ?_⟩, ?_⟩
  · rw [b.trace, a.trace, List.append_assoc, List.flatMap_append]
  · intro hno hn
    rw [List.mem_append, not_or] at hno
    exact b.live hno.2 (a.live hno.1 hn)
  · intro c hc
    exact (List.mem_append.mp hc).elim (hcs c) (hds c)

theorem self_eq (h : n.Booked P m) : m.self = n.self := by
  obtain ⟨cs, a, _⟩ := h
  exact a.self

theorem trace_extends (h : n.Booked P m) : n.trace <+: m.trace := by
  obtain ⟨cs, a, _⟩ := h
  exact ⟨_, a.trace.symm⟩

theorem live (h : n.Booked P m) (hP : ¬P .closed) (hn : n.Live) : m.Live := by
  obtain ⟨cs, a, hcs⟩ := h
  exact a.live (fun hc => hP (hcs _ hc)) hn

theorem record {e : Effect} (he : e.Silent) (hP : P (.told e)) : n.Booked P (n.record e) :=
  single (c := .told e) he hP rfl rfl rfl fun _ => id

end Booked

end Node

end LeaseOverlay
