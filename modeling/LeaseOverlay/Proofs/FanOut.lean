import Mathlib.Data.List.Nodup
import LeaseOverlay.Proofs.Codec
import LeaseOverlay.Proofs.Run

namespace LeaseOverlay

structure Header.Stamped (h : Header) (m copy : Message) : Prop where
  header : Header.read copy = .ok (some h)
  others : ∀ name, name ≠ Header.element → copy.get? name = m.get? name

theorem Header.stamped_attach {h : Header} (hf : h.Fits) (m : Message) :
    h.Stamped m (h.attach m) :=
  ⟨read_attach hf m, fun _ hn => get?_attach h m hn⟩

namespace Node

inductive Refused (n : Node) (p : Propagation) : Prop
  | unreadable {e : WireError} (hm : Header.read p.message = .error e)
  | inconsistent {g : Header} (hm : Header.read p.message = .ok (some g))
      (hne : g.service ≠ p.service ∨ g.param ≠ p.param)
  | loop {g : Header} (hm : Header.read p.message = .ok (some g)) (hmem : n.self.peer ∈ g.path)
  | spent {g : Header} (hm : Header.read p.message = .ok (some g)) (hz : g.ttl = 0)

inductive Onward (n : Node) (p : Propagation) : Header → Prop
  | fresh (hm : Header.read p.message = .ok none) :
      Onward n p ⟨p.freshId, min p.ttl n.settings.maxTtl, p.service, p.param, [n.self.peer]⟩
  | carried {g : Header} (hm : Header.read p.message = .ok (some g))
      (hs : g.service = p.service) (hp : g.param = p.param) (hnew : n.self.peer ∉ g.path)
      (hleft : 0 < g.ttl) :
      Onward n p { g with
        ttl := min (g.ttl - 1) (min p.ttl n.settings.maxTtl)
        path := g.path ++ [n.self.peer] }

variable {n : Node} {p : Propagation} {h : Header} {env : Surroundings} {now : Time}

theorem headerFor_of_refused (hr : n.Refused p) : n.headerFor p = none := by
  cases hr with
  | unreadable hm => simp [headerFor, Header.outbound, hm]
  | inconsistent hm hne => simp [headerFor, Header.outbound, hm, Header.next, hne]
  | @loop g hm hmem =>
    simp only [headerFor, Header.outbound, hm, Header.next]
    by_cases hne : g.service ≠ p.service ∨ g.param ≠ p.param <;> simp [hne, Header.visited, hmem]
  | @spent g hm hz =>
    simp only [headerFor, Header.outbound, hm, Header.next]
    by_cases hne : g.service ≠ p.service ∨ g.param ≠ p.param
    · simp [hne]
    · by_cases hv : g.visited n.self.peer = true <;> simp [hne, hv, hz]

theorem exists_onward (hr : ¬n.Refused p) : ∃ h, n.Onward p h ∧ n.headerFor p = some h := by
  cases hm : Header.read p.message with
  | error e => exact absurd (.unreadable hm) hr
  | ok carried =>
    cases carried with
    | none => exact ⟨_, .fresh hm, by simp only [headerFor, Header.outbound, hm]; rfl⟩
    | some g =>
      have hsame : ¬(g.service ≠ p.service ∨ g.param ≠ p.param) :=
        fun hne => hr (.inconsistent hm hne)
      have hnew : n.self.peer ∉ g.path := fun hmem => hr (.loop hm hmem)
      have hleft : g.ttl ≠ 0 := fun hz => hr (.spent hm hz)
      have hboth : g.service = p.service ∧ g.param = p.param := by simpa using hsame
      refine ⟨_, .carried hm hboth.1 hboth.2 hnew (Nat.pos_of_ne_zero hleft), ?_⟩
      simp [headerFor, Header.outbound, hm, Header.next, hboth, Header.visited, hnew, hleft,
        clampTtl]

theorem Onward.fits (ho : n.Onward p h) (ht : p.ttl < 0x100000000) : h.Fits := by
  cases ho with
  | fresh => exact Nat.lt_of_le_of_lt (Nat.min_le_left _ _) ht
  | carried =>
    refine Nat.lt_of_le_of_lt ?_ ht
    exact Nat.le_trans (Nat.min_le_right _ _) (Nat.min_le_left _ _)

def copyTo (env : Surroundings) (now : Time) (m : Message) (q : PeerId) : Effect :=
  .sent now (.peer q) (env.fault (.peer q)) m

theorem copyTo_injective (env : Surroundings) (now : Time) (m : Message) :
    Function.Injective (copyTo env now m) := by
  intro q r hqr
  cases hqr
  rfl

theorem sendEach_eq (n : Node) (m : Message) (ps : List PeerId) :
    sendEach env now m n ps = ({ n with trace := n.trace ++ ps.map (copyTo env now m) },
      ps.countP fun q => (env.fault (.peer q)).isNone) := by
  induction ps generalizing n with
  | nil => simp [sendEach]
  | cons q ps ih =>
    rw [sendEach]
    cases hf : env.fault (.peer q) <;> simp [send, record, hf, ih, copyTo]

end Node

def Effect.delivered : Effect → Bool
  | .sent _ _ error _ => error.isNone
  | _ => false

/-- The same copy is sent once to every leased peer that the header does not name and to nobody
else, and `reached` of the sends succeed. -/
structure FanOut (env : Surroundings) (now : Time) (n : Node) (h : Header) (copy : Message)
    (es : List Effect) (reached : Nat) : Prop where
  once : ∀ q, n.registry.contains q = true → q ∉ h.path →
    es.count (.sent now (.peer q) (env.fault (.peer q)) copy) = 1
  only : ∀ e ∈ es, ∃ q, n.registry.contains q = true ∧ q ∉ h.path ∧
    e = .sent now (.peer q) (env.fault (.peer q)) copy
  reached : reached = es.countP (·.delivered)

namespace Node

variable {n : Node} {p : Propagation} {h : Header} {env : Surroundings} {now : Time}

theorem fanOut_eq (env : Surroundings) (now : Time) (n : Node) (m : Message) (h : Header) :
    ∃ es reached, FanOut env now n h (h.attach m) es reached ∧
      n.fanOut env now m h = ({ n with trace := n.trace ++ es }, reached) := by
  let ps := n.registry.peers.filter fun q => !h.visited q
  have hps {q : PeerId} : q ∈ ps ↔ n.registry.contains q = true ∧ q ∉ h.path := by
    simp [ps, Registry.mem_peers, Header.visited]
  have hnodup : ps.Nodup := n.registry.nodup_peers.filter _
  refine ⟨ps.map (copyTo env now (h.attach m)), _, ⟨?_, ?_, rfl⟩, ?_⟩
  · intro q hq hnew
    have hmem : copyTo env now (h.attach m) q ∈ ps.map (copyTo env now (h.attach m)) :=
      List.mem_map_of_mem (hps.mpr ⟨hq, hnew⟩)
    exact List.count_eq_one_of_mem (hnodup.map (copyTo_injective env now (h.attach m))) hmem
  · intro e he
    obtain ⟨q, hq, rfl⟩ := List.mem_map.mp he
    exact ⟨q, (hps.mp hq).1, (hps.mp hq).2, rfl⟩
  · rw [fanOut, sendEach_eq, List.countP_map]
    rfl

/-- A message for which no header can be built is sent nowhere. Any other gets one header, and all
copies of it are that header on the message: the leased peers get one each unless the header names
them, and the group gets one, as far as the way of sending reaches either. Besides, nothing happens
to the node. -/
theorem fan_out_law (env : Surroundings) (now : Time) (n : Node) (m : Message)
    (service param freshId : String) (ttl : UInt32) (dests : List PeerId) :
    let p : Propagation := ⟨m, service, param, ttl.toNat, freshId⟩
    (n.Refused p →
      n.propagate env now p = (n, 0) ∧
      n.propagateInGroup env now p = (n, 0) ∧
      n.walk env now p = (n, 0) ∧
      n.walkTo env now dests p = (n, 0) ∧
      n.propagateToNeighbors env p = (n, false)) ∧
    (¬n.Refused p → ∃ h copy es reached, n.Onward p h ∧ h.Stamped m copy ∧
      FanOut env now n h copy es reached ∧
      n.propagate env now p =
        ({ n with trace := n.trace ++ es ++ [.group env.groupUp copy] }, reached) ∧
      n.propagateInGroup env now p = ({ n with trace := n.trace ++ es }, reached) ∧
      n.walk env now p = ({ n with trace := n.trace ++ es }, reached) ∧
      n.walkTo env now dests p = ({ n with trace := n.trace ++ es }, reached) ∧
      n.propagateToNeighbors env p =
        ({ n with trace := n.trace ++ [.group env.groupUp copy] }, env.groupUp)) := by
  intro p
  constructor
  · intro hr
    have hnone := headerFor_of_refused hr
    have hgroup : n.propagateInGroup env now p = (n, 0) := by simp only [propagateInGroup, hnone]
    refine ⟨?_, hgroup, hgroup, hgroup, ?_⟩
    · simp only [propagate, hnone]
    · simp only [propagateToNeighbors, hnone]
  · intro hr
    obtain ⟨h, ho, hsome⟩ := exists_onward hr
    obtain ⟨es, reached, hfan, heq⟩ := n.fanOut_eq env now m h
    have hm : p.message = m := rfl
    have hgroup : n.propagateInGroup env now p = ({ n with trace := n.trace ++ es }, reached) := by
      simp only [propagateInGroup, hsome, hm, heq]
    have hstamped := Header.stamped_attach (ho.fits ttl.toNat_lt) m
    refine ⟨h, h.attach m, es, reached, ho, hstamped, hfan, ?_, hgroup, hgroup, hgroup, ?_⟩
    · simp only [propagate, hsome, hm, heq, sendToGroup, record]
    · simp only [propagateToNeighbors, hsome, hm, sendToGroup, record]

end Node

end LeaseOverlay
