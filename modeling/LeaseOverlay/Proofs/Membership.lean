import Mathlib.Data.Finset.Card
import Mathlib.Data.List.Nodup
import LeaseOverlay.Proofs.Turn

namespace LeaseOverlay

def Registry.members (r : Registry) : Finset PeerId := r.peers.toFinset

def EdgePeer.leased (p : EdgePeer) : Finset PeerId := p.node.registry.members

namespace Registry

variable {r : Registry} {p q : PeerId}

theorem mem_members : p ∈ r.members ↔ r.contains p = true := by
  rw [members, List.mem_toFinset, mem_peers]

theorem card_members (r : Registry) : r.members.card = r.size := by
  rw [members, List.toFinset_card_of_nodup r.nodup_peers]
  exact List.length_map _

theorem members_put (r : Registry) (p : PeerId) (c : Connection) :
    (r.put p c).members = insert p r.members := by
  ext q
  rw [Finset.mem_insert, mem_members, mem_members, contains_iff, contains_iff, get?_put]
  split <;> simp_all

theorem members_remove (r : Registry) (p : PeerId) : (r.remove p).members = r.members.erase p := by
  ext q
  rw [Finset.mem_erase, mem_members, mem_members, contains_iff, contains_iff, get?_remove]
  split <;> simp_all

theorem members_modify (r : Registry) (p : PeerId) (f : Connection → Connection) :
    (r.modify p f).members = r.members := by
  cases h : r.get? p with
  | none => rw [modify, h]
  | some c =>
    have hp : p ∈ r.members := mem_members.mpr (contains_iff.mpr ⟨c, h⟩)
    rw [modify_of_get? h, members_put, Finset.insert_eq_of_mem hp]

end Registry

namespace Membership

def follow (s : Finset PeerId) : Event → Option (Finset PeerId)
  | .connected p => if p ∉ s then some (insert p s) else none
  | .reconnected p => if p ∈ s then some s else none
  | .disconnected p | .failed p => if p ∈ s then some (s.erase p) else none
  | .becameEdge | .becameRendezvous => some s

def replay (s : Finset PeerId) (es : List Event) : Option (Finset PeerId) := es.foldlM follow s

def events (es : List Effect) : List Event := es.filterMap Effect.event?

variable {r s : Registry} {p : PeerId}

theorem events_append (es fs : List Effect) : events (es ++ fs) = events es ++ events fs :=
  List.filterMap_append

theorem replay_append (m : Finset PeerId) (es fs : List Event) :
    replay m (es ++ fs) = (replay m es).bind fun m' => replay m' fs :=
  List.foldlM_append

theorem follow_silent {e : Effect} (h : e.Silent) (m : Finset PeerId) :
    replay m (events [e]) = some m := by
  cases e with
  | event now e =>
    cases e with
    | becameEdge => rfl
    | becameRendezvous => rfl
    | connected p => cases h
    | reconnected p => cases h
    | disconnected p => cases h
    | failed p => cases h
  | sent now dest error m => rfl
  | group taken m => rfl
  | route r => rfl

theorem mem_of_held {d : Descriptor} (h : Change.Held r p d) : p ∈ r.members := by
  obtain ⟨c, hc, _⟩ := h
  exact Registry.mem_members.mpr (Registry.contains_iff.mpr ⟨c, hc⟩)

theorem members_put_of_held {d : Descriptor} (h : Change.Held r p d) (c : Connection) :
    (r.put p c).members = r.members := by
  rw [Registry.members_put, Finset.insert_eq_of_mem (mem_of_held h)]

theorem follow_ending {e : Event} (he : e = .failed p ∨ e = .disconnected p) (hp : p ∈ r.members) :
    follow r.members e = some (r.remove p).members := by
  rw [Registry.members_remove]
  rcases he with rfl | rfl
  · exact if_pos hp
  · exact if_pos hp

theorem mem_events_event {now : Time} {e e' : Event} : e ∈ events [.event now e'] ↔ e = e' := by
  simp [events, Effect.event?]

theorem replay_one (m : Finset PeerId) (now : Time) (e : Event) :
    replay m (events [.event now e]) = follow m e := by
  simp [replay, events, Effect.event?]

theorem replay_change {c : Change} (h : c.Legal r) :
    replay r.members (events c.effects) = some (c.apply r).members := by
  cases c with
  | told e => exact follow_silent h _
  | admitted now p d lease =>
    have hp : p ∉ r.members := fun hm => by simpa [h.1] using Registry.mem_members.mp hm
    rw [Change.effects, replay_one, Change.apply, Registry.members_put]
    exact if_pos hp
  | renewed now p d lease =>
    rw [Change.effects, replay_one, Change.apply, members_put_of_held h]
    exact if_pos (mem_of_held h)
  | prolonged now p d lease =>
    rw [Change.apply, members_put_of_held h]
    rfl
  | shrunk now p delay =>
    rw [Change.apply, Registry.members_modify]
    rfl
  | lost now p =>
    rw [Change.effects, replay_one]
    exact follow_ending (.inl rfl) (Registry.mem_members.mpr h)
  | expired now p due =>
    obtain ⟨c, hc, _⟩ := h
    rw [Change.effects, replay_one]
    exact follow_ending (.inl rfl) (Registry.mem_members.mpr (Registry.contains_iff.mpr ⟨c, hc⟩))
  | parted now p =>
    rw [Change.effects, replay_one]
    exact follow_ending (.inr rfl) (Registry.mem_members.mpr h)
  | closed => rfl

theorem replay_books {cs : List Change} (h : Books r cs s) :
    replay r.members (events (cs.flatMap Change.effects)) = some s.members := by
  induction h with
  | nil => rfl
  | cons legal _ ih =>
    rw [List.flatMap_cons, events_append, replay_append, replay_change legal]
    exact ih

theorem replay_effects (p : EdgePeer) (t : Turn) :
    replay p.leased (events (p.effects t)) = some (p.after t).leased := by
  obtain ⟨cs, hbooks, heffects, _⟩ := p.exists_changes t
  rw [heffects]
  exact replay_books hbooks

theorem replay_run (p : EdgePeer) (ts : List Turn) :
    replay p.leased (events (p.log ts)) = some (p.run ts).leased := by
  induction ts generalizing p with
  | nil => rfl
  | cons t ts ih =>
    rw [EdgePeer.log, events_append, replay_append, replay_effects]
    exact ih (p.after t)

end Membership

end LeaseOverlay
