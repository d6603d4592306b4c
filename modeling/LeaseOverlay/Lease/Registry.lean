import LeaseOverlay.Table
import LeaseOverlay.Lease.Connection

namespace LeaseOverlay

structure Registry where
  capacity : Nat
  margin : Time
  table : Table PeerId Connection
  deriving DecidableEq

namespace Registry

def new (capacity : Nat) (margin : Time) : Registry := ⟨capacity, margin, .empty⟩

def get? (r : Registry) (p : PeerId) : Option Connection := r.table.get? p

def contains (r : Registry) (p : PeerId) : Bool := r.table.contains p

def size (r : Registry) : Nat := r.table.size

def isEmpty (r : Registry) : Bool := r.table.isEmpty

def hasCapacity (r : Registry) : Bool := r.size < r.capacity

def peers (r : Registry) : List PeerId := r.table.keys

def connections (r : Registry) : List Connection := r.table.values

def put (r : Registry) (p : PeerId) (c : Connection) : Registry :=
  { r with table := r.table.insert p c }

def remove (r : Registry) (p : PeerId) : Registry := { r with table := r.table.erase p }

def clear (r : Registry) : Registry := { r with table := .empty }

def grant (r : Registry) (now : Time) (p : PeerId) (d : Descriptor) (lease : Time) :
    Option (Registry × Bool) :=
  let c := Connection.granted p d now lease r.margin
  if r.contains p then some (r.put p c, false)
  else if r.hasCapacity then some (r.put p c, true)
  else none

def modify (r : Registry) (p : PeerId) (f : Connection → Connection) : Registry :=
  match r.get? p with
  | some c => r.put p (f c)
  | none => r

def removeIf (r : Registry) (p : PeerId) (q : Connection → Bool) : Option Registry :=
  match r.get? p with
  | some c => if q c then some (r.remove p) else none
  | none => none

theorem get?_put (r : Registry) (p q : PeerId) (c : Connection) :
    (r.put p c).get? q = if q = p then some c else r.get? q :=
  Table.get?_insert r.table p q c

theorem get?_remove (r : Registry) (p q : PeerId) :
    (r.remove p).get? q = if q = p then none else r.get? q :=
  Table.get?_erase r.table p q

theorem contains_iff {r : Registry} {p : PeerId} :
    r.contains p = true ↔ ∃ c, r.get? p = some c :=
  Table.contains_iff

theorem contains_eq_false_iff {r : Registry} {p : PeerId} :
    r.contains p = false ↔ r.get? p = none :=
  Table.contains_eq_false_iff

theorem mem_peers {r : Registry} {p : PeerId} : p ∈ r.peers ↔ r.contains p = true :=
  Table.mem_keys

theorem mem_connections {r : Registry} {c : Connection} :
    c ∈ r.connections ↔ ∃ p, r.get? p = some c :=
  Table.mem_values

theorem not_contains_of_peers {r : Registry} (h : r.peers = []) (p : PeerId) :
    r.contains p = false := by
  have hp : p ∉ r.peers := by simp [h]
  simpa [mem_peers] using hp

theorem nodup_peers (r : Registry) : r.peers.Nodup := r.table.nodup_keys

theorem peers_remove (r : Registry) (p : PeerId) :
    (r.remove p).peers = r.peers.filter (· ≠ p) :=
  r.table.keys_erase p

theorem eq_clear_of_peers {r : Registry} (h : r.peers = []) : r = r.clear := by
  obtain ⟨capacity, margin, t⟩ := r
  exact congrArg (Registry.mk capacity margin) (Table.eq_empty_of_keys h)

theorem ext_get? {r s : Registry} (hc : r.capacity = s.capacity) (hm : r.margin = s.margin)
    (h : ∀ p, r.get? p = s.get? p) : r = s := by
  obtain ⟨capacity, margin, t⟩ := r
  obtain ⟨_, _, u⟩ := s
  cases hc
  cases hm
  exact congrArg (Registry.mk capacity margin) (Table.ext_get? h)

theorem remove_put {r : Registry} {p : PeerId} (c : Connection) (h : r.contains p = false) :
    (r.put p c).remove p = r := by
  refine ext_get? rfl rfl fun q => ?_
  rw [get?_remove, get?_put]
  split
  · next hq => rw [hq, contains_eq_false_iff.mp h]
  · rfl

theorem modify_of_get? {r : Registry} {p : PeerId} {c : Connection} (h : r.get? p = some c)
    (f : Connection → Connection) : r.modify p f = r.put p (f c) := by
  rw [modify, h]

theorem modify_margin (r : Registry) (p : PeerId) (f : Connection → Connection) :
    (r.modify p f).margin = r.margin := by
  unfold modify
  split <;> rfl

theorem removeIf_eq_some_iff {r s : Registry} {p : PeerId} {q : Connection → Bool} :
    r.removeIf p q = some s ↔ (∃ c, r.get? p = some c ∧ q c = true) ∧ s = r.remove p := by
  cases h : r.get? p with
  | none => simp [removeIf, h]
  | some c =>
    simp only [removeIf, h, Option.some.injEq, exists_eq_left']
    split
    · next hq => simp [hq, eq_comm (a := s)]
    · next hq => simp [hq]

theorem grant_of_contains {r : Registry} {p : PeerId} (h : r.contains p = true) (now : Time)
    (d : Descriptor) (lease : Time) :
    r.grant now p d lease = some (r.put p (.granted p d now lease r.margin), false) := by
  rw [grant, if_pos h]

theorem grant_of_hasCapacity {r : Registry} {p : PeerId} (h : r.contains p = false)
    (hc : r.hasCapacity = true) (now : Time) (d : Descriptor) (lease : Time) :
    r.grant now p d lease = some (r.put p (.granted p d now lease r.margin), true) := by
  simp [grant, h, hc]

theorem grant_of_full {r : Registry} {p : PeerId} (h : r.contains p = false)
    (hc : r.hasCapacity = false) (now : Time) (d : Descriptor) (lease : Time) :
    r.grant now p d lease = none := by
  simp [grant, h, hc]

end Registry

end LeaseOverlay
