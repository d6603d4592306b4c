import Mathlib.Data.Int.Order.Basic
import Mathlib.Data.List.Nodup
import Mathlib.Order.Bounds.Basic
import Mathlib.Order.MinMax
import LeaseOverlay.Proofs.Codec

namespace LeaseOverlay

/-- A peer that sends a message on: the hops it asks for and the most it allows, whole numbers of 32
bits, and the identifier it gives to a message without one. -/
structure Hop where
  peer : PeerId
  ttl : UInt32
  limit : UInt32
  freshId : String

namespace Hop

def clamped (hop : Hop) : Nat := clampTtl hop.ttl.toNat hop.limit.toNat

def request (service param : String) (hop : Hop) : Header.Request :=
  ⟨hop.peer, service, param, hop.ttl.toNat, hop.limit.toNat, hop.freshId⟩

/-- What is left behind the last of these hops of what the one at `i` allows. -/
def left (hops : List Hop) (i : Fin hops.length) : Int :=
  hops[i].clamped - (hops.length - (i + 1))

theorem clamped_lt (hop : Hop) : hop.clamped < 0x100000000 :=
  lt_of_le_of_lt (Nat.min_le_left _ _) hop.ttl.toNat_lt

theorem range_left_cons (hop : Hop) (hops : List Hop) :
    Set.range (left (hop :: hops)) =
      insert ((hop.clamped : Int) - hops.length) (Set.range (left hops)) := by
  have hzero : left (hop :: hops) 0 = hop.clamped - hops.length := by
    simp [left]
  have hsucc (i : Fin hops.length) : left (hop :: hops) i.succ = left hops i := by
    have hbehind : ((hop :: hops).length : Int) - ((i.succ : Nat) + 1) = hops.length - (i + 1) := by
      rw [List.length_cons, Fin.val_succ]
      omega
    rw [left, hbehind]
    rfl
  ext x
  simp only [Set.mem_insert_iff, Set.mem_range, List.length_cons, Fin.exists_fin_succ]
  rw [hzero, eq_comm]
  simp only [hsucc]

theorem isLeast_insert_min {a b x : Int} {s : Set Int} (h : IsLeast (insert (min a b) s) x) :
    IsLeast (insert a (insert b s)) x := by
  obtain ⟨hx, hle⟩ := h
  simp only [mem_lowerBounds, Set.forall_mem_insert, le_min_iff, and_assoc] at hle
  refine ⟨?_, by simpa only [mem_lowerBounds, Set.forall_mem_insert] using hle⟩
  rcases Set.mem_insert_iff.mp hx with rfl | hx
  · rcases min_choice a b with hab | hab <;> simp [hab]
  · simp [hx]

end Hop

namespace Header

def relay (service param : String) : Message → List Hop → Option (List Header)
  | _, [] => some []
  | m, hop :: hops =>
    match outbound m (hop.request service param) with
    | .ok (some h) => (relay service param (h.attach m) hops).map (h :: ·)
    | _ => none

variable {g h : Header} {m : Message} {r : Request}

theorem outbound_of_get?_eq_none (hm : m.get? element = none) (service param : String) (hop : Hop) :
    outbound m (hop.request service param) =
      .ok (some (fresh hop.freshId hop.peer service param hop.clamped)) := by
  simp only [outbound, read, Message.json?, hm]
  rfl

theorem outbound_attach (hf : g.Fits) (m : Message) (r : Request) :
    outbound (g.attach m) r = g.next r := by
  rw [outbound, read_attach hf]

theorem next_of_mem (hs : g.service = r.service) (hp : g.param = r.param)
    (hmem : r.sender ∈ g.path) : g.next r = .error (.loop g.id) := by
  simp [next, hs, hp, visited, hmem]

theorem next_of_ttl_eq_zero (hs : g.service = r.service) (hp : g.param = r.param)
    (hmem : r.sender ∉ g.path) (hz : g.ttl = 0) : g.next r = .ok none := by
  simp [next, hs, hp, visited, hmem, hz]

theorem of_next_eq_some (hn : g.next r = .ok (some h)) :
    r.sender ∉ g.path ∧ 0 < g.ttl ∧
      h = { g with
        ttl := min (g.ttl - 1) (clampTtl r.ttl r.limit)
        path := g.path ++ [r.sender] } := by
  unfold next at hn
  split at hn
  · cases hn
  split at hn
  · cases hn
  next hvisited =>
  split at hn
  · cases hn
  next hz =>
  cases hn
  exact ⟨by simpa [visited] using hvisited, Nat.pos_of_ne_zero hz, rfl⟩

structure Carried (g : Header) (hops : List Hop) (last : Header) : Prop where
  id : last.id = g.id
  service : last.service = g.service
  param : last.param = g.param
  path : last.path = g.path ++ hops.map (·.peer)
  nodup : g.path.Nodup → last.path.Nodup
  ttl : IsLeast (insert ((g.ttl : Int) - hops.length) (Set.range (Hop.left hops))) last.ttl

theorem Carried.nil (g : Header) : g.Carried [] g := by
  refine ⟨rfl, rfl, rfl, (List.append_nil _).symm, fun h => h, ?_⟩
  have hnone : Set.range (Hop.left []) = ∅ := by
    ext x
    simp
  simp [hnone]

theorem Carried.cons {service param : String} {hop : Hop} {hops : List Hop} {last : Header}
    (hn : g.next (hop.request service param) = .ok (some h)) (hc : h.Carried hops last) :
    g.Carried (hop :: hops) last := by
  obtain ⟨hnew, hleft, rfl⟩ := of_next_eq_some hn
  refine ⟨hc.id, hc.service, hc.param, ?_, fun hg => hc.nodup ?_, ?_⟩
  · rw [hc.path, List.map_cons, List.append_assoc, List.singleton_append]
    rfl
  · refine List.nodup_append.mpr ⟨hg, List.nodup_singleton _, ?_⟩
    rintro p hp q hq rfl
    exact hnew (List.mem_singleton.mp hq ▸ hp)
  · have hcast : ((min (g.ttl - 1) hop.clamped : Nat) : Int) - hops.length =
        min ((g.ttl : Int) - (hop :: hops).length) (hop.clamped - hops.length) := by
      rw [List.length_cons]
      omega
    have httl := hc.ttl
    change IsLeast (insert (((min (g.ttl - 1) hop.clamped : Nat) : Int) - hops.length) _) _ at httl
    rw [hcast] at httl
    rw [Hop.range_left_cons]
    exact Hop.isLeast_insert_min httl

theorem Fits.next (hf : g.Fits) (hn : g.next r = .ok (some h)) : h.Fits := by
  obtain ⟨_, _, rfl⟩ := of_next_eq_some hn
  simp only [Fits] at hf ⊢
  omega

theorem carried_of_relay {service param : String} {hops : List Hop} {hs : List Header}
    (hf : g.Fits) (hr : relay service param (g.attach m) hops = some hs) :
    g.Carried hops ((g :: hs).getLast (List.cons_ne_nil _ _)) := by
  -- each hop attaches to the message of the one before: `g` and `m` change along the chain
  induction hops generalizing g m hs with
  | nil =>
    cases hr
    exact .nil g
  | cons hop hops ih =>
    rw [relay, outbound_attach hf] at hr
    split at hr
    · next h hn =>
      obtain ⟨hs, hrest, rfl⟩ := Option.map_eq_some_iff.mp hr
      rw [List.getLast_cons (List.cons_ne_nil _ _)]
      exact .cons hn (ih (hf.next hn) hrest)
    · cases hr

/-- A chain of hops that all yield a header passes no peer twice. The last header tells the way, and
of the hops that were allowed what is left to the one who allowed least. A peer that is on the way
already does not get any further, nor does a new one once no hop is left. -/
theorem flooding_bounded (hm : m.get? element = none) {service param : String} {hop : Hop}
    {hops : List Hop} {hs : List Header}
    (hr : relay service param m (hop :: hops) = some (h :: hs)) :
    ((hop :: hops).map (·.peer)).Nodup ∧
    (let last := (h :: hs).getLast (List.cons_ne_nil _ _)
     last.path = (hop :: hops).map (·.peer) ∧
     last.id = h.id ∧ last.service = h.service ∧ last.param = h.param ∧
     IsLeast (Set.range (Hop.left (hop :: hops))) last.ttl) ∧
    (∀ i, 0 ≤ Hop.left (hop :: hops) i) ∧
    (hop :: hops).length ≤ hop.clamped + 1 ∧
    ∀ (g : Header) (m : Message) (next : Hop),
      g.Fits → g.service = service → g.param = param →
      (next.peer ∈ g.path →
        outbound (g.attach m) (next.request service param) = .error (.loop g.id)) ∧
      (next.peer ∉ g.path → g.ttl = 0 →
        outbound (g.attach m) (next.request service param) = .ok none) := by
  rw [relay, outbound_of_get?_eq_none hm] at hr
  obtain ⟨_, hrest, hcons⟩ := Option.map_eq_some_iff.mp hr
  obtain ⟨rfl, rfl⟩ := List.cons.inj hcons
  have hfits : (fresh hop.freshId hop.peer service param hop.clamped).Fits := hop.clamped_lt
  have hc := carried_of_relay hfits hrest
  have hpath : _ = (hop :: hops).map (·.peer) := hc.path
  have hrange : Set.range (Hop.left (hop :: hops)) =
      insert ((hop.clamped : Int) - hops.length) (Set.range (Hop.left hops)) :=
    Hop.range_left_cons hop hops
  have hleast : IsLeast (Set.range (Hop.left (hop :: hops))) _ := hrange ▸ hc.ttl
  have hnonneg : ∀ i, 0 ≤ Hop.left (hop :: hops) i := by
    intro i
    exact (Int.natCast_nonneg _).trans (hleast.2 (Set.mem_range_self i))
  refine ⟨?_, ⟨hpath, hc.id, hc.service, hc.param, hleast⟩, hnonneg, ?_, ?_⟩
  · rw [← hpath]
    exact hc.nodup (List.nodup_singleton _)
  · have hfirst : (0 : Int) ≤ hop.clamped - hops.length := by
      simpa [Hop.left] using hnonneg 0
    rw [List.length_cons]
    omega
  · intro g m next hf hservice hparam
    rw [outbound_attach hf]
    exact ⟨next_of_mem (r := next.request service param) hservice hparam,
      next_of_ttl_eq_zero (r := next.request service param) hservice hparam⟩

def threeHops : List Hop := [⟨.filled 1, 9, 5, "a"⟩, ⟨.filled 2, 2, 8, "b"⟩, ⟨.filled 3, 7, 7, "c"⟩]

def spent : Header := ⟨"a", 0, "svc", "p", [.filled 1]⟩

theorem flooding_through_three :
    relay "svc" "p" (.ofList [("note", [0x21])]) threeHops =
      some [⟨"a", 5, "svc", "p", [.filled 1]⟩, ⟨"a", 2, "svc", "p", [.filled 1, .filled 2]⟩,
        ⟨"a", 1, "svc", "p", [.filled 1, .filled 2, .filled 3]⟩] ∧
    IsLeast (Set.range (Hop.left threeHops)) 1 ∧
    outbound (spent.attach .empty) (Hop.request "svc" "p" ⟨.filled 1, 9, 9, "d"⟩) =
      .error (.loop "a") ∧
    outbound (spent.attach .empty) (Hop.request "svc" "p" ⟨.filled 2, 9, 9, "d"⟩) = .ok none := by
  have hm : (Message.ofList [("note", [0x21])]).get? element = none := by decide +kernel
  have hr : relay "svc" "p" (.ofList [("note", [0x21])]) threeHops =
      some [⟨"a", 5, "svc", "p", [.filled 1]⟩, ⟨"a", 2, "svc", "p", [.filled 1, .filled 2]⟩,
        ⟨"a", 1, "svc", "p", [.filled 1, .filled 2, .filled 3]⟩] := by
    decide +kernel
  obtain ⟨_, ⟨_, _, _, _, hleast⟩, _, _, hstops⟩ := flooding_bounded hm hr
  have hfits : spent.Fits := by
    simp [Fits, spent]
  refine ⟨hr, hleast, ?_, ?_⟩
  · exact (hstops spent .empty ⟨.filled 1, 9, 9, "d"⟩ hfits rfl rfl).1 (by decide)
  · exact (hstops spent .empty ⟨.filled 2, 9, 9, "d"⟩ hfits rfl rfl).2 (by decide) rfl

end Header

end LeaseOverlay
