import LeaseOverlay.Proofs.Cycle
import LeaseOverlay.Proofs.FanOut
import LeaseOverlay.Scenario.NodeRun

namespace LeaseOverlay

namespace Registry

variable {r s : Registry} {p : PeerId} {c : Connection}

theorem contains_modify (r : Registry) (p q : PeerId) (f : Connection → Connection) :
    (r.modify p f).contains q = r.contains q := by
  rw [Bool.eq_iff_iff, ← mem_members, ← mem_members, members_modify]

namespace Keyed

theorem new (capacity : Nat) (margin : Time) : (Registry.new capacity margin).Keyed := by
  intro q c hc
  cases hc

theorem put (h : r.Keyed) (hc : c.peer = p) : (r.put p c).Keyed := by
  intro q c' hq
  rw [get?_put] at hq
  split at hq
  · next he =>
    cases hq
    rw [hc, he]
  · exact h q c' hq

theorem remove (h : r.Keyed) (p : PeerId) : (r.remove p).Keyed := by
  intro q c hq
  rw [get?_remove] at hq
  split at hq
  · cases hq
  · exact h q c hq

theorem modify (h : r.Keyed) (p : PeerId) {f : Connection → Connection}
    (hf : ∀ c, (f c).peer = c.peer) : (r.modify p f).Keyed := by
  cases hp : r.get? p with
  | none => rwa [Registry.modify, hp]
  | some c =>
    rw [modify_of_get? hp]
    exact h.put ((hf c).trans (h p c hp))

theorem grant {now lease : Time} {d : Descriptor} {isNew : Bool} (h : r.Keyed)
    (hg : r.grant now p d lease = some (s, isNew)) : s.Keyed := by
  rw [eq_put_of_grant hg]
  exact h.put rfl

theorem apply (h : r.Keyed) (c : Change) : (c.apply r).Keyed := by
  cases c with
  | told e => exact h
  | admitted now p d lease => exact h.put rfl
  | renewed now p d lease => exact h.put rfl
  | prolonged now p d lease => exact h.put rfl
  | shrunk now p delay => exact h.modify p fun _ => rfl
  | lost now p => exact h.remove p
  | expired now p due => exact h.remove p
  | parted now p => exact h.remove p
  | closed => exact h

theorem books {cs : List Change} (hb : Books r cs s) (h : r.Keyed) : s.Keyed := by
  induction hb with
  | nil => exact h
  | cons _ _ ih => exact ih (h.apply _)

end Keyed

end Registry

namespace Node

variable {n m : Node}

/-- The lease that `p` has is judged at the time `due`: if it is over it is removed, with its event
and with nothing else, and if it is not, nothing happens. -/
structure Judged (now : Time) (n : Node) (p : PeerId) (due : Time) (m : Node) (expired : Bool) :
    Prop where
  verdict : expired = true ↔
    ∃ l, n.registry.get? p = some l ∧ (l.connected = false ∨ l.leaseEnd ≤ due)
  removed : expired = true →
    m = { n with
      registry := n.registry.remove p
      trace := n.trace ++ [.event now (.failed p)] } ∧
    ∀ q, m.registry.get? q = if q = p then none else n.registry.get? q
  kept : expired = false → m = n
  survives : ∀ l, n.registry.get? p = some l → l.connected = true → due < l.leaseEnd →
    expired = false ∧ m.registry.get? p = some l

theorem judged_expire (now : Time) (n : Node) (p : PeerId) (due : Time) :
    Judged now n p due (n.expire now p due).1 (n.expire now p due).2 := by
  have hover {l : Connection} :
      l.isOver due = true ↔ l.connected = false ∨ l.leaseEnd ≤ due := by
    simp [Connection.isOver, Connection.expired]
  cases hr : n.registry.removeIf p fun c => c.isOver due with
  | none =>
    have hsame : n.expire now p due = (n, false) := by simp only [expire, hr]
    have hno {l : Connection} (hl : n.registry.get? p = some l) : ¬l.isOver due = true := by
      intro ho
      simp [Registry.removeIf, hl, ho] at hr
    rw [hsame]
    refine ⟨⟨fun h => Bool.noConfusion h, ?_⟩, fun h => Bool.noConfusion h, fun _ => rfl,
      fun l hl _ _ => ⟨rfl, hl⟩⟩
    rintro ⟨l, hl, hend⟩
    exact absurd (hover.mpr hend) (hno hl)
  | some registry =>
    have hgone : n.expire now p due =
        (({ n with registry := registry }).emit now (.failed p), true) := by
      simp only [expire, hr]
    obtain ⟨⟨l, hl, ho⟩, rfl⟩ := Registry.removeIf_eq_some_iff.mp hr
    rw [hgone]
    refine ⟨⟨fun _ => ⟨l, hl, hover.mp ho⟩, fun _ => rfl⟩,
      fun _ => ⟨rfl, fun q => n.registry.get?_remove p q⟩, fun h => Bool.noConfusion h, ?_⟩
    intro l' hl' hconn hlater
    rw [hl] at hl'
    cases hl'
    rcases hover.mp ho with hdown | hended
    · exact Bool.noConfusion (hdown.symm.trans hconn)
    · exact absurd hended (Nat.not_le_of_lt hlater)

theorem Booked.keyed {P : Change → Prop} (h : n.Booked P m) (hk : n.registry.Keyed) :
    m.registry.Keyed := by
  obtain ⟨cs, ha, _⟩ := h
  exact hk.books ha.books

theorem keyed_handleReply (h : n.registry.Keyed) (now : Time) (r : LeaseReply)
    (source : Option Destination) : (n.handleReply now r source).1.registry.Keyed := by
  have hq : Quiet n.self.peer (fun _ => True) := fun _ _ _ => trivial
  have hb : n.Booked (fun _ => True) (n.handleReply now r source).1 :=
    booked_handleReply hq (fun _ _ => ⟨fun _ => trivial, fun _ => trivial, fun _ => trivial⟩)
      (fun _ => trivial) n source
  exact hb.keyed h

end Node

namespace Scenario

open Node

theorem registry_spread (s : Stage) (n : Node) (way : Spread) (p : Propagation) :
    (spread s n way p).1.registry = n.registry := by
  have hgroup : (n.propagateInGroup s.surroundings s.clock p).1.registry = n.registry := by
    unfold propagateInGroup
    split
    · rfl
    · rw [fanOut, sendEach_eq]
  cases way with
  | propagate =>
    simp only [spread, propagate]
    split
    · rfl
    · rw [fanOut, sendEach_eq]
      rfl
  | inGroup => exact hgroup
  | walk => exact hgroup
  | walkTo dests => exact hgroup
  | neighbors =>
    simp only [spread, propagateToNeighbors]
    split <;> rfl

theorem StageStep.registry_run (s : Stage) (n : Node) (a : StageStep) :
    (a.run s n).2.1.registry = n.registry := by
  cases a with
  | spread way m service param ttl => exact registry_spread s n way _
  | _ => rfl

namespace NodeRun

theorem settle_node (before : Registry) (last : Connection → Connection) (r : NodeRun) :
    (settle before last r).node = r.node := by
  unfold settle
  generalize before.connections = cs
  induction cs generalizing r with
  | nil => rfl
  | cons c cs ih =>
    rw [List.foldl_cons, ih]
    split
    · rfl
    · split <;> rfl

theorem after_node (r : NodeRun) (n : Node) : (r.after n).node = n :=
  settle_node _ _ _

theorem withRegistry_node (r : NodeRun) (registry : Registry) :
    (r.withRegistry registry).node = { r.node with registry := registry } :=
  settle_node _ _ _

theorem keyed_modify {r : NodeRun} (h : r.node.registry.Keyed) (t : Target)
    {f : Connection → Connection} (hf : ∀ c, (f c).peer = c.peer) :
    (r.modify t f).node.registry.Keyed := by
  cases t with
  | peer p => exact h.modify p hf
  | held name =>
    simp only [modify]
    split
    · exact h.modify _ hf
    · exact h
    · exact h

theorem keyed_step {r : NodeRun} (h : r.node.registry.Keyed) (s : NodeStep) :
    (r.step s).1.node.registry.Keyed := by
  have hq : Quiet r.node.self.peer (fun _ => True) := fun _ _ _ => trivial
  have hafter {n : Node} (hb : r.node.Booked (fun _ => True) n) :
      (r.after n).node.registry.Keyed := by
    rw [after_node]
    exact hb.keyed h
  cases s with
  | stage a =>
    have heq := StageStep.registry_run r.stage r.node a
    simp only [step]
    rwa [heq]
  | request dest => exact hafter (booked_request hq _ dest)
  | requestSeed c => exact hafter (booked_requestSeed hq _ c)
  | renew t =>
    simp only [step]
    split
    · exact h
    · next c _ => exact hafter (booked_request hq _ (.peer c.peer))
  | reply reply source stop =>
    simp only [step]
    rw [after_node]
    exact keyed_handleReply (by exact h) _ reply source
  | receive m source =>
    have hb := EdgePeer.booked_after ((EdgePeer.bare 0 0).withNode r.node)
      ⟨{}, r.stage.clock, .receive m source⟩
    simp only [step]
    rw [after_node]
    exact hb.keyed h
  | notice p => exact hafter (booked_handleNotice _ trivial)
  | disconnect p => exact hafter (booked_disconnect _ trivial trivial)
  | challenge p delayMs => exact hafter (booked_challenge _ (fun _ => trivial) fun _ => trivial)
  | expire t ms =>
    simp only [step]
    split
    · exact h
    · exact hafter (booked_expire _ trivial)
  | prune ms => exact hafter (.of_eq rfl rfl rfl id)
  | disconnectAll => exact hafter (booked_disconnectAll _ (fun _ => trivial) fun _ => trivial)
  | upsert p d ms =>
    simp only [step]
    split
    · exact h
    · next registry isNew hg =>
      rw [withRegistry_node]
      exact h.grant hg
  | remove p =>
    simp only [step]
    rw [withRegistry_node]
    exact h.remove p
  | removeIf p connected =>
    simp only [step]
    split
    · next registry hr =>
      rw [withRegistry_node, (Registry.removeIf_eq_some_iff.mp hr).2]
      exact h.remove p
    · exact h
  | clear =>
    simp only [step]
    rw [withRegistry_node]
    exact .new _ _
  | hold p name =>
    simp only [step]
    split <;> exact h
  | markDisconnected t => exact keyed_modify h t fun _ => rfl
  | shrink t ms => exact keyed_modify h t fun _ => rfl
  | contains p => exact h
  | bootstrap => exact hafter (booked_bootstrap hq _)
  | cycle => exact hafter (booked_cycle hq (fun _ => trivial) _)
  | _ => exact h

theorem any_live_of_lookup {hs : List (String × Handle)} {name : String} {h : Handle}
    (hl : hs.lookup name = some h) : hs.any (fun e => e.2 = h) = true := by
  obtain ⟨before, after, rfl, _⟩ := List.lookup_eq_some_iff.mp hl
  simp

theorem lookup_ended (hs : List (String × Handle)) (q : PeerId) (k : Nat) (name : String) :
    (hs.map fun e => if e.2 = .live q then (e.1, .ended k) else e).lookup name =
      (hs.lookup name).map fun h => if h = .live q then .ended k else h := by
  induction hs with
  | nil => rfl
  | cons e hs ih =>
    obtain ⟨other, h⟩ := e
    by_cases hq : h = .live q <;>
      simp only [List.map_cons, hq, if_true, if_false, List.lookup_cons, ih] <;>
      cases name == other <;> simp [hq]

theorem lookup_filter_ne (hs : List (String × Handle)) {name other : String} (hne : name ≠ other) :
    (hs.filter fun e => e.1 ≠ other).lookup name = hs.lookup name := by
  induction hs with
  | nil => rfl
  | cons e hs ih =>
    obtain ⟨n, h⟩ := e
    by_cases hn : n = other
    · have hb : (name == n) = false := by simpa [hn] using hne
      rw [List.filter_cons_of_neg (by simp [hn]), ih, List.lookup_cons, hb]
    · rw [List.filter_cons_of_pos (by simp [hn]), List.lookup_cons, List.lookup_cons, ih]

/-- Under the name, the connection of `p` is held. If it is the one in the registry, then it is
there, or it is among those that have just left it and are yet to be settled. -/
inductive Tracks (cs : List Connection) (r : NodeRun) (name : String) (p : PeerId) : Prop
  | live (h : r.handles.lookup name = some (.live p))
      (hp : r.node.registry.contains p = true ∨ ∃ c ∈ cs, c.peer = p)
  | ended {k : Nat} {c : Connection} (h : r.handles.lookup name = some (.ended k))
      (hc : r.ended[k]? = some c) (hp : c.peer = p)

def retire (last : Connection → Connection) (r : NodeRun) (c : Connection) : NodeRun :=
  if r.node.registry.contains c.peer then r
  else if r.handles.any fun h => h.2 = .live c.peer then
    { r with
      handles := r.handles.map fun h =>
        if h.2 = .live c.peer then (h.1, .ended r.ended.length) else h
      ended := r.ended ++ [last c] }
  else r

theorem settle_eq (before : Registry) (last : Connection → Connection) (r : NodeRun) :
    settle before last r = before.connections.foldl (retire last) r := rfl

variable {r : NodeRun} {name : String} {p : PeerId} {c : Connection} {cs : List Connection}
  {last : Connection → Connection}

theorem Tracks.retire (hlast : (last c).peer = c.peer) (h : Tracks (c :: cs) r name p) :
    Tracks cs (r.retire last c) name p := by
  -- unless it is `c` that leaves, a connection of the registry stays where it is
  have hrest (hc : c.peer = p → r.node.registry.contains p = true)
      (hp : r.node.registry.contains p = true ∨ ∃ c' ∈ c :: cs, c'.peer = p) :
      r.node.registry.contains p = true ∨ ∃ c' ∈ cs, c'.peer = p := by
    rcases hp with hp | ⟨c', hc', hp⟩
    · exact .inl hp
    · rcases List.mem_cons.mp hc' with rfl | hc'
      · exact .inl (hc hp)
      · exact .inr ⟨c', hc', hp⟩
  unfold NodeRun.retire
  split
  · next hin =>
    cases h with
    | live hl hp => exact .live hl (hrest (fun hc => hc ▸ hin) hp)
    | ended hl hc hp => exact .ended hl hc hp
  split
  · cases h with
    | live hl hp =>
      by_cases hc : c.peer = p
      · refine .ended (k := r.ended.length) (c := last c) ?_ ?_ (hlast.trans hc)
        · simp [lookup_ended, hl, hc]
        · simp
      · refine .live ?_ (hrest (fun hp => absurd hp hc) hp)
        have hne : p ≠ c.peer := fun h => hc h.symm
        simp [lookup_ended, hl, hne]
    | @ended k c' hl hc' hp =>
      have hk : k < r.ended.length := (List.getElem?_eq_some_iff.mp hc').1
      refine .ended (k := k) (c := c') ?_ ?_ hp
      · simp [lookup_ended, hl]
      · rw [List.getElem?_append_left hk, hc']
  · next hnone =>
    cases h with
    | live hl hp =>
      refine .live hl (hrest (fun hc => ?_) hp)
      exact absurd (any_live_of_lookup (hc ▸ hl)) hnone
    | ended hl hc hp => exact .ended hl hc hp

theorem Tracks.foldl_retire (hlast : ∀ c, (last c).peer = c.peer) (h : Tracks cs r name p) :
    Tracks [] (cs.foldl (NodeRun.retire last) r) name p := by
  induction cs generalizing r with
  | nil => exact h
  | cons c cs ih => exact ih (h.retire (hlast c))

theorem Tracks.settle (hlast : ∀ c, (last c).peer = c.peer) {n : Node} (hk : r.node.registry.Keyed)
    (h : Tracks [] r name p) :
    Tracks [] (settle r.node.registry last { r with node := n }) name p := by
  rw [settle_eq]
  refine foldl_retire hlast ?_
  cases h with
  | live hl hp =>
    refine .live hl (.inr ?_)
    obtain ⟨c, hc⟩ := Registry.contains_iff.mp (hp.resolve_right (by simp))
    exact ⟨c, Registry.mem_connections.mpr ⟨p, hc⟩, hk p c hc⟩
  | ended hl hc hp => exact .ended hl hc hp

theorem Tracks.of_contains {r' : NodeRun} (h : Tracks cs r name p) (hh : r'.handles = r.handles)
    (he : r'.ended = r.ended)
    (hc : r'.node.registry.contains p = r.node.registry.contains p) : Tracks cs r' name p := by
  cases h with
  | live hl hp => exact .live (hh ▸ hl) (hc ▸ hp)
  | ended hl hend hp => exact .ended (hh ▸ hl) (he ▸ hend) hp

theorem Tracks.modify (t : Target) {f : Connection → Connection} (hf : ∀ c, (f c).peer = c.peer)
    (h : Tracks cs r name p) : Tracks cs (r.modify t f) name p := by
  have hlive (q : PeerId) :
      Tracks cs { r with node := { r.node with registry := r.node.registry.modify q f } } name p :=
    h.of_contains rfl rfl (Registry.contains_modify _ q p f)
  cases t with
  | peer q => exact hlive q
  | held other =>
    simp only [NodeRun.modify]
    split
    · exact hlive _
    · next number _ =>
      cases h with
      | live hl hp => exact .live hl hp
      | @ended k c hl hc hp =>
        by_cases hk : number = k
        · exact .ended (c := f c) hl (by simp [hk, hc]) ((hf c).trans hp)
        · exact .ended hl (by simp [hk, hc]) hp
    · exact h

theorem Tracks.hold {q : PeerId} {other : String} (hne : name ≠ other) (h : Tracks cs r name p) :
    Tracks cs (r.hold q other) name p := by
  have hlookup : (r.hold q other).handles.lookup name = r.handles.lookup name := by
    have hb : (name == other) = false := by simpa using hne
    rw [NodeRun.hold, List.lookup_cons, hb]
    exact lookup_filter_ne r.handles hne
  cases h with
  | live hl hp => exact .live (hlookup.trans hl) hp
  | ended hl hc hp => exact .ended (hlookup.trans hl) hc hp

theorem Tracks.step {s : NodeStep} (hk : r.node.registry.Keyed) (hs : ∀ q, s ≠ .hold q name)
    (h : Tracks [] r name p) : Tracks [] (r.step s).1 name p := by
  have hafter (n : Node) : Tracks [] (r.after n) name p := by
    have hlast (c : Connection) : c.disconnect.peer = c.peer := rfl
    exact h.settle hlast hk
  have hhand (registry : Registry) : Tracks [] (r.withRegistry registry) name p := by
    have hlast (c : Connection) : (id c).peer = c.peer := rfl
    exact h.settle hlast hk
  cases s with
  | stage a =>
    refine h.of_contains rfl rfl ?_
    simp only [NodeRun.step, StageStep.registry_run]
  | renew t =>
    simp only [NodeRun.step]
    split
    · exact h
    · exact hafter _
  | expire t ms =>
    simp only [NodeRun.step]
    split
    · exact h
    · exact hafter _
  | upsert q d ms =>
    simp only [NodeRun.step]
    split
    · exact h
    · exact hhand _
  | removeIf q connected =>
    simp only [NodeRun.step]
    split
    · exact hhand _
    · exact h
  | hold q other =>
    have hne : name ≠ other := fun he => hs q (he ▸ rfl)
    simp only [NodeRun.step]
    split
    · exact h.hold hne
    · exact h
  | markDisconnected t => exact h.modify t fun _ => rfl
  | shrink t ms => exact h.modify t fun _ => rfl
  | remove | clear => exact hhand _
  | request | requestSeed | reply | receive | notice | disconnect | challenge | prune
  | disconnectAll | bootstrap | cycle => exact hafter _
  | _ => exact h.of_contains rfl rfl rfl

theorem Tracks.find? (h : Tracks [] r name p) (hk : r.node.registry.Keyed) :
    ∃ c, r.find? (.held name) = some c ∧ c.peer = p := by
  cases h with
  | live hl hp =>
    obtain ⟨c, hc⟩ := Registry.contains_iff.mp (hp.resolve_right (by simp))
    exact ⟨c, by simp only [NodeRun.find?, hl, hc], hk p c hc⟩
  | ended hl hc hp => exact ⟨_, by simp only [NodeRun.find?, hl, hc], hp⟩

def play (r : NodeRun) (ss : List NodeStep) : NodeRun :=
  ss.foldl (fun r s => (r.report s).1) r

theorem keyed_play {ss : List NodeStep} (h : r.node.registry.Keyed) :
    (r.play ss).node.registry.Keyed := by
  induction ss generalizing r with
  | nil => exact h
  | cons s ss ih => exact ih (keyed_step h s)

theorem Tracks.play {ss : List NodeStep} (hk : r.node.registry.Keyed)
    (hs : ∀ q, .hold q name ∉ ss) (h : Tracks [] r name p) : Tracks [] (r.play ss) name p := by
  induction ss generalizing r with
  | nil => exact h
  | cons s ss ih =>
    have hstep : Tracks [] (r.step s).1 name p :=
      h.step hk fun q he => hs q (he ▸ List.mem_cons_self)
    exact ih (keyed_step hk s) (fun q hq => hs q (List.mem_cons_of_mem _ hq))
      (hstep.of_contains rfl rfl rfl)

theorem report_hold (h : r.node.registry.get? p = some c) :
    (r.report (.hold p name)).1 =
      { r.hold p name with node := { r.node with trace := [] } } := by
  have hin : r.node.registry.contains p = true := Registry.contains_iff.mpr ⟨c, h⟩
  simp only [report, step, hin, if_true]
  rfl

theorem tracks_report_hold (h : r.node.registry.get? p = some c) :
    Tracks [] (r.report (.hold p name)).1 name p := by
  rw [report_hold h]
  exact .live (by simp [hold]) (.inl (Registry.contains_iff.mpr ⟨c, h⟩))

theorem find?_report_hold (h : r.node.registry.get? p = some c) :
    (r.report (.hold p name)).1.find? (.held name) = some c := by
  rw [report_hold h]
  simp [find?, hold, h]

theorem play_append (ss ts : List NodeStep) : r.play (ss ++ ts) = (r.play ss).play ts :=
  List.foldl_append

/-- A connection is taken from the registry, and the node goes on in any way. The connection that
is held is then still one of the same peer, and to let it expire is to judge the lease of that peer
at that moment, not the one that was taken. -/
theorem expiry_judges_the_current_lease {capacity : Nat} {margin : Time}
    (hstart : r.node.registry = .new capacity margin) (before after : List NodeStep)
    (hc : c ∈ (r.play before).node.registry.connections) (hname : ∀ q, .hold q name ∉ after) :
    (r.play (before ++ [.hold c.peer name])).find? (.held name) = some c ∧
    ∃ held, (r.play (before ++ .hold c.peer name :: after)).find? (.held name) = some held ∧
      held.peer = c.peer ∧
      ∀ now due, Judged now (r.play (before ++ .hold c.peer name :: after)).node c.peer due
        ((r.play (before ++ .hold c.peer name :: after)).node.expire now held.peer due).1
        ((r.play (before ++ .hold c.peer name :: after)).node.expire now held.peer due).2 := by
  have hkeyed : (r.play before).node.registry.Keyed := keyed_play (by rw [hstart]; exact .new _ _)
  have hget : (r.play before).node.registry.get? c.peer = some c := by
    obtain ⟨q, hq⟩ := Registry.mem_connections.mp hc
    rwa [hkeyed q c hq]
  have htaken : r.play (before ++ [.hold c.peer name]) =
      ((r.play before).report (.hold c.peer name)).1 := play_append before _
  have hlater : r.play (before ++ .hold c.peer name :: after) =
      ((r.play before).report (.hold c.peer name)).1.play after := play_append before _
  have hk : ((r.play before).report (.hold c.peer name)).1.node.registry.Keyed :=
    keyed_step hkeyed (.hold c.peer name)
  rw [htaken, hlater]
  refine ⟨find?_report_hold hget, ?_⟩
  obtain ⟨held, hheld, hpeer⟩ := ((tracks_report_hold hget).play hk hname).find? (keyed_play hk)
  exact ⟨held, hheld, hpeer, fun now due => hpeer ▸ judged_expire now _ held.peer due⟩

def fresh : NodeRun := { node := (EdgePeer.bare 2 (.ofMillis 300000)).node }

def grantForHalfMinute : NodeStep :=
  .reply ⟨.filled 1, 30000, some ⟨.filled 1, "", []⟩⟩ none false

def regrant : List NodeStep :=
  [grantForHalfMinute, .hold (.filled 1) "old", .notice (.filled 1), .advance 5000,
    grantForHalfMinute]

theorem stale_connection_spares_the_new_lease :
    ∃ old held, (fresh.play (regrant.take 1)).node.registry.connections = [old] ∧
      (fresh.play regrant).find? (.held "old") = some held ∧ held = old.disconnect ∧
      old.leaseEnd = .ofMillis 30000 ∧
      ((fresh.play regrant).node.expire 0 held.peer (.ofMillis 34999)).2 = false ∧
      ((fresh.play regrant).node.expire 0 held.peer (.ofMillis 35000)).2 = true := by
  let lease (now : Time) : Connection :=
    .granted (.filled 1) ⟨.filled 1, "", []⟩ now (.ofMillis 30000) (.ofMillis 300000)
  have hold : (fresh.play (regrant.take 1)).node.registry.connections = [lease 0] := by
    decide +kernel
  have hlapsed : (fresh.play regrant).find? (.held "old") = some (lease 0).disconnect := by
    decide +kernel
  have hlease : (fresh.play regrant).node.registry.get? (.filled 1) =
      some (lease (.ofMillis 5000)) := by
    decide +kernel
  have hrun : regrant.take 1 ++ .hold (lease 0).peer "old" :: regrant.drop 2 = regrant := rfl
  have hmem : lease 0 ∈ (fresh.play (regrant.take 1)).node.registry.connections := by
    rw [hold]
    exact List.mem_singleton_self _
  have hname : ∀ q, .hold q "old" ∉ regrant.drop 2 := by simp [regrant, grantForHalfMinute]
  obtain ⟨_, held, hheld, hpeer, hjudged⟩ := expiry_judges_the_current_lease rfl _ _ hmem hname
  rw [hrun] at hheld hjudged
  have hsame : held = (lease 0).disconnect := Option.some.inj (hheld.symm.trans hlapsed)
  refine ⟨lease 0, held, hold, hheld, hsame, rfl, ?_, ?_⟩
  · have hlater : Time.ofMillis 34999 < (lease (.ofMillis 5000)).leaseEnd := by decide
    exact ((hjudged 0 _).survives _ hlease rfl hlater).1
  · have hended : (lease (.ofMillis 5000)).leaseEnd ≤ Time.ofMillis 35000 := by decide
    exact (hjudged 0 _).verdict.mpr ⟨_, hlease, .inr hended⟩

end NodeRun

end Scenario

end LeaseOverlay
