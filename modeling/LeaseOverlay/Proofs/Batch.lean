import LeaseOverlay.Proofs.Asking

namespace LeaseOverlay

def Candidate.free (leased : PeerId → Bool) (c : Candidate) : Bool := !c.peer.any leased

namespace Node

section TakeBatch

variable (leased : PeerId → Bool) (max : Nat) (cs : List Candidate)

@[simp] theorem takeBatch_nil : takeBatch leased max [] = ([], []) := by
  cases max <;> rfl

theorem takeBatch_fst : (takeBatch leased max cs).1 = (cs.filter (·.free leased)).take max := by
  induction cs generalizing max with
  | nil => simp
  | cons c cs ih =>
    cases max with
    | zero => rfl
    | succ max => cases h : c.peer.any leased <;> simp [takeBatch, Candidate.free, h, ih]

theorem exists_taken : ∃ taken, cs = taken ++ (takeBatch leased max cs).2 ∧
    (takeBatch leased max cs).1 = taken.filter (·.free leased) := by
  induction cs generalizing max with
  | nil => exact ⟨[], by simp⟩
  | cons c cs ih =>
    cases max with
    | zero => exact ⟨[], rfl, rfl⟩
    | succ max =>
      cases h : c.peer.any leased with
      | true =>
        obtain ⟨taken, hcs, hbatch⟩ := ih (max + 1)
        have hskip : takeBatch leased (max + 1) (c :: cs) = takeBatch leased (max + 1) cs := by
          rw [takeBatch, if_pos h]
        refine ⟨c :: taken, ?_, ?_⟩
        · rw [hskip, List.cons_append, ← hcs]
        · rw [hskip, hbatch]
          simp [Candidate.free, h]
      | false =>
        obtain ⟨taken, hcs, hbatch⟩ := ih max
        refine ⟨c :: taken, ?_, ?_⟩
        · simp only [takeBatch, h, List.cons_append, Bool.false_eq_true, if_false, ← hcs]
        · simp [takeBatch, Candidate.free, h, hbatch]

theorem length_takeBatch_fst :
    (takeBatch leased max cs).1.length = min max (cs.filter (·.free leased)).length := by
  rw [takeBatch_fst, List.length_take]

theorem filter_takeBatch_snd :
    (takeBatch leased max cs).2.filter (·.free leased) =
      (cs.filter (·.free leased)).drop max := by
  obtain ⟨taken, hcs, hbatch⟩ := exists_taken leased max cs
  have hall : (takeBatch leased max cs).1 ++ (takeBatch leased max cs).2.filter (·.free leased) =
      (cs.filter (·.free leased)).take max ++ (cs.filter (·.free leased)).drop max := by
    rw [hbatch, ← List.filter_append, ← hcs, List.take_append_drop]
  rw [takeBatch_fst] at hall
  exact List.append_cancel_left hall

theorem takeBatch_fst_sublist : (takeBatch leased max cs).1.Sublist cs := by
  rw [takeBatch_fst]
  exact (List.take_sublist max _).trans List.filter_sublist

theorem takeBatch_snd_suffix : (takeBatch leased max cs).2 <:+ cs := by
  obtain ⟨taken, hcs, _⟩ := exists_taken leased max cs
  exact ⟨taken, hcs.symm⟩

theorem length_takeBatch_snd_le : (takeBatch leased max cs).2.length ≤ cs.length - max := by
  induction cs generalizing max with
  | nil => simp
  | cons c cs ih =>
    cases max with
    | zero => exact Nat.le_refl _
    | succ max =>
      rw [takeBatch, List.length_cons, Nat.add_sub_add_right]
      split
      · exact Nat.le_trans (ih (max + 1)) (Nat.sub_le_sub_left (Nat.le_succ max) _)
      · exact ih max

end TakeBatch

variable {n m : Node} {env : Surroundings} {now : Time}

/-- The candidates as a bootstrap finds them: the queue, filled again if it has run dry. -/
def lineup (now : Time) (n : Node) : List Candidate :=
  if n.queue.isEmpty then n.seeding.candidates n.cache now else n.queue

def eligible (n : Node) (cs : List Candidate) : List Candidate :=
  cs.filter (·.free n.registry.contains)

def batch (now : Time) (n : Node) : List Candidate × List Candidate :=
  takeBatch n.registry.contains n.settings.maxAttempts (n.lineup now)

structure Ready (env : Surroundings) (n : Node) : Prop where
  going : n.bootstrapStopped = false
  room : n.registry.hasCapacity = true
  source : n.queue = [] → env.seedsAnswer = true

def posted (env : Surroundings) (n : Node) (ds : List Destination) :
    List (Destination × Option SendError) :=
  if n.leaseStopped then [] else ds.map fun d => (d, env.fault d)

theorem map_fst_posted_sublist (env : Surroundings) (n : Node) (ds : List Destination) :
    ((n.posted env ds).map (·.1)).Sublist ds := by
  unfold posted
  split
  · exact List.nil_sublist ds
  · simp [Function.comp_def]

/-- Nothing has been done but to ask for leases, with exactly these requests. -/
def Asks (n : Node) (rs : List (Destination × Option SendError)) (m : Node) : Prop :=
  ∃ pending es, m = { n with pending := pending, trace := n.trace ++ es } ∧
    requests n.self es = rs

theorem request_of_closed (h : n.leaseStopped = true) (dest : Destination) :
    n.request env now dest = (n, some .closed) :=
  if_pos h

theorem requestSeed_of_closed (h : n.leaseStopped = true) (c : Candidate) :
    n.requestSeed env now c =
      ({ n with trace := n.trace ++ (c.hint.map Effect.route).toList }, some .closed) := by
  unfold requestSeed
  split
  · next r hr =>
    have hlearned : (n.learnRoute r).leaseStopped = true := h
    rw [request_of_closed hlearned, hr]
    rfl
  · next hr =>
    rw [request_of_closed h, hr]
    simp

theorem askAll_of_closed (h : n.leaseStopped = true) (cs : List Candidate) :
    askAll env now n cs =
      ({ n with trace := n.trace ++ cs.flatMap fun c => (c.hint.map Effect.route).toList }, 0) := by
  induction cs generalizing n with
  | nil => simp [askAll]
  | cons c cs ih =>
    rw [askAll, requestSeed_of_closed h]
    dsimp only
    rw [ih (by exact h), List.flatMap_cons, List.append_assoc]

theorem asks_askAll (env : Surroundings) (now : Time) (n : Node) (cs : List Candidate) :
    n.Asks (n.posted env (cs.map (·.destination))) (askAll env now n cs).1 := by
  cases h : n.leaseStopped with
  | false =>
    rw [askAll_eq h]
    refine ⟨_, _, rfl, ?_⟩
    rw [requests_asking, posted, h, List.map_map]
    rfl
  | true =>
    rw [askAll_of_closed h]
    refine ⟨n.pending, _, rfl, ?_⟩
    rw [posted, h, if_pos rfl]
    refine List.filterMap_eq_nil_iff.mpr fun e he => ?_
    obtain ⟨c, _, hc⟩ := List.mem_flatMap.mp he
    obtain ⟨r, _, rfl⟩ := Option.map_eq_some_iff.mp (Option.mem_toList.mp hc)
    rfl

theorem askAll_snd (env : Surroundings) (now : Time) (n : Node) (cs : List Candidate) :
    (askAll env now n cs).2 =
      (n.posted env (cs.map (·.destination))).countP (·.2.isNone) := by
  cases h : n.leaseStopped with
  | false =>
    rw [askAll_eq h, posted, h, List.map_map]
    simp [List.countP_map, Function.comp_def]
  | true =>
    rw [askAll_of_closed h, posted, h]
    rfl

inductive Bootstrapped (env : Surroundings) (now : Time) (n : Node) : Node × Option Nat → Prop
  | stopped (h : n.bootstrapStopped = true) : Bootstrapped env now n (n, some 0)
  | full (going : n.bootstrapStopped = false) (h : n.registry.hasCapacity = false) :
      Bootstrapped env now n ({ n with queue := [] }, some 0)
  | silent (room : n.registry.hasCapacity = true) (dry : n.queue = [])
      (h : env.seedsAnswer = false) : Bootstrapped env now n (n, none)
  | vast (ready : n.Ready env) (waiting : n.lineup now ≠ [])
      (h : batchLimit < n.settings.maxAttempts) :
      Bootstrapped env now n ({ n with queue := n.lineup now }, none)
  | asked (ready : n.Ready env) (fits : n.lineup now = [] ∨ n.settings.maxAttempts ≤ batchLimit)
      {m : Node} {count : Nat}
      (h : askAll env now { n with queue := (n.batch now).2 } (n.batch now).1 = (m, count)) :
      Bootstrapped env now n (m, some count)

theorem bootstrapped (env : Surroundings) (now : Time) (n : Node) :
    Bootstrapped env now n (n.bootstrap env now) := by
  unfold bootstrap
  split
  · next h => exact .stopped h
  next hgoing =>
  rw [Bool.not_eq_true] at hgoing
  split
  · next h => exact .full hgoing (by simpa using h)
  next hroom =>
  rw [Classical.not_not] at hroom
  split
  · next h =>
    obtain ⟨hdry, hsilent⟩ := h
    exact .silent hroom (List.isEmpty_iff.mp hdry) (by simpa using hsilent)
  next hsource =>
  have hready : n.Ready env := by
    refine ⟨hgoing, hroom, fun hdry => ?_⟩
    simpa [hdry] using hsource
  have hlineup : (if n.queue.isEmpty then { n with queue := n.seeding.candidates n.cache now }
      else n) = { n with queue := n.lineup now } := by
    unfold lineup
    split <;> rfl
  dsimp only
  rw [hlineup]
  split
  · next h =>
    have hdry : n.lineup now = [] := List.isEmpty_iff.mp h
    have hbatch : n.batch now = ([], []) := by rw [batch, hdry, takeBatch_nil]
    refine .asked hready (.inl hdry) ?_
    rw [hbatch, hdry, askAll]
  next hwaiting =>
  split
  · next h => exact .vast hready (by simpa using hwaiting) h
  · next h => exact .asked hready (.inr (Nat.le_of_not_lt h)) rfl

theorem exists_asks_of_bootstrap {count : Nat} (h : n.bootstrap env now = (m, some count)) :
    (n.bootstrapStopped = true ∧ m = n) ∨
    (n.registry.hasCapacity = false ∧ m = { n with queue := [] }) ∨
    (n.Ready env ∧ Asks { n with queue := (n.batch now).2 }
      (n.posted env ((n.batch now).1.map (·.destination))) m) := by
  have hcases := n.bootstrapped env now
  rw [h] at hcases
  cases hcases with
  | stopped hstopped => exact .inl ⟨hstopped, rfl⟩
  | full _ hfull => exact .inr (.inl ⟨hfull, rfl⟩)
  | asked ready _ hask =>
    have hasks := asks_askAll env now { n with queue := (n.batch now).2 } (n.batch now).1
    rw [hask] at hasks
    exact .inr (.inr ⟨ready, hasks⟩)

theorem bootstrap_of_ready (h : n.Ready env) (now : Time) :
    (n.lineup now ≠ [] ∧ batchLimit < n.settings.maxAttempts ∧
      n.bootstrap env now = ({ n with queue := n.lineup now }, none)) ∨
    ((n.lineup now = [] ∨ n.settings.maxAttempts ≤ batchLimit) ∧
      n.bootstrap env now =
        ((askAll env now { n with queue := (n.batch now).2 } (n.batch now).1).1,
          some (askAll env now { n with queue := (n.batch now).2 } (n.batch now).1).2)) := by
  have hcases := n.bootstrapped env now
  generalize n.bootstrap env now = r at hcases ⊢
  cases hcases with
  | stopped hstopped => cases h.going.symm.trans hstopped
  | full _ hfull => cases h.room.symm.trans hfull
  | silent _ dry hsilent => cases (h.source dry).symm.trans hsilent
  | vast _ waiting hvast => exact .inl ⟨waiting, hvast, rfl⟩
  | asked _ hfits hask =>
    rw [hask]
    exact .inr ⟨hfits, rfl⟩

theorem bootstrap_of_fits (h : n.Ready env) (now : Time)
    (hfits : n.lineup now = [] ∨ n.settings.maxAttempts ≤ batchLimit) :
    n.bootstrap env now =
      ((askAll env now { n with queue := (n.batch now).2 } (n.batch now).1).1,
        some (askAll env now { n with queue := (n.batch now).2 } (n.batch now).1).2) := by
  rcases bootstrap_of_ready h now with ⟨hwaiting, hvast, _⟩ | ⟨_, heq⟩
  · rcases hfits with hdry | hfits
    · exact absurd hdry hwaiting
    · exact absurd hfits (Nat.not_le_of_lt hvast)
  · exact heq

theorem asks_bootstrap (h : n.Ready env) (now : Time)
    (hfits : n.lineup now = [] ∨ n.settings.maxAttempts ≤ batchLimit) :
    Asks { n with queue := (n.batch now).2 }
      (n.posted env ((n.batch now).1.map (·.destination))) (n.bootstrap env now).1 := by
  rw [bootstrap_of_fits h now hfits]
  exact asks_askAll env now { n with queue := (n.batch now).2 } (n.batch now).1

def supply (s : Seeding) (cache : Cache) (n : Node) : Node :=
  { n with seeding := s, cache := cache }

section Supply

variable (s : Seeding) (cache : Cache) (answers : Bool)

theorem request_supply (n : Node) (dest : Destination) :
    (n.supply s cache).request { env with seedsAnswer := answers } now dest =
      ((n.request env now dest).1.supply s cache, (n.request env now dest).2) := by
  unfold request
  cases hopen : n.leaseStopped with
  | true => simp [supply, hopen]
  | false => cases hf : env.fault dest <;> simp [supply, hopen, send, record, hf]

theorem requestSeed_supply (n : Node) (c : Candidate) :
    (n.supply s cache).requestSeed { env with seedsAnswer := answers } now c =
      ((n.requestSeed env now c).1.supply s cache, (n.requestSeed env now c).2) := by
  unfold requestSeed
  split
  · exact request_supply s cache answers (n.learnRoute _) _
  · exact request_supply s cache answers n _

theorem askAll_supply (n : Node) (cs : List Candidate) :
    askAll { env with seedsAnswer := answers } now (n.supply s cache) cs =
      ((askAll env now n cs).1.supply s cache, (askAll env now n cs).2) := by
  induction cs generalizing n with
  | nil => rfl
  | cons c cs ih =>
    rw [askAll, askAll, requestSeed_supply]
    rcases n.requestSeed env now c with ⟨m, _ | e⟩ <;> simp [ih]

theorem bootstrap_supply (h : n.queue ≠ []) :
    (n.supply s cache).bootstrap { env with seedsAnswer := answers } now =
      ((n.bootstrap env now).1.supply s cache, (n.bootstrap env now).2) := by
  have hqueue : n.queue.isEmpty = false := by simpa using h
  cases hgoing : n.bootstrapStopped with
  | true => simp [bootstrap, supply, hgoing]
  | false =>
  cases hroom : n.registry.hasCapacity with
  | false => simp [bootstrap, supply, hgoing, hroom]
  | true =>
  by_cases hvast : batchLimit < n.settings.maxAttempts
  · simp [bootstrap, supply, hgoing, hroom, hqueue, hvast]
  · have hbatch : (n.supply s cache).askBatch { env with seedsAnswer := answers } now =
        ((n.askBatch env now).1.supply s cache, (n.askBatch env now).2) :=
      askAll_supply s cache answers { n with queue := _ } _
    have hleft : (n.supply s cache).bootstrap { env with seedsAnswer := answers } now =
        (((n.supply s cache).askBatch { env with seedsAnswer := answers } now).1,
          some ((n.supply s cache).askBatch { env with seedsAnswer := answers } now).2) := by
      simp [bootstrap, supply, hgoing, hroom, hqueue, hvast]
    rw [hleft, hbatch]
    simp [bootstrap, hgoing, hroom, hqueue, hvast]

end Supply

end Node

end LeaseOverlay
