import LeaseOverlay.Proofs.Sweep

namespace LeaseOverlay

theorem Candidate.peer_of_destination {c : Candidate} {q : PeerId}
    (h : c.destination = .peer q) : c.peer = some q := by
  unfold destination at h
  split at h
  · next hp => rw [hp, Destination.peer.inj h]
  · cases h

namespace Pending

variable {fault : Destination → Option SendError} {now : Time} {q : Pending}
  {r : Destination × Time}

theorem mem_foldl_asked {ds : List Destination} (hr : r ∈ q.requests) (hd : r.1 ∉ ds) :
    r ∈ (ds.foldl (fun q d => q.asked fault now [d]) q).requests := by
  induction ds generalizing q with
  | nil => exact hr
  | cons d ds ih =>
    rw [List.mem_cons, not_or] at hd
    exact ih (mem_asked_of_notMem hr (by simpa using hd.1)) hd.2

end Pending

namespace Node

variable {n m : Node} {env : Surroundings} {now : Time}

def asking (env : Surroundings) (now : Time) (n : Node) (c : Candidate) : List Effect :=
  (c.hint.map Effect.route).toList ++
    [.sent now c.destination (env.fault c.destination) (Control.request n.self).toMessage]

def asked (env : Surroundings) (now : Time) (n : Node) (cs : List Candidate) : Node :=
  { n with
    pending := (cs.map (·.destination)).foldl (fun q d => q.asked env.fault now [d]) n.pending
    trace := n.trace ++ cs.flatMap (n.asking env now) }

theorem events_asking (n : Node) (cs : List Candidate) :
    Membership.events (cs.flatMap (n.asking env now)) = [] := by
  induction cs with
  | nil => rfl
  | cons c cs ih =>
    rw [List.flatMap_cons, Membership.events_append, ih]
    cases hh : c.hint <;> simp [asking, Membership.events, Effect.event?, hh]

theorem requests_asking (n : Node) (cs : List Candidate) :
    requests n.self (cs.flatMap (n.asking env now)) =
      cs.map fun c => (c.destination, env.fault c.destination) := by
  induction cs with
  | nil => rfl
  | cons c cs ih =>
    rw [List.flatMap_cons, requests_append, ih]
    cases hh : c.hint <;> simp [asking, requests, List.filterMap_cons, hh]

theorem map_fst_requests_asking (n : Node) (cs : List Candidate) :
    (requests n.self (cs.flatMap (n.asking env now))).map (·.1) = cs.map (·.destination) := by
  rw [requests_asking, List.map_map]
  rfl

theorem requestSeed_eq (hopen : n.leaseStopped = false) (c : Candidate) :
    n.requestSeed env now c = (n.asked env now [c], env.fault c.destination) := by
  rw [requestSeed]
  split
  · next r hr =>
    have hopen' : (n.learnRoute r).leaseStopped = false := hopen
    rw [request_eq hopen']
    simp [asked, asking, learnRoute, record, hr]
  · next hr =>
    rw [request_eq hopen]
    simp [asked, asking, hr]

theorem askAll_eq (hopen : n.leaseStopped = false) (cs : List Candidate) :
    askAll env now n cs =
      (n.asked env now cs, cs.countP fun c => (env.fault c.destination).isNone) := by
  induction cs generalizing n with
  | nil => simp [askAll, asked]
  | cons c cs ih =>
    have hrest := ih (n := n.asked env now [c]) hopen
    have hcons : (n.asked env now [c]).asked env now cs = n.asked env now (c :: cs) := by
      have hasking : (n.asked env now [c]).asking env now = n.asking env now := rfl
      rw [asked, hasking]
      simp [asked]
    rw [askAll, requestSeed_eq hopen]
    cases hf : env.fault c.destination <;> simp [hrest, hcons, hf]

theorem not_leased_of_mem_takeBatch {leased : PeerId → Bool} {max : Nat} {cs : List Candidate}
    {c : Candidate} (h : c ∈ (takeBatch leased max cs).1) : c.peer.any leased = false := by
  induction cs generalizing max with
  | nil => cases max <;> cases h
  | cons c' cs ih =>
    cases max with
    | zero => cases h
    | succ max =>
      rw [takeBatch] at h
      split at h
      · exact ih h
      · next hc =>
        rcases List.mem_cons.mp h with rfl | h
        · simpa using hc
        · exact ih h

theorem bootstrap_eq (hopen : n.leaseStopped = false) {count : Nat}
    (h : n.bootstrap env now = (m, some count)) :
    ∃ (cs : List Candidate) (queue : List Candidate),
      (∀ c ∈ cs, c.peer.any n.registry.contains = false) ∧
      m = { n.asked env now cs with queue := queue } ∧
      count = cs.countP fun c => (env.fault c.destination).isNone := by
  have hnothing (queue : List Candidate) : { n.asked env now [] with queue := queue } =
      { n with queue := queue } := by
    simp [asked]
  unfold bootstrap at h
  split at h
  · cases h
    exact ⟨[], n.queue, by simp, (hnothing n.queue).symm, rfl⟩
  split at h
  · cases h
    exact ⟨[], [], by simp, (hnothing []).symm, rfl⟩
  split at h
  · cases h
  obtain ⟨queue, hqueue⟩ : ∃ queue, (if n.queue.isEmpty then
      { n with queue := n.seeding.candidates n.cache now } else n) = { n with queue := queue } := by
    split
    · exact ⟨_, rfl⟩
    · exact ⟨n.queue, rfl⟩
  simp only [hqueue] at h
  split at h
  · cases h
    exact ⟨[], queue, by simp, (hnothing queue).symm, rfl⟩
  split at h
  · cases h
  simp only [askBatch] at h
  generalize hbatch : takeBatch n.registry.contains n.settings.maxAttempts queue = batch at h
  have hopen' : ({ n with queue := batch.2 } : Node).leaseStopped = false := hopen
  rw [askAll_eq hopen'] at h
  cases h
  refine ⟨batch.1, batch.2, fun c hc => ?_, rfl, rfl⟩
  rw [← hbatch] at hc
  exact not_leased_of_mem_takeBatch hc

end Node

end LeaseOverlay
