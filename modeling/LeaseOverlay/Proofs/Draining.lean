import LeaseOverlay.Proofs.Queue

namespace LeaseOverlay

namespace Node

variable {n m : Node} {env : Surroundings} {now : Time} {mv : Move} {mvs : List Move}

/-- A bootstrap under capacity: `taken` has been the head of its candidates and `rest` is still
there. -/
structure Batched (env : Surroundings) (now : Time) (n : Node) (taken rest : List Candidate) :
    Prop where
  lineup : n.lineup now = taken ++ rest
  queue : (n.bootstrap env now).1.queue = rest
  requests : n.requested env now = n.posted env ((n.eligible taken).map (·.destination))
  number : (n.eligible taken).length =
    min n.settings.maxAttempts (n.eligible (n.lineup now)).length
  report : (n.bootstrap env now).2 = some ((n.requested env now).countP (·.2.isNone))

theorem exists_batched (h : n.Ready env) (hfits : n.settings.maxAttempts ≤ batchLimit)
    (now : Time) : ∃ taken rest, Batched env now n taken rest := by
  obtain ⟨taken, hlineup, hbatch⟩ :=
    exists_taken n.registry.contains n.settings.maxAttempts (n.lineup now)
  have hrequests := requested_eq h now (.inr hfits)
  refine ⟨taken, (n.batch now).2, hlineup, queue_bootstrap h now (.inr hfits), ?_, ?_, ?_⟩
  · rw [hrequests, batch, hbatch]
    rfl
  · rw [eligible, ← hbatch]
    exact length_takeBatch_fst _ _ _
  · rw [hrequests, bootstrap_of_fits h now (.inr hfits), askAll_snd]
    rfl

theorem bootstrap_of_vast (h : n.Ready env) (hvast : batchLimit < n.settings.maxAttempts)
    (now : Time) :
    n.requested env now = [] ∧ (n.bootstrap env now).1.queue = n.lineup now := by
  rcases bootstrap_of_ready h now with ⟨_, _, heq⟩ | ⟨hdry | hfits, _⟩
  · rw [requested, heq, List.drop_length]
    exact ⟨rfl, rfl⟩
  · have hbatch : n.batch now = ([], []) := by rw [batch, hdry, takeBatch_nil]
    rw [requested_eq h now (.inl hdry), queue_bootstrap h now (.inl hdry), hbatch, hdry]
    exact ⟨by simp [posted], rfl⟩
  · exact absurd hvast (Nat.not_lt_of_le hfits)

structure Unhindered (n : Node) : Prop where
  going : n.bootstrapStopped = false
  room : n.registry.hasCapacity = true
  opened : n.leaseStopped = false
  fits : n.settings.maxAttempts ≤ batchLimit

/-- Bootstraps that find candidates in the queue, and nothing between them that concerns the
leases. -/
inductive Draining : Node → List Move → Prop
  | nil (n : Node) : Draining n []
  | bootstrap {n : Node} {env : Surroundings} {now : Time} {mvs : List Move}
      (waiting : n.queue ≠ []) (rest : Draining (n.moved (.bootstrap env now)) mvs) :
      Draining n (.bootstrap env now :: mvs)
  | elsewhere {n m : Node} {mvs : List Move} (leases : m.registry = n.registry)
      (opened : m.leaseStopped = n.leaseStopped) (rest : Draining (n.moved (.elsewhere m)) mvs) :
      Draining n (.elsewhere m :: mvs)

def inquiry (n : Node) : Move → List Destination
  | .bootstrap env now => (n.requested env now).map (·.1)
  | _ => []

def inquiries : Node → List Move → List Destination
  | _, [] => []
  | n, mv :: mvs => n.inquiry mv ++ inquiries (n.moved mv) mvs

end Node

namespace Move

def isBootstrap : Move → Bool
  | bootstrap .. => true
  | _ => false

def cycles (mvs : List Move) : Nat := mvs.countP (·.isBootstrap)

end Move

namespace Node

variable {n m : Node} {env : Surroundings} {now : Time} {mv : Move} {mvs : List Move}
  {cs : List Candidate}

structure Drained (n : Node) (mvs : List Move) (cs : List Candidate) : Prop where
  asked : n.inquiries mvs =
    ((n.eligible cs).take (n.settings.maxAttempts * Move.cycles mvs)).map (·.destination)
  left : n.eligible (n.play mvs).queue =
    (n.eligible cs).drop (n.settings.maxAttempts * Move.cycles mvs)
  length : (n.play mvs).queue.length ≤ cs.length - n.settings.maxAttempts * Move.cycles mvs

theorem drained_nil (n : Node) : n.Drained [] n.queue := by
  constructor <;> simp [inquiries, play, Move.cycles]

theorem eligible_congr (h : m.registry = n.registry) (cs : List Candidate) :
    m.eligible cs = n.eligible cs := by
  rw [eligible, h, eligible]

theorem inquiry_bootstrap (h : n.Unhindered) (hready : n.Ready env) (now : Time) :
    n.inquiry (.bootstrap env now) =
      ((n.eligible (n.lineup now)).take n.settings.maxAttempts).map (·.destination) := by
  rw [inquiry, requested_eq hready now (.inr h.fits), posted, h.opened, eligible, ← takeBatch_fst]
  simp [batch, Function.comp_def]

theorem eligible_rest (now : Time) (n : Node) :
    n.eligible (n.batch now).2 = (n.eligible (n.lineup now)).drop n.settings.maxAttempts :=
  filter_takeBatch_snd _ _ _

theorem drained_bootstrap (h : n.Unhindered) (hready : n.Ready env)
    (hrest : (n.moved (.bootstrap env now)).Drained mvs (n.moved (.bootstrap env now)).queue) :
    n.Drained (.bootstrap env now :: mvs) (n.lineup now) := by
  have hqueue : (n.moved (.bootstrap env now)).queue = (n.batch now).2 :=
    queue_bootstrap hready now (.inr h.fits)
  have hasks := asks_bootstrap hready now (.inr h.fits)
  have hsettings : (n.moved (.bootstrap env now)).settings = n.settings :=
    congrArg Agenda.settings hasks.agenda_eq
  have hregistry : (n.moved (.bootstrap env now)).registry = n.registry := by
    obtain ⟨_, _, hm, _⟩ := hasks
    rw [moved, hm]
  have hcycles : Move.cycles (.bootstrap env now :: mvs) = Move.cycles mvs + 1 :=
    List.countP_cons_of_pos rfl
  -- the rest of the run starts with what this batch has left
  obtain ⟨hasked, hleft, hlength⟩ := hrest
  rw [eligible_congr hregistry, hsettings, hqueue, eligible_rest] at hasked
  rw [eligible_congr hregistry, eligible_congr hregistry, hsettings, hqueue, eligible_rest] at hleft
  rw [hsettings, hqueue] at hlength
  constructor
  · rw [inquiries, inquiry_bootstrap h hready, hasked, hcycles, ← List.map_append, Nat.mul_succ,
      Nat.add_comm, List.take_add]
  · rw [play, hleft, List.drop_drop, hcycles, Nat.mul_succ, Nat.add_comm]
  · rw [play, hcycles, Nat.mul_succ, Nat.add_comm, ← Nat.sub_sub]
    refine hlength.trans (Nat.sub_le_sub_right ?_ _)
    exact length_takeBatch_snd_le _ _ _

theorem Unhindered.ready (h : n.Unhindered) (hq : n.queue ≠ []) : n.Ready env :=
  ⟨h.going, h.room, fun hdry => absurd hdry hq⟩

theorem Unhindered.bootstrap (h : n.Unhindered) (hready : n.Ready env) (now : Time) :
    (n.moved (.bootstrap env now)).Unhindered := by
  obtain ⟨_, _, hm, _⟩ := asks_bootstrap hready now (.inr h.fits)
  rw [moved, hm]
  exact ⟨h.going, h.room, h.opened, h.fits⟩

theorem drained_of_draining (h : n.Draining mvs) (hn : n.Unhindered) :
    n.Drained mvs n.queue := by
  induction h with
  | nil n => exact n.drained_nil
  | @bootstrap n env now mvs waiting rest ih =>
    have hready : n.Ready env := hn.ready waiting
    -- candidates are waiting, so that none are added to them
    have hlineup : n.lineup now = n.queue := by
      rw [lineup_eq hready, arrivals_of_queue waiting, List.append_nil]
    rw [← hlineup]
    exact drained_bootstrap hn hready (ih (hn.bootstrap hready now))
  | @elsewhere n m mvs leases opened rest ih =>
    have hn' : (n.moved (.elsewhere m)).Unhindered :=
      ⟨hn.going, (congrArg Registry.hasCapacity leases).trans hn.room, opened.trans hn.opened,
        hn.fits⟩
    have hregistry : (n.moved (.elsewhere m)).registry = n.registry := leases
    obtain ⟨hasked, hleft, hlength⟩ := ih hn'
    rw [eligible_congr hregistry] at hasked
    rw [eligible_congr hregistry, eligible_congr hregistry] at hleft
    exact ⟨hasked, hleft, hlength⟩

theorem settings_moved (n : Node) (mv : Move) : (n.moved mv).settings = n.settings := by
  cases mv with
  | bootstrap env now => exact (n.next_bootstrap env now).settings_eq
  | enqueue c => rfl
  | stop => rfl
  | elsewhere m => rfl

theorem settings_play (n : Node) (mvs : List Move) : (n.play mvs).settings = n.settings := by
  induction mvs generalizing n with
  | nil => rfl
  | cons mv mvs ih => exact (ih (n.moved mv)).trans (n.settings_moved mv)

/-- A queue that has just been filled is asked through: everybody in it whose peer holds no lease is
asked once before the source is needed again, in no more cycles than its length allows. -/
structure AskedThrough (n : Node) (mvs : List Move) (cs : List Candidate) : Prop where
  distinct : (cs.map (·.destination)).Nodup
  asked : n.inquiries mvs =
    ((n.eligible cs).take (n.settings.maxAttempts * Move.cycles mvs)).map (·.destination)
  complete : (n.play mvs).queue = [] → n.inquiries mvs = (n.eligible cs).map (·.destination)
  soon : (cs.length + n.settings.maxAttempts - 1) / n.settings.maxAttempts ≤ Move.cycles mvs →
    (n.play mvs).queue = []

theorem askedThrough_of_drained (h : n.Drained mvs cs) (hone : 1 ≤ n.settings.maxAttempts)
    (hdistinct : (cs.map (·.destination)).Nodup) : n.AskedThrough mvs cs := by
  refine ⟨hdistinct, h.asked, fun hdry => ?_, fun hcycles => ?_⟩
  · have hleft := h.left
    rw [hdry, eligible, List.filter_nil, eq_comm, List.drop_eq_nil_iff] at hleft
    rw [h.asked, List.take_of_length_le hleft]
  · rw [Nat.div_le_iff_le_mul_add_pred hone] at hcycles
    have hlength := h.length
    exact List.length_eq_zero_iff.mp (by omega)

/-- In every run of bootstraps, however leases and seeds change and whatever is put in front, the
queue keeps account of its candidates, and while there are some in it, the source of seeds makes no
difference. If there is room for a batch, a bootstrap under capacity asks the free candidates of the
prefix that it takes, as many as it may, and a queue that has just been filled is asked through; if
there is none, nobody is ever asked. Whatever an edge peer goes through is such a run. -/
theorem candidates_are_neither_lost_nor_repeated (n : Node) (mvs : List Move) :
    (∃ gone fresh kept, n.Ledger mvs gone fresh kept) ∧
    (∀ env now s cache answers, (n.play mvs).queue ≠ [] →
      ((n.play mvs).supply s cache).bootstrap { env with seedsAnswer := answers } now =
        (((n.play mvs).bootstrap env now).1.supply s cache, ((n.play mvs).bootstrap env now).2)) ∧
    (n.settings.maxAttempts ≤ batchLimit →
      (∀ env now, (n.play mvs).Ready env →
        ∃ taken rest, Batched env now (n.play mvs) taken rest) ∧
      (1 ≤ n.settings.maxAttempts → ∀ env now mvs', (n.play mvs).queue = [] →
        (n.play mvs).Ready env → (n.play mvs).leaseStopped = false →
        ((n.play mvs).moved (.bootstrap env now)).Draining mvs' →
          (n.play mvs).AskedThrough (.bootstrap env now :: mvs')
            ((n.play mvs).seeding.candidates (n.play mvs).cache now))) ∧
    (batchLimit < n.settings.maxAttempts → ∀ env now, (n.play mvs).Ready env →
      (n.play mvs).requested env now = [] ∧
      ((n.play mvs).bootstrap env now).1.queue = (n.play mvs).lineup now) ∧
    ∀ p : EdgePeer, p.node = n → ∀ ts, ∃ mvs' gone fresh kept,
      (p.run ts).node = n.play mvs' ∧ n.Ledger mvs' gone fresh kept := by
  have hsettings := n.settings_play mvs
  refine ⟨n.exists_ledger mvs, ?_, fun hfits => ⟨?_, ?_⟩, ?_, ?_⟩
  · intro env now s cache answers hq
    exact bootstrap_supply s cache answers hq
  · intro env now hready
    exact exists_batched hready (hsettings ▸ hfits) now
  · intro hone env now mvs' hq hready hopen hdraining
    have hn : (n.play mvs).Unhindered := ⟨hready.going, hready.room, hopen, hsettings ▸ hfits⟩
    have hlineup : (n.play mvs).lineup now =
        (n.play mvs).seeding.candidates (n.play mvs).cache now := by
      rw [lineup, hq]
      rfl
    have hdrained := drained_bootstrap hn hready
      (drained_of_draining hdraining (hn.bootstrap hready now))
    rw [hlineup] at hdrained
    exact askedThrough_of_drained hdrained (hsettings ▸ hone) (Seeding.nodup_candidates _ _ _)
  · intro hvast env now hready
    exact bootstrap_of_vast hready (hsettings ▸ hvast) now
  · rintro p rfl ts
    exact p.exists_ledger_run ts

theorem five_seeds_in_two_cycles :
    let n := ((EdgePeer.seeded EdgePeer.fiveSeeds).run [.grant 0 (.filled 1) 20]).node
    let mvs : List Move := [.bootstrap {} 1, .bootstrap { fault := fun _ => some .closed } 2]
    n.inquiries mvs = [.address "udp://a", .address "udp://c", .address "udp://d",
      .address "udp://e"] ∧
    (n.play mvs).queue = [] ∧ n.AskedThrough mvs EdgePeer.fiveSeeds.configured := by
  intro n mvs
  have hdraining : (n.moved (.bootstrap {} 1)).Draining
      [.bootstrap { fault := fun _ => some .closed } 2] :=
    .bootstrap (by decide +kernel) (.nil _)
  obtain ⟨_, _, hroom, _⟩ := candidates_are_neither_lost_nor_repeated n []
  obtain ⟨_, hthrough⟩ := hroom (by decide +kernel)
  have hseeds : n.seeding.candidates n.cache 1 = EdgePeer.fiveSeeds.configured := by
    decide +kernel
  refine ⟨by decide +kernel, by decide +kernel, ?_⟩
  rw [← hseeds]
  exact hthrough (by decide +kernel) {} 1 _ (by decide +kernel)
    ⟨by decide +kernel, by decide +kernel, fun _ => rfl⟩ (by decide +kernel) hdraining

/-- Nobody is asked with a batch that has no room, although the configuration is a valid one. -/
theorem vast_batch_asks_nobody :
    ∃ p, EdgePeer.new { rendezvous := { maxSeedAttemptsPerCycle := 0x1000000000000000 } }
      { peer := .filled 0 }
      ⟨.uri, .filled 0, [.ofAddress "udp://10.0.0.1:9700"], [], false, false⟩
      (.withLimit 1024) = .ok p ∧
    p.node.Ready {} ∧ 1 ≤ p.node.settings.maxAttempts ∧
    min p.node.settings.maxAttempts (p.node.eligible (p.node.lineup 0)).length = 1 ∧
    p.node.requested {} 0 = [] ∧ (p.node.bootstrap {} 0).1.queue = p.node.lineup 0 ∧
    (p.node.bootstrap {} 0).2 = none := by
  refine ⟨_, rfl, ⟨rfl, by decide +kernel, fun _ => rfl⟩, ?_, ?_, ?_, ?_, ?_⟩ <;> decide +kernel

end Node

end LeaseOverlay
