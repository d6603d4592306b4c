import LeaseOverlay.Proofs.Connecting
import LeaseOverlay.Proofs.Window

namespace LeaseOverlay

namespace Schedule

def wait (s : Schedule) (o : CycleOutcome) : Time := if o = .notReady then s.retry else s.interval

def wishes (s : Schedule) (kicks : List Time) : Set Time := {m | ∃ k ∈ kicks, k + s.kickDelay = m}

theorem delay_of_ne_skipped {o : CycleOutcome} (s : Schedule) (h : o ≠ .skipped) :
    s.delay o = some (s.wait o) := by
  cases o with
  | skipped => exact absurd rfl h
  | _ => rfl

end Schedule

def Turn.IsTick (env : Surroundings) (start target : Time) (t : Turn) : Prop :=
  t.env = env ∧ t.action = .tick ∧ start ≤ t.now ∧ t.now ≤ target

namespace Node

variable {n : Node}

theorem monitorStopped_bootstrap (env : Surroundings) (now : Time) (n : Node) :
    (n.bootstrap env now).1.monitorStopped = n.monitorStopped := by
  have h := n.bootstrapped env now
  generalize n.bootstrap env now = r at h
  cases h with
  | asked _ _ h =>
    have hasks := asks_askAll env now { n with queue := (n.batch now).2 } (n.batch now).1
    rw [h] at hasks
    exact congrArg Agenda.monitorStopped hasks.agenda_eq
  | _ => rfl

theorem monitorStopped_cycle (env : Surroundings) (now : Time) (n : Node) :
    (n.cycle env now).1.monitorStopped = n.monitorStopped := by
  rcases n.idles_or_works env now with ⟨hsame, _⟩ | ⟨hgoing, hready, _⟩
  · rw [hsame]
  · rw [cycle_fst hgoing hready, monitorStopped_bootstrap]
    exact congrArg Agenda.monitorStopped (n.agenda_upkept env now)

theorem cycle_outcome_of_going (hgoing : n.monitorStopped = false) (env : Surroundings)
    (now : Time) : (n.cycle env now).2 ≠ .skipped ∧
      ((n.cycle env now).2 = .notReady ↔ env.routingReady = false) := by
  cases hready : env.routingReady with
  | false => simp [cycle, hgoing, hready]
  | true =>
    obtain ⟨r, heq⟩ := cycle_of_ready hgoing hready now
    rw [heq]
    split <;> simp

end Node

namespace EdgePeer

def kick? (p : EdgePeer) (t : Turn) : Option Time :=
  match t.action with
  | .connect address hint => if (p.connect t.now address hint).2 then some t.now else none
  | _ => none

def beat? (p : EdgePeer) (t : Turn) : Option CycleOutcome :=
  match t.action with
  | .tick => p.outcome? t
  | _ => none

def kicks : EdgePeer → List Turn → List Time
  | _, [] => []
  | p, t :: ts => (p.kick? t).toList ++ kicks (p.after t) ts

def beats : EdgePeer → List Turn → List CycleOutcome
  | _, [] => []
  | p, t :: ts => (p.beat? t).toList ++ beats (p.after t) ts

/-- No turn comes later than the cycle that is due before it. -/
inductive Punctual : EdgePeer → List Turn → Prop
  | nil (p : EdgePeer) : Punctual p []
  | cons {p : EdgePeer} {t : Turn} {ts : List Turn}
      (due : ∀ m, p.lifecycle = .running (some m) → t.now ≤ m)
      (rest : Punctual (p.after t) ts) : Punctual p (t :: ts)

/-- After these turns, all of them on time, `c` runs the first cycle that is due. -/
structure Next (p : EdgePeer) (between : List Turn) (c : Turn) (o : CycleOutcome) : Prop where
  quiet : p.beats between = []
  beat : (p.run between).beat? c = some o
  punctual : p.Punctual (between ++ [c])

variable {p : EdgePeer} {t : Turn} {ts us : List Turn} {o : CycleOutcome} {due : Time}

theorem beat?_eq_some_iff : p.beat? t = some o ↔ t.action = .tick ∧
    ∃ m, p.lifecycle = .running (some m) ∧ m ≤ t.now ∧ (p.node.cycle t.env t.now).2 = o := by
  obtain ⟨env, now, a⟩ := t
  cases a with
  | tick =>
    simp only [beat?, outcome?, dueCycle, Option.map_eq_some_iff, true_and]
    constructor
    · rintro ⟨m, hm, ho⟩
      split at hm
      · next d h =>
        exact ⟨d, h, (Option.ite_none_right_eq_some.mp hm).1, ho⟩
      · cases hm
    · rintro ⟨m, h, hle, ho⟩
      exact ⟨m, by rw [h]; exact if_pos hle, ho⟩
  | _ => simp [beat?]

theorem schedule_after (p : EdgePeer) (t : Turn) : (p.after t).schedule = p.schedule := by
  obtain ⟨env, now, a⟩ := t
  cases a with
  | start =>
    simp only [after, act, start]
    split <;> rfl
  | stop =>
    simp only [after, act, stop]
    split <;> rfl
  | connect address hint =>
    rcases connect_cases now p address hint with ⟨_, heq⟩ | ⟨c, s, _, _, heq⟩
    · simp only [after, act, heq]
    · simp only [after, act, heq, kick]
      split <;> rfl
  | tick =>
    simp only [after, act, tick]
    split <;> rfl
  | _ => rfl

theorem schedule_run (p : EdgePeer) (ts : List Turn) : (p.run ts).schedule = p.schedule := by
  refine run_induction (P := fun q => q.schedule = p.schedule) ?_ rfl ts
  intro q t h
  rw [schedule_after, h]

theorem lifecycle_after_of_quiet {m : Option Time} (h : p.lifecycle = .running m)
    (hs : t.action ≠ .stop) (hb : p.beat? t = none) :
    (p.after t).lifecycle =
      .running (m.map fun due => (p.kick? t).elim due (p.schedule.kicked · due)) := by
  obtain ⟨env, now, a⟩ := t
  cases a with
  | start => simp [after, act, start, h, kick?]
  | stop => exact absurd rfl hs
  | connect address hint =>
    rcases connect_cases now p address hint with ⟨_, heq⟩ | ⟨c, s, _, _, heq⟩
    · simp [after, act, kick?, heq, h]
    · cases m <;> simp [after, act, kick?, heq, h, kick]
  | tick =>
    have hdue : p.dueCycle now = none := by
      simpa [beat?, outcome?] using hb
    simp [after, act, tick, hdue, h, kick?]
  | _ => simp [after, act, withNode, h, kick?]

theorem lifecycle_after_of_beat (h : p.beat? t = some o) :
    (p.after t).lifecycle = .running ((p.schedule.delay o).map (t.now + ·)) := by
  obtain ⟨ha, m, hm, hle, ho⟩ := beat?_eq_some_iff.mp h
  obtain ⟨env, now, _⟩ := t
  subst ha
  have hdue : p.dueCycle now = some m := by rw [dueCycle, hm]; exact if_pos hle
  simp only [after, act, tick, hdue, runCycle, Nat.max_eq_left hle, ← ho]

theorem lifecycle_after_of_resting (h : ∀ m, p.lifecycle ≠ .running m)
    (hstart : t.action ≠ .start) (hstop : t.action ≠ .stop) :
    (p.after t).lifecycle = p.lifecycle := by
  obtain ⟨env, now, a⟩ := t
  cases a with
  | start => exact absurd rfl hstart
  | stop => exact absurd rfl hstop
  | connect address hint =>
    rcases connect_cases now p address hint with ⟨_, heq⟩ | ⟨c, s, _, _, heq⟩
    · simp only [after, act, heq]
    · simp only [after, act, heq, kick]
      split
      · next m hm => exact absurd hm (h (some m))
      · rfl
  | tick =>
    have hdue : p.dueCycle now = none := by
      unfold dueCycle
      split
      · next m hm => exact absurd hm (h (some m))
      · rfl
    simp only [after, act, tick, hdue]
  | _ => rfl

theorem lifecycle_after_of_idle (h : p.lifecycle = .idle) (hstart : t.action ≠ .start)
    (hstop : t.action ≠ .stop) : (p.after t).lifecycle = .idle :=
  (lifecycle_after_of_resting (by simp [h]) hstart hstop).trans h

theorem lifecycle_after_stop (h : t.action = .stop) : (p.after t).lifecycle = .stopped := by
  rw [after, h]
  by_cases hp : p.lifecycle = .stopped
  · rw [act, stop_of_stopped hp, hp]
  · rw [act, stop_of_ne hp]

theorem lifecycle_after_of_stopped (h : p.lifecycle = .stopped) (t : Turn) :
    (p.after t).lifecycle = .stopped := by
  by_cases hstop : t.action = .stop
  · exact lifecycle_after_stop hstop
  by_cases hstart : t.action = .start
  · rw [after, hstart, act, start, h]
    exact h
  · exact (lifecycle_after_of_resting (by simp [h]) hstart hstop).trans h

theorem lifecycle_run_of_stopped (h : p.lifecycle = .stopped) (ts : List Turn) :
    (p.run ts).lifecycle = .stopped :=
  run_induction (P := fun q => q.lifecycle = .stopped) (fun _ t h => lifecycle_after_of_stopped h t)
    h ts

theorem beats_cons_eq_nil_iff :
    p.beats (t :: ts) = [] ↔ p.beat? t = none ∧ (p.after t).beats ts = [] := by
  rw [beats, List.append_eq_nil_iff, Option.toList_eq_nil_iff]

theorem idle_run (h : p.lifecycle = .idle)
    (hts : ∀ t ∈ ts, t.action ≠ .start ∧ t.action ≠ .stop) :
    (p.run ts).lifecycle = .idle ∧ p.beats ts = [] := by
  induction ts generalizing p with
  | nil => exact ⟨h, rfl⟩
  | cons t ts ih =>
    obtain ⟨⟨hstart, hstop⟩, hrest⟩ := List.forall_mem_cons.mp hts
    have hquiet : p.beat? t = none := by
      rw [Option.eq_none_iff_forall_ne_some]
      intro o ho
      obtain ⟨_, m, hm, _⟩ := beat?_eq_some_iff.mp ho
      cases h.symm.trans hm
    obtain ⟨hidle, hbeats⟩ := ih (lifecycle_after_of_idle h hstart hstop) hrest
    exact ⟨hidle, beats_cons_eq_nil_iff.mpr ⟨hquiet, hbeats⟩⟩

theorem going_after (h : p.node.monitorStopped = false) (hs : t.action ≠ .stop) :
    (p.after t).node.monitorStopped = false := by
  cases hc : t.action.concernsAgenda with
  | false => exact (congrArg Agenda.monitorStopped (agenda_after hc)).trans h
  | true =>
    obtain ⟨env, now, a⟩ := t
    cases a with
    | stop => exact absurd rfl hs
    | connect address hint =>
      rcases connect_cases now p address hint with ⟨_, heq⟩ | ⟨c, s, _, _, heq⟩
      · simpa only [after, act, heq] using h
      · simp only [after, act, heq, kick_node]
        exact h
    | addSeedRoute r => exact h
    | addSeedAddress address => exact h
    | cycle => exact (Node.monitorStopped_cycle env now p.node).trans h
    | tick =>
      simp only [after, act]
      rcases p.tick_node env now with heq | heq
      · rwa [heq]
      · rwa [heq, Node.monitorStopped_cycle]
    | _ => cases hc

theorem stopped_or_going_run (h : p.node.monitorStopped = false) (ts : List Turn) :
    (p.run ts).lifecycle = .stopped ∨ (p.run ts).node.monitorStopped = false := by
  refine run_induction (P := fun q => q.lifecycle = .stopped ∨ q.node.monitorStopped = false) ?_
    (.inr h) ts
  rintro q t (hq | hq)
  · exact .inl (lifecycle_after_of_stopped hq t)
  · by_cases hs : t.action = .stop
    · exact .inl (lifecycle_after_stop hs)
    · exact .inr (going_after hq hs)

theorem lifecycle_run_of_quiet {m : Option Time} (h : p.lifecycle = .running m)
    (hs : ∀ t ∈ ts, t.action ≠ .stop) (hb : p.beats ts = []) : (p.run ts).lifecycle =
      .running (m.map fun due => ((p.kicks ts).map (· + p.schedule.kickDelay)).foldl min due) := by
  -- the moment that is due comes forward with each kick, so the induction is about any such moment
  induction ts generalizing p m with
  | nil => cases m <;> exact h
  | cons t ts ih =>
    obtain ⟨hquiet, hrest⟩ := beats_cons_eq_nil_iff.mp hb
    obtain ⟨hst, hsts⟩ := List.forall_mem_cons.mp hs
    have hafter := lifecycle_after_of_quiet h hst hquiet
    rw [run, ih hafter hsts hrest, kicks, schedule_after]
    cases m <;> cases p.kick? t <;> rfl

theorem exists_due_run (h : p.lifecycle = .running (some due)) (hs : ∀ t ∈ ts, t.action ≠ .stop)
    (hb : p.beats ts = []) : ∃ m, (p.run ts).lifecycle = .running (some m) ∧
      IsLeast (insert due (p.schedule.wishes (p.kicks ts))) m := by
  refine ⟨_, lifecycle_run_of_quiet h hs hb, ?_⟩
  have hset : p.schedule.wishes (p.kicks ts) =
      {m | m ∈ (p.kicks ts).map (· + p.schedule.kickDelay)} := by
    ext m
    simp [Schedule.wishes]
  rw [hset]
  exact isLeast_foldl_min due _

theorem exists_turn_of_mem_kicks {k : Time} (h : k ∈ p.kicks ts) : ∃ t ∈ ts, t.now = k := by
  induction ts generalizing p with
  | nil => cases h
  | cons t ts ih =>
    rcases List.mem_append.mp h with h | h
    · have hk : p.kick? t = some k := Option.mem_toList.mp h
      unfold kick? at hk
      split at hk
      · exact ⟨t, List.mem_cons_self, Option.some.inj (Option.ite_none_right_eq_some.mp hk).2⟩
      · cases hk
    · obtain ⟨u, hu, hnow⟩ := ih h
      exact ⟨u, List.mem_cons_of_mem t hu, hnow⟩

theorem lifecycle_after_start (h : p.lifecycle = .idle) (ht : t.action = .start) :
    (p.after t).lifecycle = .running (some t.now) := by
  rw [after, ht, act, start, h]

theorem lifecycle_after_of_outcome (h : p.beat? t = some o) (ho : o ≠ .skipped) :
    (p.after t).lifecycle = .running (some (t.now + p.schedule.wait o)) := by
  rw [lifecycle_after_of_beat h, p.schedule.delay_of_ne_skipped ho, Option.map_some]

theorem Punctual.of_due (h : p.lifecycle = .running (some due)) (hle : t.now ≤ due)
    (rest : (p.after t).Punctual ts) : p.Punctual (t :: ts) := by
  refine .cons (fun m hm => ?_) rest
  cases h.symm.trans hm
  exact hle

theorem Punctual.last (h : p.Punctual (ts ++ [t])) {m : Time}
    (hm : (p.run ts).lifecycle = .running (some m)) : t.now ≤ m := by
  induction ts generalizing p with
  | nil =>
    cases h with
    | cons due _ => exact due m hm
  | cons u us ih =>
    cases h with
    | cons _ rest => exact ih rest hm

namespace Next

variable {between : List Turn} {c : Turn}

theorem not_stop (h : p.Next between c o) : ∀ t ∈ between, t.action ≠ .stop := by
  intro t ht hstop
  obtain ⟨xs, ys, rfl⟩ := List.append_of_mem ht
  have hstopped : (p.run (xs ++ t :: ys)).lifecycle = .stopped := by
    rw [run_append]
    exact lifecycle_run_of_stopped (lifecycle_after_stop hstop) ys
  obtain ⟨_, m, hm, _⟩ := beat?_eq_some_iff.mp h.beat
  cases hstopped.symm.trans hm

theorem isLeast_now (h : p.Next between c o) (hp : p.lifecycle = .running (some due)) :
    IsLeast (insert due (p.schedule.wishes (p.kicks between))) c.now := by
  obtain ⟨m, hm, hleast⟩ := exists_due_run hp h.not_stop h.quiet
  obtain ⟨_, m', hm', hle, _⟩ := beat?_eq_some_iff.mp h.beat
  cases hm.symm.trans hm'
  -- due then, and no turn comes later
  rwa [← Nat.le_antisymm hle (h.punctual.last hm)]

end Next

theorem eq_of_isLeast_of_later {m : Time}
    (hleast : IsLeast (insert due (p.schedule.wishes (p.kicks ts))) m)
    (hlater : ∀ u ∈ ts, due ≤ u.now) : m = due := by
  obtain ⟨hmem, hle⟩ := hleast
  refine Nat.le_antisymm (hle (Set.mem_insert _ _)) ?_
  -- from then on a kick asks for nothing earlier
  rcases hmem with heq | ⟨k, hk, heq⟩
  · exact heq.ge
  · obtain ⟨u, hu, rfl⟩ := exists_turn_of_mem_kicks hk
    rw [← heq]
    exact Nat.le_add_right_of_le (hlater u hu)

theorem eq_of_isLeast_of_no_kicks {s : Schedule} {m : Time}
    (hleast : IsLeast (insert due (s.wishes [])) m) : m = due := by
  simpa [Schedule.wishes] using hleast.1

theorem kick_eq_self {now : Time} (h : p.lifecycle = .running (some due))
    (hdue : due ≤ now + p.schedule.kickDelay) : kick now p = p := by
  obtain ⟨node, schedule, lifecycle⟩ := p
  cases h
  exact congrArg (fun m => EdgePeer.mk node schedule (.running (some m))) (Nat.min_eq_left hdue)

theorem beat?_of_due (h : p.lifecycle = .running (some due)) (env : Surroundings) :
    p.beat? ⟨env, due, .tick⟩ = some (p.node.cycle env due).2 :=
  beat?_eq_some_iff.mpr ⟨rfl, due, h, Nat.le_refl due, rfl⟩

theorem runCycle_of_due (h : p.lifecycle = .running (some due)) {now : Time} (hnow : now ≤ due)
    (env : Surroundings) : p.runCycle env now due = p.after ⟨env, due, .tick⟩ := by
  have hdue : p.dueCycle due = some due := by
    rw [dueCycle, h]
    exact if_pos (Nat.le_refl due)
  simp only [after, act, tick, hdue, runCycle, Nat.max_eq_right hnow, Nat.max_self]

theorem le_of_due_again {m : Time} {env : Surroundings} (h : p.lifecycle = .running (some due))
    (hm : (p.after ⟨env, due, .tick⟩).lifecycle = .running (some m)) : due ≤ m := by
  rw [lifecycle_after_of_beat (beat?_of_due h env), Lifecycle.running.injEq,
    Option.map_eq_some_iff] at hm
  obtain ⟨delay, _, rfl⟩ := hm
  exact Nat.le_add_right due delay

theorem exists_ticks_runDue {now start : Time} (env : Surroundings) (target : Time) (fuel : Nat)
    (hstart : now ≤ start) (h : ∀ m, p.lifecycle = .running (some m) → start ≤ m) :
    ∃ ts, runDue env now target fuel p = p.run ts ∧ p.Punctual ts ∧
      ∀ t ∈ ts, t.IsTick env start target := by
  induction fuel generalizing p with
  | zero => exact ⟨[], rfl, .nil p, List.forall_mem_nil _⟩
  | succ fuel ih =>
    unfold runDue
    split
    · next due hdue =>
      have hlater := h due hdue
      split
      · next hle =>
        rw [runCycle_of_due hdue (Nat.le_trans hstart hlater) env]
        obtain ⟨ts, hts, hpunctual, hticks⟩ :=
          ih fun m hm => Nat.le_trans hlater (le_of_due_again hdue hm)
        refine ⟨⟨env, due, .tick⟩ :: ts, hts, .of_due hdue (Nat.le_refl due) hpunctual, ?_⟩
        rw [List.forall_mem_cons]
        exact ⟨⟨rfl, rfl, hlater, hle⟩, hticks⟩
      · exact ⟨[], rfl, .nil p, List.forall_mem_nil _⟩
    · exact ⟨[], rfl, .nil p, List.forall_mem_nil _⟩

theorem advance_of_due (h : p.lifecycle = .running (some due)) {now : Time} (hnow : now ≤ due)
    (env : Surroundings) (target : Time) :
    (target < due → p.advance env now target = p) ∧
      (due ≤ target → ∃ ts, p.advance env now target = p.run (⟨env, due, .tick⟩ :: ts) ∧
        p.Punctual (⟨env, due, .tick⟩ :: ts) ∧
        ∀ t ∈ ts, t.IsTick env due target) := by
  constructor
  · intro hlt
    simp only [advance, runDue, h, if_neg (Nat.not_le.mpr hlt)]
  · intro hle
    obtain ⟨ts, hts, hpunctual, hticks⟩ :=
      exists_ticks_runDue env target (target - now) hnow fun m hm => le_of_due_again h hm
    refine ⟨ts, ?_, .of_due h (Nat.le_refl due) hpunctual, hticks⟩
    simp only [advance, runDue, h, if_pos hle, runCycle_of_due h hnow env]
    exact hts

theorem kick_never_postpones (h : p.lifecycle = .running (some due)) {now : Time}
    {address : String} {hint : Option Route} (hc : (p.connect now address hint).2 = true) :
    ∃ m, (p.connect now address hint).1.lifecycle = .running (some m) ∧ m ≤ due := by
  have hafter : (p.connect now address hint).1.lifecycle =
      .running (some (p.schedule.kicked now due)) := by
    have hquiet : p.beat? ⟨{}, now, .connect address hint⟩ = none := rfl
    have hkick : p.kick? ⟨{}, now, .connect address hint⟩ = some now := if_pos hc
    have hlifecycle := lifecycle_after_of_quiet h (by simp) hquiet
    rwa [hkick] at hlifecycle
  exact ⟨_, hafter, Nat.min_le_left due _⟩

theorem outcome_of_beat (hgoing : p.node.monitorStopped = false) {ts : List Turn}
    (h : (p.run ts).beat? t = some o) :
    o ≠ .skipped ∧ (o = .notReady ↔ t.env.routingReady = false) := by
  obtain ⟨_, m, hm, _, rfl⟩ := beat?_eq_some_iff.mp h
  rcases stopped_or_going_run hgoing ts with hstopped | hgoing
  · cases hstopped.symm.trans hm
  · exact Node.cycle_outcome_of_going hgoing t.env t.now

/-- The first cycle runs at the start, whatever seeds were supplied before. After a cycle the next
is due when its delay is over, or at the earliest moment that a kick has asked for since, and it
runs then. So it is never later than that delay, and once it has run, the kicks before it count no
more. -/
theorem cycles_keep_the_timetable (hidle : p.lifecycle = .idle)
    (hgoing : p.node.monitorStopped = false) :
    (∀ before : List Turn, (∀ t ∈ before, t.action ≠ .start ∧ t.action ≠ .stop) →
      (p.run before).lifecycle = .idle ∧ p.beats before = [] ∧
      ∀ t : Turn, t.action = .start →
        let q := (p.run before).after t
        kick t.now q = q ∧ ∀ between, (∀ u ∈ between, t.now ≤ u.now) →
          ((∀ u ∈ between, u.action ≠ .stop) → q.beats between = [] →
            (q.run between).lifecycle = .running (some t.now)) ∧
          ∀ c o, q.Next between c o → c.now = t.now) ∧
    (∀ before c o, (p.run before).beat? c = some o →
      (o = .notReady ↔ c.env.routingReady = false) ∧
      let q := (p.run before).after c
      let wait := if o = .notReady then p.schedule.retry else p.schedule.interval
      ∀ between,
        let moments := insert (c.now + wait) (p.schedule.wishes (q.kicks between))
        ((∀ u ∈ between, u.action ≠ .stop) → q.beats between = [] →
          ∃ m, (q.run between).lifecycle = .running (some m) ∧ IsLeast moments m) ∧
        ∀ d o', q.Next between d o' →
          IsLeast moments d.now ∧ d.now ≤ c.now + wait ∧
          (q.kicks between = [] → d.now = c.now + wait)) ∧
    ∀ (q : EdgePeer) (due : Time), q.lifecycle = .running (some due) →
      (∀ now address hint, (q.connect now address hint).2 = true →
        ∃ m, (q.connect now address hint).1.lifecycle = .running (some m) ∧ m ≤ due) ∧
      ∀ env now target, now ≤ due →
        (target < due → q.advance env now target = q) ∧
        (due ≤ target → ∃ o ts, q.beat? ⟨env, due, .tick⟩ = some o ∧
          q.advance env now target = q.run (⟨env, due, .tick⟩ :: ts) ∧
          q.Punctual (⟨env, due, .tick⟩ :: ts) ∧
          ∀ u ∈ ts, u.IsTick env due target) := by
  refine ⟨fun before hbefore => ?first, fun before c o hc => ?next, fun q due hq => ?passing⟩
  case first =>
    obtain ⟨hstill, hbeats⟩ := idle_run hidle hbefore
    refine ⟨hstill, hbeats, fun t ht => ?_⟩
    have hq := lifecycle_after_start hstill ht
    refine ⟨kick_eq_self hq (Nat.le_add_right _ _), fun between hlater => ⟨fun hs hb => ?_, ?_⟩⟩
    · obtain ⟨m, hm, hleast⟩ := exists_due_run hq hs hb
      rw [hm, eq_of_isLeast_of_later hleast hlater]
    · intro c o h
      exact eq_of_isLeast_of_later (h.isLeast_now hq) hlater
  case next =>
    obtain ⟨hskip, hready⟩ := outcome_of_beat hgoing hc
    have hq := lifecycle_after_of_outcome hc hskip
    have hschedule : ((p.run before).after c).schedule = p.schedule := by
      rw [schedule_after, schedule_run]
    rw [schedule_run] at hq
    refine ⟨hready, fun between => ⟨fun hs hb => ?_, fun d o' h => ?_⟩⟩
    · have hdue := exists_due_run hq hs hb
      rwa [hschedule] at hdue
    · have hleast := h.isLeast_now hq
      rw [hschedule] at hleast
      refine ⟨hleast, hleast.2 (Set.mem_insert _ _), fun hkicks => ?_⟩
      rw [hkicks] at hleast
      exact eq_of_isLeast_of_no_kicks hleast
  case passing =>
    refine ⟨fun now address hint hc => kick_never_postpones hq hc, fun env now target hnow => ?_⟩
    obtain ⟨hbefore, hthen⟩ := advance_of_due hq hnow env target
    refine ⟨hbefore, fun hle => ?_⟩
    obtain ⟨ts, hts, hpunctual, hticks⟩ := hthen hle
    exact ⟨_, ts, beat?_of_due hq env, hts, hpunctual, hticks⟩

theorem late_seed_brings_the_third_cycle_forward :
    let before : List Turn := [⟨{}, 0, .connect "udp://a" none⟩]
    let start : Turn := ⟨{}, 10, .start⟩
    let c : Turn := ⟨{ routingReady := false }, 10, .tick⟩
    let waiting : List Turn := [⟨{}, 12, .connect "udp://b" none⟩]
    let d : Turn := ⟨{}, 4010, .tick⟩
    let supplied : List Turn := [⟨{}, 4020, .connect "udp://c" none⟩]
    let e : Turn := ⟨{}, 10020, .tick⟩
    let p := bare 1 0
    let q := (p.run before).after start
    let r := (q.after c).run waiting
    p.lifecycle = .idle ∧ p.node.monitorStopped = false ∧
    q.Next [] c .notReady ∧ c.now = start.now ∧
    (q.after c).Next waiting d (.completed ⟨0, 0, 0, 2⟩) ∧
    IsLeast (insert (c.now + p.schedule.retry) (p.schedule.wishes [12])) d.now ∧
    (r.after d).Next supplied e (.completed ⟨0, 0, 0, 1⟩) ∧
    IsLeast (insert (d.now + p.schedule.interval) (p.schedule.wishes [4020])) e.now := by
  intro before start c waiting d supplied e p q r
  have hdue₁ : q.lifecycle = .running (some 10) := by decide +kernel
  have hdue₂ : (q.after c).lifecycle = .running (some 4010) := by decide +kernel
  have hdue₃ : r.lifecycle = .running (some 4010) := by decide +kernel
  have hdue₄ : (r.after d).lifecycle = .running (some 34010) := by decide +kernel
  have hdue₅ : ((r.after d).run supplied).lifecycle = .running (some 10020) := by decide +kernel
  have hfirst : q.Next [] c .notReady :=
    ⟨rfl, by decide +kernel, .of_due hdue₁ (by decide) (.nil _)⟩
  have hsecond : (q.after c).Next waiting d (.completed ⟨0, 0, 0, 2⟩) :=
    ⟨by decide +kernel, by decide +kernel,
      .of_due hdue₂ (by decide) (.of_due hdue₃ (by decide) (.nil _))⟩
  have hthird : (r.after d).Next supplied e (.completed ⟨0, 0, 0, 1⟩) :=
    ⟨by decide +kernel, by decide +kernel,
      .of_due hdue₄ (by decide) (.of_due hdue₅ (by decide) (.nil _))⟩
  have hwaiting : (q.after c).kicks waiting = [12] := by decide +kernel
  have hsupplied : (r.after d).kicks supplied = [4020] := by decide +kernel
  obtain ⟨hstart, hnext, _⟩ := cycles_keep_the_timetable (p := p) rfl rfl
  obtain ⟨_, _, hstarted⟩ := hstart before (by simp [before])
  have hnow : c.now = start.now := ((hstarted start rfl).2 [] (by simp)).2 c _ hfirst
  have hc := hnext (before ++ [start])
  have hd := hnext (before ++ start :: c :: waiting)
  rw [show p.run (before ++ [start]) = q from p.run_append before [start]] at hc
  rw [show p.run (before ++ start :: c :: waiting) = r from p.run_append before _] at hd
  obtain ⟨hretried, _⟩ := ((hc c _ hfirst.beat).2 waiting).2 d _ hsecond
  obtain ⟨hkicked, _⟩ := ((hd d _ hsecond.beat).2 supplied).2 e _ hthird
  refine ⟨rfl, rfl, hfirst, hnow, hsecond, ?_, hthird, ?_⟩
  · rw [← hwaiting]
    exact hretried
  · rw [← hsupplied]
    exact hkicked

end EdgePeer

end LeaseOverlay
