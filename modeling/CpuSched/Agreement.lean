import CpuSched.Order

/-! Where the policies coincide: Priority, PCP and PIP with a READY `current`, the three and
Round-Robin on one priority, SJF and FCFS on a queue sorted by lifespan, and STCF and SJF while
no process arrives. -/
namespace CpuSched

variable {s s' : Sys} {n : Option Nat} {pr : Nat}

/-- Priority, PCP and PIP share one `schedule` while `current` is READY: every ready process is
READY, so the scan of `prio_schedule` is that of the other two, and the three weigh a READY
`current` against it alike. -/
theorem prio_schedules_agree (hi : QueueInv s) (hb : ∀ c, s.current = some c → s.status c = .ready) :
    prioSchedule s = pcpSchedule s ∧ pipSchedule s = pcpSchedule s := by
  cases hr : s.readyqueue with
  | nil => simp only [prioSchedule, pcpSchedule, pipSchedule, hr, and_self]
  | cons p ps =>
    have hscan : scanFirst (fun q n => decide (s.prio n < s.prio q ∧ s.status q = .ready)) p ps =
        scanFirst s.prioAbove p ps :=
      scanFirst_congr fun q hq _ _ => by
        simp [Sys.prioAbove, (hi.runnable_of_mem_ready (hr ▸ hq)).1]
    cases hc : s.current with
    | none => simp only [prioSchedule, pcpSchedule, pipSchedule, hr, hc, hscan, and_self]
    | some c =>
      have hle := hi.age_le c
      simp only [prioSchedule, pcpSchedule, pipSchedule, hr, hc, hscan, hb c hc]
      by_cases ha : s.age c = s.lifespan c
      · simp [ha]
      · have hlt := lt_of_le_of_ne hle ha
        by_cases hpc : s.prio (scanFirst s.prioAbove p ps) < s.prio c
        · simp [ha, hlt, hpc, not_le.2 hpc]
        · simp [ha, hlt, hpc, not_lt.1 hpc]

section Shortest

theorem Sys.pickShortest_eq_pickHead
    (hs : s.readyqueue.Pairwise fun p q => s.lifespan p ≤ s.lifespan q) :
    s.pickShortest = s.pickHead := by
  unfold Sys.pickShortest Sys.pickHead
  split
  · rfl
  · next p ps hr =>
    rw [hr, List.pairwise_cons] at hs
    rw [scanFirst_eq_first fun q hq => decide_eq_false (not_lt.2 (hs.1 q hq))]

theorem Sys.runToCompletion_congr {p₁ p₂ : Sys → Option Nat × Sys} (h : p₁ s = p₂ s) :
    s.runToCompletion p₁ = s.runToCompletion p₂ := by
  simp only [Sys.runToCompletion, h]

/-- SJF is FCFS on jobs queued shortest first: from an invariant state with fresh fork ids whose
ready queue is in order of lifespan, along ticks and requests SJF produces the run of FCFS. -/
theorem sjf_sorted_runs_as_fcfs {ops : List Op} (hops : ∀ op ∈ ops, op = .tick ∨ ∃ r, op = .acquire r)
    (hi : QueueInv s) (hf : Fresh s)
    (hs : s.readyqueue.Pairwise fun p q => s.lifespan p ≤ s.lifespan q) :
    runOps sjfScheduler s ops = runOps fcfsScheduler s ops := by
  have hkeep : ∀ t op t', (QueueInv t ∧ Fresh t) ∧
      (t.readyqueue.Pairwise fun p q => t.lifespan p ≤ t.lifespan q) →
      (op = .tick ∨ ∃ r, op = .acquire r) → op.enabled t = true →
      exec fcfsScheduler t op = .ok t' → (QueueInv t' ∧ Fresh t') ∧
        t'.readyqueue.Pairwise fun p q => t'.lifespan p ≤ t'.lifespan q := by
    rintro t op t' ⟨⟨hi, hf⟩, hs⟩ hop hen h
    refine ⟨@fcfs_exec_queueInv 0 _ _ .fcfs (.inl rfl) _ hi hf hen h, ?_⟩
    rcases hop with rfl | ⟨r, rfl⟩
    · obtain ⟨n, u, hu, rfl⟩ := exec_tick_ok h
      have hl : (u.dispatch n).lifespan = t.lifespan := (fcfsSchedule_requeued hu).1.lifespan
      rw [Sys.dispatch_readyqueue, hl]
      rcases fcfsSchedule_readyqueue hu with h' | h'
      · exact h' ▸ hs
      · exact h' ▸ hs.tail
    · obtain ⟨b, ha⟩ := exec_acquire_ok h
      obtain ⟨-, -, rfl⟩ | ⟨-, c, -, -, -, rfl⟩ := fcfsAcquire_ok ha <;> exact hs
  refine runOps_congr _ _ (fun t op ⟨_, hs⟩ hop => ?_) hkeep hops ⟨⟨hi, hf⟩, hs⟩
  rcases hop with rfl | ⟨r, rfl⟩
  · simp only [exec, sjfScheduler, fcfsScheduler, sjfSchedule, fcfsSchedule,
      Sys.runToCompletion_congr (Sys.pickShortest_eq_pickHead hs)]
  · rfl

theorem sjf_sorted_runs_as_fcfs_rrPair :
    runOps sjfScheduler rrPair [.tick, .acquire 0, .tick, .tick, .acquire 1, .tick] =
      runOps fcfsScheduler rrPair [.tick, .acquire 0, .tick, .tick, .acquire 1, .tick] :=
  sjf_sorted_runs_as_fcfs (by simp) queueInv_rrPair ((fresh_init.fork 4 0).fork 4 0) (by decide)

end Shortest

section NoArrival

variable {t : Sys}

/-- STCF takes the decision of SJF while work is left, no ready process has run yet, `current` is
READY, and a runnable `current` has less time left than any ready process takes: the remaining
time of a ready process is then its lifespan, and a runnable `current` wins the comparison that
SJF never makes. -/
theorem stcfSchedule_eq_sjfSchedule (hi : QueueInv s) (hfresh : ∀ q ∈ s.readyqueue, s.age q = 0)
    (hb : ∀ c, s.current = some c → s.status c = .ready)
    (hc : ∀ c, s.current = some c → s.Runnable c → ∀ q ∈ s.readyqueue, s.remaining c < s.lifespan q)
    (hw : 0 < s.work) : stcfSchedule s = sjfSchedule s := by
  cases hr : s.readyqueue with
  | nil =>
    -- the work left is that of a runnable `current`
    obtain ⟨c, hcur, hcr⟩ : ∃ c, s.current = some c ∧ s.Runnable c := by
      by_contra hno
      rw [Sys.work_of_not_runnable fun c h hr' => hno ⟨c, h, hr'⟩, hr] at hw
      exact absurd hw (lt_irrefl 0)
    simp only [stcfSchedule, sjfSchedule, hr, Sys.keepCurrent, hcur, hcr.2, if_true,
      Sys.runToCompletion_keep hcur hcr]
  | cons p ps =>
    -- the remaining time of a ready process is its lifespan, so the two scans pick one process
    obtain ⟨x, hx⟩ : ∃ x, scanFirst (fun q n => decide (s.lifespan q < s.lifespan n)) p ps = x :=
      ⟨_, rfl⟩
    have hscan : scanFirst (fun q n => decide (s.lifespan q - s.age q < s.lifespan n - s.age n)) p ps =
        x := hx ▸ scanFirst_congr fun q hq n hn => by rw [hfresh q (hr ▸ hq), hfresh n (hr ▸ hn)]; rfl
    have hxr : x ∈ s.readyqueue := hr ▸ hx ▸ scanFirst_mem _ p ps
    cases hcur : s.current with
    | none =>
      simp only [stcfSchedule, sjfSchedule, Sys.runToCompletion, Sys.pickShortest, hr, hcur, hscan, hx]
    | some c =>
      by_cases ha : s.age c < s.lifespan c
      · have hcr : s.Runnable c := ⟨hb c hcur, ha⟩
        have hlt : s.lifespan c - s.age c < s.lifespan x - s.age x := by
          rw [hfresh x hxr, Nat.sub_zero]
          exact hc c hcur hcr x hxr
        simp only [stcfSchedule, sjfSchedule, hr, hcur, hscan, if_pos ha.ne', if_pos hlt,
          hi.listDelInit_current hcur (hb c hcur), Sys.runToCompletion_keep hcur hcr]
      · have hfin : s.lifespan c = s.age c := le_antisymm (not_lt.1 ha) (hi.age_le c)
        have hnr : ∀ c', s.current = some c' → ¬ s.Runnable c' := fun c' h hr' =>
          ha (Option.some.inj (hcur.symm.trans h) ▸ hr'.2)
        simp only [stcfSchedule, sjfSchedule, hr, hcur, hscan, hfin, ne_eq, not_true_eq_false,
          if_false, Sys.runToCompletion_pick hnr, Sys.pickShortest, hx]

/-- An SJF tick from such a state reaches another: the process it runs, kept or picked as the
shortest, has less time left than any process still ready, none of which has run. -/
theorem sjf_tick_fresh_jobs (hi : QueueInv s) (hfresh : ∀ q ∈ s.readyqueue, s.age q = 0)
    (hc : ∀ c, s.current = some c → s.Runnable c → ∀ q ∈ s.readyqueue, s.remaining c < s.lifespan q)
    (h : sjfSchedule s = .ok (n, t)) :
    (∀ q ∈ (t.dispatch n).readyqueue, (t.dispatch n).age q = 0) ∧
      ∀ c, (t.dispatch n).current = some c → (t.dispatch n).Runnable c →
        ∀ q ∈ (t.dispatch n).readyqueue, (t.dispatch n).remaining c < (t.dispatch n).lifespan q := by
  by_cases hrun : ∃ c, s.current = some c ∧ s.Runnable c
  · obtain ⟨c, hcur, hcr⟩ := hrun
    cases (congrArg Except.ok (Sys.runToCompletion_keep hcur hcr)).symm.trans h
    refine ⟨fun q hq => ?_, fun c' hc' _ q hq => ?_⟩
    · have hqc : q ≠ c := fun h => hi.not_mem_ready_of_current hcur (h ▸ hq)
      simpa [Function.update_noteq hqc] using hfresh q hq
    · obtain rfl : c = c' := Option.some.inj hc'
      have := hc c hcur hcr q hq
      simp only [Sys.remaining, Sys.dispatch_lifespan, Sys.dispatch_age, Function.update_same] at this ⊢
      omega
  · have ht := (congrArg Except.ok (Sys.runToCompletion_pick fun c h hr => hrun ⟨c, h, hr⟩)).symm.trans h
    cases hr : s.readyqueue with
    | nil =>
      simp only [Sys.pickShortest, hr, Except.ok.injEq, Prod.mk.injEq] at ht
      obtain ⟨rfl, rfl⟩ := ht
      exact ⟨fun q hq => by simp [hr] at hq, fun c' hc' => nomatch hc'⟩
    | cons p ps =>
      have hmin : s.EarliestMin s.lifespan
          (scanFirst (fun a b => decide (s.lifespan a < s.lifespan b)) p ps) :=
        Sys.earliestMin_scanFirst hr
      simp only [Sys.pickShortest, hr, Except.ok.injEq, Prod.mk.injEq] at ht
      obtain ⟨rfl, rfl⟩ := ht
      -- the picked process leaves the ready queue, which keeps the rest
      have hrest : ∀ q ∈ ((s.listDelInit _).dispatch (some (scanFirst (fun a b =>
          decide (s.lifespan a < s.lifespan b)) p ps))).readyqueue,
          q ∈ s.readyqueue ∧ q ≠ scanFirst (fun a b => decide (s.lifespan a < s.lifespan b)) p ps :=
        fun q hq => ⟨List.mem_of_mem_erase hq, fun h => hi.ready_nodup.not_mem_erase (h ▸ hq)⟩
      refine ⟨fun q hq => ?_, fun c' hc' _ q hq => ?_⟩
      · simpa [Function.update_noteq (hrest q hq).2] using hfresh q (hrest q hq).1
      · obtain rfl := Option.some.inj hc'
        have hle := hmin.1 q (hrest q hq).1
        have hx0 := hfresh _ hmin.mem
        simp only [Sys.remaining, Sys.dispatch_lifespan, Sys.dispatch_age, Function.update_same,
          Sys.listDelInit_lifespan, Sys.listDelInit_age, hx0]
        have hpos := (hi.runnable_of_mem_ready hmin.mem).2
        omega

/-- STCF is SJF when no process arrives: from an invariant state with a READY `current` whose
ready processes have not run yet and take longer than a runnable `current` has left, every run
of ticks up to the work left is the same under the two policies. -/
theorem stcf_runs_as_sjf (hi : QueueInv s) (hfresh : ∀ q ∈ s.readyqueue, s.age q = 0)
    (hb : ∀ c, s.current = some c → s.status c = .ready)
    (hc : ∀ c, s.current = some c → s.Runnable c → ∀ q ∈ s.readyqueue, s.remaining c < s.lifespan q) :
    ∀ k ≤ s.work, runOps stcfScheduler s (List.replicate k .tick) =
      runOps sjfScheduler s (List.replicate k .tick) := by
  intro k hk
  induction k generalizing s with
  | zero => rfl
  | succ k ih =>
    obtain ⟨n, t, hs⟩ : ∃ n t, sjfSchedule s = .ok (n, t) := ⟨_, _, rfl⟩
    have hspec := sjfSchedule_spec hs
    obtain ⟨hfresh', hc'⟩ := sjf_tick_fresh_jobs hi hfresh hc hs
    have hw := (hspec.work_dispatch hi).1
    simp only [List.replicate_succ, runOps, Op.enabled, if_true, exec, stcfScheduler, sjfScheduler,
      stcfSchedule_eq_sjfSchedule hi hfresh hb hc (by omega), hs]
    exact ih (hspec.queueInv hi) hfresh' (hspec.dispatch_ready hi) hc' (by omega)

theorem stcf_runs_as_sjf_threeJobs :
    runOps stcfScheduler threeJobs (List.replicate 9 .tick) =
      runOps sjfScheduler threeJobs (List.replicate 9 .tick) :=
  stcf_runs_as_sjf queueInv_threeJobs (by decide) (fun _ h => nomatch (h : none = some _))
    (fun _ h => nomatch (h : none = some _)) 9 (by decide)

end NoArrival

/-- Every process in the ready queue or running has priority `pr`. -/
def Sys.OnePrio (s : Sys) (pr : Nat) : Prop :=
  ∀ p, p ∈ s.readyqueue ∨ s.current = some p → s.prio p = pr

/-- A tick that meets the contract runs and requeues only processes that were ready or running. -/
theorem ScheduleSpec.active_dispatch (h : ScheduleSpec s n s') (p : Nat)
    (hp : p ∈ (s'.dispatch n).readyqueue ∨ (s'.dispatch n).current = some p) :
    p ∈ s.readyqueue ∨ s.current = some p := by
  cases h with
  | keep hc _ => exact hp.imp id fun h => Option.some.inj (h : some _ = some p) ▸ hc
  | detach hq _ =>
    rcases hp with hp | hp
    · exact .inl (List.mem_of_mem_erase hp)
    · exact .inl (Option.some.inj (hp : some _ = some p) ▸ hq)
  | @preempt c q hc _ hq =>
    rcases hp with hp | hp
    · have hp : p ∈ s.readyqueue ++ [c] := List.mem_of_mem_erase hp
      rcases List.mem_append.1 hp with hp | hp
      · exact .inl hp
      · exact .inr ((List.mem_singleton.1 hp) ▸ hc)
    · exact .inl (Option.some.inj (hp : some _ = some p) ▸ hq)
  | idle =>
    rcases hp with hp | hp
    · exact .inl hp
    · exact nomatch (hp : none = some p)

/-- Round-Robin keeps every ready or running process at priority `pr` along ticks and forks at
`pr`: a tick only runs and requeues processes that were ready or running, and changes no
priority. -/
theorem rr_exec_onePrio {op : Op} (hop : op = .tick ∨ ∃ l, op = .fork l pr) (hi : QueueInv s)
    (hb : ∀ c, s.current = some c → s.status c = .ready) (hone : s.OnePrio pr)
    (h : exec rrScheduler s op = .ok s') : s'.OnePrio pr := by
  rcases hop with rfl | ⟨l, rfl⟩
  · obtain ⟨n, t, hs, rfl⟩ := exec_tick_ok h
    intro p hp
    rw [show (t.dispatch n).prio = s.prio from (rrSchedule_requeued hs).2.2]
    exact hone p ((rrSchedule_spec hi hb hs).active_dispatch p hp)
  · cases h
    intro p hp
    by_cases hpn : p = s.nproc
    · subst hpn; simp
    · simp only [Sys.fork_readyqueue, Sys.fork_current, List.mem_append, List.mem_singleton, hpn,
        or_false, Sys.fork_prio, Function.update_noteq hpn] at hp ⊢
      exact hone p hp

/-- Along ticks and forks, from an invariant state with fresh fork ids and a READY `current`,
Priority, PCP and PIP produce the same run. -/
theorem prio_policies_run_alike {maxPrio : Nat} {ops : List Op}
    (hops : ∀ op ∈ ops, op = .tick ∨ ∃ l pr, op = .fork l pr) (hi : QueueInv s) (hf : Fresh s)
    (hb : ∀ c, s.current = some c → s.status c = .ready) :
    runOps prioScheduler s ops = runOps (pcpScheduler maxPrio) s ops ∧
      runOps pipScheduler s ops = runOps (pcpScheduler maxPrio) s ops := by
  have hkeep : ∀ t op t', (QueueInv t ∧ Fresh t ∧ ∀ c, t.current = some c → t.status c = .ready) →
      (op = .tick ∨ ∃ l pr, op = .fork l pr) → op.enabled t = true →
      exec (pcpScheduler maxPrio) t op = .ok t' →
      QueueInv t' ∧ Fresh t' ∧ ∀ c, t'.current = some c → t'.status c = .ready :=
    fun _ _ _ ⟨hi, hf, hb⟩ hop hen h =>
      exec_keeps_ready hop (fun _ _ hs => pcpSchedule_spec hb hs) hi hf hb hen h
  have hagree : ∀ sch : Scheduler, (∀ t, QueueInv t → (∀ c, t.current = some c →
      t.status c = .ready) → sch.schedule t = pcpSchedule t) →
      runOps sch s ops = runOps (pcpScheduler maxPrio) s ops := fun sch hsch =>
    runOps_congr _ _ (fun t op ⟨hi, _, hb⟩ hop => by
        rcases hop with rfl | ⟨l, pr, rfl⟩
        · simp only [exec, hsch t hi hb, pcpScheduler]
        · rfl) hkeep hops ⟨hi, hf, hb⟩
  exact ⟨hagree prioScheduler fun t hi hb => (prio_schedules_agree hi hb).1,
    hagree pipScheduler fun t hi hb => (prio_schedules_agree hi hb).2⟩

theorem prio_policies_run_alike_rrPair :
    runOps prioScheduler rrPair [.tick, .fork 2 9, .tick, .tick, .tick] =
        runOps (pcpScheduler 5) rrPair [.tick, .fork 2 9, .tick, .tick, .tick] ∧
      runOps pipScheduler rrPair [.tick, .fork 2 9, .tick, .tick, .tick] =
        runOps (pcpScheduler 5) rrPair [.tick, .fork 2 9, .tick, .tick, .tick] :=
  prio_policies_run_alike (by simp) queueInv_rrPair ((fresh_init.fork 4 0).fork 4 0)
    (fun _ h => nomatch h)

section Uniform

variable (pol : Policy) (hpol : pol = .prio ∨ pol = .pcp ∨ pol = .pip) (maxPrio : Nat)
include hpol

/-- On processes of one priority, with a READY `current`, `schedule` of Priority, PCP and PIP
is `rr_schedule`. -/
theorem prio_schedule_eq_rr (hi : QueueInv s) (hb : ∀ c, s.current = some c → s.status c = .ready)
    (hone : s.OnePrio pr) : (pol.scheduler maxPrio).schedule s = rrSchedule s := by
  cases hr : s.readyqueue with
  | nil => rcases hpol with rfl | rfl | rfl <;> simp only [Policy.scheduler, prioScheduler,
      pcpScheduler, pipScheduler, prioSchedule, pcpSchedule, pipSchedule, rrSchedule, hr]
  | cons p ps =>
    have hpr : ∀ q ∈ p :: ps, s.prio q = pr := fun q hq => hone q (.inl (hr ▸ hq))
    have hhead : ∀ better : Nat → Nat → Bool, (∀ q n, better q n = true → s.prio n < s.prio q) →
        scanFirst better p ps = p := fun better hbet => scanFirst_eq_first fun q hq => by
      by_contra hne
      have := hbet q p (by simpa using hne)
      rw [hpr q (List.mem_cons_of_mem _ hq), hpr p (List.mem_cons_self _ _)] at this
      exact lt_irrefl _ this
    have hp : p ∈ s.readyqueue := hr ▸ List.mem_cons_self _ _
    have hnext₁ : scanFirst (fun q n => decide (s.prio n < s.prio q ∧ s.status q = .ready)) p ps =
        p := hhead _ fun q n h => (of_decide_eq_true h).1
    have hnext₂ : scanFirst s.prioAbove p ps = p := hhead _ fun q n h => of_decide_eq_true h
    cases hc : s.current with
    | none =>
      rcases hpol with rfl | rfl | rfl <;>
        simp only [Policy.scheduler, prioScheduler, pcpScheduler, pipScheduler, prioSchedule,
          pcpSchedule, pipSchedule, rrSchedule, hr, hc, hnext₁, hnext₂, Sys.listDelInit_current]
    | some c =>
      have hpc : s.prio p = s.prio c :=
        (hpr p (List.mem_cons_self _ _)).trans (hone c (.inr hc)).symm
      have hle := hi.age_le c
      have hbc := hb c hc
      rcases hpol with rfl | rfl | rfl <;>
        simp only [Policy.scheduler, prioScheduler, pcpScheduler, pipScheduler, prioSchedule,
          pcpSchedule, pipSchedule, rrSchedule, hr, hc, hnext₁, hnext₂, Sys.listDelInit_current,
          Sys.listDelInit_lifespan, Sys.listDelInit_age] <;>
        by_cases ha : s.age c = s.lifespan c <;>
        simp [ha, @eq_comm _ (s.lifespan c), lt_of_le_of_ne hle, hpc, hbc,
          Sys.listDelInit_enqueueReady hp]

/-- On processes of one priority, Priority, PCP and PIP schedule as Round-Robin: from an invariant
state with fresh fork ids, a READY `current`, and every ready or running process at priority `pr`,
every run of ticks and of forks at `pr` is the run of Round-Robin. -/
theorem prio_one_prio_runs_as_rr {ops : List Op}
    (hops : ∀ op ∈ ops, op = .tick ∨ ∃ l, op = .fork l pr) (hi : QueueInv s) (hf : Fresh s)
    (hb : ∀ c, s.current = some c → s.status c = .ready) (hone : s.OnePrio pr) :
    runOps (pol.scheduler maxPrio) s ops = runOps rrScheduler s ops :=
  runOps_congr
    (fun t => QueueInv t ∧ Fresh t ∧ (∀ c, t.current = some c → t.status c = .ready) ∧
      t.OnePrio pr)
    (fun op => op = .tick ∨ ∃ l, op = .fork l pr)
    (fun t op ⟨hi, _, hb, hone⟩ hop => by
      rcases hop with rfl | ⟨l, rfl⟩
      · simp only [exec, prio_schedule_eq_rr pol hpol maxPrio hi hb hone, rrScheduler]
      · rfl)
    (fun _ _ _ ⟨hi, hf, hb, hone⟩ hop hen h =>
      have ⟨hi', hf', hb'⟩ := exec_keeps_ready (hop.imp id fun ⟨l, h⟩ => ⟨l, pr, h⟩)
        (fun _ _ hs => rrSchedule_spec hi hb hs) hi hf hb hen h
      ⟨hi', hf', hb', rr_exec_onePrio hop hi hb hone h⟩)
    hops ⟨hi, hf, hb, hone⟩

end Uniform

theorem prio_one_prio_runs_as_rr_rrPair :
    runOps prioScheduler rrPair [.tick, .fork 2 0, .tick, .tick] =
      runOps rrScheduler rrPair [.tick, .fork 2 0, .tick, .tick] :=
  prio_one_prio_runs_as_rr .prio (.inl rfl) 0 (by simp) queueInv_rrPair
    ((fresh_init.fork 4 0).fork 4 0) (fun _ h => nomatch h)
    (fun _ _ => by simp [rrPair, Sys.init, Function.update_apply] : rrPair.OnePrio 0)

end CpuSched
