import CpuSched.Progress

/-! Which of two waiting processes runs first under SJF, STCF and the priority schedulers,
how inheritance and the ceiling change it, and the processes that are passed over forever. -/
namespace CpuSched

variable {sch : Scheduler} {s s' : Sys} {n : Option Nat} {p q : Nat}

/-- A run of ticks reaches `Q` within the work left when every tick from a state of `P` spends
one unit of work and lands in `Q` or back in `P`. -/
theorem ticks_reach_of_step (P Q : Sys → Prop)
    (step : ∀ s, P s → 0 < s.work ∧
      ∃ s', exec sch s .tick = .ok s' ∧ s'.work = s.work - 1 ∧ (Q s' ∨ P s'))
    (hs : P s) : ∃ k < s.work, ∃ s', Run sch s (List.replicate (k + 1) .tick) s' ∧ Q s' := by
  obtain ⟨m, hm⟩ : ∃ m, s.work = m := ⟨_, rfl⟩
  induction m generalizing s with
  | zero => have := (step s hs).1; omega
  | succ m ih =>
    obtain ⟨-, s₁, hex, hw, hQ | hP⟩ := step s hs
    · exact ⟨0, by omega, s₁, .cons rfl hex (.nil _), hQ⟩
    · obtain ⟨k, hk, s', hrun, hQ'⟩ := ih hP (by omega)
      exact ⟨k + 1, by omega, s', .cons rfl hex hrun, hQ'⟩

theorem Sys.work_pos_of_mem (hi : QueueInv s) (hp : p ∈ s.readyqueue) : 0 < s.work := by
  have hr : s.remainingSum s.readyqueue = _ := Sys.remainingSum_erase hp
  have hpos : 0 < s.remaining p := Nat.sub_pos_of_lt (hi.runnable_of_mem_ready hp).2
  simp only [Sys.work]
  omega

section Sjf

/-- The step lemma of SJF: from an invariant state, while `p` and a process `q` of longer lifespan
wait, a tick spends one unit of the work left, keeps the invariant with a READY `current`, and
leaves `q` waiting, and `p` waiting or running. -/
theorem sjf_tick_waiting (hi : QueueInv s) (hp : p ∈ s.readyqueue) (hq : q ∈ s.readyqueue)
    (hlt : s.lifespan p < s.lifespan q) :
    ∃ s', exec sjfScheduler s .tick = .ok s' ∧ s'.work = s.work - 1 ∧ s'.lifespan = s.lifespan ∧
      QueueInv s' ∧ q ∈ s'.readyqueue ∧ (s'.current = some p ∨ p ∈ s'.readyqueue) := by
  obtain ⟨n, t, hs⟩ : ∃ n t, sjfSchedule s = .ok (n, t) := ⟨_, _, rfl⟩
  have hspec := sjfSchedule_spec hs
  refine ⟨t.dispatch n, by simp only [exec, sjfScheduler, hs], (hspec.work_dispatch hi).1,
    (sjfSchedule_requeued hs).1.lifespan, hspec.queueInv hi, ?_⟩
  by_cases hrun : ∃ c, s.current = some c ∧ s.Runnable c
  · obtain ⟨c, hc, hcr⟩ := hrun
    cases (congrArg Except.ok (Sys.runToCompletion_keep hc hcr)).symm.trans hs
    exact ⟨hq, .inr hp⟩
  · have hnr : ∀ c, s.current = some c → ¬ s.Runnable c := fun c hc hcr => hrun ⟨c, hc, hcr⟩
    obtain ⟨h₀, rest, hr⟩ := List.exists_cons_of_ne_nil (List.ne_nil_of_mem hp)
    have hmin : s.EarliestMin s.lifespan
        (scanFirst (fun a b => decide (s.lifespan a < s.lifespan b)) h₀ rest) :=
      Sys.earliestMin_scanFirst hr
    have ht := (congrArg Except.ok (Sys.runToCompletion_pick hnr)).symm.trans hs
    simp only [Sys.pickShortest, hr, Except.ok.injEq, Prod.mk.injEq] at ht
    obtain ⟨rfl, rfl⟩ := ht
    have hnq : scanFirst (fun a b => decide (s.lifespan a < s.lifespan b)) h₀ rest ≠ q := fun h => by
      have := hmin.1 p hp
      rw [h] at this
      omega
    refine ⟨(List.mem_erase_of_ne (Ne.symm hnq)).2 hq, ?_⟩
    by_cases hpn : scanFirst (fun a b => decide (s.lifespan a < s.lifespan b)) h₀ rest = p
    · exact .inl (by rw [Sys.dispatch_current, hpn])
    · exact .inr ((List.mem_erase_of_ne (Ne.symm hpn)).2 hp)

/-- SJF runs a shorter job first: with only ticks, from an invariant state, of two ready
processes the one of shorter lifespan starts to run within the work left, while the other still
waits. -/
theorem sjf_runs_shorter_first (hi : QueueInv s) (hp : p ∈ s.readyqueue) (hq : q ∈ s.readyqueue)
    (hlt : s.lifespan p < s.lifespan q) :
    ∃ k < s.work, ∃ s', Run sjfScheduler s (List.replicate (k + 1) .tick) s' ∧
      s'.current = some p ∧ q ∈ s'.readyqueue :=
  ticks_reach_of_step (fun t => QueueInv t ∧ p ∈ t.readyqueue ∧ q ∈ t.readyqueue ∧
      t.lifespan p < t.lifespan q) _
    (fun t ⟨hi, hp, hq, hlt⟩ => by
      obtain ⟨t', hex, hw, hl, hi', hq', hp'⟩ := sjf_tick_waiting hi hp hq hlt
      exact ⟨Sys.work_pos_of_mem hi hp, t', hex, hw,
        hp'.imp (⟨·, hq'⟩) fun hp' => ⟨hi', hp', hq', hl ▸ hlt⟩⟩)
    ⟨hi, hp, hq, hlt⟩

theorem queueInv_threeJobs : QueueInv threeJobs :=
  ((queueInv_init.fork fresh_init (by decide) 0).fork (fresh_init.fork 5 0) (by decide) 0).fork
    ((fresh_init.fork 5 0).fork 2 0) (by decide) 0

theorem sjf_runs_shorter_first_threeJobs :
    ∃ k < threeJobs.work, ∃ s', Run sjfScheduler threeJobs (List.replicate (k + 1) .tick) s' ∧
      s'.current = some 1 ∧ 0 ∈ s'.readyqueue :=
  sjf_runs_shorter_first queueInv_threeJobs (by decide) (by decide) (by decide)

/-- SJF passes `x` over at the next tick: `current` can run, or a shorter process is ready. -/
def Sys.SjfPassesOver (s : Sys) (x : Nat) : Prop :=
  (∃ c, s.current = some c ∧ s.Runnable c) ∨ ∃ y ∈ s.readyqueue, s.lifespan y < s.lifespan x

instance (s : Sys) (x : Nat) : Decidable (s.SjfPassesOver x) :=
  decidable_of_iff ((s.current.any fun c => decide (s.Runnable c)) ∨
      ∃ y ∈ s.readyqueue, s.lifespan y < s.lifespan x) <| by
    cases h : s.current <;> simp [Sys.SjfPassesOver, h]

/-- The step lemma of SJF starvation: from an invariant state with fresh fork ids, an operation
that succeeds, a tick only while SJF passes `x` over, leaves the ready process `x` waiting with
its age. -/
theorem sjf_exec_passes_over {op : Op} {x : Nat} (hi : QueueInv s) (hf : Fresh s)
    (hx : x ∈ s.readyqueue) (hg : op = .tick → s.SjfPassesOver x)
    (h : exec sjfScheduler s op = .ok s') : x ∈ s'.readyqueue ∧ s'.age x = s.age x := by
  cases op with
  | fork l pr =>
    cases h
    exact ⟨List.mem_append_left _ hx, by simp [Function.update_noteq (hf.lt_of_mem_ready hi hx).ne]⟩
  | tick =>
    obtain ⟨n, t, hs, rfl⟩ := exec_tick_ok h
    -- the tick runs a runnable `current` or the shortest ready process, which is not `x`
    obtain ⟨z, rfl, hzx, hxt, hta⟩ : ∃ z, n = some z ∧ x ≠ z ∧ x ∈ t.readyqueue ∧ t.age = s.age := by
      by_cases hrun : ∃ c, s.current = some c ∧ s.Runnable c
      · obtain ⟨c, hc, hcr⟩ := hrun
        cases (congrArg Except.ok (Sys.runToCompletion_keep hc hcr)).symm.trans hs
        exact ⟨c, rfl, fun h => hi.not_mem_ready_of_current hc (h ▸ hx), hx, rfl⟩
      · obtain ⟨y, hy, hyx⟩ := (hg rfl).resolve_left hrun
        have ht := (congrArg Except.ok (Sys.runToCompletion_pick fun c h hr => hrun ⟨c, h, hr⟩)).symm.trans hs
        obtain ⟨h₀, rest, hr⟩ := List.exists_cons_of_ne_nil (List.ne_nil_of_mem hx)
        have hmin : s.EarliestMin s.lifespan
            (scanFirst (fun a b => decide (s.lifespan a < s.lifespan b)) h₀ rest) :=
          Sys.earliestMin_scanFirst hr
        simp only [Sys.pickShortest, hr, Except.ok.injEq, Prod.mk.injEq] at ht
        obtain ⟨rfl, rfl⟩ := ht
        have hzx : x ≠ scanFirst (fun a b => decide (s.lifespan a < s.lifespan b)) h₀ rest :=
          fun h => by have := hmin.1 y hy; rw [← h] at this; omega
        exact ⟨_, rfl, hzx, (List.mem_erase_of_ne hzx).2 hx, rfl⟩
    exact ⟨hxt, by simp only [Sys.dispatch_age, Function.update_noteq hzx, hta]⟩
  | acquire r =>
    obtain ⟨b, ha⟩ := exec_acquire_ok h
    obtain ⟨-, -, rfl⟩ | ⟨-, c, -, -, -, rfl⟩ := fcfsAcquire_ok ha
    exacts [⟨hx, rfl⟩, ⟨hx, rfl⟩]
  | release r =>
    obtain ⟨-, hw⟩ := fcfsRelease_ok h
    rcases Sys.wakeWaiter_ok hw with ⟨-, rfl⟩ | ⟨v, -, -, hvb, rfl⟩
    · exact ⟨hx, rfl⟩
    -- the woken process was BLOCKED, and `x` is READY
    have hxv : x ≠ v := fun h => by
      have := (hi.runnable_of_mem_ready hx).1
      rw [h] at this
      exact absurd (this.symm.trans hvb) nofun
    exact ⟨by simp [List.mem_erase_of_ne hxv, hx], by simp [Function.update_noteq hxv]⟩

/-- SJF lets a long job starve: along every run from an invariant state with fresh fork ids, a
ready process stays in the ready queue and never runs while every tick is issued with a runnable
`current` or a shorter process ready. -/
theorem sjf_longer_waits {x : Nat} {ops : List Op} (hi : QueueInv s) (hf : Fresh s)
    (hx : x ∈ s.readyqueue) (hrun : Run sjfScheduler s ops s')
    (hpass : ∀ ops₁ ops₂ t, ops = ops₁ ++ .tick :: ops₂ → Run sjfScheduler s ops₁ t →
      t.SjfPassesOver x) :
    x ∈ s'.readyqueue ∧ s'.age x = s.age x :=
  (Run.invariant_of_guard (fun t => (QueueInv t ∧ Fresh t) ∧ x ∈ t.readyqueue ∧ t.age x = s.age x)
    (fun t op => op = .tick → t.SjfPassesOver x)
    (fun _ _ _ ⟨⟨hi, hf⟩, hx, ha⟩ hg hen h =>
      ⟨@fcfs_exec_queueInv 0 _ _ .sjf (.inr rfl) _ hi hf hen h,
        (sjf_exec_passes_over hi hf hx hg h).imp_right (·.trans ha)⟩)
    hrun (fun ops₁ _ ops₂ t he hr hop => hpass ops₁ ops₂ t (hop ▸ he) hr) ⟨⟨hi, hf⟩, hx, rfl⟩).2

/-- From `threeJobs`, process 1 runs to its end, a job of lifespan 2 arrives, and process 2 and
the new job run while process 0, of lifespan 5, waits. -/
def shortArrivalOps : List Op := [.tick, .tick, .fork 2 0, .tick, .tick, .tick, .tick]

theorem sjf_longer_waits_threeJobs :
    ∃ s', Run sjfScheduler threeJobs shortArrivalOps s' ∧ 0 ∈ s'.readyqueue ∧ s'.age 0 = 0 :=
  let ⟨_, hrun⟩ : ∃ s', Run sjfScheduler threeJobs shortArrivalOps s' := ⟨_, run_of_runOps rfl⟩
  ⟨_, hrun, sjf_longer_waits queueInv_threeJobs ((fresh_init.fork 5 0).fork 2 0 |>.fork 2 0)
    (by decide) hrun
    (ticksFrom_ticks (rfl : ticksFrom sjfScheduler (fun t => decide (t.SjfPassesOver 0)) threeJobs
      shortArrivalOps = true))⟩

end Sjf

theorem Chooses.ne_of_beaten {beats : Nat → Nat → Prop} {x : Nat} (hi : QueueInv s)
    (h : Chooses s beats x) (hp : p ∈ s.readyqueue) (hq : q ∈ s.readyqueue) (hpq : beats p q) :
    x ≠ q := by
  rintro rfl
  cases h with
  | current hc _ _ => exact hi.not_mem_ready_of_current hc hq
  | ready hnb _ _ => exact hnb p hp hpq

/-- While `p` beats a waiting `q`, a `schedule` that selects by `beats` leaves `q` waiting, and
`p` waiting or chosen. -/
theorem Selects.keeps_beaten {beats : Nat → Nat → Prop} (hi : QueueInv s)
    (h : Selects s beats n s') (hp : p ∈ s.readyqueue) (hq : q ∈ s.readyqueue) (hpq : beats p q) :
    q ∈ s'.readyqueue ∧ (n = some p ∨ p ∈ s'.readyqueue) := by
  obtain ⟨hspec, x, rfl, hch⟩ := h
  refine ⟨hspec.keeps_unchosen hq (hch.ne_of_beaten hi hp hq hpq), ?_⟩
  by_cases hxp : x = p
  · exact .inl (hxp ▸ rfl)
  · exact .inr (hspec.keeps_unchosen hp hxp)

/-- Some ready process, or a runnable `current`, has a higher `prio` than `x`. -/
def Sys.Outranked (s : Sys) (x : Nat) : Prop :=
  (∃ y ∈ s.readyqueue, s.prio x < s.prio y) ∨
    ∃ c, s.current = some c ∧ s.Runnable c ∧ s.prio x < s.prio c

instance (s : Sys) (x : Nat) : Decidable (s.Outranked x) :=
  decidable_of_iff ((∃ y ∈ s.readyqueue, s.prio x < s.prio y) ∨
      s.current.any fun c => decide (s.Runnable c ∧ s.prio x < s.prio c)) <| by
    cases h : s.current <;> simp [Sys.Outranked, h]

theorem Chooses.ne_of_outranked {x z : Nat} (hi : QueueInv s)
    (h : Chooses s (fun a b => s.prio b < s.prio a) z) (hx : x ∈ s.readyqueue)
    (ho : s.Outranked x) : z ≠ x := by
  rintro rfl
  cases h with
  | current hc _ _ => exact hi.not_mem_ready_of_current hc hx
  | ready hnb _ hcur =>
    rcases ho with ⟨y, hy, hlt⟩ | ⟨c, hc, hr, hlt⟩
    exacts [hnb y hy hlt, hcur c hc hr hlt]

section Stcf

/-- The step lemma of STCF: from an invariant state with a READY `current`, while `p` and a process
`q` of more remaining time wait, a tick spends one unit of the work left, keeps the invariant with
a READY `current`, leaves `q` waiting with its remaining time, and `p` waiting with its remaining
time or running. -/
theorem stcf_tick_waiting (hi : QueueInv s) (hb : ∀ c, s.current = some c → s.status c = .ready)
    (hp : p ∈ s.readyqueue) (hq : q ∈ s.readyqueue) (hlt : s.remaining p < s.remaining q) :
    ∃ s', exec stcfScheduler s .tick = .ok s' ∧ s'.work = s.work - 1 ∧ QueueInv s' ∧
      (∀ c, s'.current = some c → s'.status c = .ready) ∧
      q ∈ s'.readyqueue ∧ s'.remaining q = s.remaining q ∧
      (s'.current = some p ∨ p ∈ s'.readyqueue ∧ s'.remaining p = s.remaining p) := by
  obtain ⟨h₀, rest, hr⟩ := List.exists_cons_of_ne_nil (List.ne_nil_of_mem hp)
  obtain ⟨n, t, hs⟩ : ∃ n t, stcfSchedule s = .ok (n, t) :=
    schedule_ok .stcf 0 (List.ne_nil_of_mem hp)
  have hsel := stcfSchedule_selects hi hb hr hs
  have htr : t.remaining = s.remaining := by
    obtain ⟨hq, -⟩ := stcfSchedule_requeued hs
    exact funext fun a => by simp only [Sys.remaining, hq.lifespan, hq.age]
  obtain ⟨hq', hp'⟩ := hsel.keeps_beaten hi hp hq hlt
  obtain ⟨x, rfl, hch⟩ := hsel.2
  have hxq := hch.ne_of_beaten hi hp hq hlt
  refine ⟨t.dispatch (some x), by simp only [exec, stcfScheduler, hs], (hsel.1.work_dispatch hi).1,
    hsel.1.queueInv hi, hsel.1.dispatch_ready hi, hq',
    by rw [Sys.remaining_dispatch_of_ne (Ne.symm hxq), htr], ?_⟩
  rcases hp' with hxp | hp'
  · exact .inl (by rw [Sys.dispatch_current, hxp])
  · by_cases hxp : x = p
    · exact .inl (by rw [Sys.dispatch_current, hxp])
    · exact .inr ⟨hp', by rw [Sys.remaining_dispatch_of_ne (Ne.symm hxp), htr]⟩

/-- STCF runs a job of less remaining time first: with only ticks, from an invariant state whose
`current` is READY, of two ready processes the one of less remaining time starts to run within the
work left, while the other still waits. -/
theorem stcf_runs_less_remaining_first (hi : QueueInv s)
    (hb : ∀ c, s.current = some c → s.status c = .ready) (hp : p ∈ s.readyqueue)
    (hq : q ∈ s.readyqueue) (hlt : s.remaining p < s.remaining q) :
    ∃ k < s.work, ∃ s', Run stcfScheduler s (List.replicate (k + 1) .tick) s' ∧
      s'.current = some p ∧ q ∈ s'.readyqueue :=
  ticks_reach_of_step (fun t => QueueInv t ∧ (∀ c, t.current = some c → t.status c = .ready) ∧
      p ∈ t.readyqueue ∧ q ∈ t.readyqueue ∧ t.remaining p < t.remaining q) _
    (fun t ⟨hi, hb, hp, hq, hlt⟩ => by
      obtain ⟨t', hex, hw, hi', hb', hq', hrq, hp'⟩ := stcf_tick_waiting hi hb hp hq hlt
      exact ⟨Sys.work_pos_of_mem hi hp, t', hex, hw,
        hp'.imp (⟨·, hq'⟩) fun ⟨hp', hrp⟩ => ⟨hi', hb', hp', hq', by rw [hrp, hrq]; exact hlt⟩⟩)
    ⟨hi, hb, hp, hq, hlt⟩

theorem stcf_runs_less_remaining_first_threeJobs :
    ∃ k < threeJobs.work, ∃ s', Run stcfScheduler threeJobs (List.replicate (k + 1) .tick) s' ∧
      s'.current = some 1 ∧ 0 ∈ s'.readyqueue :=
  stcf_runs_less_remaining_first queueInv_threeJobs (fun _ h => nomatch h) (by decide) (by decide)
    (by decide)

end Stcf

/-- A process of `prio` 0 forked ahead of one of `prio` 5, neither run yet. -/
def prioPair : Sys := (Sys.init.fork 3 0).fork 3 5

theorem queueInv_prioPair : QueueInv prioPair :=
  (queueInv_init.fork fresh_init (by decide) 0).fork (fresh_init.fork 3 0) (by decide) 5

section PriorityOrder

variable (pol : Policy) (hpol : pol = .prio ∨ pol = .pcp ∨ pol = .pip) (maxPrio : Nat)
include hpol

/-- Priority, PCP and PIP select by `prio` while a process is ready, from an invariant state whose
`current` is READY under PCP. -/
theorem prio_selects {t : Sys} {h₀ : Nat} {rest : List Nat} (hi : QueueInv s)
    (hb : pol = .pcp → ∀ c, s.current = some c → s.status c = .ready)
    (hr : s.readyqueue = h₀ :: rest) (hs : (pol.scheduler maxPrio).schedule s = .ok (n, t)) :
    Selects s (fun a b => s.prio b < s.prio a) n t := by
  rcases hpol with rfl | rfl | rfl
  exacts [prioSchedule_selects hi hr hs, pcpSchedule_selects (hb rfl) hr hs,
    pipSchedule_selects hr hs]

/-- The step lemma of Priority, PCP and PIP, in the form `ticks_reach_of_step` takes: from an
invariant state, whose `current` is READY under PCP, while `p` and a process `q` of lower `prio`
wait, a tick spends one unit of the work left and runs `p` with `q` still waiting, or leaves both
waiting in such a state. -/
theorem prio_tick_waiting (t : Sys)
    (ht : QueueInv t ∧ (pol = .pcp → ∀ c, t.current = some c → t.status c = .ready) ∧
      p ∈ t.readyqueue ∧ q ∈ t.readyqueue ∧ t.prio q < t.prio p) :
    0 < t.work ∧ ∃ t', exec (pol.scheduler maxPrio) t .tick = .ok t' ∧ t'.work = t.work - 1 ∧
      ((t'.current = some p ∧ q ∈ t'.readyqueue) ∨
        (QueueInv t' ∧ (pol = .pcp → ∀ c, t'.current = some c → t'.status c = .ready) ∧
          p ∈ t'.readyqueue ∧ q ∈ t'.readyqueue ∧ t'.prio q < t'.prio p)) := by
  obtain ⟨hi, hb, hp, hq, hlt⟩ := ht
  obtain ⟨h₀, rest, hr⟩ := List.exists_cons_of_ne_nil (List.ne_nil_of_mem hp)
  obtain ⟨n, u, hs⟩ := schedule_ok pol maxPrio (List.ne_nil_of_mem hp)
  have hsel := prio_selects pol hpol maxPrio hi hb hr hs
  have hprio : u.prio = t.prio :=
    schedule_prio pol (by rcases hpol with rfl | rfl | rfl <;> decide) hs
  obtain ⟨hq', hp'⟩ := hsel.keeps_beaten hi hp hq hlt
  refine ⟨Sys.work_pos_of_mem hi hp, u.dispatch n, by simp only [exec, hs],
    (hsel.1.work_dispatch hi).1, ?_⟩
  rcases hp' with rfl | hp'
  · exact .inl ⟨rfl, hq'⟩
  · exact .inr ⟨hsel.1.queueInv hi, fun _ => hsel.1.dispatch_ready hi, hp', hq',
      by simpa only [Sys.dispatch_prio, hprio] using hlt⟩

/-- Priority, PCP and PIP run a higher-priority process first: with only ticks, from an invariant
state, whose `current` is READY under PCP, of two ready processes the one of higher `prio` starts
to run within the work left, while the other still waits. -/
theorem prio_runs_higher_first (hi : QueueInv s)
    (hb : pol = .pcp → ∀ c, s.current = some c → s.status c = .ready)
    (hp : p ∈ s.readyqueue) (hq : q ∈ s.readyqueue) (hlt : s.prio q < s.prio p) :
    ∃ k < s.work, ∃ s', Run (pol.scheduler maxPrio) s (List.replicate (k + 1) .tick) s' ∧
      s'.current = some p ∧ q ∈ s'.readyqueue :=
  ticks_reach_of_step _ _ (prio_tick_waiting pol hpol maxPrio) ⟨hi, hb, hp, hq, hlt⟩

end PriorityOrder

theorem prio_runs_higher_first_prioPair :
    ∃ k < prioPair.work, ∃ s', Run (Policy.pip.scheduler 0) prioPair (List.replicate (k + 1) .tick) s' ∧
      s'.current = some 1 ∧ 0 ∈ s'.readyqueue :=
  prio_runs_higher_first .pip (.inr (.inr rfl)) 0 queueInv_prioPair
    (fun h => nomatch h) (by decide) (by decide) (by decide)

section Starvation

variable (pol : Policy) (hpol : pol = .prio ∨ pol = .pcp ∨ pol = .pip) (maxPrio : Nat)
include hpol

/-- The step lemma of starvation: a tick of Priority, PCP or PIP from an invariant state with a
READY `current`, issued while `x` waits outranked, runs another process and leaves `x` waiting
with its age. -/
theorem prio_tick_outranked {x : Nat} (hi : QueueInv s)
    (hb : ∀ c, s.current = some c → s.status c = .ready) (hx : x ∈ s.readyqueue)
    (ho : s.Outranked x) (h : exec (pol.scheduler maxPrio) s .tick = .ok s') :
    x ∈ s'.readyqueue ∧ s'.age x = s.age x := by
  obtain ⟨n, t, hs, rfl⟩ := exec_tick_ok h
  obtain ⟨_, _, hr⟩ := List.exists_cons_of_ne_nil (List.ne_nil_of_mem hx)
  obtain ⟨hspec, z, rfl, hch⟩ := prio_selects pol hpol maxPrio hi (fun _ => hb) hr hs
  have hzx := hch.ne_of_outranked hi hx ho
  exact ⟨hspec.keeps_unchosen hx hzx,
    by simp only [Sys.dispatch_age, Function.update_noteq (Ne.symm hzx), hspec.age_eq]⟩

/-- Priority, PCP and PIP let a process starve: along ticks and forks from an invariant state
with a READY `current`, a ready process that some ready process or runnable `current` outranks
at every tick stays in the ready queue and never runs. -/
theorem prio_outranked_waits {x : Nat} {ops : List Op}
    (hops : ∀ op ∈ ops, op = .tick ∨ ∃ l pr, op = .fork l pr) (hi : QueueInv s) (hf : Fresh s)
    (hb : ∀ c, s.current = some c → s.status c = .ready) (hx : x ∈ s.readyqueue)
    (hrun : Run (pol.scheduler maxPrio) s ops s')
    (hout : ∀ ops₁ ops₂ t, ops = ops₁ ++ .tick :: ops₂ →
      Run (pol.scheduler maxPrio) s ops₁ t → t.Outranked x) :
    x ∈ s'.readyqueue ∧ s'.age x = s.age x := by
  have hsch : ∀ t : Sys, QueueInv t → (∀ c, t.current = some c → t.status c = .ready) →
      ∀ n u, (pol.scheduler maxPrio).schedule t = .ok (n, u) → ScheduleSpec t n u := by
    rcases hpol with rfl | rfl | rfl
    exacts [fun _ hi hb _ _ => prioSchedule_spec hi fun _ => hb,
      fun _ _ hb _ _ => pcpSchedule_spec hb, fun _ _ hb _ _ => pipSchedule_spec fun _ => hb]
  refine (Run.invariant_of_guard (fun t => (QueueInv t ∧ Fresh t ∧
      ∀ c, t.current = some c → t.status c = .ready) ∧ x ∈ t.readyqueue ∧ t.age x = s.age x)
    (fun t op => (op = .tick ∨ ∃ l pr, op = .fork l pr) ∧ (op = .tick → t.Outranked x)) ?_ hrun
    (fun ops₁ op ops₂ t he hr => ⟨hops op (he ▸ List.mem_append_right _ (List.mem_cons_self _ _)),
      fun hop => hout ops₁ ops₂ t (hop ▸ he) hr⟩) ⟨⟨hi, hf, hb⟩, hx, rfl⟩).2
  rintro t op t' ⟨⟨hi, hf, hb⟩, hx, ha⟩ ⟨hop, ho⟩ hen h
  refine ⟨exec_keeps_ready hop (hsch t hi hb) hi hf hb hen h, ?_⟩
  rcases hop with rfl | ⟨l, pr, rfl⟩
  · exact (prio_tick_outranked pol hpol maxPrio hi hb hx (ho rfl) h).imp_right (·.trans ha)
  · cases h
    rw [Sys.fork_readyqueue, Sys.fork_age, Function.update_noteq (hf.lt_of_mem_ready hi hx).ne, ha]
    exact ⟨List.mem_append_left _ hx, rfl⟩

end Starvation

/-- From `prioPair`, process 1 runs two ticks, a third process of `prio` 5 arrives, and the two
run out their lifespans while process 0 waits. -/
def starveOps : List Op := [.tick, .tick, .fork 3 5, .tick, .tick, .tick, .tick]

theorem prio_outranked_waits_prioPair :
    ∃ s', Run (Policy.prio.scheduler 0) prioPair starveOps s' ∧ 0 ∈ s'.readyqueue ∧
      s'.age 0 = 0 :=
  let ⟨_, hrun⟩ : ∃ s', Run (Policy.prio.scheduler 0) prioPair starveOps s' :=
    ⟨_, run_of_runOps rfl⟩
  ⟨_, hrun, prio_outranked_waits .prio (.inl rfl) 0 (by simp [starveOps]) queueInv_prioPair
    ((fresh_init.fork 3 0).fork 3 5) (fun _ h => nomatch h) (by decide) hrun
    (ticksFrom_ticks (rfl : ticksFrom (Policy.prio.scheduler 0) (fun t => decide (t.Outranked 0))
      prioPair starveOps = true))⟩

section Inheritance

variable {h o m r : Nat}

/-- Blocking `current` takes its remaining time out of the work left: a state where `current` is
BLOCKED, with the same ready queue and remaining times, has no more work left. -/
theorem Sys.work_le_of_block {t : Sys} (htc : t.current = some h) (hts : t.status h = .blocked)
    (htr : t.readyqueue = s.readyqueue) (htl : t.remaining = s.remaining) : t.work ≤ s.work := by
  have hnr : ∀ c, t.current = some c → ¬ t.Runnable c := fun c hc' hr' => by
    cases htc.symm.trans hc'
    exact absurd (hr'.1.symm.trans hts) nofun
  rw [Sys.work_of_not_runnable hnr, htr, Sys.remainingSum_congr fun q _ => congrFun htl q, Sys.work]
  omega

/-- PIP bounds priority inversion: when the READY `current` `h`, with lifetime left, blocks on a
resource held by a ready process `o`, the raise of `pip_acquire` makes `o` run ahead of every
other ready process of lower `prio` than `h`, within the work left. -/
theorem pip_owner_runs_before_lower (hi : QueueInv s) (hc : s.current = some h) (hr : s.Runnable h)
    (ho : s.owner r = some o) (hor : o ∈ s.readyqueue) (hm : m ∈ s.readyqueue) (hmo : m ≠ o)
    (hlt : s.prio m < s.prio h) :
    ∃ k < s.work, ∃ s', Run pipScheduler s (.acquire r :: List.replicate (k + 1) .tick) s' ∧
      s'.current = some o ∧ m ∈ s'.readyqueue := by
  -- `pip_acquire` raises `o` to `prio h` when it is below, then blocks `h` on `r`
  obtain ⟨u, hu⟩ : ∃ u, u = if s.prio o < s.prio h then s.setPrio o (s.prio h) else s := ⟨_, rfl⟩
  have hrep : Repriced s u ∧ u.prio m = s.prio m ∧ s.prio h ≤ u.prio o := by
    rw [hu]
    split_ifs with hoh
    · exact ⟨Repriced.setPrio s o _, by simp [Function.update_noteq hmo], by simp⟩
    · exact ⟨rfl, rfl, not_lt.1 hoh⟩
  have hq := hrep.1.requeued
  have hacq : pipAcquire s r = .ok (false, ((u.listDelInit h).setStatus h .blocked).enqueueWait r h) := by
    simp only [pipAcquire, ho, hc, hu]
  have htr : (((u.listDelInit h).setStatus h .blocked).enqueueWait r h).readyqueue =
      s.readyqueue := by
    simp only [Sys.enqueueWait_readyqueue, Sys.setStatus_readyqueue, Sys.listDelInit_readyqueue]
    rw [hrep.1]
    exact List.erase_of_not_mem (hi.not_mem_ready_of_current hc)
  have hw := Sys.work_le_of_block (t := ((u.listDelInit h).setStatus h .blocked).enqueueWait r h)
    (hq.current.trans hc) (by simp) htr (funext fun q => by
    simp only [Sys.remaining, Sys.enqueueWait_lifespan, Sys.setStatus_lifespan,
      Sys.listDelInit_lifespan, Sys.enqueueWait_age, Sys.setStatus_age, Sys.listDelInit_age,
      hq.lifespan, hq.age])
  obtain ⟨k, hk, s', hrun, hq⟩ := ticks_reach_of_step _ _
    (prio_tick_waiting .pip (.inr (.inr rfl)) 0 (p := o) (q := m))
    ⟨@acquire_queueInv 0 _ _ .pip (by decide) _ _ _ hi hc hr hacq, (fun h => nomatch h),
      htr ▸ hor, htr ▸ hm,
      by simp only [Sys.enqueueWait_prio, Sys.setStatus_prio, Sys.listDelInit_prio]; omega⟩
  exact ⟨k, by omega, s', .cons (by simp [Op.enabled, hc, hr.1, hr.2])
    (by simp only [exec, pipScheduler, hacq]) hrun, hq⟩

/-- Priority has no inheritance: when the READY `current` `h`, with lifetime left, blocks on a
resource held by a ready process `o`, any ready process of higher `prio` than `o` runs while `o`
still waits, whatever the `prio` of `h`. -/
theorem prio_owner_overtaken (hi : QueueInv s) (hc : s.current = some h) (hr : s.Runnable h)
    (ho : s.owner r = some o) (hor : o ∈ s.readyqueue) (hm : m ∈ s.readyqueue)
    (hlt : s.prio o < s.prio m) :
    ∃ k < s.work, ∃ s', Run prioScheduler s (.acquire r :: List.replicate (k + 1) .tick) s' ∧
      s'.current = some m ∧ o ∈ s'.readyqueue := by
  have hacq : prioAcquire s r =
      .ok (false, ((s.listDelInit h).enqueueWait r h).setStatus h .blocked) := by
    simp only [prioAcquire, ho, hc]
  have htr : (((s.listDelInit h).enqueueWait r h).setStatus h .blocked).readyqueue =
      s.readyqueue := List.erase_of_not_mem (hi.not_mem_ready_of_current hc)
  have hw := Sys.work_le_of_block (t := ((s.listDelInit h).enqueueWait r h).setStatus h .blocked)
    hc (by simp) htr (funext fun _ => rfl)
  obtain ⟨k, hk, s', hrun, hq⟩ := ticks_reach_of_step _ _
    (prio_tick_waiting .prio (.inl rfl) 0 (p := m) (q := o))
    ⟨@acquire_queueInv 0 _ _ .prio (by decide) _ _ _ hi hc hr hacq, (fun h => nomatch h),
      htr ▸ hm, htr ▸ hor, hlt⟩
  exact ⟨k, by omega, s', .cons (by simp [Op.enabled, hc, hr.1, hr.2])
    (by simp only [exec, prioScheduler, hacq]) hrun, hq⟩

/-- Process 0, of `prio` 1, owns resource 0 and waits in the ready queue behind process 1, of
`prio` 2, while process 2, of `prio` 5, runs: the run of PIP that leads there, the same under
Priority. -/
def lowOwnerOps : List Op :=
  [.fork 10 1, .tick, .acquire 0, .fork 10 2, .fork 10 5, .tick]

def lowOwner : Sys := (runOps pipScheduler Sys.init lowOwnerOps).getD Sys.init

theorem queueInv_lowOwner : QueueInv lowOwner :=
  (prio_reachable_queueInv .pip (.inr rfl)
    (run_of_runOps (rfl : runOps (Policy.pip.scheduler 0) Sys.init lowOwnerOps = _))
    (ticksFrom_ticks
      (rfl : ticksFrom pipScheduler (fun t => decide t.Schedulable) Sys.init lowOwnerOps = true))).1

theorem pip_owner_runs_before_lower_lowOwner :
    ∃ k < lowOwner.work, ∃ s',
      Run pipScheduler lowOwner (.acquire 0 :: List.replicate (k + 1) .tick) s' ∧
      s'.current = some 0 ∧ 1 ∈ s'.readyqueue :=
  pip_owner_runs_before_lower queueInv_lowOwner (rfl : lowOwner.current = some 2) (by decide) rfl
    (by decide) (by decide) (by decide) (by decide)

theorem prio_owner_overtaken_lowOwner :
    ∃ k < lowOwner.work, ∃ s',
      Run prioScheduler lowOwner (.acquire 0 :: List.replicate (k + 1) .tick) s' ∧
      s'.current = some 1 ∧ 0 ∈ s'.readyqueue :=
  prio_owner_overtaken queueInv_lowOwner (rfl : lowOwner.current = some 2) (by decide) rfl
    (by decide) (by decide) (by decide)

end Inheritance

section Ceiling

variable {maxPrio c r : Nat}

/-- PCP keeps a `current` with lifetime left whose `prio` is above every ready process. -/
theorem pcpSchedule_keep (hc : s.current = some c) (ha : s.age c < s.lifespan c)
    (hall : ∀ q ∈ s.readyqueue, s.prio q < s.prio c) : pcpSchedule s = .ok (some c, s) := by
  unfold pcpSchedule
  split
  · simp only [Sys.keepCurrent, hc, ha, if_true]
  · next p ps hr =>
    simp only [hc, ha, if_true, if_neg (not_le.2 (hall _ (hr ▸ scanFirst_mem _ _ _)))]

/-- Ticks under PCP from such a state only age `current`, for as long as it has lifetime left. -/
theorem pcp_ticks_keep (hc : s.current = some c) (hall : ∀ q ∈ s.readyqueue, s.prio q < s.prio c) :
    ∀ k ≤ s.lifespan c - s.age c, ∃ t, Run (pcpScheduler maxPrio) s (List.replicate k .tick) t ∧
      t.current = some c ∧ t.readyqueue = s.readyqueue ∧ t.prio = s.prio ∧ t.owner = s.owner ∧
      t.lifespan = s.lifespan ∧ t.status = s.status ∧ t.waitqueue = s.waitqueue ∧
      t.age c = s.age c + k := by
  intro k hk
  induction k generalizing s with
  | zero => exact ⟨s, .nil s, hc, rfl, rfl, rfl, rfl, rfl, rfl, rfl⟩
  | succ k ih =>
    have hex : exec (pcpScheduler maxPrio) s .tick = .ok (s.dispatch (some c)) := by
      simp only [exec, pcpScheduler, pcpSchedule_keep hc (by omega) hall]
    obtain ⟨t, hrun, htc, htr, htp, hto, htl, hts, htw, hta⟩ :=
      ih (s := s.dispatch (some c)) rfl hall (by simp only [Sys.dispatch_lifespan,
        Sys.dispatch_age, Function.update_same]; omega)
    refine ⟨t, .cons rfl hex hrun, htc, htr, htp, hto, htl, hts, htw, ?_⟩
    simp only [hta, Sys.dispatch_age, Function.update_same]
    omega

/-- PCP lets a process run unpreempted once its request is granted: a READY `current` with
lifetime left that acquires a free resource, with every ready process below `MAX_PRIO`, then
keeps the CPU, the resource and the ready queue through each of its remaining ticks. -/
theorem pcp_grant_runs_unpreempted (hi : QueueInv s) (hc : s.current = some c)
    (hst : s.status c = .ready) (ha : s.age c < s.lifespan c) (hfree : s.owner r = none)
    (hbelow : ∀ q ∈ s.readyqueue, s.prio q < maxPrio) :
    ∀ k ≤ s.lifespan c - s.age c, ∃ t,
      Run (pcpScheduler maxPrio) s (.acquire r :: List.replicate k .tick) t ∧
      t.current = some c ∧ t.owner r = some c ∧ t.readyqueue = s.readyqueue ∧
      t.age c = s.age c + k := by
  intro k hk
  have hen : (Op.acquire r).enabled s = true := by simp [Op.enabled, hc, hst, ha]
  have hex : exec (pcpScheduler maxPrio) s (.acquire r) =
      .ok ((s.setOwner r (some c)).setPrio c maxPrio) := by
    simp only [exec, pcpScheduler, pcpAcquire, hfree, hc]
  have hall : ∀ q ∈ s.readyqueue, ((s.setOwner r (some c)).setPrio c maxPrio).prio q <
      ((s.setOwner r (some c)).setPrio c maxPrio).prio c := fun q hq => by
    have hqc : q ≠ c := fun h => hi.not_mem_ready_of_current hc (h ▸ hq)
    simpa [Function.update_noteq hqc] using hbelow q hq
  obtain ⟨t, hrun, htc, htr, -, hto, -, -, -, hta⟩ :=
    pcp_ticks_keep (s := (s.setOwner r (some c)).setPrio c maxPrio) hc hall k (by simpa using hk)
  exact ⟨t, .cons hen hex hrun, htc, by simp [hto], htr, by simpa using hta⟩

/-- A state reached under FCFS: process 0, of `prio` 2, has run one tick of its three, and
process 1, of `prio` 1, waits in the ready queue. -/
def pcpGrant : Sys := (runOps fcfsScheduler Sys.init [.fork 3 2, .tick, .fork 3 1]).getD Sys.init

theorem pcpGrant_inv : QueueInv pcpGrant ∧ Fresh pcpGrant :=
  fcfs_reachable_queueInv .fcfs (.inl rfl)
    (⟨[.fork 3 2, .tick, .fork 3 1], run_of_runOps rfl⟩ : Reachable (Policy.fcfs.scheduler 0) pcpGrant)

theorem pcp_grant_runs_unpreempted_pcpGrant :
    ∃ t, Run (pcpScheduler 5) pcpGrant (.acquire 0 :: List.replicate 2 .tick) t ∧
      t.current = some 0 ∧ t.owner 0 = some 0 ∧ t.readyqueue = [1] ∧ t.age 0 = 3 :=
  pcp_grant_runs_unpreempted pcpGrant_inv.1 rfl rfl (by decide) rfl (by decide) 2 (by decide)

end Ceiling

end CpuSched
