import CpuSched.Selection

/-! Progress along runs of ticks: every policy spends the work left in the system one unit per
tick until none is left, and Round-Robin runs its ready queue in order, one tick each. -/
namespace CpuSched

namespace Sys

/-- The time `p` still has to run. -/
def remaining (s : Sys) (p : Nat) : Nat := s.lifespan p - s.age p

/-- The remaining times of the processes of a queue, added up. -/
def remainingSum (s : Sys) : List Nat → Nat
  | [] => 0
  | p :: ps => s.remaining p + s.remainingSum ps

/-- The work left to run: the remaining time of every ready process, and of `current` while it
is READY. -/
def work (s : Sys) : Nat :=
  s.remainingSum s.readyqueue +
    match s.current with
    | some c => if s.status c = .ready then s.remaining c else 0
    | none => 0

variable {s : Sys} {p q c : Nat}

@[simp] theorem remaining_listDelInit (s : Sys) (p : Nat) :
    (s.listDelInit p).remaining = s.remaining := rfl

@[simp] theorem remaining_enqueueReady (s : Sys) (p : Nat) :
    (s.enqueueReady p).remaining = s.remaining := rfl

theorem remaining_dispatch_self (s : Sys) (p : Nat) :
    (s.dispatch (some p)).remaining p = s.remaining p - 1 := by
  simp only [remaining, dispatch_lifespan, dispatch_age, Function.update_same]
  omega

theorem remaining_dispatch_of_ne (h : q ≠ p) :
    (s.dispatch (some p)).remaining q = s.remaining q := by
  simp only [remaining, dispatch_lifespan, dispatch_age, Function.update_noteq h]

theorem remainingSum_congr {t : Sys} {l : List Nat} (h : ∀ q ∈ l, t.remaining q = s.remaining q) :
    t.remainingSum l = s.remainingSum l := by
  induction l with
  | nil => rfl
  | cons q l ih =>
    simp only [remainingSum, h q (List.mem_cons_self _ _),
      ih fun r hr => h r (List.mem_cons_of_mem _ hr)]

@[simp] theorem remainingSum_listDelInit (s : Sys) (p : Nat) (l : List Nat) :
    (s.listDelInit p).remainingSum l = s.remainingSum l := remainingSum_congr fun _ _ => rfl

@[simp] theorem remainingSum_enqueueReady (s : Sys) (p : Nat) (l : List Nat) :
    (s.enqueueReady p).remainingSum l = s.remainingSum l := remainingSum_congr fun _ _ => rfl

theorem remainingSum_append (l₁ l₂ : List Nat) :
    s.remainingSum (l₁ ++ l₂) = s.remainingSum l₁ + s.remainingSum l₂ := by
  induction l₁ with
  | nil => simp [remainingSum]
  | cons q l₁ ih => rw [List.cons_append, remainingSum, remainingSum, ih]; omega

theorem remainingSum_erase {l : List Nat} (hp : p ∈ l) :
    s.remainingSum l = s.remaining p + s.remainingSum (l.erase p) := by
  induction l with
  | nil => cases hp
  | cons q l ih =>
    by_cases hq : q = p
    · subst hq; rw [List.erase_cons_head]; rfl
    · rw [List.erase_cons_tail (by simpa using hq), remainingSum, remainingSum,
        ih ((List.mem_cons.1 hp).resolve_left (Ne.symm hq))]
      omega

theorem work_of_current (hc : s.current = some c) (hst : s.status c = .ready) :
    s.work = s.remainingSum s.readyqueue + s.remaining c := by
  simp [work, hc, hst]

/-- A `current` that cannot run is BLOCKED or has no time left, so only the ready queue
counts. -/
theorem work_of_not_runnable (hc : ∀ c, s.current = some c → ¬ s.Runnable c) :
    s.work = s.remainingSum s.readyqueue := by
  cases h : s.current with
  | none => simp [work, h]
  | some c =>
    cases hst : s.status c with
    | blocked => simp [work, h, hst]
    | ready =>
      have hl : s.lifespan c ≤ s.age c := not_lt.1 fun ha => hc c h ⟨hst, ha⟩
      rw [work_of_current h hst, remaining, Nat.sub_eq_zero_of_le hl, Nat.add_zero]

theorem work_dispatch_some (hp : p ∉ s.readyqueue) (hst : s.status p = .ready) :
    (s.dispatch (some p)).work = s.remainingSum s.readyqueue + (s.remaining p - 1) := by
  have hsum : (s.dispatch (some p)).remainingSum s.readyqueue = s.remainingSum s.readyqueue :=
    remainingSum_congr fun q hq => remaining_dispatch_of_ne fun h => hp (h ▸ hq)
  simp [work, hsum, hst, remaining_dispatch_self]

theorem work_dispatch_none (s : Sys) :
    (s.dispatch none).work = s.remainingSum s.readyqueue := by
  have h : (s.dispatch none).remainingSum s.readyqueue = s.remainingSum s.readyqueue :=
    remainingSum_congr fun _ _ => rfl
  simp [work, h]

theorem work_repriced {t : Sys} (h : Repriced s t) : t.work = s.work := by
  have hsum : Sys.remainingSum { s with prio := t.prio } s.readyqueue = s.remainingSum s.readyqueue :=
    remainingSum_congr fun _ _ => rfl
  rw [h]
  simp only [work, hsum]
  rfl

theorem readyqueue_eq_nil_of_work (hi : QueueInv s) (hw : s.work = 0) : s.readyqueue = [] := by
  refine List.eq_nil_iff_forall_not_mem.2 fun p hp => ?_
  have hpos : 0 < s.remaining p := Nat.sub_pos_of_lt (hi.runnable_of_mem_ready hp).2
  have hsum : s.remainingSum s.readyqueue = _ := remainingSum_erase hp
  simp only [work] at hw
  omega

end Sys

namespace ScheduleSpec

variable {s s' : Sys} {n : Option Nat}

/-- A tick after a `schedule` that meets the contract runs one unit of the work left, and runs
nothing only when no work is left. -/
theorem work_dispatch (hi : QueueInv s) (h : ScheduleSpec s n s') :
    (s'.dispatch n).work = s.work - 1 ∧ (n = none ↔ s.work = 0) := by
  cases h with
  | @keep c hc hr =>
    have hpos : 0 < s.remaining c := Nat.sub_pos_of_lt hr.2
    rw [Sys.work_dispatch_some (hi.not_mem_ready_of_current hc) hr.1, Sys.work_of_current hc hr.1]
    exact ⟨by omega, iff_of_false nofun (by omega)⟩
  | @detach p hp hc =>
    have hpos : 0 < s.remaining p := Nat.sub_pos_of_lt (hi.runnable_of_mem_ready hp).2
    rw [@Sys.work_dispatch_some (s.listDelInit p) p hi.ready_nodup.not_mem_erase
      (hi.runnable_of_mem_ready hp).1, Sys.work_of_not_runnable hc, Sys.remainingSum_erase hp]
    refine ⟨?_, iff_of_false nofun (by omega)⟩
    simp only [Sys.listDelInit_readyqueue, Sys.remainingSum_listDelInit, Sys.remaining_listDelInit]
    omega
  | @preempt c p hc hr hp =>
    have hpos : 0 < s.remaining p := Nat.sub_pos_of_lt (hi.runnable_of_mem_ready hp).2
    have hpc : p ≠ c := fun h => hi.not_mem_ready_of_current hc (h ▸ hp)
    have hq : ((s.enqueueReady c).listDelInit p).readyqueue = s.readyqueue.erase p ++ [c] := by
      simp only [Sys.listDelInit_readyqueue, Sys.enqueueReady_readyqueue,
        List.erase_append_left _ hp]
    have hp' : p ∉ ((s.enqueueReady c).listDelInit p).readyqueue := by
      rw [hq]; simp [hi.ready_nodup.not_mem_erase, hpc]
    rw [@Sys.work_dispatch_some _ p hp' (hi.runnable_of_mem_ready hp).1, Sys.work_of_current hc hr.1,
      Sys.remainingSum_erase hp, hq]
    refine ⟨?_, iff_of_false nofun (by omega)⟩
    simp only [Sys.remainingSum_append, Sys.remainingSum, Sys.remainingSum_listDelInit,
      Sys.remainingSum_enqueueReady, Sys.remaining_listDelInit, Sys.remaining_enqueueReady]
    omega
  | idle hr hc =>
    rw [Sys.work_dispatch_none, Sys.work_of_not_runnable hc, hr]
    exact ⟨rfl, iff_of_true rfl rfl⟩

theorem dispatch_ready (hi : QueueInv s) (h : ScheduleSpec s n s') :
    ∀ c, (s'.dispatch n).current = some c → (s'.dispatch n).status c = .ready := by
  intro c hc
  cases h with
  | keep _ hr => exact Option.some.inj hc ▸ hr.1
  | detach hp _ => exact Option.some.inj hc ▸ (hi.runnable_of_mem_ready hp).1
  | preempt _ _ hp => exact Option.some.inj hc ▸ (hi.runnable_of_mem_ready hp).1
  | idle => cases hc

end ScheduleSpec

section Ticks

variable {sch : Scheduler} {cmp : Sys → Sys} {s : Sys}

/-- A tick of a scheduler that meets the contract, from an invariant state with a READY
`current`, keeps the invariant and a READY `current`. -/
theorem tick_keeps_ready (hc : sch.MeetsContract cmp) (hi : QueueInv s)
    (hb : ∀ c, s.current = some c → s.status c = .ready) {s' : Sys}
    (h : exec sch s .tick = .ok s') : QueueInv s' ∧ ∀ c, s'.current = some c → s'.status c = .ready := by
  obtain ⟨n, t, hs, rfl⟩ := exec_tick_ok h
  have hspec := hc.2 s n t hi hb hs
  have hiu : QueueInv (cmp s) := by rw [hc.1 s]; exact hi.congr rfl rfl rfl rfl rfl rfl
  exact ⟨hspec.queueInv hiu, hspec.dispatch_ready hiu⟩

/-- One tick of a scheduler that meets the contract and aborts only on an empty ready queue with
no `current`, from an invariant state with a READY `current` and work left: it succeeds, runs
one unit of the work, and keeps the invariant and a READY `current`. -/
theorem tick_spends_work (hc : sch.MeetsContract cmp)
    (hf : ∀ s e, sch.schedule s = .error e → s.readyqueue = [] ∧ s.current = none)
    (hi : QueueInv s) (hb : ∀ c, s.current = some c → s.status c = .ready) (hw : 0 < s.work) :
    ∃ s', exec sch s .tick = .ok s' ∧ s'.work = s.work - 1 ∧ QueueInv s' ∧
      ∀ c, s'.current = some c → s'.status c = .ready := by
  cases hs : sch.schedule s with
  | error e =>
    obtain ⟨hr, hn⟩ := hf s e hs
    simp [Sys.work, Sys.remainingSum, hr, hn] at hw
  | ok r =>
    obtain ⟨n, t⟩ := r
    have hspec := hc.2 s n t hi hb hs
    have hiu : QueueInv (cmp s) := by rw [hc.1 s]; exact hi.congr rfl rfl rfl rfl rfl rfl
    have hwu : (cmp s).work = s.work := Sys.work_repriced (hc.1 s)
    refine ⟨t.dispatch n, by simp only [exec, hs], ?_, hspec.queueInv hiu,
      hspec.dispatch_ready hiu⟩
    rw [← hwu]
    exact (hspec.work_dispatch hiu).1

/-- The run lemma: such a scheduler runs `k` ticks for every `k` up to the work left, each
running one unit of it. -/
theorem ticks_spend_work (hc : sch.MeetsContract cmp)
    (hf : ∀ s e, sch.schedule s = .error e → s.readyqueue = [] ∧ s.current = none)
    (hi : QueueInv s) (hb : ∀ c, s.current = some c → s.status c = .ready) {k : Nat}
    (hk : k ≤ s.work) :
    ∃ s', Run sch s (List.replicate k .tick) s' ∧ s'.work = s.work - k ∧ QueueInv s' ∧
      ∀ c, s'.current = some c → s'.status c = .ready := by
  induction k generalizing s with
  | zero => exact ⟨s, .nil s, rfl, hi, hb⟩
  | succ k ih =>
    obtain ⟨s₁, hex, hw₁, hi₁, hb₁⟩ := tick_spends_work hc hf hi hb (by omega)
    obtain ⟨s', hrun, hw', hi', hb'⟩ := ih hi₁ hb₁ (by omega)
    exact ⟨s', .cons rfl hex hrun, by omega, hi', hb'⟩

/-- Along ticks and forks, a scheduler whose `schedule` meets the contract keeps the invariant,
fresh fork ids and a READY `current`. -/
theorem exec_keeps_ready {op : Op} (hop : op = .tick ∨ ∃ l pr, op = .fork l pr)
    (hsch : ∀ n t, sch.schedule s = .ok (n, t) → ScheduleSpec s n t) (hi : QueueInv s)
    (hf : Fresh s) (hb : ∀ c, s.current = some c → s.status c = .ready)
    (hen : op.enabled s = true) {s' : Sys} (h : exec sch s op = .ok s') :
    QueueInv s' ∧ Fresh s' ∧ ∀ c, s'.current = some c → s'.status c = .ready := by
  rcases hop with rfl | ⟨l, pr, rfl⟩
  · obtain ⟨n, t, hs, rfl⟩ := exec_tick_ok h
    have hspec := hsch n t hs
    exact ⟨hspec.queueInv hi, hspec.fresh hi hf, hspec.dispatch_ready hi⟩
  · cases h
    refine ⟨hi.fork hf (of_decide_eq_true hen) pr, hf.fork l pr, fun c hc => ?_⟩
    have hcn : c ≠ s.nproc := (hf.current_lt c hc).ne
    simpa [Function.update_noteq hcn] using hb c hc

end Ticks

/-- Under every policy, from an invariant state whose `current` is READY, ticks run the work left
one unit at a time and never abort while any is left; after as many ticks as there was work,
nothing is ready and `current` cannot run. -/
theorem ticks_run_all_work {s : Sys} (pol : Policy) (maxPrio : Nat) (hi : QueueInv s)
    (hb : ∀ c, s.current = some c → s.status c = .ready) :
    (∀ k ≤ s.work, ∃ s', Run (pol.scheduler maxPrio) s (List.replicate k .tick) s' ∧
      s'.work = s.work - k) ∧
    ∃ s', Run (pol.scheduler maxPrio) s (List.replicate s.work .tick) s' ∧
      s'.readyqueue = [] ∧ ∀ c, s'.current = some c → ¬ s'.Runnable c := by
  have hrun := fun k (hk : k ≤ s.work) =>
    ticks_spend_work (pol.meetsContract maxPrio) (fun _ _ => schedule_error pol) hi hb hk
  refine ⟨fun k hk => (hrun k hk).imp fun _ h => ⟨h.1, h.2.1⟩, ?_⟩
  obtain ⟨s', hr, hw, hi', hb'⟩ := hrun s.work le_rfl
  rw [Nat.sub_self] at hw
  refine ⟨s', hr, Sys.readyqueue_eq_nil_of_work hi' hw, fun c hc hrc => ?_⟩
  have hpos : 0 < s'.remaining c := Nat.sub_pos_of_lt hrc.2
  have := Sys.work_of_current hc (hb' c hc)
  omega

/-- Two processes of lifespan four, forked and not yet run. -/
def rrPair : Sys := (Sys.init.fork 4 0).fork 4 0

theorem queueInv_rrPair : QueueInv rrPair :=
  (queueInv_init.fork fresh_init (by decide) 0).fork (fresh_init.fork 4 0) (by decide) 0

theorem ticks_run_all_work_rrPair :
    rrPair.work = 8 ∧ ∃ s', Run (Policy.rr.scheduler 0) rrPair (List.replicate rrPair.work .tick) s' ∧
      s'.readyqueue = [] ∧ ∀ c, s'.current = some c → ¬ s'.Runnable c :=
  ⟨by decide, (ticks_run_all_work .rr 0 queueInv_rrPair fun _ h => nomatch h).2⟩

/-- Round-Robin on a non-empty ready queue: the tick runs the head, and the rest of the queue
keeps its order ahead of what is appended. -/
theorem rr_tick_head {s : Sys} {q : Nat} {rest : List Nat} (hr : s.readyqueue = q :: rest) :
    ∃ s', exec rrScheduler s .tick = .ok s' ∧ s'.current = some q ∧
      ∃ l, s'.readyqueue = rest ++ l := by
  cases hc : s.current with
  | none =>
    refine ⟨(s.listDelInit q).dispatch (some q), ?_, rfl, [], by simp [hr]⟩
    simp only [exec, rrScheduler, rrSchedule, hr, Sys.listDelInit_current, hc]
  | some c =>
    by_cases hl : s.lifespan c = s.age c
    · refine ⟨(s.listDelInit q).dispatch (some q), ?_, rfl, [], by simp [hr]⟩
      simp only [exec, rrScheduler, rrSchedule, hr, Sys.listDelInit_current, hc,
        Sys.listDelInit_lifespan, Sys.listDelInit_age, hl, ne_eq, not_true_eq_false, if_false]
    · refine ⟨((s.listDelInit q).enqueueReady c).dispatch (some q), ?_, rfl, [c], by simp [hr]⟩
      simp only [exec, rrScheduler, rrSchedule, hr, Sys.listDelInit_current, hc,
        Sys.listDelInit_lifespan, Sys.listDelInit_age, hl, ne_eq, not_false_eq_true, if_true]

/-- Under Round-Robin, with only ticks, the process at position `j` of the ready queue runs at
tick `j + 1`: the queue is served in order, one tick each. -/
theorem rr_runs_queue_in_order {s : Sys} (j : Nat) (hj : j < s.readyqueue.length) :
    ∃ s', Run rrScheduler s (List.replicate (j + 1) .tick) s' ∧
      s'.current = s.readyqueue[j]? := by
  induction j generalizing s with
  | zero =>
    obtain ⟨q, rest, hr⟩ := List.exists_cons_of_length_pos hj
    obtain ⟨s', hex, hc, -⟩ := rr_tick_head hr
    exact ⟨s', .cons rfl hex (.nil _), by rw [hc, hr, List.getElem?_cons_zero]⟩
  | succ j ih =>
    obtain ⟨q, rest, hr⟩ := List.exists_cons_of_length_pos (by omega : 0 < s.readyqueue.length)
    have hj' : j < rest.length := by simp [hr] at hj; omega
    obtain ⟨s₁, hex, -, l, hr₁⟩ := rr_tick_head hr
    obtain ⟨s', hrun, hc⟩ := ih (by rw [hr₁, List.length_append]; omega)
    refine ⟨s', .cons rfl hex hrun, ?_⟩
    rw [hc, hr₁, hr, List.getElem?_append_left hj', List.getElem?_cons_succ]

theorem rr_runs_queue_in_order_rrPair :
    ∃ s', Run rrScheduler rrPair (List.replicate 2 .tick) s' ∧ s'.current = some 1 :=
  rr_runs_queue_in_order 1 (by decide)

section Fcfs

variable {s : Sys} {x : Nat} {pre suf : List Nat}

theorem Sys.runToCompletion_keep {pickNext : Sys → Option Nat × Sys} {c : Nat}
    (hc : s.current = some c) (hr : s.Runnable c) : s.runToCompletion pickNext = (some c, s) := by
  simp only [Sys.runToCompletion, hc, hr.1, hr.2, reduceCtorEq, if_false, if_true]

theorem Sys.runToCompletion_pick {pickNext : Sys → Option Nat × Sys}
    (hc : ∀ c, s.current = some c → ¬ s.Runnable c) : s.runToCompletion pickNext = pickNext s :=
  Sys.runToCompletion_of_not_runnable fun c h => by
    by_cases hb : s.status c = .blocked
    · exact .inl hb
    · exact .inr (not_lt.1 fun ha => hc c h ⟨by simpa using hb, ha⟩)

theorem fcfsSchedule_keep {c : Nat} (hc : s.current = some c) (hr : s.Runnable c) :
    fcfsSchedule s = .ok (some c, s) :=
  congrArg Except.ok (Sys.runToCompletion_keep hc hr)

theorem fcfsSchedule_pickHead (hc : ∀ c, s.current = some c → ¬ s.Runnable c) :
    fcfsSchedule s = .ok s.pickHead :=
  congrArg Except.ok (Sys.runToCompletion_pick hc)

theorem fcfsSchedule_readyqueue {n : Option Nat} {s' : Sys} (h : fcfsSchedule s = .ok (n, s')) :
    s'.readyqueue = s.readyqueue ∨ s'.readyqueue = s.readyqueue.tail := by
  by_cases hrun : ∃ c, s.current = some c ∧ s.Runnable c
  · obtain ⟨c, hc, hcr⟩ := hrun
    cases (fcfsSchedule_keep hc hcr).symm.trans h
    exact .inl rfl
  · have hp := Except.ok.inj ((fcfsSchedule_pickHead fun c hc hcr => hrun ⟨c, hc, hcr⟩).symm.trans h)
    cases hr : s.readyqueue with
    | nil =>
      simp only [Sys.pickHead, hr, Prod.mk.injEq] at hp
      exact .inl (hp.2 ▸ hr)
    | cons q rest =>
      simp only [Sys.pickHead, hr, Prod.mk.injEq] at hp
      exact .inr (by rw [← hp.2, Sys.listDelInit_readyqueue, hr, List.erase_cons_head, List.tail_cons])

theorem fcfsSchedule_head {q : Nat} {rest : List Nat} (hc : ∀ c, s.current = some c → ¬ s.Runnable c)
    (hr : s.readyqueue = q :: rest) : fcfsSchedule s = .ok (some q, s.listDelInit q) := by
  rw [fcfsSchedule_pickHead hc]
  simp only [Sys.pickHead, hr]

/-- The step lemma of FCFS: from an invariant state where `x` waits behind `pre`, a tick runs `x`
when no work is ahead of it, and otherwise spends one unit of the work ahead of it and leaves it
behind what is left of `pre`. -/
theorem fcfs_tick_waiting (hi : QueueInv s) (hr : s.readyqueue = pre ++ x :: suf) :
    ∃ s', exec fcfsScheduler s .tick = .ok s' ∧
      ((s.work - s.remainingSum (x :: suf) = 0 ∧ s'.current = some x ∧ s'.readyqueue = suf) ∨
        ∃ pre', s'.readyqueue = pre' ++ x :: suf ∧
          s'.work - s'.remainingSum (x :: suf) + 1 = s.work - s.remainingSum (x :: suf)) := by
  have hsum : s.remainingSum s.readyqueue = s.remainingSum pre + s.remainingSum (x :: suf) := by
    rw [hr, Sys.remainingSum_append]
  have hx : x ∈ s.readyqueue := hr ▸ List.mem_append_right _ (List.mem_cons_self _ _)
  -- the process `q` the tick runs leaves the remaining time of `x` and `suf` alone
  have hkeep : ∀ q, q ∉ x :: suf → ∀ t : Sys, t.remaining = s.remaining →
      (t.dispatch (some q)).remainingSum (x :: suf) = s.remainingSum (x :: suf) :=
    fun q hq t ht => Sys.remainingSum_congr fun p hp => by
      rw [Sys.remaining_dispatch_of_ne fun h : p = q => hq (h ▸ hp), ht]
  by_cases hrun : ∃ c, s.current = some c ∧ s.Runnable c
  · obtain ⟨c, hc, hcr⟩ := hrun
    refine ⟨s.dispatch (some c), by simp only [exec, fcfsScheduler, fcfsSchedule_keep hc hcr], .inr
      ⟨pre, hr, ?_⟩⟩
    have hw := ((ScheduleSpec.keep hc hcr).work_dispatch hi).1
    have hcx : c ∉ x :: suf := fun h => hi.not_mem_ready_of_current hc
      (hr ▸ List.mem_append_right _ h)
    have hpos : 0 < s.remaining c := Nat.sub_pos_of_lt hcr.2
    rw [hw, hkeep c hcx s rfl, Sys.work_of_current hc hcr.1]
    omega
  · have hnr : ∀ c, s.current = some c → ¬ s.Runnable c := fun c hc hcr => hrun ⟨c, hc, hcr⟩
    rw [Sys.work_of_not_runnable hnr, hsum]
    cases pre with
    | nil =>
      refine ⟨(s.listDelInit x).dispatch (some x), ?_, .inl ⟨by simp [Sys.remainingSum], rfl, ?_⟩⟩
      · simp only [exec, fcfsScheduler, fcfsSchedule_head hnr hr]
      · simp only [Sys.dispatch_readyqueue, Sys.listDelInit_readyqueue, hr, List.nil_append,
          List.erase_cons_head]
    | cons q pre' =>
      have hq : q ∈ s.readyqueue := by rw [hr]; exact List.mem_cons_self _ _
      have hqx : q ∉ x :: suf := fun h =>
        List.disjoint_of_nodup_append (hr ▸ hi.ready_nodup) (List.mem_cons_self _ _) h
      refine ⟨(s.listDelInit q).dispatch (some q), ?_, .inr ⟨pre', ?_, ?_⟩⟩
      · simp only [exec, fcfsScheduler, fcfsSchedule_head hnr hr]
      · simp only [Sys.dispatch_readyqueue, Sys.listDelInit_readyqueue, hr, List.cons_append,
          List.erase_cons_head]
      · have hw := ((ScheduleSpec.detach hq hnr).work_dispatch hi).1
        have hpos : 0 < s.remaining q := Nat.sub_pos_of_lt (hi.runnable_of_mem_ready hq).2
        rw [hw, hkeep q hqx (s.listDelInit q) rfl, Sys.work_of_not_runnable hnr, hsum]
        simp only [Sys.remainingSum, Sys.remainingSum_listDelInit]
        omega

/-- FCFS serves its ready queue in order, each process to completion: with only ticks, from an
invariant state whose `current` is READY, the process `x` behind `pre` waits in the ready queue
through as many ticks as there is work ahead of it (what `current` and `pre` have left to run),
and the tick after them runs it, with `suf` left in the ready queue. -/
theorem fcfs_runs_queue_in_order (hi : QueueInv s) (hb : ∀ c, s.current = some c → s.status c = .ready)
    (hr : s.readyqueue = pre ++ x :: suf) :
    (∀ k ≤ s.work - s.remainingSum (x :: suf),
      ∃ s', Run fcfsScheduler s (List.replicate k .tick) s' ∧ x ∈ s'.readyqueue) ∧
    ∃ s', Run fcfsScheduler s (List.replicate (s.work - s.remainingSum (x :: suf) + 1) .tick) s' ∧
      s'.current = some x ∧ s'.readyqueue = suf := by
  obtain ⟨m, hm⟩ : ∃ m, s.work - s.remainingSum (x :: suf) = m := ⟨_, rfl⟩
  have hx : x ∈ s.readyqueue := hr ▸ List.mem_append_right _ (List.mem_cons_self _ _)
  induction m generalizing s pre with
  | zero =>
    obtain ⟨s₁, hex, ⟨-, hc, hr₁⟩ | ⟨pre', -, hlt⟩⟩ := fcfs_tick_waiting hi hr
    · rw [hm]
      exact ⟨fun k hk => ⟨s, by rw [Nat.le_zero.1 hk]; exact .nil s, hx⟩,
        s₁, .cons rfl hex (.nil _), hc, hr₁⟩
    · omega
  | succ m ih =>
    obtain ⟨s₁, hex, ⟨h0, -⟩ | ⟨pre', hr₁, hlt⟩⟩ := fcfs_tick_waiting hi hr
    · omega
    obtain ⟨hi₁, hb₁⟩ := tick_keeps_ready (Policy.meetsContract .fcfs 0) hi hb hex
    have hm₁ : s₁.work - s₁.remainingSum (x :: suf) = m := by omega
    obtain ⟨hwait, s', hrun, hc, hr'⟩ :=
      ih hi₁ hb₁ hr₁ hm₁ (hr₁ ▸ List.mem_append_right _ (List.mem_cons_self _ _))
    rw [hm₁] at hwait hrun
    rw [hm]
    refine ⟨fun k hk => ?_, s', .cons rfl hex hrun, hc, hr'⟩
    cases k with
    | zero => exact ⟨s, .nil s, hx⟩
    | succ k =>
      obtain ⟨s'', hrun', hx'⟩ := hwait k (by omega)
      exact ⟨s'', .cons rfl hex hrun', hx'⟩

theorem fcfs_runs_queue_in_order_rrPair :
    (∀ k ≤ 4, ∃ s', Run fcfsScheduler rrPair (List.replicate k .tick) s' ∧ 1 ∈ s'.readyqueue) ∧
    ∃ s', Run fcfsScheduler rrPair (List.replicate 5 .tick) s' ∧ s'.current = some 1 ∧
      s'.readyqueue = [] :=
  fcfs_runs_queue_in_order queueInv_rrPair (fun _ h => nomatch h)
    (rfl : rrPair.readyqueue = [0] ++ [1])

end Fcfs

end CpuSched
