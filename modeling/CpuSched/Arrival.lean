import CpuSched.Order

/-! What an arriving process does to the running one: FCFS and SJF never preempt, STCF and the
priority schedulers preempt for a better arrival, and a waiter woken by a PIP release arrives the
same way. -/
namespace CpuSched

variable {s : Sys} {c : Nat}

section NonPreemptive

variable (pol : Policy) (hpol : pol = .fcfs ∨ pol = .sjf) (maxPrio : Nat)
include hpol

/-- FCFS and SJF never preempt a running process for an arrival: from a state with fresh fork ids
whose `current` is READY, every run of ticks and forks with no more ticks than `current` has
lifetime left keeps it `current`, and it ages by one at each tick. -/
theorem fcfs_arrivals_never_preempt (hf : Fresh s) (hc : s.current = some c)
    (hst : s.status c = .ready) {ops : List Op}
    (hops : ∀ op ∈ ops, op = .tick ∨ ∃ l pr, 0 < l ∧ op = .fork l pr)
    (hk : ops.count .tick ≤ s.lifespan c - s.age c) :
    ∃ s', Run (pol.scheduler maxPrio) s ops s' ∧ s'.current = some c ∧
      s'.age c = s.age c + ops.count .tick := by
  induction ops generalizing s with
  | nil => exact ⟨s, .nil s, hc, rfl⟩
  | cons op ops ih =>
    have hops' := fun op' h => hops op' (List.mem_cons_of_mem op h)
    rcases hops op (List.mem_cons_self _ _) with rfl | ⟨l, pr, hl, rfl⟩
    · -- the tick keeps `current`, which has lifetime left
      rw [List.count_cons_self] at hk ⊢
      have hkeep : (pol.scheduler maxPrio).schedule s = .ok (some c, s) := by
        have hr : s.Runnable c := ⟨hst, by omega⟩
        rcases hpol with rfl | rfl
        all_goals exact congrArg Except.ok (Sys.runToCompletion_keep hc hr)
      obtain ⟨s', hrun, hc', ha⟩ := ih (s := s.dispatch (some c))
        (hf.dispatch rfl rfl fun _ h => Option.some.inj h ▸ hf.current_lt c hc) rfl hst hops'
        (by simp only [Sys.dispatch_lifespan, Sys.dispatch_age, Function.update_same]; omega)
      refine ⟨s', .cons rfl (by simp only [exec, hkeep]) hrun, hc', ?_⟩
      simp only [ha, Sys.dispatch_age, Function.update_same]
      omega
    · -- the fork leaves `current` alone
      have hcn : c ≠ s.nproc := (hf.current_lt c hc).ne
      rw [List.count_cons_of_ne (show Op.tick ≠ .fork l pr from nofun)] at hk ⊢
      obtain ⟨s', hrun, hc', ha⟩ := ih (s := s.fork l pr) (hf.fork l pr) hc
        (by simp [Function.update_noteq hcn, hst]) hops'
        (by simpa [Function.update_noteq hcn] using hk)
      exact ⟨s', .cons (decide_eq_true hl) rfl hrun, hc',
        by simpa [Function.update_noteq hcn] using ha⟩

end NonPreemptive

theorem fcfs_arrivals_never_preempt_pcpGrant :
    ∃ s', Run (Policy.sjf.scheduler 0) pcpGrant [.fork 1 0, .tick, .fork 1 0, .tick] s' ∧
      s'.current = some 0 ∧ s'.age 0 = 3 :=
  fcfs_arrivals_never_preempt .sjf (.inr rfl) 0 pcpGrant_inv.2 rfl rfl (by simp) (by decide)

/-- A ready process that beats every other ready process and a runnable `current`, under a
relation no two processes satisfy both ways, is the one chosen. -/
theorem Chooses.eq_of_beats_all {beats : Nat → Nat → Prop} {a z : Nat}
    (hasym : ∀ x y, beats x y → ¬ beats y x) (h : Chooses s beats z) (ha : a ∈ s.readyqueue)
    (hq : ∀ q ∈ s.readyqueue, q ≠ a → beats a q)
    (hc : ∀ c, s.current = some c → s.Runnable c → beats a c) : z = a := by
  cases h with
  | current hc' hr hall => exact absurd (hall a ha) (hasym _ _ (hc _ hc' hr))
  | ready hnb hsplit _ =>
    obtain ⟨l₁, l₂, hsp, -⟩ := hsplit
    by_contra hza
    exact hnb a ha (hq z (hsp ▸ List.mem_append_right _ (List.mem_cons_self _ _)) hza)

/-- A `schedule` that meets the contract and passes over a runnable `current` for a ready process
preempts it: `current` goes to the ready-queue tail and the process leaves the ready queue. -/
theorem ScheduleSpec.eq_preempt {s' : Sys} {x : Nat} (h : ScheduleSpec s (some x) s')
    (hc : s.current = some c) (hr : s.Runnable c) (hxc : x ≠ c) :
    s' = (s.enqueueReady c).listDelInit x := by
  cases h with
  | keep hc' _ => exact absurd (Option.some.inj (hc.symm.trans hc')) (Ne.symm hxc)
  | detach _ hnr => exact absurd hr (hnr c hc)
  | preempt hc' _ _ => rw [Option.some.inj (hc'.symm.trans hc)]

/-- The tick after a process `a` joins the ready-queue tail, from an invariant state whose
`current` `c` can run, by a `schedule` that selects by a relation under which `a` beats every
other ready process and `c`: it runs `a` and puts `c` at the ready-queue tail. -/
theorem tick_runs_arrival (pol : Policy) (maxPrio : Nat) {beats : Nat → Nat → Prop} {t : Sys}
    {a : Nat} {l : List Nat} (hasym : ∀ x y, beats x y → ¬ beats y x)
    (hsel : ∀ n u h₀ rest, t.readyqueue = h₀ :: rest →
      (pol.scheduler maxPrio).schedule t = .ok (n, u) → Selects t beats n u)
    (hi : QueueInv t) (hc : t.current = some c) (hr : t.Runnable c) (hl : t.readyqueue = l ++ [a])
    (hnew : ∀ q ∈ l, beats a q) (hcur : beats a c) :
    exec (pol.scheduler maxPrio) t .tick =
      .ok (((t.enqueueReady c).listDelInit a).dispatch (some a)) := by
  have ha : a ∈ t.readyqueue := by simp [hl]
  obtain ⟨n, u, hs⟩ := schedule_ok pol maxPrio (List.ne_nil_of_mem ha)
  obtain ⟨_, _, hr'⟩ := List.exists_cons_of_ne_nil (List.ne_nil_of_mem ha)
  obtain ⟨hspec, z, rfl, hch⟩ := hsel n u _ _ hr' hs
  -- `a` beats everything the selection law looks at, so it is the one chosen
  have hz : z = a := hch.eq_of_beats_all hasym ha
    (fun q hq hqa => hnew q (by simpa [hl, hqa] using hq))
    (fun c' hc' _ => Option.some.inj (hc.symm.trans hc') ▸ hcur)
  subst hz
  rw [exec, hs, hspec.eq_preempt hc hr fun h => hi.not_mem_ready_of_current hc (h ▸ ha)]

/-- The tick after a fork, from an invariant state with fresh fork ids and a READY `current` with
lifetime left, by a `schedule` that selects by a relation under which the new process beats every
ready process and `current`: it runs the new process and puts `current` at the ready-queue tail. -/
theorem fork_tick_runs_arrival (pol : Policy) (maxPrio : Nat) {beats : Nat → Nat → Prop}
    {l pr : Nat} (hasym : ∀ x y, beats x y → ¬ beats y x)
    (hsel : ∀ n u h₀ rest, QueueInv (s.fork l pr) →
      (∀ c', (s.fork l pr).current = some c' → (s.fork l pr).status c' = .ready) →
      (s.fork l pr).readyqueue = h₀ :: rest →
      (pol.scheduler maxPrio).schedule (s.fork l pr) = .ok (n, u) →
      Selects (s.fork l pr) beats n u)
    (hi : QueueInv s) (hf : Fresh s) (hc : s.current = some c) (hr : s.Runnable c) (hl : 0 < l)
    (hnew : ∀ q ∈ s.readyqueue, beats s.nproc q) (hcur : beats s.nproc c) :
    ∃ s', Run (pol.scheduler maxPrio) s [.fork l pr, .tick] s' ∧ s'.current = some s.nproc ∧
      s'.readyqueue = s.readyqueue ++ [c] := by
  have hcn : c ≠ s.nproc := (hf.current_lt c hc).ne
  have hb : ∀ c', (s.fork l pr).current = some c' → (s.fork l pr).status c' = .ready :=
    fun c' hc' => by
    obtain rfl := Option.some.inj (hc.symm.trans hc')
    simpa [Function.update_noteq hcn] using hr.1
  have hex := tick_runs_arrival pol maxPrio hasym (fun n u _ _ hr hs => hsel n u _ _
    (hi.fork hf hl pr) hb hr hs) (hi.fork hf hl pr) hc
    (by simpa [Sys.Runnable, Function.update_noteq hcn] using hr) (Sys.fork_readyqueue s l pr)
    hnew hcur
  refine ⟨_, .cons (decide_eq_true hl) rfl (.cons rfl hex (.nil _)), rfl, ?_⟩
  simp only [Sys.dispatch_readyqueue, Sys.listDelInit_readyqueue, Sys.enqueueReady_readyqueue,
    Sys.fork_readyqueue, List.append_assoc, List.singleton_append,
    List.erase_append_right _ fun h => (hf.lt_of_mem_ready hi h).false, List.erase_cons_head]

/-- STCF preempts the running process for a shorter arrival: from an invariant state with fresh
fork ids whose `current` `c` is READY with lifetime left, the tick after the fork of a process
with less remaining time than `c` and every ready process runs the new process and puts `c` at the
ready-queue tail. -/
theorem stcf_shorter_arrival_preempts (hi : QueueInv s) (hf : Fresh s) (hc : s.current = some c)
    (hr : s.Runnable c) {l pr : Nat} (hl : 0 < l) (hlc : l < s.remaining c)
    (hlq : ∀ q ∈ s.readyqueue, l < s.remaining q) :
    ∃ s', Run stcfScheduler s [.fork l pr, .tick] s' ∧ s'.current = some s.nproc ∧
      s'.readyqueue = s.readyqueue ++ [c] :=
  fork_tick_runs_arrival .stcf 0 (fun _ _ h h' => lt_asymm h h')
    (fun _ _ _ _ hi hb hr hs => stcfSchedule_selects hi hb hr hs) hi hf hc hr hl
    (fun q hq => by
      have hqn : q ≠ s.nproc := fun h => (hf.lt_of_mem_ready hi hq).ne h
      simpa [Sys.remaining, Function.update_noteq hqn] using hlq q hq)
    (by simpa [Sys.remaining, Function.update_noteq (hf.current_lt c hc).ne] using hlc)

theorem stcf_shorter_arrival_preempts_pcpGrant :
    ∃ s', Run stcfScheduler pcpGrant [.fork 1 0, .tick] s' ∧ s'.current = some 2 ∧
      s'.readyqueue = [1, 0] :=
  stcf_shorter_arrival_preempts pcpGrant_inv.1 pcpGrant_inv.2 rfl (by decide) (by decide)
    (by decide) (by decide)

section PriorityArrival

variable (pol : Policy) (hpol : pol = .prio ∨ pol = .pcp ∨ pol = .pip) (maxPrio : Nat)
include hpol

/-- Priority, PCP and PIP preempt the running process for an arrival of higher `prio`: from an
invariant state with fresh fork ids whose `current` `c` is READY with lifetime left, the tick
after the fork of a process of higher `prio` than `c` and every ready process runs the new process
and puts `c` at the ready-queue tail. -/
theorem prio_higher_arrival_preempts (hi : QueueInv s) (hf : Fresh s) (hc : s.current = some c)
    (hr : s.Runnable c) {l pr : Nat} (hl : 0 < l) (hpc : s.prio c < pr)
    (hpq : ∀ q ∈ s.readyqueue, s.prio q < pr) :
    ∃ s', Run (pol.scheduler maxPrio) s [.fork l pr, .tick] s' ∧ s'.current = some s.nproc ∧
      s'.readyqueue = s.readyqueue ++ [c] :=
  fork_tick_runs_arrival pol maxPrio (fun _ _ h h' => lt_asymm h h')
    (fun _ _ _ _ hi hb hr hs => prio_selects pol hpol maxPrio hi (fun _ => hb) hr hs) hi hf hc hr hl
    (fun q hq => by
      have hqn : q ≠ s.nproc := fun h => (hf.lt_of_mem_ready hi hq).ne h
      simpa [Function.update_noteq hqn] using hpq q hq)
    (by simpa [Function.update_noteq (hf.current_lt c hc).ne] using hpc)

end PriorityArrival

theorem prio_higher_arrival_preempts_pcpGrant :
    ∃ s', Run (Policy.pcp.scheduler 5) pcpGrant [.fork 1 5, .tick] s' ∧ s'.current = some 2 ∧
      s'.readyqueue = [1, 0] :=
  prio_higher_arrival_preempts .pcp (.inr (.inl rfl)) 5 pcpGrant_inv.1 pcpGrant_inv.2 rfl
    (by decide) (by decide) (by decide) (by decide)

/-- PIP hands the CPU to the waiter its release wakes: when the READY `current` `o`, with lifetime
left, releases a resource whose waiter `h` has a higher `prio` than every other waiter, every ready
process and the `prio_orig` of `o`, the release drops `o` to its `prio_orig`, frees the resource
and wakes `h`, and the next tick runs `h` and puts `o` at the ready-queue tail. -/
theorem pip_release_hands_over {o h r : Nat} (hi : QueueInv s) (hc : s.current = some o)
    (hr : s.Runnable o) (ho : s.owner r = some o) (hw : h ∈ s.waitqueue r)
    (hwait : ∀ q ∈ s.waitqueue r, q ≠ h → s.prio q < s.prio h)
    (hready : ∀ q ∈ s.readyqueue, s.prio q < s.prio h) (hbase : s.prioOrig o < s.prio h) :
    ∃ s', Run pipScheduler s [.release r, .tick] s' ∧ s'.current = some h ∧
      s'.prio o = s.prioOrig o ∧ s'.owner r = none ∧ s'.readyqueue = s.readyqueue ++ [o] := by
  have hwo : ∀ q ∈ s.waitqueue r, q ≠ o := fun q hq e =>
    hi.not_mem_wait_of_ready hr.1 r (e ▸ hq)
  have hho := hwo h hw
  have hhr : h ∉ s.readyqueue := hi.not_mem_ready_of_mem_wait hw
  have hhb : s.status h = .blocked := ((hi.mem_wait h).1 ⟨r, hw⟩).2
  -- the scan of `pip_release` picks `h`, above every other waiter
  have hpick :
      ((s.setPrio o (s.prioOrig o)).setOwner r none).highestPrio (s.waitqueue r) = some h := by
    obtain ⟨w₀, ws, hq⟩ := List.exists_cons_of_ne_nil (List.ne_nil_of_mem hw)
    obtain ⟨w, hwp⟩ : ∃ w, ((s.setPrio o (s.prioOrig o)).setOwner r none).highestPrio
        (s.waitqueue r) = some w := ⟨_, by rw [hq]; rfl⟩
    have hwm := highestPrio_mem hwp
    by_contra hne
    have hle := (highestPrio_spec hwp).1 h hw
    simp only [Sys.setOwner_prio, Sys.setPrio_prio, Function.update_noteq hho,
      Function.update_noteq (hwo w hwm)] at hle
    exact absurd (hwait w hwm fun e => hne (e ▸ hwp)) (not_lt.2 hle)
  have hrel : pipRelease s r = .ok ((((s.setPrio o (s.prioOrig o)).setOwner r none).listDelInit h
      ).setStatus h .ready |>.enqueueReady h) := by
    simp [pipRelease, ho, hc, hpick, Sys.wakeWaiter, List.ne_nil_of_mem hw,
      Function.update_noteq hho, hhb]
  have hqo : ∀ q ∈ s.readyqueue, q ≠ o := fun q hq e =>
    hi.not_mem_ready_of_current hc (e ▸ hq)
  -- the woken `h` joins the ready-queue tail, above everything the scan of `pip_schedule` sees
  have hex := tick_runs_arrival .pip 0 (fun _ _ h h' => lt_asymm h h')
    (fun _ _ _ _ hr hs => pipSchedule_selects hr hs)
    (@release_queueInv 0 _ _ .pip r hi (fun c h' => Option.some.inj (hc.symm.trans h') ▸ hr.1)
      hrel)
    hc (by simpa [Sys.Runnable, Function.update_noteq (Ne.symm hho)] using hr)
    (by simp [List.erase_of_not_mem hhr] : _ = s.readyqueue ++ [h])
    (fun q hq => by
      simpa [Function.update_noteq (hqo q hq), Function.update_noteq hho] using hready q hq)
    (by simpa [Function.update_noteq hho] using hbase)
  refine ⟨_, .cons (by simp [Op.enabled, hc, ho, hr.1]) (by simp only [exec, pipScheduler, hrel])
    (.cons rfl hex (.nil _)), rfl, by simp, by simp, ?_⟩
  simp [List.erase_of_not_mem hhr, List.erase_append_right _ hhr]

/-- Process 0, of `prio` 1, holds resource 0, which process 1, of `prio` 5, waits for; process 0
runs at the `prio` 5 it inherited: the run of PIP that leads there. -/
def boostedOwnerOps : List Op :=
  [.fork 10 1, .tick, .acquire 0, .fork 10 5, .tick, .acquire 0, .tick]

def boostedOwner : Sys := (runOps pipScheduler Sys.init boostedOwnerOps).getD Sys.init

theorem pip_release_hands_over_boostedOwner :
    ∃ s', Run pipScheduler boostedOwner [.release 0, .tick] s' ∧ s'.current = some 1 ∧
      s'.prio 0 = 1 ∧ s'.owner 0 = none ∧ s'.readyqueue = [0] :=
  pip_release_hands_over
    (prio_reachable_queueInv .pip (.inr rfl)
      (run_of_runOps (rfl : runOps (Policy.pip.scheduler 0) Sys.init boostedOwnerOps = _))
      (ticksFrom_ticks
        (rfl : ticksFrom pipScheduler (fun t => decide t.Schedulable) Sys.init
          boostedOwnerOps = true))).1
    (rfl : boostedOwner.current = some 0) (by decide) rfl (by decide) (by decide) (by decide)
    (by decide)

end CpuSched
