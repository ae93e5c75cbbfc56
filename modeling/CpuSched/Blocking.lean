import CpuSched.Progress
import CpuSched.Release
import CpuSched.Ownership

/-! A blocked process waits until a release of its resource wakes it, and a process that
requests a resource it holds waits forever. -/
namespace CpuSched

variable {maxPrio : Nat} {s s' : Sys} {w r : Nat}

/-- Waking a process other than `w` leaves `w` in its wait queue, with its status and age. -/
theorem Sys.wakeWaiter_keeps {r' : Nat} {x : Option Nat} (hx : ∀ v, x = some v → v ≠ w)
    (h : s.wakeWaiter r' x = .ok s') (hw : w ∈ s.waitqueue r) :
    w ∈ s'.waitqueue r ∧ s'.status w = s.status w ∧ s'.age w = s.age w := by
  rcases Sys.wakeWaiter_ok h with ⟨-, rfl⟩ | ⟨v, -, rfl, -, rfl⟩
  · exact ⟨hw, rfl, rfl⟩
  · have hvw := hx v rfl
    simp [List.mem_erase_of_ne (Ne.symm hvw), Function.update_noteq (Ne.symm hvw), hw]

/-- Every `acquire` but `pa_acquire`, called by a non-BLOCKED `current`, leaves a BLOCKED waiter
in its wait queue, with its status and age. -/
theorem acquire_keeps_waiter (pol : Policy) (hpol : pol ≠ .pa) {r' c : Nat} {b : Bool}
    (hc : s.current = some c) (hst : s.status c ≠ .blocked) (hw : w ∈ s.waitqueue r)
    (hwb : s.status w = .blocked) (h : (pol.scheduler maxPrio).acquire s r' = .ok (b, s')) :
    w ∈ s'.waitqueue r ∧ s'.status w = s.status w ∧ s'.age w = s.age w := by
  have hcw : w ≠ c := fun h => hst (h ▸ hwb)
  have hne : ∀ c', s.current = some c' → c' = c := fun c' h' =>
    Option.some.inj (h'.symm.trans hc)
  -- a refused request moves `current`, which is not `w`, to the wait queue of `r'`
  have hmem : w ∈ ((s.waitqueue r).erase c) := (List.mem_erase_of_ne hcw).2 hw
  have hstw : (Function.update s.status c .blocked) w = s.status w := Function.update_noteq hcw _ _
  cases pol with
  | fcfs | sjf | stcf | rr =>
    obtain ⟨-, -, rfl⟩ | ⟨-, c', -, hc', -, rfl⟩ := fcfsAcquire_ok h
    · exact ⟨hw, rfl, rfl⟩
    · obtain rfl := hne c' hc'
      exact ⟨Sys.mem_enqueueWait.2 (.inl hw), hstw, rfl⟩
  | prio =>
    obtain ⟨-, -, rfl⟩ | ⟨-, c', -, hc', -, rfl⟩ := prioAcquire_ok h
    · exact ⟨hw, rfl, rfl⟩
    · obtain rfl := hne c' hc'
      exact ⟨Sys.mem_enqueueWait.2 (.inl hmem), hstw, rfl⟩
  | pa => exact absurd rfl hpol
  | pcp =>
    obtain ⟨-, -, -, -, rfl⟩ | ⟨-, c', -, hc', -, rfl⟩ := pcpAcquire_ok h
    · exact ⟨hw, rfl, rfl⟩
    · obtain rfl := hne c' hc'
      exact ⟨Sys.mem_enqueueWait.2 (.inl hmem), hstw, rfl⟩
  | pip =>
    obtain ⟨-, -, rfl⟩ | ⟨-, c', -, hc', -, rfl⟩ := pipAcquire_ok h
    · exact ⟨hw, rfl, rfl⟩
    · obtain rfl := hne c' hc'
      split
      all_goals exact ⟨Sys.mem_enqueueWait.2 (.inl hmem), hstw, rfl⟩

/-- Every `release` but `pa_release` of a resource other than `r` wakes a waiter of that
resource, so it leaves a waiter of `r` in its wait queue, with its status and age. -/
theorem release_keeps_waiter (pol : Policy) (hpol : pol ≠ .pa) {r' : Nat} (hi : QueueInv s)
    (hr : r' ≠ r) (hw : w ∈ s.waitqueue r) (h : (pol.scheduler maxPrio).release s r' = .ok s') :
    w ∈ s'.waitqueue r ∧ s'.status w = s.status w ∧ s'.age w = s.age w := by
  have hx : ∀ v, v ∈ s.waitqueue r' → v ≠ w := fun v hv hvw =>
    hr (hi.wait_unique w r' r (hvw ▸ hv) hw)
  -- each release wakes a waiter of `r'`, from a state with the queues, statuses and ages of `s`
  cases pol with
  | fcfs | sjf | stcf | rr =>
    have := Sys.wakeWaiter_keeps (fun v hv => hx v (List.mem_of_mem_head? hv))
      (fcfsRelease_ok h).2 hw
    exact this
  | prio =>
    have := Sys.wakeWaiter_keeps (fun v hv => hx v (highestPrio_mem hv)) (prioRelease_ok h).2 hw
    exact this
  | pa => exact absurd rfl hpol
  | pcp =>
    obtain ⟨o, -, -, h'⟩ := pcpRelease_ok h
    have := Sys.wakeWaiter_keeps (fun v hv => hx v (highestPrio_mem hv)) h' hw
    exact this
  | pip =>
    obtain ⟨o, -, -, h'⟩ := pipRelease_ok h
    have := Sys.wakeWaiter_keeps (fun v hv => hx v (highestPrio_mem hv)) h' hw
    exact this

/-- A tick whose `schedule` meets the contract runs a READY process, so it leaves a BLOCKED
waiter in its wait queue, BLOCKED and unaged. -/
theorem tick_keeps_waiter {sch : Scheduler} (hi : QueueInv s) (hw : w ∈ s.waitqueue r)
    (hs : ∀ n t, sch.schedule s = .ok (n, t) → ScheduleSpec s n t)
    (h : exec sch s .tick = .ok s') :
    w ∈ s'.waitqueue r ∧ s'.status w = s.status w ∧ s'.age w = s.age w := by
  obtain ⟨n, t, ht, rfl⟩ := exec_tick_ok h
  have hspec := hs n t ht
  have hwb : s.status w = .blocked := ((hi.mem_wait w).1 ⟨r, hw⟩).2
  refine ⟨hspec.waitqueue_eq hi ▸ hw, congrFun hspec.status_eq w, ?_⟩
  cases n with
  | none => exact congrFun hspec.age_eq w
  | some z =>
    -- the process the tick runs is READY, and `w` is not
    have hzw : w ≠ z := by
      rintro rfl
      have := hspec.dispatch_ready hi w rfl
      rw [Sys.dispatch_status, hspec.status_eq, hwb] at this
      cases this
    simp only [Sys.dispatch_age, Function.update_noteq hzw, hspec.age_eq]

/-- The step lemma of every policy but Priority with aging: an enabled operation other than a
release of `r`, a tick as long as `schedule` meets the contract there, leaves a waiter of `r` in
its wait queue, with its status and age. -/
theorem exec_keeps_waiter (pol : Policy) (hpol : pol ≠ .pa) {op : Op} (hi : QueueInv s)
    (hf : Fresh s) (hw : w ∈ s.waitqueue r) (hen : op.enabled s = true) (hop : op ≠ .release r)
    (hs : op = .tick →
      ∀ n t, (pol.scheduler maxPrio).schedule s = .ok (n, t) → ScheduleSpec s n t)
    (h : exec (pol.scheduler maxPrio) s op = .ok s') :
    w ∈ s'.waitqueue r ∧ s'.status w = s.status w ∧ s'.age w = s.age w := by
  have hwb : s.age w < s.lifespan w ∧ s.status w = .blocked := (hi.mem_wait w).1 ⟨r, hw⟩
  cases op with
  | fork l pr =>
    cases h
    have hwn : w ≠ s.nproc := (hf.lt_of_age_lt hwb.1).ne
    exact ⟨hw, by simp [Function.update_noteq hwn], by simp [Function.update_noteq hwn]⟩
  | tick => exact tick_keeps_waiter hi hw (hs rfl) h
  | acquire r' =>
    obtain ⟨b, hb⟩ := exec_acquire_ok h
    obtain ⟨c, hc, hst, -⟩ := Op.enabled_acquire hen
    exact acquire_keeps_waiter pol hpol hc hst hw hwb.2 hb
  | release r' =>
    exact release_keeps_waiter pol hpol hi (fun h => hop (h ▸ rfl)) hw h

/-- Under Priority and PIP a blocked process waits until its resource is released: along every
run from an invariant state with fresh fork ids, with no release of `r` and every tick issued
with a process to schedule, a process waiting for `r` stays in its wait queue, BLOCKED, and never
runs. -/
theorem prio_waiter_stays_blocked (pol : Policy) (hpol : pol = .prio ∨ pol = .pip) (hi : QueueInv s)
    (hf : Fresh s) (hw : w ∈ s.waitqueue r) {ops : List Op}
    (hrun : Run (pol.scheduler maxPrio) s ops s') (hrel : Op.release r ∉ ops)
    (hticks : ∀ ops₁ ops₂ t, ops = ops₁ ++ .tick :: ops₂ →
      Run (pol.scheduler maxPrio) s ops₁ t → t.Schedulable) :
    w ∈ s'.waitqueue r ∧ s'.status w = .blocked ∧ s'.age w = s.age w := by
  have hpa : pol ≠ .pa := by rcases hpol with rfl | rfl <;> decide
  have hwb : s.status w = .blocked := ((hi.mem_wait w).1 ⟨r, hw⟩).2
  refine (Run.invariant_of_guard (fun t => (QueueInv t ∧ Fresh t) ∧ w ∈ t.waitqueue r ∧
      t.status w = .blocked ∧ t.age w = s.age w)
    (fun t op => op ≠ .release r ∧ (op = .tick → t.Schedulable))
    (fun t op t' ⟨⟨hi, hf⟩, hw, hb, ha⟩ ⟨hop, hg⟩ hen h => ?_) hrun
    (fun ops₁ op ops₂ t he hr => ⟨fun hop => hrel (he ▸ hop ▸ List.mem_append_right _
      (List.mem_cons_self _ _)), fun hop => hticks ops₁ ops₂ t (hop ▸ he) hr⟩)
    ⟨⟨hi, hf⟩, hw, hwb, rfl⟩).2
  have hs : op = .tick → ∀ n u, (pol.scheduler maxPrio).schedule t = .ok (n, u) →
      ScheduleSpec t n u := fun ht _ _ hs => prio_schedule_spec pol hpol hi (hg ht) hs
  obtain ⟨hw', hb', ha'⟩ := exec_keeps_waiter pol hpa hi hf hw hen hop hs h
  exact ⟨exec_queueInv pol hpa hi hf hen hs h, hw', hb'.trans hb, ha'.trans ha⟩

/-- From `twoWaiters`, process 0 takes and releases resource 1 between ticks, and a forked process
preempts it, while processes 1 and 2 wait for resource 0. -/
def otherResourceOps : List Op := [.tick, .acquire 1, .tick, .release 1, .fork 2 0, .tick]

theorem prio_waiter_stays_blocked_twoWaiters :
    ∃ s', Run (Policy.prio.scheduler 0) twoWaiters otherResourceOps s' ∧ 1 ∈ s'.waitqueue 0 ∧
      s'.status 1 = .blocked ∧ s'.age 1 = twoWaiters.age 1 :=
  let ⟨_, hrun⟩ : ∃ s', Run (Policy.prio.scheduler 0) twoWaiters otherResourceOps s' :=
    ⟨_, run_of_runOps rfl⟩
  ⟨_, hrun, prio_waiter_stays_blocked .prio (.inl rfl) twoWaiters_inv.1 twoWaiters_inv.2
    (by decide) hrun (by decide)
    (ticksFrom_ticks (rfl : ticksFrom (Policy.prio.scheduler 0) (fun t => decide t.Schedulable)
      twoWaiters otherResourceOps = true))⟩

/-- A process that requests a resource it holds deadlocks under FCFS and SJF: `fcfs_acquire`
appends it to the wait queue of its own resource, and along every run after that it stays there
BLOCKED, unaged and owning the resource, since only a non-BLOCKED owner may release it. -/
theorem fcfs_reacquire_deadlocks (pol : Policy) (hpol : pol = .fcfs ∨ pol = .sjf) {c : Nat}
    {ops : List Op} (hi : QueueInv s) (hf : Fresh s) (hc : s.current = some c)
    (ho : s.owner r = some c) (hrun : Run (pol.scheduler maxPrio) s (.acquire r :: ops) s') :
    c ∈ s'.waitqueue r ∧ s'.status c = .blocked ∧ s'.owner r = some c ∧ s'.age c = s.age c := by
  have hpa : pol ≠ .pa := by rcases hpol with rfl | rfl <;> decide
  have hs : ∀ t : Sys, ∀ n u, (pol.scheduler maxPrio).schedule t = .ok (n, u) →
      ScheduleSpec t n u := fun _ _ _ ht => by
    rcases hpol with rfl | rfl
    exacts [fcfsSchedule_spec ht, sjfSchedule_spec ht]
  cases hrun with
  | @cons _ t _ _ _ hen hex hrun =>
  -- the request blocks `c` on its own resource
  obtain ⟨b, ha⟩ := exec_acquire_ok hex
  have ha' : fcfsAcquire s r = .ok (b, t) := by rcases hpol with rfl | rfl <;> exact ha
  obtain ⟨h₁, -, -⟩ | ⟨o, c', -, hc', -, rfl⟩ := fcfsAcquire_ok ha'
  · rw [ho] at h₁; cases h₁
  obtain rfl := Option.some.inj (hc.symm.trans hc')
  refine (Run.invariant (fun t => (QueueInv t ∧ Fresh t) ∧ c ∈ t.waitqueue r ∧
      t.status c = .blocked ∧ t.owner r = some c ∧ t.age c = s.age c) (fun _ => True)
    (fun t op t' ⟨⟨hi, hf⟩, hw, hb, ho, ha⟩ _ hen h => ?_) hrun (fun _ _ => trivial)
    ⟨fcfs_exec_queueInv pol hpol hi hf hen hex, by simp, by simp, by simpa using ho, rfl⟩).2
  -- no release of `r` is enabled, since its owner `c` is BLOCKED
  have hop : op ≠ .release r := by
    rintro rfl
    obtain ⟨d, hd, hod, hbd⟩ := Op.enabled_release hen
    obtain rfl := Option.some.inj (hod.symm.trans ho)
    exact hbd hb
  obtain ⟨hw', hb', ha'⟩ := exec_keeps_waiter pol hpa hi hf hw hen hop (fun _ => hs t) h
  refine ⟨fcfs_exec_queueInv pol hpol hi hf hen h, hw', hb'.trans hb, ?_, ha'.trans ha⟩
  by_contra hne
  rcases exec_owner_change pol hpa h (by rw [ho]; exact hne) with ⟨-, h₁, -⟩ | ⟨rfl, -⟩
  · rw [ho] at h₁; cases h₁
  · exact hop rfl

/-- Under FCFS process 0 runs and holds resource 0, and process 1 waits in the ready queue. -/
def selfOwner : Sys :=
  (runOps fcfsScheduler Sys.init [.fork 3 0, .fork 3 0, .tick, .acquire 0]).getD Sys.init

theorem fcfs_reacquire_deadlocks_selfOwner :
    ∃ s', Run (Policy.fcfs.scheduler 0) selfOwner [.acquire 0, .tick, .tick, .fork 2 0, .tick] s' ∧
      0 ∈ s'.waitqueue 0 ∧ s'.status 0 = .blocked ∧ s'.owner 0 = some 0 ∧
      s'.age 0 = selfOwner.age 0 :=
  have hs := fcfs_reachable_queueInv .fcfs (.inl rfl)
    (⟨[.fork 3 0, .fork 3 0, .tick, .acquire 0], run_of_runOps rfl⟩ :
      Reachable (Policy.fcfs.scheduler 0) selfOwner)
  let ⟨_, hrun⟩ : ∃ s', Run (Policy.fcfs.scheduler 0) selfOwner
      [.acquire 0, .tick, .tick, .fork 2 0, .tick] s' := ⟨_, run_of_runOps rfl⟩
  ⟨_, hrun, fcfs_reacquire_deadlocks .fcfs (.inl rfl) hs.1 hs.2 rfl rfl hrun⟩

end CpuSched
