import CpuSched.Priority

/-! The framework around a policy: the eight entries of the scheduler table, the operations
it issues during a run, and the states reachable from the empty one. -/
namespace CpuSched

inductive Policy
  | fcfs
  | sjf
  | stcf
  | rr
  | prio
  | pa
  | pcp
  | pip
  deriving DecidableEq, Repr

def Policy.scheduler (maxPrio : Nat) : Policy → Scheduler
  | .fcfs => fcfsScheduler
  | .sjf => sjfScheduler
  | .stcf => stcfScheduler
  | .rr => rrScheduler
  | .prio => prioScheduler
  | .pa => paScheduler maxPrio
  | .pcp => pcpScheduler maxPrio
  | .pip => pipScheduler

theorem schedule_requeued {maxPrio : Nat} {s s' : Sys} {n : Option Nat} (pol : Policy)
    (h : (pol.scheduler maxPrio).schedule s = .ok (n, s')) :
    Requeued s s' ∧ s'.status = s.status := by
  cases pol with
  | fcfs => exact (fcfsSchedule_requeued h).imp_right And.left
  | sjf => exact (sjfSchedule_requeued h).imp_right And.left
  | stcf => exact (stcfSchedule_requeued h).imp_right And.left
  | rr => exact (rrSchedule_requeued h).imp_right And.left
  | prio => exact (prioSchedule_requeued h).imp_right And.left
  | pa => exact (paSchedule_requeued h).imp_right And.left
  | pcp => exact (pcpSchedule_requeued h).imp_right And.left
  | pip => exact (pipSchedule_requeued h).imp_right And.left

/-- Only Priority with aging changes a priority in `schedule`. -/
theorem schedule_prio {maxPrio : Nat} {s s' : Sys} {n : Option Nat} (pol : Policy)
    (hpol : pol ≠ .pa) (h : (pol.scheduler maxPrio).schedule s = .ok (n, s')) :
    s'.prio = s.prio := by
  cases pol with
  | fcfs => exact (fcfsSchedule_requeued h).2.2
  | sjf => exact (sjfSchedule_requeued h).2.2
  | stcf => exact (stcfSchedule_requeued h).2.2
  | rr => exact (rrSchedule_requeued h).2.2
  | prio => exact (prioSchedule_requeued h).2.2
  | pa => exact absurd rfl hpol
  | pcp => exact (pcpSchedule_requeued h).2.2
  | pip => exact (pipSchedule_requeued h).2.2

/-- `schedule` aborts only on an empty ready queue with a NULL `current`. -/
theorem schedule_error {maxPrio : Nat} {s : Sys} {e : Fault} (pol : Policy)
    (h : (pol.scheduler maxPrio).schedule s = .error e) : s.readyqueue = [] ∧ s.current = none := by
  cases pol with
  | fcfs => cases h
  | sjf => cases h
  | stcf => exact stcfSchedule_error h
  | rr => exact rrSchedule_error h
  | prio => exact prioSchedule_error h
  | pa => exact (paSchedule_error h).elim
  | pcp => exact pcpSchedule_error h
  | pip => exact pipSchedule_error h

theorem schedule_ok {s : Sys} (pol : Policy) (maxPrio : Nat) (hne : s.readyqueue ≠ []) :
    ∃ n t, (pol.scheduler maxPrio).schedule s = .ok (n, t) := by
  cases h : (pol.scheduler maxPrio).schedule s with
  | error e => exact absurd (schedule_error pol h).1 hne
  | ok r => exact ⟨r.1, r.2, rfl⟩

/-- What the framework does between two policy calls: fork a process, run one tick, or let
the current process acquire or release a resource. -/
inductive Op
  | fork (lifespan prio : Nat)
  | tick
  | acquire (r : Nat)
  | release (r : Nat)
  deriving DecidableEq, Repr

/-- A fork has a positive lifespan; `acquire` comes from a non-BLOCKED unfinished `current`,
and `release` from a non-BLOCKED `current` that owns the resource: only the running process
issues requests. -/
def Op.enabled (s : Sys) : Op → Bool
  | .fork lifespan _ => decide (0 < lifespan)
  | .tick => true
  | .acquire _ =>
    match s.current with
    | some c => decide (s.status c ≠ .blocked ∧ s.age c < s.lifespan c)
    | none => false
  | .release r =>
    match s.current with
    | some c => decide (s.owner r = some c ∧ s.status c ≠ .blocked)
    | none => false

/-- One operation under a policy; a tick makes the process `schedule` returns current. -/
def exec (sch : Scheduler) (s : Sys) : Op → Except Fault Sys
  | .fork lifespan prio => .ok (s.fork lifespan prio)
  | .tick =>
    match sch.schedule s with
    | .ok (next, s) => .ok (s.dispatch next)
    | .error e => .error e
  | .acquire r =>
    match sch.acquire s r with
    | .ok (_, s) => .ok s
    | .error e => .error e
  | .release r => sch.release s r

/-- `Run sch s ops s'`: the framework issues `ops` in order from `s`, each enabled and none
aborting, and reaches `s'`. -/
inductive Run (sch : Scheduler) : Sys → List Op → Sys → Prop
  | nil (s : Sys) : Run sch s [] s
  | cons {s s' s'' : Sys} {op : Op} {ops : List Op} :
      op.enabled s = true → exec sch s op = .ok s' → Run sch s' ops s'' → Run sch s (op :: ops) s''

def Reachable (sch : Scheduler) (s : Sys) : Prop :=
  ∃ ops, Run sch Sys.init ops s

/-- The run of a list of operations, `none` when one is not enabled or aborts. -/
def runOps (sch : Scheduler) (s : Sys) : List Op → Option Sys
  | [] => some s
  | op :: ops =>
    if op.enabled s then
      match exec sch s op with
      | .ok s' => runOps sch s' ops
      | .error _ => none
    else none

variable {sch : Scheduler}

theorem exec_tick_ok {s s' : Sys} (h : exec sch s .tick = .ok s') :
    ∃ n t, sch.schedule s = .ok (n, t) ∧ s' = t.dispatch n := by
  simp only [exec] at h
  split at h
  · cases h; exact ⟨_, _, ‹_›, rfl⟩
  · cases h

theorem exec_acquire_ok {s s' : Sys} {r : Nat} (h : exec sch s (.acquire r) = .ok s') :
    ∃ b, sch.acquire s r = .ok (b, s') := by
  simp only [exec] at h
  split at h
  · cases h; exact ⟨_, ‹_›⟩
  · cases h

theorem Op.enabled_acquire {s : Sys} {r : Nat} (h : (Op.acquire r).enabled s = true) :
    ∃ c, s.current = some c ∧ s.status c ≠ .blocked ∧ s.age c < s.lifespan c := by
  simp only [Op.enabled] at h
  split at h
  · exact ⟨_, ‹_›, of_decide_eq_true h⟩
  · cases h

theorem Op.enabled_release {s : Sys} {r : Nat} (h : (Op.release r).enabled s = true) :
    ∃ c, s.current = some c ∧ s.owner r = some c ∧ s.status c ≠ .blocked := by
  simp only [Op.enabled] at h
  split at h
  · exact ⟨_, ‹_›, of_decide_eq_true h⟩
  · cases h

theorem run_of_runOps {s s' : Sys} {ops : List Op} (h : runOps sch s ops = some s') :
    Run sch s ops s' := by
  induction ops generalizing s with
  | nil => exact Option.some.inj h ▸ Run.nil s
  | cons op ops ih =>
    simp only [runOps] at h
    split at h
    · split at h
      · exact Run.cons ‹_› ‹_› (ih h)
      · cases h
    · cases h

/-- A concrete run from the empty state exhibits a reachable state where `p` holds. -/
theorem reach_of_runOps (sch : Scheduler) (ops : List Op) (p : Sys → Bool)
    (h : (runOps sch Sys.init ops).map p = some true) : ∃ s, Reachable sch s ∧ p s = true := by
  cases hr : runOps sch Sys.init ops with
  | none => simp [hr] at h
  | some s => exact ⟨s, ⟨ops, run_of_runOps hr⟩, by simpa [hr] using h⟩

/-- An invariant kept by every enabled operation allowed by `P` holds along every run of
such operations. -/
theorem Run.invariant (Inv : Sys → Prop) (P : Op → Prop)
    (step : ∀ s op s', Inv s → P op → op.enabled s = true → exec sch s op = .ok s' → Inv s')
    {s s' : Sys} {ops : List Op} (hrun : Run sch s ops s') (hP : ∀ op ∈ ops, P op)
    (hs : Inv s) : Inv s' := by
  induction hrun with
  | nil => exact hs
  | cons hen hex _ ih =>
    exact ih (fun op h => hP op (List.mem_cons_of_mem _ h))
      (step _ _ _ hs (hP _ (List.mem_cons_self _ _)) hen hex)

/-- An invariant kept by every enabled operation that `G` allows from the state it is issued
from holds along every run whose every operation `G` allows from the state before it. -/
theorem Run.invariant_of_guard (Inv : Sys → Prop) (G : Sys → Op → Prop)
    (step : ∀ s op s', Inv s → G s op → op.enabled s = true → exec sch s op = .ok s' → Inv s')
    {s s' : Sys} {ops : List Op} (hrun : Run sch s ops s')
    (hG : ∀ ops₁ op ops₂ t, ops = ops₁ ++ op :: ops₂ → Run sch s ops₁ t → G t op)
    (hs : Inv s) : Inv s' := by
  induction hrun with
  | nil => exact hs
  | @cons s _ _ op _ hen hex _ ih =>
    exact ih (fun ops₁ op' ops₂ t h hr => hG (op :: ops₁) op' ops₂ t (by rw [h]; rfl) (.cons hen hex hr))
      (step _ _ _ hs (hG [] op _ s rfl (.nil s)) hen hex)

/-- Along the run of `ops` from `s`, every tick is issued from a state where `p` holds. -/
def ticksFrom (sch : Scheduler) (p : Sys → Bool) : Sys → List Op → Bool
  | _, [] => true
  | s, op :: ops => (decide (op ≠ .tick) || p s) &&
    match exec sch s op with
    | .ok s' => ticksFrom sch p s' ops
    | .error _ => true

/-- A run whose ticks `ticksFrom` checks issues every tick from a state where `p` holds. -/
theorem ticksFrom_ticks {p : Sys → Prop} [DecidablePred p] {s : Sys} {ops : List Op}
    (h : ticksFrom sch (fun t => decide (p t)) s ops = true) :
    ∀ ops₁ ops₂ t, ops = ops₁ ++ .tick :: ops₂ → Run sch s ops₁ t → p t := by
  rintro ops₁ ops₂ t rfl hrun
  induction hrun with
  | nil =>
    simp only [List.nil_append, ticksFrom, Bool.and_eq_true] at h
    simpa using h.1
  | cons _ hex _ ih =>
    simp only [List.cons_append, ticksFrom, Bool.and_eq_true, hex] at h
    exact ih h.2

/-- Two schedulers agree along every run of operations that `P` allows from a state of `Inv`,
when they agree on each such operation from each state of `Inv` and the second keeps `Inv`. -/
theorem runOps_congr {sch₁ sch₂ : Scheduler} (Inv : Sys → Prop) (P : Op → Prop)
    (hagree : ∀ s op, Inv s → P op → exec sch₁ s op = exec sch₂ s op)
    (hkeep : ∀ s op s', Inv s → P op → op.enabled s = true → exec sch₂ s op = .ok s' → Inv s')
    {s : Sys} {ops : List Op} (hP : ∀ op ∈ ops, P op) (hs : Inv s) :
    runOps sch₁ s ops = runOps sch₂ s ops := by
  induction ops generalizing s with
  | nil => rfl
  | cons op ops ih =>
    have hop := hP op (List.mem_cons_self _ _)
    simp only [runOps, hagree s op hs hop]
    split
    · split
      · exact ih (fun op h => hP op (List.mem_cons_of_mem _ h)) (hkeep _ _ _ hs hop ‹_› ‹_›)
      · rfl
    · rfl

end CpuSched
