import Mathlib.Logic.Function.Basic
import Mathlib.Tactic.Simps.Basic

/-! The globals the policies of `pa2.c` read and write: the process table, `current`, the
ready queue and the resource table. A queue holds process ids, so the intrusive `list_head`
of a process becomes the membership of its id in one of these lists. -/
namespace CpuSched

/-- `PROCESS_READY` or `PROCESS_BLOCKED`; the running process is the one in `current`. -/
inductive Status
  | ready
  | blocked
  deriving DecidableEq, Repr

@[simp] theorem Status.ne_blocked {st : Status} : st ≠ .blocked ↔ st = .ready := by
  cases st <;> decide

@[simp] theorem Status.ne_ready {st : Status} : st ≠ .ready ↔ st = .blocked := by
  cases st <;> decide

/-- What aborts a run: a `NULL` dereference or a failed `assert`. -/
inductive Fault
  | nullDeref
  | assertFail
  deriving DecidableEq, Repr

/-- The framework state, with one map per field of `struct process` and of `struct resource`.
`nproc` counts the forked processes; fork gives the next process the id `nproc`. -/
structure Sys where
  lifespan : Nat → Nat
  age : Nat → Nat
  prio : Nat → Nat
  prioOrig : Nat → Nat
  status : Nat → Status
  nproc : Nat
  current : Option Nat
  readyqueue : List Nat
  owner : Nat → Option Nat
  waitqueue : Nat → List Nat

/-- The callbacks of `struct scheduler` that the framework calls during a run. -/
structure Scheduler where
  acquire : Sys → Nat → Except Fault (Bool × Sys)
  release : Sys → Nat → Except Fault Sys
  schedule : Sys → Except Fault (Option Nat × Sys)

namespace Sys

/-- No process, no `current`, and every resource free with an empty wait queue. -/
def init : Sys where
  lifespan _ := 0
  age _ := 0
  prio _ := 0
  prioOrig _ := 0
  status _ := .ready
  nproc := 0
  current := none
  readyqueue := []
  owner _ := none
  waitqueue _ := []

@[simps] def setStatus (s : Sys) (p : Nat) (st : Status) : Sys :=
  { s with status := Function.update s.status p st }

@[simps] def setPrio (s : Sys) (p n : Nat) : Sys :=
  { s with prio := Function.update s.prio p n }

@[simps] def setOwner (s : Sys) (r : Nat) (o : Option Nat) : Sys :=
  { s with owner := Function.update s.owner r o }

/-- `list_add_tail(&p->list, &readyqueue)`. -/
@[simps] def enqueueReady (s : Sys) (p : Nat) : Sys :=
  { s with readyqueue := s.readyqueue ++ [p] }

/-- `list_add_tail(&p->list, &resources[r].waitqueue)`. -/
@[simps] def enqueueWait (s : Sys) (r p : Nat) : Sys :=
  { s with waitqueue := Function.update s.waitqueue r (s.waitqueue r ++ [p]) }

/-- `list_del_init(&p->list)`: unlink `p` from the queue that holds it. -/
@[simps] def listDelInit (s : Sys) (p : Nat) : Sys :=
  { s with readyqueue := s.readyqueue.erase p, waitqueue := fun r => (s.waitqueue r).erase p }

/-- The framework's tick: the process `schedule` returned becomes `current` and ages by one. -/
@[simps] def dispatch (s : Sys) (next : Option Nat) : Sys :=
  { s with
    current := next
    age := match next with
      | some p => Function.update s.age p (s.age p + 1)
      | none => s.age }

/-- The framework's fork: a fresh READY process with `age = 0` and `prio = prio_orig`,
appended to the ready queue. -/
@[simps] def fork (s : Sys) (lifespan prio : Nat) : Sys where
  lifespan := Function.update s.lifespan s.nproc lifespan
  age := Function.update s.age s.nproc 0
  prio := Function.update s.prio s.nproc prio
  prioOrig := Function.update s.prioOrig s.nproc prio
  status := Function.update s.status s.nproc .ready
  nproc := s.nproc + 1
  current := s.current
  readyqueue := s.readyqueue ++ [s.nproc]
  owner := s.owner
  waitqueue := s.waitqueue

end Sys

/-- `s'` differs from `s` at most in its queues, statuses and priorities: lifespans, ages,
baseline priorities, `current` and the owners are left alone. -/
structure Requeued (s s' : Sys) : Prop where
  lifespan : s'.lifespan = s.lifespan
  age : s'.age = s.age
  prioOrig : s'.prioOrig = s.prioOrig
  nproc : s'.nproc = s.nproc
  current : s'.current = s.current
  owner : s'.owner = s.owner

theorem Requeued.refl (s : Sys) : Requeued s s := ⟨rfl, rfl, rfl, rfl, rfl, rfl⟩

theorem Requeued.trans {s₁ s₂ s₃ : Sys} (h₁ : Requeued s₁ s₂) (h₂ : Requeued s₂ s₃) :
    Requeued s₁ s₃ :=
  ⟨h₂.1.trans h₁.1, h₂.2.trans h₁.2, h₂.3.trans h₁.3, h₂.4.trans h₁.4, h₂.5.trans h₁.5,
    h₂.6.trans h₁.6⟩

end CpuSched
