import CpuSched.Select

/-! The default FCFS `acquire` and `release`, and the FCFS, SJF, STCF and Round-Robin
schedulers that use them. -/
namespace CpuSched

namespace Sys

/-- The end of every release function: when `r` has waiters, check that `waiter` (the
process the function selected, `none` for `NULL`) is BLOCKED, unlink it, make it READY and
append it to the ready queue. -/
def wakeWaiter (s : Sys) (r : Nat) (waiter : Option Nat) : Except Fault Sys :=
  if s.waitqueue r = [] then .ok s
  else match waiter with
    | none => .error .nullDeref
    | some w =>
      if s.status w = .blocked then .ok (((s.listDelInit w).setStatus w .ready).enqueueReady w)
      else .error .assertFail

/-- The branch for an empty ready queue, `if (current->age < current->lifespan) return current;`,
which reads `current` without a `NULL` check. -/
def keepCurrent (s : Sys) : Except Fault (Option Nat × Sys) :=
  match s.current with
  | none => .error .nullDeref
  | some c => .ok (if s.age c < s.lifespan c then some c else none, s)

/-- `pick_next` of FCFS: detach the ready-queue head. -/
def pickHead (s : Sys) : Option Nat × Sys :=
  match s.readyqueue with
  | [] => (none, s)
  | p :: _ => (some p, s.listDelInit p)

/-- `pick_next` of SJF: detach the first ready process of least `lifespan`. -/
def pickShortest (s : Sys) : Option Nat × Sys :=
  match s.readyqueue with
  | [] => (none, s)
  | p :: ps =>
    let next := scanFirst (fun q n => decide (s.lifespan q < s.lifespan n)) p ps
    (some next, s.listDelInit next)

/-- The non-preemptive schedulers: go to `pick_next` when `current` is absent or BLOCKED,
return it while it has lifetime left, and `pick_next` otherwise. -/
def runToCompletion (s : Sys) (pickNext : Sys → Option Nat × Sys) : Option Nat × Sys :=
  match s.current with
  | none => pickNext s
  | some c =>
    if s.status c = .blocked then pickNext s
    else if s.age c < s.lifespan c then (some c, s)
    else pickNext s

variable {s s' : Sys} {r : Nat}

theorem wakeWaiter_ok {w : Option Nat} (h : s.wakeWaiter r w = .ok s') :
    (s.waitqueue r = [] ∧ s' = s) ∨
      ∃ v, s.waitqueue r ≠ [] ∧ w = some v ∧ s.status v = .blocked ∧
        s' = ((s.listDelInit v).setStatus v .ready).enqueueReady v := by
  unfold wakeWaiter at h
  split at h
  · exact .inl ⟨‹_›, (Except.ok.inj h).symm⟩
  · split at h
    · cases h
    · split at h
      · exact .inr ⟨_, ‹_›, rfl, ‹_›, (Except.ok.inj h).symm⟩
      · cases h

theorem wakeWaiter_requeued {w : Option Nat} (h : s.wakeWaiter r w = .ok s') :
    Requeued s s' ∧ s'.prio = s.prio := by
  obtain ⟨-, rfl⟩ | ⟨v, -, -, -, rfl⟩ := wakeWaiter_ok h
  · exact ⟨Requeued.refl _, rfl⟩
  · exact ⟨⟨rfl, rfl, rfl, rfl, rfl, rfl⟩, rfl⟩

theorem keepCurrent_state {n : Option Nat} (h : s.keepCurrent = .ok (n, s')) : s' = s := by
  unfold keepCurrent at h
  split at h
  · cases h
  · cases h; rfl

theorem keepCurrent_error {e : Fault} (h : s.keepCurrent = .error e) : s.current = none := by
  unfold keepCurrent at h
  split at h
  · assumption
  · cases h

end Sys

/-- Grant a free resource to `current`, else block `current` at the wait-queue tail. -/
def fcfsAcquire (s : Sys) (r : Nat) : Except Fault (Bool × Sys) :=
  match s.owner r, s.current with
  | none, _ => .ok (true, s.setOwner r s.current)
  | some _, none => .error .nullDeref
  | some _, some c => .ok (false, (s.setStatus c .blocked).enqueueWait r c)

/-- Assert that `current` owns `r`, free it and wake the waiter that came first. -/
def fcfsRelease (s : Sys) (r : Nat) : Except Fault Sys :=
  if s.owner r = s.current then
    let s := s.setOwner r none
    s.wakeWaiter r (s.waitqueue r).head?
  else .error .assertFail

variable {s s' : Sys} {r : Nat} {b : Bool} {n : Option Nat}

theorem fcfsAcquire_ok (h : fcfsAcquire s r = .ok (b, s')) :
    (s.owner r = none ∧ b = true ∧ s' = s.setOwner r s.current) ∨
      ∃ o c, s.owner r = some o ∧ s.current = some c ∧ b = false ∧
        s' = (s.setStatus c .blocked).enqueueWait r c := by
  unfold fcfsAcquire at h
  split at h
  · cases h; exact .inl ⟨‹_›, rfl, rfl⟩
  · cases h
  · cases h; exact .inr ⟨_, _, ‹_›, ‹_›, rfl, rfl⟩

theorem fcfsRelease_ok (h : fcfsRelease s r = .ok s') :
    s.owner r = s.current ∧ (s.setOwner r none).wakeWaiter r (s.waitqueue r).head? = .ok s' := by
  unfold fcfsRelease at h
  split at h
  · exact ⟨‹_›, h⟩
  · cases h

def fcfsSchedule (s : Sys) : Except Fault (Option Nat × Sys) :=
  .ok (s.runToCompletion Sys.pickHead)

def sjfSchedule (s : Sys) : Except Fault (Option Nat × Sys) :=
  .ok (s.runToCompletion Sys.pickShortest)

/-- Pick the ready process of least remaining time; an unfinished `current` keeps the CPU
when its remaining time is strictly less, and is appended to the ready queue otherwise. -/
def stcfSchedule (s : Sys) : Except Fault (Option Nat × Sys) :=
  match s.readyqueue with
  | [] => s.keepCurrent
  | p :: ps =>
    let next := scanFirst (fun q n => decide (s.lifespan q - s.age q < s.lifespan n - s.age n)) p ps
    match s.current with
    | none => .ok (some next, s.listDelInit next)
    | some c =>
      if s.lifespan c ≠ s.age c then
        if s.lifespan c - s.age c < s.lifespan next - s.age next then
          .ok (some c, s.listDelInit c)
        else .ok (some next, (s.enqueueReady c).listDelInit next)
      else .ok (some next, s.listDelInit next)

/-- Take the ready-queue head and append an unfinished `current` to the tail. -/
def rrSchedule (s : Sys) : Except Fault (Option Nat × Sys) :=
  match s.readyqueue with
  | [] => s.keepCurrent
  | next :: _ =>
    let s := s.listDelInit next
    match s.current with
    | none => .ok (some next, s)
    | some c => .ok (some next, if s.lifespan c ≠ s.age c then s.enqueueReady c else s)

theorem fcfsSchedule_requeued (h : fcfsSchedule s = .ok (n, s')) :
    Requeued s s' ∧ s'.status = s.status ∧ s'.prio = s.prio := by
  simp only [fcfsSchedule, Sys.runToCompletion, Sys.pickHead] at h
  repeat' split at h
  all_goals (cases h; exact ⟨⟨rfl, rfl, rfl, rfl, rfl, rfl⟩, rfl, rfl⟩)

theorem sjfSchedule_requeued (h : sjfSchedule s = .ok (n, s')) :
    Requeued s s' ∧ s'.status = s.status ∧ s'.prio = s.prio := by
  simp only [sjfSchedule, Sys.runToCompletion, Sys.pickShortest] at h
  repeat' split at h
  all_goals (cases h; exact ⟨⟨rfl, rfl, rfl, rfl, rfl, rfl⟩, rfl, rfl⟩)

/-- What `stcf_schedule` can do on a non-empty ready queue, whose scan gives `next`: keep an
unfinished `current` whose remaining time is below `next`'s, whatever its status; requeue it
otherwise; and detach `next` when `current` is absent or finished. -/
theorem stcfSchedule_cons {p : Nat} {ps : List Nat} (hr : s.readyqueue = p :: ps)
    (h : stcfSchedule s = .ok (n, s')) :
    let next := scanFirst (fun q n => decide (s.lifespan q - s.age q < s.lifespan n - s.age n)) p ps
    (∃ c, s.current = some c ∧ s.lifespan c ≠ s.age c ∧
      s.lifespan c - s.age c < s.lifespan next - s.age next ∧ n = some c ∧ s' = s.listDelInit c) ∨
    (∃ c, s.current = some c ∧ s.lifespan c ≠ s.age c ∧
      s.lifespan next - s.age next ≤ s.lifespan c - s.age c ∧ n = some next ∧
      s' = (s.enqueueReady c).listDelInit next) ∨
    ((∀ c, s.current = some c → s.lifespan c = s.age c) ∧ n = some next ∧
      s' = s.listDelInit next) := by
  intro next
  rw [stcfSchedule, hr] at h
  dsimp only at h
  rcases hc : s.current with _ | c <;> rw [hc] at h <;> dsimp only at h
  · cases h; exact .inr (.inr ⟨fun c h' => (nomatch h'), rfl, rfl⟩)
  · by_cases ha : s.lifespan c = s.age c
    · rw [if_neg (not_not.2 ha)] at h
      cases h; exact .inr (.inr ⟨fun c' h' => Option.some.inj h' ▸ ha, rfl, rfl⟩)
    · rw [if_pos ha] at h
      by_cases hlt : s.lifespan c - s.age c < s.lifespan next - s.age next
      · rw [if_pos hlt] at h
        cases h; exact .inl ⟨c, rfl, ha, hlt, rfl, rfl⟩
      · rw [if_neg hlt] at h
        cases h; exact .inr (.inl ⟨c, rfl, ha, not_lt.1 hlt, rfl, rfl⟩)

theorem stcfSchedule_requeued (h : stcfSchedule s = .ok (n, s')) :
    Requeued s s' ∧ s'.status = s.status ∧ s'.prio = s.prio := by
  cases hr : s.readyqueue with
  | nil =>
    obtain rfl := Sys.keepCurrent_state (by simpa only [stcfSchedule, hr] using h)
    exact ⟨Requeued.refl _, rfl, rfl⟩
  | cons p ps =>
    rcases stcfSchedule_cons hr h with ⟨-, -, -, -, -, rfl⟩ | ⟨-, -, -, -, -, rfl⟩ | ⟨-, -, rfl⟩ <;>
      exact ⟨⟨rfl, rfl, rfl, rfl, rfl, rfl⟩, rfl, rfl⟩

theorem rrSchedule_requeued (h : rrSchedule s = .ok (n, s')) :
    Requeued s s' ∧ s'.status = s.status ∧ s'.prio = s.prio := by
  simp only [rrSchedule, Sys.keepCurrent] at h
  repeat' split at h
  all_goals first | (cases h; exact ⟨⟨rfl, rfl, rfl, rfl, rfl, rfl⟩, rfl, rfl⟩) | cases h

theorem stcfSchedule_error {e : Fault} (h : stcfSchedule s = .error e) : s.readyqueue = [] ∧ s.current = none := by
  cases hr : s.readyqueue with
  | nil => exact ⟨rfl, Sys.keepCurrent_error (by simpa only [stcfSchedule, hr] using h)⟩
  | cons p ps =>
    rw [stcfSchedule, hr] at h
    cases hc : s.current <;> rw [hc] at h <;>
      simp only [apply_ite (· = Except.error e), reduceCtorEq, ite_self] at h

theorem rrSchedule_error {e : Fault} (h : rrSchedule s = .error e) : s.readyqueue = [] ∧ s.current = none := by
  cases hr : s.readyqueue with
  | nil => exact ⟨rfl, Sys.keepCurrent_error (by simpa only [rrSchedule, hr] using h)⟩
  | cons p ps =>
    rw [rrSchedule, hr] at h
    dsimp only at h
    split at h <;> cases h

def fcfsScheduler : Scheduler where
  acquire := fcfsAcquire
  release := fcfsRelease
  schedule := fcfsSchedule

def sjfScheduler : Scheduler where
  acquire := fcfsAcquire
  release := fcfsRelease
  schedule := sjfSchedule

def stcfScheduler : Scheduler where
  acquire := fcfsAcquire
  release := fcfsRelease
  schedule := stcfSchedule

def rrScheduler : Scheduler where
  acquire := fcfsAcquire
  release := fcfsRelease
  schedule := rrSchedule

end CpuSched
