import CpuSched.Contract

/-! Which waiter each release function wakes: Priority, PCP and PIP the earliest of highest
`prio`, and `pa_release`, which scans the ready queue, none. -/
namespace CpuSched

variable {s s' : Sys} {r : Nat}

/-- Waking the waiter `w` of `r`, in no ready queue, moves it from the wait queue to the
ready-queue tail, READY, and changes no owner. -/
theorem Sys.wakeWaiter_some {w : Nat} (hne : s.waitqueue r ≠ []) (hw : w ∉ s.readyqueue)
    (h : s.wakeWaiter r (some w) = .ok s') :
    s'.readyqueue = s.readyqueue ++ [w] ∧ s'.waitqueue r = (s.waitqueue r).erase w ∧
      s'.status w = .ready ∧ s'.owner = s.owner := by
  rcases Sys.wakeWaiter_ok h with ⟨he, -⟩ | ⟨v, -, hv, -, rfl⟩
  · exact absurd he hne
  · obtain rfl := Option.some.inj hv
    exact ⟨by simp [List.erase_of_not_mem hw], by simp, by simp, funext fun _ => rfl⟩

/-- Priority, PCP and PIP hand a released resource to no one and wake its waiter of highest
`prio`, the earliest of them in the wait queue: from every invariant state where a READY
`current` releases `r` while processes wait for it, that waiter leaves the wait queue and joins
the ready-queue tail READY, and `r` is left free. The `prio_orig` that PCP and PIP restore is
that of `current`, which waits for nothing, so it changes no waiter's rank. -/
theorem prio_release_wakes_highest (pol : Policy) (hpol : pol = .prio ∨ pol = .pcp ∨ pol = .pip)
    {maxPrio : Nat} (hi : QueueInv s) (hc : ∀ c, s.current = some c → s.status c = .ready)
    (h : (pol.scheduler maxPrio).release s r = .ok s') (hne : s.waitqueue r ≠ []) :
    ∃ w, ((∀ q ∈ s.waitqueue r, s.prio q ≤ s.prio w) ∧
        ∃ l₁ l₂, s.waitqueue r = l₁ ++ w :: l₂ ∧ ∀ q ∈ l₁, s.prio q < s.prio w) ∧
      s'.readyqueue = s.readyqueue ++ [w] ∧ s'.waitqueue r = (s.waitqueue r).erase w ∧
      s'.status w = .ready ∧ s'.owner r = none := by
  obtain ⟨q₀, qs, hq⟩ := List.exists_cons_of_ne_nil hne
  -- every release of the three wakes the first waiter of highest `prio` in a state `t` that
  -- differs from `s` in the owner of `r` and at most in the `prio` of `current`
  obtain ⟨t, ht, hto, htp, hw, htw⟩ : ∃ t : Sys, t.readyqueue = s.readyqueue ∧ t.owner r = none ∧
      (∀ q ∈ s.waitqueue r, t.prio q = s.prio q) ∧
      t.wakeWaiter r (t.highestPrio (s.waitqueue r)) = .ok s' ∧ t.waitqueue = s.waitqueue := by
    rcases hpol with rfl | rfl | rfl
    · exact ⟨s.setOwner r none, rfl, by simp, fun _ _ => rfl, (prioRelease_ok h).2, rfl⟩
    · obtain ⟨o, -, ho, hw⟩ := pcpRelease_ok h
      exact ⟨(s.setPrio o (s.prioOrig o)).setOwner r none, rfl, by simp, fun q hq =>
        Function.update_noteq (fun hqo : q = o => hi.not_mem_wait_of_ready (hc _ (hqo ▸ ho)) r hq) _ _,
        hw, rfl⟩
    · obtain ⟨o, -, ho, hw⟩ := pipRelease_ok h
      exact ⟨(s.setPrio o (s.prioOrig o)).setOwner r none, rfl, by simp, fun q hq =>
        Function.update_noteq (fun hqo : q = o => hi.not_mem_wait_of_ready (hc _ (hqo ▸ ho)) r hq) _ _,
        hw, rfl⟩
  obtain ⟨w, hwp⟩ : ∃ w, t.highestPrio (s.waitqueue r) = some w := ⟨_, by rw [hq]; rfl⟩
  have hmem := highestPrio_mem hwp
  obtain ⟨hmax, l₁, l₂, hl, hlt⟩ := highestPrio_spec hwp
  have hlw : ∀ q ∈ l₁, q ∈ s.waitqueue r := fun q h => hl ▸ List.mem_append_left _ h
  obtain ⟨hr', hw', hst, ho'⟩ :=
    Sys.wakeWaiter_some (htw ▸ hne) (ht ▸ hi.not_mem_ready_of_mem_wait hmem) (hwp ▸ hw)
  refine ⟨w, ⟨fun q hq => ?_, l₁, l₂, hl, fun q hq => ?_⟩, by rw [hr', ht], by rw [hw', htw],
    hst, by rw [ho', hto]⟩
  · rw [← htp q hq, ← htp w hmem]; exact hmax q hq
  · rw [← htp q (hlw q hq), ← htp w hmem]; exact hlt q hq

/-- Process 0 runs and owns resource 0, for which processes 1 and 2, of `prio` 1 and 2, wait in
that order, and no process is ready: the run of Priority that leads there. -/
def twoWaitersOps : List Op :=
  [.fork 10 0, .tick, .acquire 0, .fork 10 1, .tick, .acquire 0, .tick, .fork 10 2, .tick,
    .acquire 0, .tick]

def twoWaiters : Sys := (runOps prioScheduler Sys.init twoWaitersOps).getD Sys.init

theorem twoWaiters_inv : QueueInv twoWaiters ∧ Fresh twoWaiters :=
  prio_reachable_queueInv .prio (.inl rfl)
    (run_of_runOps (rfl : runOps (Policy.prio.scheduler 0) Sys.init twoWaitersOps = _))
    (ticksFrom_ticks
      (rfl : ticksFrom prioScheduler (fun t => decide t.Schedulable) Sys.init twoWaitersOps = true))

theorem queueInv_twoWaiters : QueueInv twoWaiters := twoWaiters_inv.1

theorem prio_release_wakes_highest_twoWaiters :
    ∃ s', prioRelease twoWaiters 0 = .ok s' ∧ ∃ w,
      ((∀ q ∈ twoWaiters.waitqueue 0, twoWaiters.prio q ≤ twoWaiters.prio w) ∧
        ∃ l₁ l₂, twoWaiters.waitqueue 0 = l₁ ++ w :: l₂ ∧
          ∀ q ∈ l₁, twoWaiters.prio q < twoWaiters.prio w) ∧
      s'.readyqueue = twoWaiters.readyqueue ++ [w] ∧
      s'.waitqueue 0 = (twoWaiters.waitqueue 0).erase w ∧ s'.status w = .ready ∧ s'.owner 0 = none :=
  ⟨_, rfl, prio_release_wakes_highest .prio (.inl rfl) queueInv_twoWaiters
    (fun _ h => Option.some.inj h ▸ rfl) (rfl : (Policy.prio.scheduler 0).release twoWaiters 0 = _)
    (by decide)⟩

/-- `pa_release` wakes no waiter: from every invariant state where `current` owns `r`, it frees
`r` when no process waits for it, and otherwise aborts, since it takes its waiter from the ready
queue: on the assertion that this process is BLOCKED, or on a `NULL` waiter when no process is
ready. -/
theorem pa_release_wakes_no_waiter (hi : QueueInv s) (ho : s.owner r = s.current) :
    (s.waitqueue r = [] → paRelease s r = .ok (s.setOwner r none)) ∧
      (s.waitqueue r ≠ [] →
        paRelease s r = .error (if s.readyqueue = [] then .nullDeref else .assertFail)) := by
  simp only [paRelease, if_pos ho]
  refine ⟨fun hw => by simp [Sys.wakeWaiter, hw], fun hw => ?_⟩
  cases hr : s.readyqueue with
  | nil => simp [Sys.wakeWaiter, hw, hr, Sys.highestPrio]
  | cons p ps =>
    have hst := (hi.runnable_of_mem_ready (hr ▸ scanFirst_mem (s.setOwner r none).prioAbove p ps)).1
    simp [Sys.wakeWaiter, hw, hr, Sys.highestPrio, hst]

theorem pa_release_wakes_no_waiter_twoWaiters :
    paRelease twoWaiters 0 = .error .nullDeref :=
  (pa_release_wakes_no_waiter queueInv_twoWaiters (rfl : twoWaiters.owner 0 = twoWaiters.current)).2
    (by decide)

/-- Process 0 runs and owns resource 0, process 1 waits for it, and no process is ready. -/
def ownerWithWaiter : Sys :=
  { Sys.init with
    lifespan := fun p => if p = 0 ∨ p = 1 then 2 else 0
    age := fun p => if p = 0 then 1 else 0
    status := fun p => if p = 1 then .blocked else .ready
    nproc := 2
    current := some 0
    owner := fun r => if r = 0 then some 0 else none
    waitqueue := fun r => if r = 0 then [1] else [] }

theorem queueInv_ownerWithWaiter : QueueInv ownerWithWaiter where
  age_le p := by by_cases hp : p = 0 <;> simp [ownerWithWaiter, Sys.init, hp]
  ready_nodup := List.nodup_nil
  wait_nodup r := by by_cases hr : r = 0 <;> simp [ownerWithWaiter, hr]
  mem_ready p := by
    by_cases h₀ : p = 0
    · simp [ownerWithWaiter, Sys.init, h₀]
    · by_cases h₁ : p = 1 <;> simp [ownerWithWaiter, Sys.init, h₀, h₁]
  mem_wait p := by
    by_cases h₁ : p = 1
    · subst h₁; simp only [ownerWithWaiter]
      exact ⟨fun _ => ⟨by decide, rfl⟩, fun _ => ⟨0, by simp⟩⟩
    · by_cases h₀ : p = 0
      · subst h₀; simp [ownerWithWaiter]
      · simp [ownerWithWaiter, h₀, h₁]
  wait_unique p r r' h h' := by
    simp only [ownerWithWaiter] at h h'
    split at h <;> split at h' <;> simp_all

/-- `pa_release` looks for its waiter in the ready queue: at a state satisfying the invariant
where `current` releases a resource with one waiter and no process is ready, it dereferences
a `NULL` waiter, where `prio_release` wakes the waiter. -/
theorem pa_release_scans_readyqueue :
    QueueInv ownerWithWaiter ∧ ownerWithWaiter.owner 0 = ownerWithWaiter.current ∧
      ownerWithWaiter.waitqueue 0 = [1] ∧ paRelease ownerWithWaiter 0 = .error .nullDeref ∧
      prioRelease ownerWithWaiter 0 =
        .ok ((((ownerWithWaiter.setOwner 0 none).listDelInit 1).setStatus 1 .ready).enqueueReady 1) :=
  ⟨queueInv_ownerWithWaiter, rfl, rfl, rfl, rfl⟩

end CpuSched
