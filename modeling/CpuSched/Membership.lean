import CpuSched.Driver
import Mathlib.Data.List.Nodup

/-! The queue-membership invariant of the specification, and the runs where a BLOCKED
`current` is requeued, unlinked or run, a woken waiter is overtaken, or an idle tick reads a
`NULL` `current`. -/
namespace CpuSched

/-- The queue-membership invariant: every age stays within its lifespan; an unfinished
process other than a running (non-BLOCKED) `current` sits exactly once in exactly one queue,
the ready queue when READY and a single wait queue when BLOCKED; no queue holds a finished
process or the running `current`. -/
structure QueueInv (s : Sys) : Prop where
  age_le : ∀ p, s.age p ≤ s.lifespan p
  ready_nodup : s.readyqueue.Nodup
  wait_nodup : ∀ r, (s.waitqueue r).Nodup
  mem_ready : ∀ p, p ∈ s.readyqueue ↔
    s.age p < s.lifespan p ∧ s.status p = .ready ∧ s.current ≠ some p
  mem_wait : ∀ p, (∃ r, p ∈ s.waitqueue r) ↔ s.age p < s.lifespan p ∧ s.status p = .blocked
  wait_unique : ∀ p r r', p ∈ s.waitqueue r → p ∈ s.waitqueue r' → r = r'

theorem QueueInv.not_mem_ready_of_mem_wait {s : Sys} (hi : QueueInv s) {p r : Nat}
    (hw : p ∈ s.waitqueue r) : p ∉ s.readyqueue := fun hr => by
  have h₁ := ((hi.mem_ready p).1 hr).2.1
  have h₂ := ((hi.mem_wait p).1 ⟨r, hw⟩).2
  rw [h₁] at h₂
  cases h₂

/-- `current` may keep the CPU: it is READY and has lifetime left. -/
def Sys.Runnable (s : Sys) (c : Nat) : Prop := s.status c = .ready ∧ s.age c < s.lifespan c

instance (s : Sys) (c : Nat) : Decidable (s.Runnable c) := inferInstanceAs (Decidable (_ ∧ _))

theorem Sys.not_runnable {s : Sys} {c : Nat} (h : s.lifespan c ≤ s.age c ∨ s.status c = .blocked) :
    ¬ s.Runnable c := fun hr => h.elim (fun hl => hl.not_lt hr.2) fun hb => nomatch hr.1.symm.trans hb

/-- The ids fork has not handed out yet: no lifespan, and not `current`. -/
structure Fresh (s : Sys) : Prop where
  lifespan_eq : ∀ p, s.nproc ≤ p → s.lifespan p = 0
  current_lt : ∀ c, s.current = some c → c < s.nproc

theorem Fresh.congr {s t : Sys} (hf : Fresh s) (hl : t.lifespan = s.lifespan)
    (hn : t.nproc = s.nproc) (hc : t.current = s.current) : Fresh t where
  lifespan_eq p := by rw [hl, hn]; exact hf.lifespan_eq p
  current_lt c := by rw [hc, hn]; exact hf.current_lt c

theorem Fresh.dispatch {s t : Sys} {n : Option Nat} (hf : Fresh s) (hl : t.lifespan = s.lifespan)
    (hn : t.nproc = s.nproc) (hc : ∀ c, n = some c → c < s.nproc) : Fresh (t.dispatch n) where
  lifespan_eq p := by rw [Sys.dispatch_lifespan, hl, Sys.dispatch_nproc, hn]; exact hf.lifespan_eq p
  current_lt c h := by rw [Sys.dispatch_nproc, hn]; exact hc c h

theorem Fresh.fork {s : Sys} (hf : Fresh s) (lifespan prio : Nat) : Fresh (s.fork lifespan prio) where
  lifespan_eq p hp := by
    rw [Sys.fork_lifespan, Function.update_noteq (by simp at hp; omega)]
    exact hf.lifespan_eq p (by simp at hp; omega)
  current_lt c hc := Nat.lt_succ_of_lt (hf.current_lt c hc)

theorem Sys.mem_enqueueWait {s : Sys} {r c q r' : Nat} :
    q ∈ (s.enqueueWait r c).waitqueue r' ↔ q ∈ s.waitqueue r' ∨ (r' = r ∧ q = c) := by
  by_cases h : r' = r
  · subst h; simp
  · simp [h]

theorem queueInv_init : QueueInv Sys.init where
  age_le _ := le_rfl
  ready_nodup := List.nodup_nil
  wait_nodup _ := List.nodup_nil
  mem_ready _ := by simp [Sys.init]
  mem_wait _ := by simp [Sys.init]
  wait_unique _ _ _ h := nomatch h

theorem fresh_init : Fresh Sys.init := ⟨fun _ _ => rfl, nofun⟩

namespace QueueInv

variable {s : Sys} {c p r : Nat}

theorem not_mem_wait_of_ready (hi : QueueInv s) (hp : s.status p = .ready) (r : Nat) :
    p ∉ s.waitqueue r := fun hw => by
  have := ((hi.mem_wait p).1 ⟨r, hw⟩).2
  rw [hp] at this
  cases this

theorem not_mem_ready_of_current (hi : QueueInv s) (hc : s.current = some c) :
    c ∉ s.readyqueue := fun h => ((hi.mem_ready c).1 h).2.2 hc

theorem runnable_of_mem_ready (hi : QueueInv s) (hp : p ∈ s.readyqueue) : s.Runnable p :=
  let ⟨ha, hr, _⟩ := (hi.mem_ready p).1 hp
  ⟨hr, ha⟩

theorem congr {t : Sys} (hi : QueueInv s) (ha : t.age = s.age) (hl : t.lifespan = s.lifespan)
    (hst : t.status = s.status) (hc : t.current = s.current) (hr : t.readyqueue = s.readyqueue)
    (hw : t.waitqueue = s.waitqueue) : QueueInv t := by
  obtain ⟨h₁, h₂, h₃, h₄, h₅, h₆⟩ := hi
  exact ⟨by rwa [ha, hl], by rwa [hr], by rwa [hw], by rwa [hr, ha, hl, hst, hc],
    by rwa [hw, ha, hl, hst], by rwa [hw]⟩

theorem deschedule (hi : QueueInv s) (hc : ∀ c, s.current = some c → ¬ s.Runnable c) :
    QueueInv { s with current := none } where
  age_le := hi.age_le
  ready_nodup := hi.ready_nodup
  wait_nodup := hi.wait_nodup
  mem_ready p := (hi.mem_ready p).trans
    ⟨fun ⟨ha, hr, _⟩ => ⟨ha, hr, nofun⟩, fun ⟨ha, hr, _⟩ => ⟨ha, hr, fun h => hc p h ⟨hr, ha⟩⟩⟩
  mem_wait := hi.mem_wait
  wait_unique := hi.wait_unique

theorem yield (hi : QueueInv s) (hc : s.current = some c) (hr : s.Runnable c) :
    QueueInv { s.enqueueReady c with current := none } where
  age_le := hi.age_le
  ready_nodup := List.nodup_append.2
    ⟨hi.ready_nodup, List.nodup_singleton c, List.disjoint_singleton.2 (hi.not_mem_ready_of_current hc)⟩
  wait_nodup := hi.wait_nodup
  mem_ready p := by
    by_cases h : p = c
    · subst h
      exact iff_of_true (List.mem_append_right _ (List.mem_singleton_self _)) ⟨hr.2, hr.1, nofun⟩
    · simpa [h, hc, Ne.symm h] using hi.mem_ready p
  mem_wait := hi.mem_wait
  wait_unique := hi.wait_unique

theorem switchTo (hi : QueueInv s) (hc : s.current = none) (hp : p ∈ s.readyqueue) :
    QueueInv { s.listDelInit p with current := some p } where
  age_le := hi.age_le
  ready_nodup := hi.ready_nodup.erase p
  wait_nodup r := (hi.wait_nodup r).erase p
  mem_ready q := by
    by_cases h : q = p
    · subst h
      exact iff_of_false hi.ready_nodup.not_mem_erase fun ⟨_, _, h⟩ => h rfl
    · simpa [List.mem_erase_of_ne h, hc, Ne.symm h] using hi.mem_ready q
  mem_wait q := by
    by_cases h : q = p
    · subst h
      have hr := (hi.runnable_of_mem_ready hp).1
      exact iff_of_false (fun ⟨r, hw⟩ => hi.not_mem_wait_of_ready hr r (List.mem_of_mem_erase hw))
        fun ⟨_, hb⟩ => nomatch hr.symm.trans hb
    · simpa [List.mem_erase_of_ne h] using hi.mem_wait q
  wait_unique q r r' h h' :=
    hi.wait_unique q r r' (List.mem_of_mem_erase h) (List.mem_of_mem_erase h')

/-- The framework's tick when `schedule` kept a runnable `current`: it ages by one. -/
theorem tick (hi : QueueInv s) (hc : s.current = some c) (hr : s.Runnable c) :
    QueueInv (s.dispatch (some c)) where
  age_le p := by
    by_cases h : p = c
    · subst h; simpa using hr.2
    · simpa [Function.update_noteq h] using hi.age_le p
  ready_nodup := hi.ready_nodup
  wait_nodup := hi.wait_nodup
  mem_ready p := by
    by_cases h : p = c
    · subst h; simpa using hi.not_mem_ready_of_current hc
    · simpa [Function.update_noteq h, hc] using hi.mem_ready p
  mem_wait p := by
    by_cases h : p = c
    · subst h; simpa [hr.1] using hi.not_mem_wait_of_ready hr.1
    · simpa [Function.update_noteq h] using hi.mem_wait p
  wait_unique := hi.wait_unique

theorem fork (hi : QueueInv s) (hf : Fresh s) {lifespan : Nat} (hl : 0 < lifespan) (prio : Nat) :
    QueueInv (s.fork lifespan prio) where
  age_le p := by
    by_cases h : p = s.nproc
    · subst h; simp
    · simpa [h] using hi.age_le p
  ready_nodup := by
    have : s.nproc ∉ s.readyqueue := fun h => by
      have := ((hi.mem_ready _).1 h).1
      rw [hf.lifespan_eq _ le_rfl] at this
      omega
    exact List.nodup_append.2 ⟨hi.ready_nodup, List.nodup_singleton _, List.disjoint_singleton.2 this⟩
  wait_nodup := hi.wait_nodup
  mem_ready p := by
    by_cases h : p = s.nproc
    · subst h
      exact iff_of_true (List.mem_append_right _ (List.mem_singleton_self _))
        ⟨by simpa using hl, by simp, fun hc => by simpa using hf.current_lt _ hc⟩
    · simpa [h] using hi.mem_ready p
  mem_wait p := by
    by_cases h : p = s.nproc
    · subst h
      refine iff_of_false (fun ⟨r, hw⟩ => ?_) (by simp)
      have := ((hi.mem_wait _).1 ⟨r, hw⟩).1
      rw [hf.lifespan_eq _ le_rfl] at this
      omega
    · simpa [h] using hi.mem_wait p
  wait_unique := hi.wait_unique

theorem block (hi : QueueInv s) (hc : s.current = some c) (hr : s.Runnable c) :
    QueueInv ((s.setStatus c .blocked).enqueueWait r c) where
  age_le := hi.age_le
  ready_nodup := hi.ready_nodup
  wait_nodup r' := by
    by_cases h : r' = r
    · subst h
      simpa using List.nodup_append.2 ⟨hi.wait_nodup r', List.nodup_singleton c,
        List.disjoint_singleton.2 (hi.not_mem_wait_of_ready hr.1 r')⟩
    · simpa [h] using hi.wait_nodup r'
  mem_ready p := by
    by_cases h : p = c
    · subst h; simpa using hi.not_mem_ready_of_current hc
    · simpa [h] using hi.mem_ready p
  mem_wait p := by
    simp only [Sys.mem_enqueueWait]
    by_cases h : p = c
    · subst h; simpa [hi.not_mem_wait_of_ready hr.1] using hr.2
    · simpa [h] using hi.mem_wait p
  wait_unique p r₁ r₂ h₁ h₂ := by
    rw [Sys.mem_enqueueWait] at h₁ h₂
    rcases h₁ with h₁ | ⟨rfl, rfl⟩ <;> rcases h₂ with h₂ | ⟨rfl, h⟩
    · exact hi.wait_unique p r₁ r₂ h₁ h₂
    · exact absurd h₁ (h ▸ hi.not_mem_wait_of_ready hr.1 r₁)
    · exact absurd h₂ (hi.not_mem_wait_of_ready hr.1 r₂)
    · rfl

theorem wake {w : Nat} (hi : QueueInv s) (hw : w ∈ s.waitqueue r) (hc : s.current ≠ some w) :
    QueueInv (((s.listDelInit w).setStatus w .ready).enqueueReady w) where
  age_le := hi.age_le
  ready_nodup := List.nodup_append.2 ⟨hi.ready_nodup.erase w, List.nodup_singleton w,
    List.disjoint_singleton.2 hi.ready_nodup.not_mem_erase⟩
  wait_nodup r' := (hi.wait_nodup r').erase w
  mem_ready p := by
    by_cases h : p = w
    · subst h
      exact iff_of_true (List.mem_append_right _ (List.mem_singleton_self _))
        ⟨((hi.mem_wait p).1 ⟨r, hw⟩).1, by simp, hc⟩
    · simpa [h, List.mem_erase_of_ne h] using hi.mem_ready p
  mem_wait p := by
    by_cases h : p = w
    · subst h
      exact iff_of_false (fun ⟨r', h'⟩ => (hi.wait_nodup r').not_mem_erase h') (by simp)
    · simpa [h, List.mem_erase_of_ne h] using hi.mem_wait p
  wait_unique p r₁ r₂ h₁ h₂ :=
    hi.wait_unique p r₁ r₂ (List.mem_of_mem_erase h₁) (List.mem_of_mem_erase h₂)

theorem setOwner (hi : QueueInv s) {o : Option Nat} : QueueInv (s.setOwner r o) :=
  hi.congr rfl rfl rfl rfl rfl rfl

theorem setPrio (hi : QueueInv s) {v : Nat} : QueueInv (s.setPrio p v) :=
  hi.congr rfl rfl rfl rfl rfl rfl

/-- `list_del_init` of a READY `current` changes nothing: it sits in no queue. -/
theorem listDelInit_current (hi : QueueInv s) (hc : s.current = some c)
    (hr : s.status c = .ready) : s.listDelInit c = s := by
  have hw : ∀ r, (s.waitqueue r).erase c = s.waitqueue r := fun r =>
    List.erase_of_not_mem (hi.not_mem_wait_of_ready hr r)
  simp only [Sys.listDelInit, List.erase_of_not_mem (hi.not_mem_ready_of_current hc), hw]

theorem blockCurrent (hi : QueueInv s) (hc : s.current = some c) (hr : s.Runnable c) :
    QueueInv (((s.listDelInit c).setStatus c .blocked).enqueueWait r c) := by
  rw [hi.listDelInit_current hc hr.1]
  exact hi.block hc hr

/-- A release function's wake-up keeps the invariant when it picks a waiter of `r` and
`current` is READY. -/
theorem wakeWaiter {s' : Sys} {waiter : Option Nat} (hi : QueueInv s)
    (hc : ∀ c, s.current = some c → s.status c = .ready)
    (hw : ∀ w, waiter = some w → w ∈ s.waitqueue r) (h : s.wakeWaiter r waiter = .ok s') :
    QueueInv s' := by
  obtain ⟨-, rfl⟩ | ⟨w, -, rfl, hb, rfl⟩ := Sys.wakeWaiter_ok h
  · exact hi
  · refine hi.wake (hw w rfl) fun h' => ?_
    rw [hc w h'] at hb
    cases hb

theorem exists_wakeWaiter_ok {waiter : Option Nat} (hi : QueueInv s)
    (hw : s.waitqueue r ≠ [] → ∃ w, waiter = some w ∧ w ∈ s.waitqueue r) :
    ∃ s', s.wakeWaiter r waiter = .ok s' := by
  unfold Sys.wakeWaiter
  split
  · exact ⟨_, rfl⟩
  · next hne =>
    obtain ⟨w, rfl, hmem⟩ := hw hne
    exact ⟨_, if_pos ((hi.mem_wait w).1 ⟨r, hmem⟩).2⟩

end QueueInv

/-- Under Round-Robin the tick after a process blocks on a held resource appends it to the
ready queue while it still waits in the wait queue of the resource. -/
theorem rr_requeues_blocked_current :
    ∃ s, Reachable rrScheduler s ∧ 1 ∈ s.readyqueue ∧ 1 ∈ s.waitqueue 0 ∧ ¬ QueueInv s := by
  obtain ⟨s, hs, hp⟩ := reach_of_runOps rrScheduler
    [.fork 5 0, .fork 5 0, .tick, .acquire 0, .tick, .acquire 0, .tick]
    (fun s => decide (1 ∈ s.readyqueue ∧ 1 ∈ s.waitqueue 0)) (by decide)
  obtain ⟨h₁, h₂⟩ := of_decide_eq_true hp
  exact ⟨s, hs, h₁, h₂, fun hi => hi.not_mem_ready_of_mem_wait h₂ h₁⟩

/-- Under STCF the tick after a process blocks unlinks it from the wait queue, with no
release, when its remaining time is the shortest, and runs it while it is BLOCKED. -/
theorem stcf_unlinks_waiter :
    ∃ s s', Reachable stcfScheduler s ∧ exec stcfScheduler s .tick = .ok s' ∧
      1 ∈ s.waitqueue 0 ∧ 1 ∉ s'.waitqueue 0 ∧ s'.current = some 1 ∧ s'.status 1 = .blocked := by
  obtain ⟨s, hs, hp⟩ := reach_of_runOps stcfScheduler
    [.fork 9 0, .tick, .acquire 0, .fork 3 0, .tick, .acquire 0]
    (fun s => match exec stcfScheduler s .tick with
      | .ok s' => decide (1 ∈ s.waitqueue 0 ∧ 1 ∉ s'.waitqueue 0 ∧ s'.current = some 1 ∧
          s'.status 1 = .blocked)
      | .error _ => false)
    (by decide)
  revert hp
  split
  · next s' he => exact fun hp => ⟨s, s', hs, he, of_decide_eq_true hp⟩
  · exact fun hp => absurd hp Bool.false_ne_true

/-- Under Round-Robin a waiter that a tick appended to the ready queue, and that the release
then wakes, moves from the head of the ready queue to its tail, so the process behind it is
the next one taken from the ready queue. -/
theorem rr_wakeup_overtaken :
    ∃ s s', Reachable rrScheduler s ∧ s.readyqueue = [1, 2] ∧
      runOps rrScheduler s [.release 0, .tick] = some s' ∧ s'.current = some 2 := by
  obtain ⟨s, hs, hp⟩ := reach_of_runOps rrScheduler
    [.fork 10 0, .fork 10 0, .fork 10 0, .tick, .acquire 0, .tick, .acquire 0, .tick,
      .tick]
    (fun s => decide (s.readyqueue = [1, 2]) &&
      match runOps rrScheduler s [.release 0, .tick] with
      | some t => decide (t.current = some 2)
      | none => false)
    (by decide)
  rw [Bool.and_eq_true] at hp
  obtain ⟨h₁, h₂⟩ := hp
  revert h₂
  split
  · next t ht => exact fun h₂ => ⟨s, t, hs, of_decide_eq_true h₁, ht, of_decide_eq_true h₂⟩
  · exact fun h₂ => absurd h₂ Bool.false_ne_true

/-- From the empty state the first tick of STCF, Round-Robin, Priority, PCP and PIP reads
`current->age` with `current == NULL`. -/
theorem idle_tick_derefs_null :
    exec stcfScheduler Sys.init .tick = .error .nullDeref ∧
      exec rrScheduler Sys.init .tick = .error .nullDeref ∧
      exec prioScheduler Sys.init .tick = .error .nullDeref ∧
      (∀ maxPrio, exec (pcpScheduler maxPrio) Sys.init .tick = .error .nullDeref) ∧
      exec pipScheduler Sys.init .tick = .error .nullDeref :=
  ⟨rfl, rfl, rfl, fun _ => rfl, rfl⟩

/-- Process 0, with one tick of its lifespan left, has just blocked on resource 0, and no
process is ready. -/
def blockedAlone : Sys :=
  { Sys.init with
    lifespan := fun p => if p = 0 then 2 else 0
    age := fun p => if p = 0 then 1 else 0
    status := fun p => if p = 0 then .blocked else .ready
    nproc := 1
    current := some 0
    waitqueue := fun r => if r = 0 then [0] else [] }

theorem queueInv_blockedAlone : QueueInv blockedAlone where
  age_le p := by by_cases hp : p = 0 <;> simp [blockedAlone, Sys.init, hp]
  ready_nodup := List.nodup_nil
  wait_nodup r := by by_cases hr : r = 0 <;> simp [blockedAlone, hr]
  mem_ready p := by by_cases hp : p = 0 <;> simp [blockedAlone, Sys.init, hp]
  mem_wait p := by
    by_cases hp : p = 0
    · subst hp; simp only [blockedAlone]; exact ⟨fun _ => ⟨by decide, rfl⟩, fun _ => ⟨0, by simp⟩⟩
    · simp [blockedAlone, hp]
  wait_unique p r r' h h' := by
    simp only [blockedAlone] at h h'
    split at h <;> split at h' <;> simp_all

/-- At a state satisfying the invariant whose `current` has just blocked and whose ready queue
is empty, Round-Robin, STCF, Priority, PCP and PIP all return the BLOCKED `current` to run. -/
theorem blocked_current_scheduled :
    QueueInv blockedAlone ∧ blockedAlone.status 0 = .blocked ∧
      rrSchedule blockedAlone = .ok (some 0, blockedAlone) ∧
      stcfSchedule blockedAlone = .ok (some 0, blockedAlone) ∧
      prioSchedule blockedAlone = .ok (some 0, blockedAlone) ∧
      pcpSchedule blockedAlone = .ok (some 0, blockedAlone) ∧
      pipSchedule blockedAlone = .ok (some 0, blockedAlone) :=
  ⟨queueInv_blockedAlone, rfl, rfl, rfl, rfl, rfl, rfl⟩

end CpuSched
