import CpuSched.Membership

/-! The contract of `schedule` in the specification and the schedulers that meet it, and the
operations that keep the queue-membership invariant. -/
namespace CpuSched

/-- What `schedule` may do: keep a runnable `current`; detach a ready process when `current`
cannot run; requeue a runnable `current` at the ready-queue tail and detach a ready process;
or return none when nothing is ready and `current` cannot run. -/
inductive ScheduleSpec (s : Sys) : Option Nat → Sys → Prop
  | keep {c : Nat} : s.current = some c → s.Runnable c → ScheduleSpec s (some c) s
  | detach {p : Nat} : p ∈ s.readyqueue → (∀ c, s.current = some c → ¬ s.Runnable c) →
      ScheduleSpec s (some p) (s.listDelInit p)
  | preempt {c p : Nat} : s.current = some c → s.Runnable c → p ∈ s.readyqueue →
      ScheduleSpec s (some p) ((s.enqueueReady c).listDelInit p)
  | idle : s.readyqueue = [] → (∀ c, s.current = some c → ¬ s.Runnable c) →
      ScheduleSpec s none s

variable {maxPrio : Nat} {s s' : Sys} {n : Option Nat}

theorem current_not_runnable {c : Nat} (hc : s.current = some c) (h : ¬ s.Runnable c) :
    ∀ c', s.current = some c' → ¬ s.Runnable c' := fun _ h' =>
  Option.some.inj (h'.symm.trans hc) ▸ h

theorem Fresh.lt_of_age_lt {p : Nat} (hf : Fresh s) (h : s.age p < s.lifespan p) : p < s.nproc := by
  by_contra hn
  rw [hf.lifespan_eq p (not_lt.1 hn)] at h
  omega

theorem Fresh.lt_of_mem_ready {p : Nat} (hf : Fresh s) (hi : QueueInv s) (hp : p ∈ s.readyqueue) :
    p < s.nproc :=
  hf.lt_of_age_lt (hi.runnable_of_mem_ready hp).2

namespace ScheduleSpec

/-- A `schedule` that meets the contract keeps the invariant through the tick that follows. -/
theorem queueInv (hi : QueueInv s) (h : ScheduleSpec s n s') : QueueInv (s'.dispatch n) := by
  cases h with
  | keep hc hr => exact hi.tick hc hr
  | detach hp hc =>
    exact ((hi.deschedule hc).switchTo rfl hp).tick rfl (hi.runnable_of_mem_ready hp)
  | preempt hc hr hp =>
    exact ((hi.yield hc hr).switchTo rfl (List.mem_append_left _ hp)).tick rfl
      (hi.runnable_of_mem_ready hp)
  | idle _ hc => exact hi.deschedule hc

theorem fresh (hi : QueueInv s) (hf : Fresh s) (h : ScheduleSpec s n s') :
    Fresh (s'.dispatch n) := by
  cases h with
  | keep hc _ => exact hf.dispatch rfl rfl fun c h => hf.current_lt c (h ▸ hc)
  | detach hp _ => exact hf.dispatch rfl rfl fun c h => (Option.some.inj h) ▸ hf.lt_of_mem_ready hi hp
  | preempt _ _ hp =>
    exact hf.dispatch rfl rfl fun c h => (Option.some.inj h) ▸ hf.lt_of_mem_ready hi hp
  | idle => exact hf.dispatch rfl rfl nofun

/-- A `schedule` that meets the contract and returns `q` either keeps `q` as `current`, or takes
the ready process `q` out of the ready queue, appends at most `current` behind the rest, and
changes no priority. -/
theorem eq_or_detach {q : Nat} (h : ScheduleSpec s (some q) s') :
    (s.current = some q ∧ s' = s) ∨
      (q ∈ s.readyqueue ∧ s'.prio = s.prio ∧ ∃ e, s'.readyqueue = s.readyqueue.erase q ++ e) := by
  cases h with
  | keep hc _ => exact .inl ⟨hc, rfl⟩
  | detach hp _ => exact .inr ⟨hp, rfl, [], (List.append_nil _).symm⟩
  | @preempt c _ _ _ hp =>
    exact .inr ⟨hp, rfl, [c], by simp only [Sys.listDelInit_readyqueue,
      Sys.enqueueReady_readyqueue, List.erase_append_left _ hp]⟩

theorem keeps_unchosen {x q : Nat} (h : ScheduleSpec s (some x) s') (hq : q ∈ s.readyqueue)
    (hxq : x ≠ q) : q ∈ s'.readyqueue := by
  rcases h.eq_or_detach with ⟨-, rfl⟩ | ⟨-, -, e, hrq⟩
  · exact hq
  · exact hrq ▸ List.mem_append_left _ ((List.mem_erase_of_ne (Ne.symm hxq)).2 hq)

theorem age_eq (h : ScheduleSpec s n s') : s'.age = s.age := by
  cases h <;> rfl

theorem status_eq (h : ScheduleSpec s n s') : s'.status = s.status := by
  cases h <;> rfl

/-- A `schedule` that meets the contract leaves every wait queue alone: the process it takes out
of the ready queue waits for nothing. -/
theorem waitqueue_eq (hi : QueueInv s) (h : ScheduleSpec s n s') : s'.waitqueue = s.waitqueue := by
  cases h with
  | keep => rfl
  | detach hp _ =>
    exact funext fun r => List.erase_of_not_mem
      (hi.not_mem_wait_of_ready (hi.runnable_of_mem_ready hp).1 r)
  | preempt _ _ hp =>
    exact funext fun r => List.erase_of_not_mem
      (hi.not_mem_wait_of_ready (hi.runnable_of_mem_ready hp).1 r)
  | idle => rfl

end ScheduleSpec

/-- A `pick_next` that detaches a process of the ready queue, or returns none when the ready
queue is empty. -/
def PicksReady (pickNext : Sys → Option Nat × Sys) : Prop :=
  ∀ s, (s.readyqueue = [] ∧ pickNext s = (none, s)) ∨
    ∃ p ∈ s.readyqueue, pickNext s = (some p, s.listDelInit p)

theorem pickHead_picksReady : PicksReady Sys.pickHead := fun s => by
  unfold Sys.pickHead
  split
  · exact .inl ⟨‹_›, rfl⟩
  · next p ps h => exact .inr ⟨p, by simp [h], rfl⟩

theorem pickShortest_picksReady : PicksReady Sys.pickShortest := fun s => by
  unfold Sys.pickShortest
  split
  · exact .inl ⟨‹_›, rfl⟩
  · next p ps h => exact .inr ⟨_, h ▸ scanFirst_mem _ p ps, rfl⟩

theorem pickHighest_picksReady : PicksReady Sys.pickHighest := fun s => by
  unfold Sys.pickHighest
  split
  · next h => exact .inl ⟨by cases hq : s.readyqueue <;> simp_all [Sys.highestPrio], rfl⟩
  · next p h => exact .inr ⟨p, highestPrio_mem h, rfl⟩

theorem PicksReady.spec {pickNext : Sys → Option Nat × Sys} (hp : PicksReady pickNext)
    (hc : ∀ c, s.current = some c → ¬ s.Runnable c) (h : pickNext s = (n, s')) :
    ScheduleSpec s n s' := by
  rcases hp s with ⟨hr, h'⟩ | ⟨p, hp, h'⟩ <;> rw [h'] at h <;> cases h
  · exact .idle hr hc
  · exact .detach hp hc

/-- The non-preemptive schedulers meet the contract from every state. -/
theorem runToCompletion_spec {pickNext : Sys → Option Nat × Sys} (hp : PicksReady pickNext)
    (h : s.runToCompletion pickNext = (n, s')) : ScheduleSpec s n s' := by
  unfold Sys.runToCompletion at h
  split at h
  · next hc => exact hp.spec (by simp [hc]) h
  · next c hc =>
    split at h
    · next hb => exact hp.spec (current_not_runnable hc fun hr => absurd hr.1 (by simp [hb])) h
    · split at h
      · next hb ha => cases h; exact .keep hc ⟨by simpa using hb, ha⟩
      · next ha => exact hp.spec (current_not_runnable hc fun hr => ha hr.2) h

theorem fcfsSchedule_spec (h : fcfsSchedule s = .ok (n, s')) : ScheduleSpec s n s' :=
  runToCompletion_spec pickHead_picksReady (Except.ok.inj h)

theorem sjfSchedule_spec (h : sjfSchedule s = .ok (n, s')) : ScheduleSpec s n s' :=
  runToCompletion_spec pickShortest_picksReady (Except.ok.inj h)

theorem keepCurrent_spec (hr : s.readyqueue = [])
    (hb : ∀ c, s.current = some c → s.status c = .ready) (h : s.keepCurrent = .ok (n, s')) :
    ScheduleSpec s n s' := by
  unfold Sys.keepCurrent at h
  split at h
  · cases h
  · next c hc =>
    cases h
    split
    · exact .keep hc ⟨hb c hc, ‹_›⟩
    · next ha => exact .idle hr (current_not_runnable hc fun hr' => ha hr'.2)

/-- Round-Robin detaches the head before it appends `current`, which is the same. -/
theorem Sys.listDelInit_enqueueReady {p c : Nat} (hp : p ∈ s.readyqueue) :
    (s.listDelInit p).enqueueReady c = (s.enqueueReady c).listDelInit p := by
  simp only [Sys.listDelInit, Sys.enqueueReady, List.erase_append_left _ hp]

theorem rrSchedule_spec (hi : QueueInv s) (hb : ∀ c, s.current = some c → s.status c = .ready)
    (h : rrSchedule s = .ok (n, s')) : ScheduleSpec s n s' := by
  unfold rrSchedule at h
  split at h
  · exact keepCurrent_spec ‹_› hb h
  · next p ps hr =>
    have hp : p ∈ s.readyqueue := by simp [hr]
    dsimp only at h
    split at h
    · next hc => cases h; exact .detach hp fun _ h' => nomatch hc.symm.trans h'
    · next c hc =>
      cases h
      split
      · rw [Sys.listDelInit_enqueueReady hp]
        exact .preempt hc ⟨hb c hc, lt_of_le_of_ne (hi.age_le c) (Ne.symm ‹_›)⟩ hp
      · next ha =>
        exact .detach hp (current_not_runnable hc fun hr' => absurd hr'.2 (by simp at ha; omega))

theorem stcfSchedule_spec (hi : QueueInv s) (hb : ∀ c, s.current = some c → s.status c = .ready)
    (h : stcfSchedule s = .ok (n, s')) : ScheduleSpec s n s' := by
  cases hr : s.readyqueue with
  | nil => exact keepCurrent_spec hr hb (by simpa only [stcfSchedule, hr] using h)
  | cons p ps =>
    rcases stcfSchedule_cons hr h with ⟨c, hc, ha, -, rfl, rfl⟩ | ⟨c, hc, ha, -, rfl, rfl⟩ |
        ⟨hc, rfl, rfl⟩
    · rw [hi.listDelInit_current hc (hb c hc)]
      exact .keep hc ⟨hb c hc, lt_of_le_of_ne (hi.age_le c) (Ne.symm ha)⟩
    · exact .preempt hc ⟨hb c hc, lt_of_le_of_ne (hi.age_le c) (Ne.symm ha)⟩
        (hr ▸ scanFirst_mem _ _ _)
    · exact .detach (hr ▸ scanFirst_mem _ _ _) fun c h' => Sys.not_runnable (.inl (hc c h').le)

theorem prioSchedule_spec (hi : QueueInv s)
    (hb : s.readyqueue = [] → ∀ c, s.current = some c → s.status c = .ready)
    (h : prioSchedule s = .ok (n, s')) : ScheduleSpec s n s' := by
  cases hr : s.readyqueue with
  | nil => exact keepCurrent_spec hr (hb hr) (by simpa only [prioSchedule, hr] using h)
  | cons p ps =>
    rcases prioSchedule_cons hr h with ⟨c, hc, hst, ha, -, rfl, rfl⟩ |
        ⟨c, hc, hst, ha, -, rfl, rfl⟩ | ⟨hc, rfl, rfl⟩
    · exact .keep hc ⟨hst, lt_of_le_of_ne (hi.age_le c) ha⟩
    · exact .preempt hc ⟨hst, lt_of_le_of_ne (hi.age_le c) ha⟩ (hr ▸ scanFirst_mem _ _ _)
    · exact .detach (hr ▸ scanFirst_mem _ _ _) fun c h' => Sys.not_runnable ((hc c h').imp_left Eq.ge)

theorem pcpSchedule_spec (hb : ∀ c, s.current = some c → s.status c = .ready)
    (h : pcpSchedule s = .ok (n, s')) : ScheduleSpec s n s' := by
  cases hr : s.readyqueue with
  | nil => exact keepCurrent_spec hr hb (by simpa only [pcpSchedule, hr] using h)
  | cons p ps =>
    rcases pcpSchedule_cons hr h with ⟨c, hc, ha, -, rfl, rfl⟩ | ⟨c, hc, hst, ha, -, rfl, rfl⟩ |
        ⟨hc, rfl, rfl⟩
    · exact .keep hc ⟨hb c hc, ha⟩
    · exact .preempt hc ⟨hst, ha⟩ (hr ▸ scanFirst_mem _ _ _)
    · exact .detach (hr ▸ scanFirst_mem _ _ _) fun c h' =>
        Sys.not_runnable ((hc c h').imp_right And.left)

theorem pipSchedule_spec (hb : s.readyqueue = [] → ∀ c, s.current = some c → s.status c = .ready)
    (h : pipSchedule s = .ok (n, s')) : ScheduleSpec s n s' := by
  cases hr : s.readyqueue with
  | nil => exact keepCurrent_spec hr (hb hr) (by simpa only [pipSchedule, hr] using h)
  | cons p ps =>
    rcases pipSchedule_cons hr h with ⟨c, hc, hst, ha, -, rfl, rfl⟩ |
        ⟨c, hc, hst, ha, -, rfl, rfl⟩ | ⟨hc, rfl, rfl⟩
    · exact .keep hc ⟨hst, ha⟩
    · exact .preempt hc ⟨hst, ha⟩ (hr ▸ scanFirst_mem _ _ _)
    · exact .detach (hr ▸ scanFirst_mem _ _ _) fun c h' => Sys.not_runnable (hc c h')

/-- When `current` competes for a non-empty ready queue, `pa_schedule` meets the contract over
the priorities its reset and aging loop leave. -/
theorem paSchedule_aging_spec {c p next : Nat} {ps : List Nat} {t : Sys}
    (hc : s.current = some c) (hb : s.status c ≠ .blocked) (hr : s.readyqueue = p :: ps)
    (hf : ps.foldl (agingStep maxPrio) ((s.setPrio c (s.prioOrig c)).agePrio maxPrio p, p) =
      (t, next))
    (hs : (t.age c < t.lifespan c ∧ t.prio next < t.prio c ∧ n = some c ∧ s' = t) ∨
      (t.age c < t.lifespan c ∧ t.prio c ≤ t.prio next ∧ n = some next ∧
        s' = (t.enqueueReady c).listDelInit next) ∨
      (t.lifespan c ≤ t.age c ∧ n = some next ∧ s' = t.listDelInit next)) :
    Repriced s t ∧ ScheduleSpec t n s' := by
  have ht : Repriced s t := by simpa only [hf] using agingLoop_repriced maxPrio c p ps s
  have hm : next ∈ p :: ps := by
    simpa only [hf] using (agingLoop_aged maxPrio ps ((s.setPrio c (s.prioOrig c)).agePrio maxPrio p, p)).2.2
  have htc : t.current = some c := by rw [ht]; exact hc
  have htr : next ∈ t.readyqueue := by rw [ht]; exact hr ▸ hm
  have hts : t.status c = .ready := by rw [ht]; simpa using hb
  refine ⟨ht, ?_⟩
  rcases hs with ⟨ha, -, rfl, rfl⟩ | ⟨ha, -, rfl, rfl⟩ | ⟨ha, rfl, rfl⟩
  · exact .keep htc ⟨hts, ha⟩
  · exact .preempt htc ⟨hts, ha⟩ htr
  · exact .detach htr (current_not_runnable htc (Sys.not_runnable (.inl ha)))

/-- Every `acquire` but `pa_acquire`, called by a runnable `current`, keeps the invariant. -/
theorem acquire_queueInv (pol : Policy) (hpol : pol ≠ .pa) {r c : Nat} {b : Bool}
    (hi : QueueInv s) (hc : s.current = some c) (hr : s.Runnable c)
    (h : (pol.scheduler maxPrio).acquire s r = .ok (b, s')) : QueueInv s' := by
  have hne : ∀ c', s.current = some c' → c' = c := fun c' h' => Option.some.inj (h'.symm.trans hc)
  cases pol with
  | fcfs | sjf | stcf | rr =>
    obtain ⟨-, -, rfl⟩ | ⟨-, c', -, hc', -, rfl⟩ := fcfsAcquire_ok h
    · exact hi.setOwner
    · obtain rfl := hne c' hc'
      exact hi.block hc hr
  | prio =>
    obtain ⟨-, -, rfl⟩ | ⟨-, c', -, hc', -, rfl⟩ := prioAcquire_ok h
    · exact hi.setOwner
    · obtain rfl := hne c' hc'
      exact hi.blockCurrent hc hr
  | pa => exact absurd rfl hpol
  | pcp =>
    obtain ⟨-, -, -, -, rfl⟩ | ⟨-, c', -, hc', -, rfl⟩ := pcpAcquire_ok h
    · exact hi.setOwner.setPrio
    · obtain rfl := hne c' hc'
      exact hi.blockCurrent hc hr
  | pip =>
    obtain ⟨-, -, rfl⟩ | ⟨-, c', -, hc', -, rfl⟩ := pipAcquire_ok h
    · exact hi.setOwner
    · obtain rfl := hne c' hc'
      split
      · exact hi.setPrio.blockCurrent hc hr
      · exact hi.blockCurrent hc hr

/-- `pa_acquire` is left out above for a reason: its eviction blocks the owner and appends it
to the wait queue wherever the owner is, here an owner that has finished. -/
theorem pa_eviction_breaks_queueInv (maxPrio : Nat) :
    ∃ s, Reachable (paScheduler maxPrio) s ∧ ¬ QueueInv s := by
  let pre : List Op := [.fork 2 1, .tick, .acquire 0, .tick, .tick, .fork 5 3, .tick, .acquire 0]
  refine ⟨(runOps (paScheduler maxPrio) Sys.init pre).getD Sys.init, ⟨pre, run_of_runOps rfl⟩,
    fun hi => ?_⟩
  have h := ((hi.mem_wait 0).1 ⟨0, List.mem_singleton_self 0⟩).1
  change 2 < 2 at h
  omega

/-- Every `release`, called by a READY `current`, keeps the invariant. `pa_release` keeps it
because it can only succeed when no process waits: the process it wakes comes from the ready
queue, and so fails the assertion that it is BLOCKED. -/
theorem release_queueInv (pol : Policy) {r : Nat} (hi : QueueInv s)
    (hc : ∀ c, s.current = some c → s.status c = .ready)
    (h : (pol.scheduler maxPrio).release s r = .ok s') : QueueInv s' := by
  cases pol with
  | fcfs | sjf | stcf | rr =>
    exact hi.setOwner.wakeWaiter hc (fun _ hw => List.mem_of_mem_head? hw) (fcfsRelease_ok h).2
  | prio => exact hi.setOwner.wakeWaiter hc (fun _ hw => highestPrio_mem hw) (prioRelease_ok h).2
  | pa =>
    obtain ⟨-, h'⟩ := paRelease_ok h
    obtain ⟨-, rfl⟩ | ⟨w, -, hw, hb, -⟩ := Sys.wakeWaiter_ok h'
    · exact hi.setOwner
    · exact absurd hb (by simpa using (hi.runnable_of_mem_ready (highestPrio_mem hw)).1)
  | pcp =>
    obtain ⟨o, -, -, h'⟩ := pcpRelease_ok h
    exact hi.setPrio.setOwner.wakeWaiter hc (fun _ hw => highestPrio_mem hw) h'
  | pip =>
    obtain ⟨o, -, -, h'⟩ := pipRelease_ok h
    exact hi.setPrio.setOwner.wakeWaiter hc (fun _ hw => highestPrio_mem hw) h'

theorem acquire_fresh (pol : Policy) {r : Nat} {b : Bool} (hf : Fresh s)
    (h : (pol.scheduler maxPrio).acquire s r = .ok (b, s')) : Fresh s' := by
  cases pol with
  | fcfs | sjf | stcf | rr =>
    obtain ⟨-, -, rfl⟩ | ⟨-, -, -, -, -, rfl⟩ := fcfsAcquire_ok h <;>
      exact hf.congr (funext fun _ => by simp) (by simp) (by simp)
  | prio =>
    obtain ⟨-, -, rfl⟩ | ⟨-, -, -, -, -, rfl⟩ := prioAcquire_ok h <;>
      exact hf.congr (funext fun _ => by simp) (by simp) (by simp)
  | pa =>
    obtain ⟨-, -, rfl⟩ | ⟨-, -, -, -, -, -, rfl⟩ | ⟨-, -, -, -, -, -, rfl⟩ := paAcquire_ok h <;>
      exact hf.congr (funext fun _ => by simp) (by simp) (by simp)
  | pcp =>
    obtain ⟨-, -, -, -, rfl⟩ | ⟨-, -, -, -, -, rfl⟩ := pcpAcquire_ok h <;>
      exact hf.congr (funext fun _ => by simp) (by simp) (by simp)
  | pip =>
    obtain ⟨-, -, rfl⟩ | ⟨o, c, -, -, -, rfl⟩ := pipAcquire_ok h
    · exact hf.congr (funext fun _ => by simp) (by simp) (by simp)
    · exact hf.congr (funext fun _ => by split <;> simp) (by split <;> simp) (by split <;> simp)

theorem release_fresh (pol : Policy) {r : Nat} (hf : Fresh s)
    (h : (pol.scheduler maxPrio).release s r = .ok s') : Fresh s' := by
  cases pol with
  | fcfs | sjf | stcf | rr =>
    have hq := (Sys.wakeWaiter_requeued (fcfsRelease_ok h).2).1
    exact hf.congr hq.lifespan hq.nproc hq.current
  | prio =>
    have hq := (Sys.wakeWaiter_requeued (prioRelease_ok h).2).1
    exact hf.congr hq.lifespan hq.nproc hq.current
  | pa =>
    have hq := (Sys.wakeWaiter_requeued (paRelease_ok h).2).1
    exact hf.congr hq.lifespan hq.nproc hq.current
  | pcp =>
    obtain ⟨_, -, -, hw⟩ := pcpRelease_ok h
    have hq := (Sys.wakeWaiter_requeued hw).1
    exact hf.congr hq.lifespan hq.nproc hq.current
  | pip =>
    obtain ⟨_, -, -, hw⟩ := pipRelease_ok h
    have hq := (Sys.wakeWaiter_requeued hw).1
    exact hf.congr hq.lifespan hq.nproc hq.current

/-- The step lemma of every policy but Priority with aging: an enabled operation keeps the
invariant and the freshness of fork ids, a tick as long as `schedule` meets the contract there. -/
theorem exec_queueInv (pol : Policy) (hpol : pol ≠ .pa) {op : Op} (hi : QueueInv s)
    (hf : Fresh s) (hen : op.enabled s = true)
    (hs : op = .tick → ∀ n t, (pol.scheduler maxPrio).schedule s = .ok (n, t) → ScheduleSpec s n t)
    (h : exec (pol.scheduler maxPrio) s op = .ok s') : QueueInv s' ∧ Fresh s' := by
  cases op with
  | fork l pr =>
    cases h
    exact ⟨hi.fork hf (by simpa [Op.enabled] using hen) pr, hf.fork l pr⟩
  | tick =>
    obtain ⟨n, t, ht, rfl⟩ := exec_tick_ok h
    have hst := hs rfl n t ht
    exact ⟨hst.queueInv hi, hst.fresh hi hf⟩
  | acquire r =>
    obtain ⟨b, hb⟩ := exec_acquire_ok h
    obtain ⟨c, hc, hst, ha⟩ := Op.enabled_acquire hen
    exact ⟨acquire_queueInv pol hpol hi hc ⟨by simpa using hst, ha⟩ hb, acquire_fresh pol hf hb⟩
  | release r =>
    obtain ⟨c, hc, -, hst⟩ := Op.enabled_release hen
    have hc' : ∀ c', s.current = some c' → s.status c' = .ready := fun c' h' => by
      obtain rfl := Option.some.inj (h'.symm.trans hc)
      simpa using hst
    exact ⟨release_queueInv pol hi hc' h, release_fresh pol hf h⟩

section RunToCompletion

variable (pol : Policy) (hpol : pol = .fcfs ∨ pol = .sjf)
include hpol

/-- The step lemma of FCFS and SJF: every enabled operation keeps the invariant. -/
theorem fcfs_exec_queueInv {op : Op} (hi : QueueInv s) (hf : Fresh s)
    (hen : op.enabled s = true) (h : exec (pol.scheduler maxPrio) s op = .ok s') :
    QueueInv s' ∧ Fresh s' :=
  exec_queueInv pol (by rcases hpol with rfl | rfl <;> decide) hi hf hen
    (fun _ _ _ ht => by rcases hpol with rfl | rfl; exacts [fcfsSchedule_spec ht, sjfSchedule_spec ht])
    h

theorem fcfs_reachable_queueInv (hs : Reachable (pol.scheduler maxPrio) s) : QueueInv s ∧ Fresh s :=
  let ⟨_, hrun⟩ := hs
  Run.invariant (fun t => QueueInv t ∧ Fresh t) (fun _ => True)
    (fun _ _ _ hi _ hen hex => fcfs_exec_queueInv pol hpol hi.1 hi.2 hen hex) hrun
    (fun _ _ => trivial) ⟨queueInv_init, fresh_init⟩

theorem fcfs_exec_ok {op : Op} (hi : QueueInv s) (hen : op.enabled s = true) :
    ∃ s', exec (pol.scheduler maxPrio) s op = .ok s' := by
  cases op with
  | fork l pr => exact ⟨_, rfl⟩
  | tick => rcases hpol with rfl | rfl <;> exact ⟨_, rfl⟩
  | acquire r =>
    obtain ⟨c, hc, -⟩ := Op.enabled_acquire hen
    obtain ⟨b, t, ht⟩ : ∃ b t, fcfsAcquire s r = .ok (b, t) := by
      unfold fcfsAcquire
      split
      · exact ⟨_, _, rfl⟩
      · simp_all
      · exact ⟨_, _, rfl⟩
    rcases hpol with rfl | rfl <;>
      exact ⟨t, by simp [exec, Policy.scheduler, fcfsScheduler, sjfScheduler, ht]⟩
  | release r =>
    obtain ⟨c, hc, ho, -⟩ := Op.enabled_release hen
    obtain ⟨t, ht⟩ : ∃ t, (s.setOwner r none).wakeWaiter r (s.waitqueue r).head? = .ok t :=
      hi.setOwner.exists_wakeWaiter_ok fun hne => by
        obtain ⟨w, ws, hq⟩ : ∃ w ws, s.waitqueue r = w :: ws := List.exists_cons_of_ne_nil hne
        exact ⟨w, by simp [hq], by simp [hq]⟩
    rcases hpol with rfl | rfl <;>
      exact ⟨t, by simpa [exec, Policy.scheduler, fcfsScheduler, sjfScheduler, fcfsRelease, ho, hc]⟩

/-- Under FCFS and SJF every reachable state satisfies the queue-membership invariant, and no
enabled operation aborts from it. -/
theorem fcfs_runs_safe (hs : Reachable (pol.scheduler maxPrio) s) :
    QueueInv s ∧ ∀ op, op.enabled s = true → ∃ s', exec (pol.scheduler maxPrio) s op = .ok s' :=
  have hi := (fcfs_reachable_queueInv pol hpol hs).1
  ⟨hi, fun _ hen => fcfs_exec_ok pol hpol hi hen⟩

end RunToCompletion

/-- Process 0 holds resource 0 and process 1 waits for it under FCFS. -/
def fcfsOneWaiter : Sys :=
  (runOps fcfsScheduler Sys.init [.fork 2 0, .fork 2 0, .tick, .acquire 0, .tick, .tick,
    .acquire 0]).getD Sys.init

theorem fcfs_runs_safe_oneWaiter :
    QueueInv fcfsOneWaiter ∧ ∀ op, op.enabled fcfsOneWaiter = true →
      ∃ s', exec (Policy.fcfs.scheduler 0) fcfsOneWaiter op = .ok s' :=
  fcfs_runs_safe .fcfs (.inl rfl)
    ⟨[.fork 2 0, .fork 2 0, .tick, .acquire 0, .tick, .tick, .acquire 0], run_of_runOps rfl⟩

/-- A tick has a process to run or keep: a ready process, or a READY `current`. -/
def Sys.Schedulable (s : Sys) : Prop :=
  s.readyqueue ≠ [] ∨ ∃ c, s.current = some c ∧ s.status c = .ready

instance (s : Sys) : Decidable s.Schedulable :=
  decidable_of_iff (s.readyqueue ≠ [] ∨ s.current.any fun c => s.status c = .ready) <| by
    cases h : s.current <;> simp [Sys.Schedulable, h]

section PriorityRuns

variable (pol : Policy) (hpol : pol = .prio ∨ pol = .pip)
include hpol

/-- Priority and PIP meet the contract at every tick that has a process to schedule. -/
theorem prio_schedule_spec (hi : QueueInv s) (hg : s.Schedulable)
    (h : (pol.scheduler maxPrio).schedule s = .ok (n, s')) : ScheduleSpec s n s' := by
  have hb : s.readyqueue = [] → ∀ c, s.current = some c → s.status c = .ready := fun hr c hc => by
    rcases hg with hne | ⟨c', hc', hst⟩
    · exact absurd hr hne
    · exact Option.some.inj (hc'.symm.trans hc) ▸ hst
  rcases hpol with rfl | rfl
  exacts [prioSchedule_spec hi hb h, pipSchedule_spec hb h]

/-- Under Priority and PIP no enabled operation aborts from a state satisfying the invariant, a
tick as long as it has a process to schedule. -/
theorem prio_exec_ok {op : Op} (hi : QueueInv s) (hen : op.enabled s = true)
    (hg : op = .tick → s.Schedulable) : ∃ s', exec (pol.scheduler maxPrio) s op = .ok s' := by
  cases op with
  | fork l pr => exact ⟨_, rfl⟩
  | tick =>
    cases hs : (pol.scheduler maxPrio).schedule s with
    | error e =>
      obtain ⟨hr, hc⟩ := schedule_error pol hs
      rcases hg rfl with hne | ⟨c, hc', -⟩
      · exact absurd hr hne
      · exact absurd (hc.symm.trans hc') nofun
    | ok r => exact ⟨r.2.dispatch r.1, by simp only [exec, hs]⟩
  | acquire r =>
    obtain ⟨c, hc, -⟩ := Op.enabled_acquire hen
    obtain ⟨b, t, ht⟩ : ∃ b t, (pol.scheduler maxPrio).acquire s r = .ok (b, t) := by
      rcases hpol with rfl | rfl <;> cases hro : s.owner r <;>
        simp only [Policy.scheduler, prioScheduler, pipScheduler, prioAcquire, pipAcquire, hc, hro] <;>
        exact ⟨_, _, rfl⟩
    exact ⟨t, by simp only [exec, ht]⟩
  | release r =>
    obtain ⟨c, hc, ho, -⟩ := Op.enabled_release hen
    have hw : ∀ t : Sys, t.waitqueue r ≠ [] →
        ∃ w, t.highestPrio (t.waitqueue r) = some w ∧ w ∈ t.waitqueue r := fun t hne => by
      obtain ⟨w, ws, hq⟩ := List.exists_cons_of_ne_nil hne
      exact ⟨_, by rw [hq]; rfl, highestPrio_mem (by rw [hq]; rfl)⟩
    rcases hpol with rfl | rfl
    · obtain ⟨t, ht⟩ := hi.setOwner.exists_wakeWaiter_ok (hw _)
      exact ⟨t, by simpa only [exec, Policy.scheduler, prioScheduler, prioRelease, ho, hc] using ht⟩
    · have hi' : QueueInv ((s.setPrio c (s.prioOrig c)).setOwner r none) := hi.setPrio.setOwner
      obtain ⟨t, ht⟩ := hi'.exists_wakeWaiter_ok (hw _)
      exact ⟨t, by simpa only [exec, Policy.scheduler, pipScheduler, pipRelease, ho, hc] using ht⟩

/-- Under Priority and PIP every state of a run from the empty state whose every tick has a
process to schedule satisfies the invariant, with fresh fork ids. -/
theorem prio_reachable_queueInv {ops : List Op} (hrun : Run (pol.scheduler maxPrio) Sys.init ops s)
    (hticks : ∀ ops₁ ops₂ t, ops = ops₁ ++ .tick :: ops₂ →
      Run (pol.scheduler maxPrio) Sys.init ops₁ t → t.Schedulable) : QueueInv s ∧ Fresh s :=
  have hpa : pol ≠ .pa := by rcases hpol with rfl | rfl <;> decide
  Run.invariant_of_guard (fun t => QueueInv t ∧ Fresh t) (fun t op => op = .tick → t.Schedulable)
    (fun _ _ _ hi hg hen hex => exec_queueInv pol hpa hi.1 hi.2 hen
      (fun ht _ _ hs => prio_schedule_spec pol hpol hi.1 (hg ht) hs) hex)
    hrun (fun ops₁ op ops₂ t h hr hop => hticks ops₁ ops₂ t (hop ▸ h) hr)
    ⟨queueInv_init, fresh_init⟩

/-- Under Priority and PIP, along every run from the empty state whose every tick has a ready
process or a READY `current` to schedule, every state satisfies the queue-membership invariant,
and no enabled operation aborts from it, a tick as long as it has a process to schedule. -/
theorem prio_runs_safe {ops : List Op} (hrun : Run (pol.scheduler maxPrio) Sys.init ops s)
    (hticks : ∀ ops₁ ops₂ t, ops = ops₁ ++ .tick :: ops₂ →
      Run (pol.scheduler maxPrio) Sys.init ops₁ t → t.Schedulable) :
    QueueInv s ∧ ∀ op, op.enabled s = true → (op = .tick → s.Schedulable) →
      ∃ s', exec (pol.scheduler maxPrio) s op = .ok s' :=
  have hi := (prio_reachable_queueInv pol hpol hrun hticks).1
  ⟨hi, fun _ hen hg => prio_exec_ok pol hpol hi hen hg⟩

end PriorityRuns

/-- Process 0 takes resource 0 and is preempted by process 1 of higher `prio`, which blocks on
it; process 0 runs again and releases it, and process 1 preempts it. -/
def prioHandover : List Op :=
  [.fork 5 1, .tick, .acquire 0, .fork 5 2, .tick, .acquire 0, .tick, .release 0, .tick]

theorem prio_runs_safe_prioHandover :
    let s := (runOps prioScheduler Sys.init prioHandover).getD Sys.init
    QueueInv s ∧ ∀ op, op.enabled s = true → (op = .tick → s.Schedulable) →
      ∃ s', exec (Policy.prio.scheduler 0) s op = .ok s' :=
  prio_runs_safe .prio (.inl rfl) (run_of_runOps (rfl : runOps prioScheduler Sys.init prioHandover = _))
    (ticksFrom_ticks
      (rfl : ticksFrom prioScheduler (fun t => decide t.Schedulable) Sys.init prioHandover = true))

end CpuSched
