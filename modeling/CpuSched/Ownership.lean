import CpuSched.Driver

/-! Who owns a resource along a run. Under seven of the policies the owner changes only when
`acquire` grants a free resource to `current` or when `release` frees it; `pa_acquire` also
takes a held resource away from its owner. -/
namespace CpuSched

/-- A change of the owner of `r` by a grant of the free `r` to `current` or by a release. -/
def GrantOrRelease (s : Sys) (op : Op) (s' : Sys) (r : Nat) : Prop :=
  (op = .acquire r ∧ s.owner r = none ∧ s'.owner r = s.current) ∨
    (op = .release r ∧ s'.owner r = none)

/-- `pa_acquire` hands a held `r` to a `current` of no lower `prio` and blocks the owner in
the wait queue of `r`. -/
def Eviction (s : Sys) (op : Op) (s' : Sys) (r : Nat) : Prop :=
  op = .acquire r ∧ ∃ o c, s.owner r = some o ∧ s.current = some c ∧ s.prio o ≤ s.prio c ∧
    s'.owner r = some c ∧ s'.status o = .blocked ∧ o ∈ s'.waitqueue r

variable {maxPrio : Nat} {s s' : Sys} {r : Nat}

theorem release_owner (pol : Policy) (h : (pol.scheduler maxPrio).release s r = .ok s') :
    s'.owner = Function.update s.owner r none := by
  cases pol with
  | fcfs | sjf | stcf | rr => exact (Sys.wakeWaiter_requeued (fcfsRelease_ok h).2).1.owner
  | prio => exact (Sys.wakeWaiter_requeued (prioRelease_ok h).2).1.owner
  | pa => exact (Sys.wakeWaiter_requeued (paRelease_ok h).2).1.owner
  | pcp => obtain ⟨_, -, -, -, -, ho⟩ := pcpRelease_prio h; exact ho
  | pip => obtain ⟨_, -, -, -, -, ho⟩ := pipRelease_prio h; exact ho

/-- Every `acquire` but `pa_acquire` sets the owner of a free resource to `current` and
changes no owner otherwise. -/
theorem acquire_owner (pol : Policy) (hpol : pol ≠ .pa) {b : Bool}
    (h : (pol.scheduler maxPrio).acquire s r = .ok (b, s')) :
    (s.owner r = none ∧ b = true ∧ s'.owner = Function.update s.owner r s.current) ∨
      (s.owner r ≠ none ∧ b = false ∧ s'.owner = s.owner) := by
  cases pol with
  | fcfs | sjf | stcf | rr =>
    obtain ⟨h₁, rfl, rfl⟩ | ⟨o, c, h₁, -, rfl, rfl⟩ := fcfsAcquire_ok h
    · exact .inl ⟨h₁, rfl, rfl⟩
    · exact .inr ⟨by simp [h₁], rfl, funext fun _ => rfl⟩
  | prio =>
    obtain ⟨h₁, rfl, rfl⟩ | ⟨o, c, h₁, -, rfl, rfl⟩ := prioAcquire_ok h
    · exact .inl ⟨h₁, rfl, rfl⟩
    · exact .inr ⟨by simp [h₁], rfl, funext fun _ => rfl⟩
  | pa => exact absurd rfl hpol
  | pcp =>
    obtain ⟨c, h₁, hc, rfl, rfl⟩ | ⟨o, c, h₁, -, rfl, rfl⟩ := pcpAcquire_ok h
    · exact .inl ⟨h₁, rfl, by rw [hc]; rfl⟩
    · exact .inr ⟨by simp [h₁], rfl, funext fun _ => rfl⟩
  | pip =>
    obtain ⟨h₁, rfl, rfl⟩ | ⟨o, c, h₁, -, rfl, rfl⟩ := pipAcquire_ok h
    · exact .inl ⟨h₁, rfl, rfl⟩
    · refine .inr ⟨by simp [h₁], rfl, funext fun _ => ?_⟩
      split <;> rfl

/-- The step lemma: under every policy but Priority with aging, an operation changes the
owner of `r` only by a grant of the free `r` to `current` or by a release of `r`. -/
theorem exec_owner_change (pol : Policy) (hpol : pol ≠ .pa) {op : Op}
    (h : exec (pol.scheduler maxPrio) s op = .ok s') (hr : s'.owner r ≠ s.owner r) :
    GrantOrRelease s op s' r := by
  cases op with
  | fork l pr => cases h; exact absurd rfl hr
  | tick =>
    obtain ⟨n, t, hs, rfl⟩ := exec_tick_ok h
    exact absurd (congrFun (schedule_requeued pol hs).1.owner r) hr
  | acquire r' =>
    obtain ⟨b, ha⟩ := exec_acquire_ok h
    rcases acquire_owner pol hpol ha with ⟨h₁, -, h₂⟩ | ⟨-, -, h₂⟩
    · by_cases hr' : r = r'
      · subst hr'; exact .inl ⟨rfl, h₁, by rw [h₂]; simp⟩
      · exact absurd (by rw [h₂, Function.update_noteq hr']) hr
    · exact absurd (by rw [h₂]) hr
  | release r' =>
    have h₂ := release_owner pol h
    by_cases hr' : r = r'
    · subst hr'; exact .inr ⟨rfl, by rw [h₂]; simp⟩
    · exact absurd (by rw [h₂, Function.update_noteq hr']) hr

theorem pa_exec_owner_change {op : Op} (h : exec (paScheduler maxPrio) s op = .ok s')
    (hr : s'.owner r ≠ s.owner r) : GrantOrRelease s op s' r ∨ Eviction s op s' r := by
  cases op with
  | fork l pr => cases h; exact absurd rfl hr
  | tick =>
    obtain ⟨n, t, hs, rfl⟩ := exec_tick_ok h
    exact absurd (congrFun (schedule_requeued .pa hs).1.owner r) hr
  | acquire r' =>
    obtain ⟨b, ha⟩ := exec_acquire_ok h
    rcases paAcquire_ok ha with ⟨h₁, -, rfl⟩ | ⟨o, c, -, -, -, -, rfl⟩ | ⟨o, c, h₁, hc, hle, -, rfl⟩
    · by_cases hr' : r = r'
      · subst hr'; exact .inl (.inl ⟨rfl, h₁, by simp⟩)
      · exact absurd (by simp [Function.update_noteq hr']) hr
    · exact absurd rfl hr
    · by_cases hr' : r = r'
      · subst hr'
        have hoc : o ≠ c := fun hoc => hr (by simp [h₁, hoc])
        exact .inr ⟨rfl, o, c, h₁, hc, hle, by simp, by simp [hoc], by simp⟩
      · exact absurd (by simp [Function.update_noteq hr']) hr
  | release r' =>
    have h₂ := release_owner .pa h
    by_cases hr' : r = r'
    · subst hr'; exact .inl (.inr ⟨rfl, by rw [h₂]; simp⟩)
    · exact absurd (by rw [h₂, Function.update_noteq hr']) hr

/-- The run lemma: an owned resource keeps its owner along every run without a release of it. -/
theorem run_owner_stable (pol : Policy) (hpol : pol ≠ .pa) {ops : List Op} {p : Nat}
    (hrun : Run (pol.scheduler maxPrio) s ops s') (hp : s.owner r = some p)
    (hops : Op.release r ∉ ops) : s'.owner r = some p :=
  Run.invariant (fun t => t.owner r = some p) (fun op => op ≠ .release r)
    (fun t op t' ht hop _ hex => by
      by_contra hne
      rcases exec_owner_change pol hpol hex (by rw [ht]; exact hne) with ⟨-, h₁, -⟩ | ⟨rfl, -⟩
      · rw [ht] at h₁; cases h₁
      · exact hop rfl)
    hrun (fun op hop h => hops (h ▸ hop)) hp

/-- Under every policy but Priority with aging the owner of a resource changes only at a
grant of the free resource to `current` or at its release, so a resource acquired by `p`
stays with `p` until a release of it; `pa_acquire` may in addition evict an owner whose
`prio` is not above the requester's. -/
theorem owner_passes_at_grant_or_release (maxPrio : Nat) :
    (∀ pol : Policy, pol ≠ .pa → ∀ s op s' r, exec (pol.scheduler maxPrio) s op = .ok s' →
        s'.owner r ≠ s.owner r → GrantOrRelease s op s' r) ∧
      (∀ pol : Policy, pol ≠ .pa → ∀ s₀ s ops s' r p,
        (pol.scheduler maxPrio).acquire s₀ r = .ok (true, s) → s₀.current = some p →
        Run (pol.scheduler maxPrio) s ops s' → Op.release r ∉ ops → s'.owner r = some p) ∧
      (∀ s op s' r, exec (paScheduler maxPrio) s op = .ok s' → s'.owner r ≠ s.owner r →
        GrantOrRelease s op s' r ∨ Eviction s op s' r) := by
  refine ⟨fun pol hpol _ _ _ _ h hr => exec_owner_change pol hpol h hr,
    fun pol hpol s₀ s ops s' r p ha hc hrun hops => run_owner_stable pol hpol hrun ?_ hops,
    fun _ _ _ _ h hr => pa_exec_owner_change h hr⟩
  rcases acquire_owner pol hpol ha with ⟨-, -, h₂⟩ | ⟨-, h, -⟩
  · rw [h₂, ← hc]; simp
  · cases h

/-- Under FCFS process 0 runs and process 1 waits in the ready queue. -/
def fcfsPair : Sys := (runOps fcfsScheduler Sys.init [.fork 3 0, .fork 3 0, .tick]).getD Sys.init

/-- Under Priority with aging process 1, of priority 3, runs while process 0 holds resource 0. -/
def paHeld : Sys :=
  (runOps (paScheduler 0) Sys.init [.fork 2 1, .tick, .acquire 0, .tick, .tick, .fork 5 3, .tick]).getD
    Sys.init

theorem owner_passes_at_grant_or_release_fcfsPair :
    (∃ s s', fcfsAcquire fcfsPair 0 = .ok (true, s) ∧
      Run (Policy.fcfs.scheduler 0) s [.tick, .acquire 1, .tick, .tick, .fork 2 0] s' ∧
      s'.owner 0 = some 0) ∧
    ∃ s', exec (paScheduler 0) paHeld (.acquire 0) = .ok s' ∧
      (GrantOrRelease paHeld (.acquire 0) s' 0 ∨ Eviction paHeld (.acquire 0) s' 0) :=
  let ⟨_, hrun⟩ : ∃ s', Run (Policy.fcfs.scheduler 0) (fcfsPair.setOwner 0 (some 0))
      [.tick, .acquire 1, .tick, .tick, .fork 2 0] s' := ⟨_, run_of_runOps rfl⟩
  ⟨⟨_, _, rfl, hrun,
      (owner_passes_at_grant_or_release 0).2.1 .fcfs (by decide) fcfsPair _ _ _ 0 0 rfl rfl hrun
        (by decide)⟩,
    _, rfl, (owner_passes_at_grant_or_release 0).2.2 paHeld _ _ 0 rfl (by decide)⟩

/-- With `MAX_PRIO` at any value, a process that acquired a resource and still holds it
loses it to the acquire of a process of higher `prio` under Priority with aging. -/
theorem pa_takes_held_resource :
    ¬ ∃ maxPrio, ∀ pol : Policy, ∀ s, Reachable (pol.scheduler maxPrio) s → ∀ op s' r,
      op.enabled s = true → exec (pol.scheduler maxPrio) s op = .ok s' →
        s'.owner r ≠ s.owner r → GrantOrRelease s op s' r := by
  rintro ⟨m, h⟩
  let pre : List Op := [.fork 2 1, .tick, .acquire 0, .tick, .tick, .fork 5 3, .tick]
  have key := h .pa ((runOps (paScheduler m) Sys.init pre).getD Sys.init)
    ⟨pre, run_of_runOps rfl⟩ (.acquire 0) _ 0 rfl rfl
  rcases key (fun h => by cases h) with ⟨-, h₁, -⟩ | ⟨h₁, -⟩ <;> cases h₁

end CpuSched
