import CpuSched.Ownership

/-! Priorities along a run. Under every policy each priority stays between its baseline and
`MAX_PRIO`, and aging lowers only `current`. Under the ceiling and inheritance protocols a
process that owns no resource runs at its baseline priority. -/
namespace CpuSched

/-- Every priority lies between its baseline and `MAX_PRIO`. -/
def PrioBounded (maxPrio : Nat) (s : Sys) : Prop :=
  ∀ p, s.prioOrig p ≤ s.prio p ∧ s.prio p ≤ maxPrio

variable {maxPrio : Nat} {s s' : Sys} {r : Nat}

theorem prioBounded_init (maxPrio : Nat) : PrioBounded maxPrio Sys.init :=
  fun _ => ⟨le_rfl, Nat.zero_le _⟩

theorem PrioBounded.congr (hb : PrioBounded maxPrio s) (hp : s'.prio = s.prio)
    (ho : s'.prioOrig = s.prioOrig) : PrioBounded maxPrio s' := by
  intro p; rw [hp, ho]; exact hb p

theorem PrioBounded.setPrio (hb : PrioBounded maxPrio s) {p v : Nat} (hv : s.prioOrig p ≤ v)
    (hv' : v ≤ maxPrio) : PrioBounded maxPrio (s.setPrio p v) := fun q => by
  by_cases hq : q = p
  · subst hq; simp [hv, hv']
  · simpa [Function.update_noteq hq] using hb q

theorem PrioBounded.fork (hb : PrioBounded maxPrio s) {l pr : Nat} (hpr : pr ≤ maxPrio) :
    PrioBounded maxPrio (s.fork l pr) := fun p => by
  by_cases hp : p = s.nproc
  · subst hp; simp [hpr]
  · simpa [Function.update_noteq hp] using hb p

theorem PrioBounded.aged (hb : PrioBounded maxPrio s) (ha : Aged maxPrio s s')
    (ho : s'.prioOrig = s.prioOrig) : PrioBounded maxPrio s' := fun p => by
  obtain ⟨h₁, h₂⟩ := hb p
  obtain ⟨h₃, h₄⟩ := ha p
  rw [ho]
  exact ⟨h₁.trans h₃, h₄.elim (fun h => h ▸ h₂) id⟩

/-- Every `acquire` keeps the bounds: only PCP and PIP change a priority there, to the ceiling
or to the requester's. -/
theorem acquire_prioBounded (pol : Policy) {b : Bool} (hb : PrioBounded maxPrio s)
    (h : (pol.scheduler maxPrio).acquire s r = .ok (b, s')) : PrioBounded maxPrio s' := by
  cases pol with
  | fcfs | sjf | stcf | rr =>
    obtain ⟨-, -, rfl⟩ | ⟨o, c, -, -, -, rfl⟩ := fcfsAcquire_ok h <;> exact fun p => hb p
  | prio =>
    obtain ⟨-, -, rfl⟩ | ⟨o, c, -, -, -, rfl⟩ := prioAcquire_ok h <;> exact fun p => hb p
  | pa =>
    obtain ⟨-, -, rfl⟩ | ⟨o, c, -, -, -, -, rfl⟩ | ⟨o, c, -, -, -, -, rfl⟩ := paAcquire_ok h <;>
      exact fun p => hb p
  | pcp =>
    obtain ⟨c, -, -, -, rfl⟩ | ⟨o, c, -, -, -, rfl⟩ := pcpAcquire_ok h
    · have hb' : PrioBounded maxPrio (s.setOwner r (some c)) := fun p => hb p
      exact hb'.setPrio ((hb c).1.trans (hb c).2) le_rfl
    · exact fun p => hb p
  | pip =>
    obtain ⟨-, -, rfl⟩ | ⟨o, c, -, -, -, rfl⟩ := pipAcquire_ok h
    · exact fun p => hb p
    · split
      · exact fun p => hb.setPrio ((hb o).1.trans (le_of_lt ‹_›)) (hb c).2 p
      · exact fun p => hb p

/-- Every `release` keeps the bounds: PCP and PIP restore the owner's `prio_orig`. -/
theorem release_prioBounded (pol : Policy) (hb : PrioBounded maxPrio s)
    (h : (pol.scheduler maxPrio).release s r = .ok s') : PrioBounded maxPrio s' := by
  cases pol with
  | fcfs | sjf | stcf | rr =>
    obtain ⟨hw, hp⟩ := Sys.wakeWaiter_requeued (fcfsRelease_ok h).2
    exact hb.congr hp hw.prioOrig
  | prio =>
    obtain ⟨hw, hp⟩ := Sys.wakeWaiter_requeued (prioRelease_ok h).2
    exact hb.congr hp hw.prioOrig
  | pa =>
    obtain ⟨hw, hp⟩ := Sys.wakeWaiter_requeued (paRelease_ok h).2
    exact hb.congr hp hw.prioOrig
  | pcp =>
    obtain ⟨o, -, -, hp, ho, -⟩ := pcpRelease_prio h
    exact (hb.setPrio le_rfl ((hb o).1.trans (hb o).2)).congr hp ho
  | pip =>
    obtain ⟨o, -, -, hp, ho, -⟩ := pipRelease_prio h
    exact (hb.setPrio le_rfl ((hb o).1.trans (hb o).2)).congr hp ho

/-- The step lemma: every operation keeps the bounds, a fork as long as its priority is at
most `MAX_PRIO`. -/
theorem exec_prioBounded (pol : Policy) {op : Op} (hop : ∀ l pr, op = .fork l pr → pr ≤ maxPrio)
    (hb : PrioBounded maxPrio s) (h : exec (pol.scheduler maxPrio) s op = .ok s') :
    PrioBounded maxPrio s' := by
  cases op with
  | fork l pr => cases h; exact hb.fork (hop l pr rfl)
  | tick =>
    obtain ⟨n, t, hs, rfl⟩ := exec_tick_ok h
    show PrioBounded maxPrio t
    by_cases hpa : pol = .pa
    · subst hpa
      obtain ⟨hr, -, hp | ⟨c, -, ha⟩⟩ := paSchedule_requeued hs
      · exact hb.congr hp hr.prioOrig
      · exact (hb.setPrio le_rfl ((hb c).1.trans (hb c).2)).aged ha hr.prioOrig
    · exact hb.congr (schedule_prio pol hpa hs) (schedule_requeued pol hs).1.prioOrig
  | acquire r =>
    obtain ⟨b, ha⟩ := exec_acquire_ok h
    exact acquire_prioBounded pol hb ha
  | release r => exact release_prioBounded pol hb h

/-- Under Priority with aging only `pa_schedule` lowers a priority, and only that of `current`. -/
theorem pa_prio_lowered {op : Op} (h : exec (paScheduler maxPrio) s op = .ok s') {p : Nat}
    (hp : p < s.nproc) (hlt : s'.prio p < s.prio p) : op = .tick ∧ s.current = some p := by
  cases op with
  | fork l pr =>
    cases h
    simp [Function.update_noteq (Nat.ne_of_lt hp)] at hlt
  | tick =>
    obtain ⟨n, t, hs, rfl⟩ := exec_tick_ok h
    change t.prio p < s.prio p at hlt
    obtain ⟨-, -, hq | ⟨c, hc, ha⟩⟩ := paSchedule_requeued hs
    · rw [hq] at hlt; exact absurd hlt (lt_irrefl _)
    · by_cases hpc : p = c
      · exact ⟨rfl, hpc ▸ hc⟩
      · have := (ha p).1
        simp only [Sys.setPrio_prio, Function.update_noteq hpc] at this
        omega
  | acquire r =>
    obtain ⟨b, ha⟩ := exec_acquire_ok h
    obtain ⟨-, -, rfl⟩ | ⟨o, c, -, -, -, -, rfl⟩ | ⟨o, c, -, -, -, -, rfl⟩ := paAcquire_ok ha <;>
      exact absurd hlt (lt_irrefl _)
  | release r =>
    rw [(Sys.wakeWaiter_requeued (paRelease_ok h).2).2] at hlt
    exact absurd hlt (lt_irrefl _)

/-- Along every run from the empty state whose forks give priorities at most `MAX_PRIO`, every
priority stays between `prio_orig` and `MAX_PRIO`, under each policy; under Priority with
aging a priority drops only in `pa_schedule`, and only that of `current`. -/
theorem prio_within_bounds (maxPrio : Nat) :
    (∀ (pol : Policy) ops s, Run (pol.scheduler maxPrio) Sys.init ops s →
        (∀ l pr, Op.fork l pr ∈ ops → pr ≤ maxPrio) →
        ∀ p, s.prioOrig p ≤ s.prio p ∧ s.prio p ≤ maxPrio) ∧
      ∀ s op s' p, exec (paScheduler maxPrio) s op = .ok s' → p < s.nproc →
        s'.prio p < s.prio p → op = .tick ∧ s.current = some p :=
  ⟨fun pol _ _ hrun hfork =>
      Run.invariant (PrioBounded maxPrio) (fun op => ∀ l pr, op = .fork l pr → pr ≤ maxPrio)
        (fun _ _ _ hb hop _ hex => exec_prioBounded pol hop hb hex) hrun
        (fun _ hop l pr h => hfork l pr (h ▸ hop)) (prioBounded_init maxPrio),
    fun _ _ _ _ h hp hlt => pa_prio_lowered h hp hlt⟩

/-- Under Priority with aging, process 0, forked at priority 0, has aged to priority 2 while
process 1, of priority 2, ran, and has just taken the CPU from it. -/
def paAgedOps : List Op := [.fork 5 0, .fork 5 2, .tick, .tick, .tick]

def paAged : Sys := (runOps (paScheduler 3) Sys.init paAgedOps).getD Sys.init

theorem prio_within_bounds_paAged :
    (paAged.prioOrig 0 ≤ paAged.prio 0 ∧ paAged.prio 0 ≤ 3) ∧
      ∃ s', exec (paScheduler 3) paAged .tick = .ok s' ∧ s'.prio 0 < paAged.prio 0 ∧
        paAged.current = some 0 :=
  ⟨(prio_within_bounds 3).1 .pa paAgedOps paAged (run_of_runOps rfl)
      (fun l pr h => by simp [paAgedOps] at h; omega) 0,
    _, rfl, by decide, ((prio_within_bounds 3).2 paAged .tick _ 0 rfl (by decide) (by decide)).2⟩

/-- A process that owns no resource runs at its baseline priority. -/
def NonOwnerAtBaseline (s : Sys) : Prop :=
  ∀ p, (∀ r, s.owner r ≠ some p) → s.prio p = s.prioOrig p

theorem NonOwnerAtBaseline.fork (hb : NonOwnerAtBaseline s) (l pr : Nat) :
    NonOwnerAtBaseline (s.fork l pr) := fun p hp => by
  by_cases hq : p = s.nproc
  · subst hq; simp
  · simpa [Function.update_noteq hq] using hb p (by simpa using hp)

/-- The step lemma for PIP: a grant makes an owner, a boost raises an owner, and a release
restores the releaser. -/
theorem pip_exec_nonOwnerAtBaseline {op : Op} (hb : NonOwnerAtBaseline s)
    (h : exec pipScheduler s op = .ok s') : NonOwnerAtBaseline s' := by
  cases op with
  | fork l pr => cases h; exact hb.fork l pr
  | tick =>
    obtain ⟨n, t, hs, rfl⟩ := exec_tick_ok h
    obtain ⟨hr, -, hp⟩ := pipSchedule_requeued hs
    intro p hown
    change t.prio p = t.prioOrig p
    rw [hp, hr.prioOrig]
    exact hb p (by rw [← hr.owner]; exact hown)
  | acquire r =>
    obtain ⟨b, ha⟩ := exec_acquire_ok h
    obtain ⟨h₁, -, rfl⟩ | ⟨o, c, h₁, -, -, rfl⟩ := pipAcquire_ok ha
    · intro p hown
      refine hb p fun r' hr' => hown r' ?_
      by_cases hrr : r' = r
      · subst hrr; rw [h₁] at hr'; cases hr'
      · simpa [Function.update_noteq hrr] using hr'
    · intro p hown
      have hown' : ∀ r', s.owner r' ≠ some p := by
        intro r'; have := hown r'; split at this <;> exact this
      have hpo : p ≠ o := by rintro rfl; exact hown' r h₁
      split <;> simp [Function.update_noteq hpo, hb p hown']
  | release r =>
    obtain ⟨o, ho, -, hp, hpo', hown'⟩ := pipRelease_prio h
    intro p hown
    rw [hp, hpo']
    by_cases hpo : p = o
    · subst hpo; simp
    · rw [Function.update_noteq hpo]
      refine hb p fun r' hr' => ?_
      by_cases hrr : r' = r
      · subst hrr; rw [ho] at hr'; exact hpo (Option.some.inj hr').symm
      · exact hown r' (by rw [hown', Function.update_noteq hrr]; exact hr')

/-- Under PIP a process that owns no resource runs at its baseline priority in every reachable
state, and a requester that blocks leaves the owner at a priority at least its own. -/
theorem pip_nonowner_at_baseline :
    (∀ s, Reachable pipScheduler s → ∀ p, (∀ r, s.owner r ≠ some p) → s.prio p = s.prioOrig p) ∧
      ∀ s r s' o c, pipAcquire s r = .ok (false, s') → s.owner r = some o → s.current = some c →
        s'.prio c ≤ s'.prio o := by
  refine ⟨fun s ⟨ops, hrun⟩ => Run.invariant NonOwnerAtBaseline (fun _ => True)
      (fun _ _ _ hb _ _ hex => pip_exec_nonOwnerAtBaseline hb hex) hrun (fun _ _ => trivial)
      (fun _ _ => rfl), fun s r s' o c ha ho hc => ?_⟩
  obtain ⟨-, h, -⟩ | ⟨o', c', ho', hc', -, rfl⟩ := pipAcquire_ok ha
  · cases h
  · obtain rfl := Option.some.inj (ho'.symm.trans ho)
    obtain rfl := Option.some.inj (hc'.symm.trans hc)
    show (if s.prio o' < s.prio c' then s.setPrio o' (s.prio c') else s).prio c' ≤
      (if s.prio o' < s.prio c' then s.setPrio o' (s.prio c') else s).prio o'
    split
    · by_cases hco : c' = o'
      · rw [hco]
      · simp [Function.update_noteq hco]
    · exact not_lt.1 ‹_›

/-- Under PIP process 1, of priority 5, runs and is about to request resource 0, held by process
0 of priority 1. -/
def pipRequestOps : List Op := [.fork 10 1, .tick, .acquire 0, .fork 10 5, .tick]

def pipRequest : Sys := (runOps pipScheduler Sys.init pipRequestOps).getD Sys.init

/-- The state after the request, a tick, and the release of resource 0 by process 0, which
inherited priority 5 in between. -/
def pipRestored : Sys := (runOps pipScheduler pipRequest [.acquire 0, .tick, .release 0]).getD pipRequest

theorem pip_nonowner_at_baseline_pipRequest :
    (∃ s', pipAcquire pipRequest 0 = .ok (false, s') ∧ s'.prio 1 ≤ s'.prio 0) ∧
      pipRestored.prio 0 = pipRestored.prioOrig 0 :=
  ⟨⟨_, rfl, pip_nonowner_at_baseline.2 pipRequest 0 _ 0 1 rfl rfl rfl⟩,
    pip_nonowner_at_baseline.1 pipRestored
      ⟨pipRequestOps ++ [Op.acquire 0, Op.tick, Op.release 0], run_of_runOps rfl⟩ 0 fun r => by
        show Function.update (Function.update (fun _ => none) 0 (some 0)) 0 none r ≠ some 0
        simp [Function.update_apply]⟩

/-- An owner holding two resources loses the priority it inherited through one of them when
it releases the other, while the higher-priority waiter still waits. -/
theorem pip_release_drops_inherited_prio :
    ¬ ∀ s, Reachable pipScheduler s →
      (∀ r o, s.owner r = some o → ∀ p ∈ s.waitqueue r, s.prio p ≤ s.prio o) ∧
        ∀ p, (∀ r, s.owner r ≠ some p) → s.prio p = s.prioOrig p := by
  intro h
  obtain ⟨s, hs, hp⟩ := reach_of_runOps pipScheduler
    [.fork 10 1, .tick, .acquire 0, .acquire 1, .fork 10 5, .tick, .acquire 0, .tick,
      .release 1]
    (fun s => decide (s.owner 0 = some 0 ∧ 1 ∈ s.waitqueue 0 ∧ s.prio 0 < s.prio 1))
    (by decide)
  obtain ⟨h₁, h₂, h₃⟩ := of_decide_eq_true hp
  exact absurd ((h s hs).1 0 0 h₁ 1 h₂) (not_le.2 h₃)

/-- A process runs at its baseline priority, or at `MAX_PRIO` while it owns a resource. -/
def CeilingOrBaseline (maxPrio : Nat) (s : Sys) : Prop :=
  ∀ p, s.prio p = s.prioOrig p ∨ (s.prio p = maxPrio ∧ ∃ r, s.owner r = some p)

/-- The step lemma for PCP: a grant raises the new owner to the ceiling, and a release
restores the releaser. -/
theorem pcp_exec_ceilingOrBaseline {op : Op} (hb : CeilingOrBaseline maxPrio s)
    (h : exec (pcpScheduler maxPrio) s op = .ok s') : CeilingOrBaseline maxPrio s' := by
  cases op with
  | fork l pr =>
    cases h
    intro p
    by_cases hq : p = s.nproc
    · subst hq; simp
    · simpa [Function.update_noteq hq] using hb p
  | tick =>
    obtain ⟨n, t, hs, rfl⟩ := exec_tick_ok h
    obtain ⟨hr, -, hp⟩ := pcpSchedule_requeued hs
    intro p
    change t.prio p = t.prioOrig p ∨ (t.prio p = maxPrio ∧ ∃ r, t.owner r = some p)
    rw [hp, hr.prioOrig, hr.owner]
    exact hb p
  | acquire r =>
    obtain ⟨b, ha⟩ := exec_acquire_ok h
    obtain ⟨c, h₁, -, -, rfl⟩ | ⟨o, c, -, -, -, rfl⟩ := pcpAcquire_ok ha
    · intro p
      by_cases hpc : p = c
      · subst hpc; exact .inr ⟨by simp, r, by simp⟩
      · simp only [Sys.setPrio_prio, Function.update_noteq hpc, Sys.setPrio_prioOrig,
          Sys.setOwner_prioOrig, Sys.setPrio_owner, Sys.setOwner_prio]
        refine (hb p).imp_right fun ⟨hm, r', hr'⟩ => ⟨hm, r', ?_⟩
        have hrr : r' ≠ r := by rintro rfl; rw [h₁] at hr'; cases hr'
        simpa [Function.update_noteq hrr] using hr'
    · exact hb
  | release r =>
    obtain ⟨o, ho, -, hp, hpo', hown'⟩ := pcpRelease_prio h
    intro p
    rw [hp, hpo', hown']
    by_cases hpo : p = o
    · subst hpo; simp
    · rw [Function.update_noteq hpo]
      refine (hb p).imp_right fun ⟨hm, r', hr'⟩ => ⟨hm, r', ?_⟩
      have hrr : r' ≠ r := by rintro rfl; rw [ho] at hr'; exact hpo (Option.some.inj hr').symm
      rw [Function.update_noteq hrr]; exact hr'

/-- Under PCP, in every reachable state a process runs at its baseline priority, or at
`MAX_PRIO` while it owns some resource; and a grant of `pcp_acquire` makes `current` the owner at
`MAX_PRIO`. -/
theorem pcp_ceiling_or_baseline (maxPrio : Nat) :
    (∀ s, Reachable (pcpScheduler maxPrio) s →
      ∀ p, s.prio p = s.prioOrig p ∨ (s.prio p = maxPrio ∧ ∃ r, s.owner r = some p)) ∧
    ∀ s r s' c, pcpAcquire maxPrio s r = .ok (true, s') → s.current = some c →
      s'.owner r = some c ∧ s'.prio c = maxPrio := by
  refine ⟨fun s ⟨_, hrun⟩ => Run.invariant (CeilingOrBaseline maxPrio) (fun _ => True)
    (fun _ _ _ hb _ _ hex => pcp_exec_ceilingOrBaseline hb hex) hrun
    (fun _ _ => trivial) (fun _ => .inl rfl), fun s r s' c ha hc => ?_⟩
  obtain ⟨c', -, hc', -, rfl⟩ | ⟨-, -, -, -, h, -⟩ := pcpAcquire_ok ha
  · obtain rfl := Option.some.inj (hc'.symm.trans hc)
    simp
  · cases h

/-- The state where a PCP process took two resources and released one of them. -/
def pcpNestedRelease : Sys :=
  (runOps (pcpScheduler 7) Sys.init [.fork 10 2, .tick, .acquire 0, .acquire 1, .release 1]).getD
    Sys.init

theorem pcp_ceiling_or_baseline_nested :
    Reachable (pcpScheduler 7) pcpNestedRelease ∧
      (∀ p, pcpNestedRelease.prio p = pcpNestedRelease.prioOrig p ∨
        (pcpNestedRelease.prio p = 7 ∧ ∃ r, pcpNestedRelease.owner r = some p)) ∧
      ∃ s', pcpAcquire 7 pcpNestedRelease 1 = .ok (true, s') ∧ s'.owner 1 = some 0 ∧
        s'.prio 0 = 7 :=
  have hs : Reachable (pcpScheduler 7) pcpNestedRelease :=
    ⟨[.fork 10 2, .tick, .acquire 0, .acquire 1, .release 1], run_of_runOps rfl⟩
  ⟨hs, (pcp_ceiling_or_baseline 7).1 _ hs, _, rfl,
    (pcp_ceiling_or_baseline 7).2 pcpNestedRelease 1 _ 0 rfl rfl⟩

/-- For every positive `MAX_PRIO`, a process forked at priority 0 that holds two resources and
releases one of them drops to its baseline priority while it still owns the other. -/
theorem pcp_release_drops_ceiling :
    ¬ ∃ maxPrio, 0 < maxPrio ∧ ∀ ops s, Run (pcpScheduler maxPrio) Sys.init ops s →
      (∀ l pr, Op.fork l pr ∈ ops → pr ≤ maxPrio) → ∀ p,
        ((∃ r, s.owner r = some p) → s.prio p = maxPrio) ∧
          ((∀ r, s.owner r ≠ some p) → s.prio p = s.prioOrig p) := by
  rintro ⟨m, hm, h⟩
  let pre : List Op := [.fork 10 0, .tick, .acquire 0, .acquire 1, .release 1]
  have key := (h pre ((runOps (pcpScheduler m) Sys.init pre).getD Sys.init)
    (run_of_runOps rfl) (by simp [pre]) 0).1 ⟨0, rfl⟩
  change 0 = m at key
  omega

end CpuSched
