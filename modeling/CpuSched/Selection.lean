import CpuSched.Contract

/-! Which process each scheduler selects: SJF the first ready process of least lifespan, STCF
the first of least remaining time, and the priority schedulers the first of greatest `prio`,
each weighed against a runnable `current`. -/
namespace CpuSched

namespace Sys

/-- `next` is the earliest process of least `key` in the ready queue. -/
def EarliestMin (s : Sys) (key : Nat → Nat) (next : Nat) : Prop :=
  (∀ q ∈ s.readyqueue, key next ≤ key q) ∧
    ∃ l₁ l₂, s.readyqueue = l₁ ++ next :: l₂ ∧ ∀ q ∈ l₁, key next < key q

/-- `next` is the earliest process of greatest `key` in the ready queue. -/
def EarliestMax (s : Sys) (key : Nat → Nat) (next : Nat) : Prop :=
  (∀ q ∈ s.readyqueue, key q ≤ key next) ∧
    ∃ l₁ l₂, s.readyqueue = l₁ ++ next :: l₂ ∧ ∀ q ∈ l₁, key q < key next

/-- The priorities `pa_schedule` compares when `current` competes for a non-empty ready
queue: `current` back at its `prio_orig`, and every ready process one higher, up to
`maxPrio`. -/
def paCompared (s : Sys) (maxPrio : Nat) : Sys :=
  match s.current, s.readyqueue with
  | some c, _ :: _ =>
    if s.status c = .blocked then s
    else { s with prio := fun q =>
      if q ∈ s.readyqueue then (if s.prio q < maxPrio then s.prio q + 1 else s.prio q)
      else if q = c then s.prioOrig c else s.prio q }
  | _, _ => s

variable {s : Sys} {key : Nat → Nat} {p : Nat} {ps : List Nat} {maxPrio : Nat}

theorem repriced_paCompared : Repriced s (s.paCompared maxPrio) := by
  unfold paCompared
  split
  · next c _ _ _ _ =>
    by_cases hb : s.status c = .blocked
    · rw [if_pos hb]; rfl
    · rw [if_neg hb]; rfl
  · rfl

theorem paCompared_of_blocked (hb : ∀ c, s.current = some c → s.status c = .blocked) :
    s.paCompared maxPrio = s := by
  unfold paCompared
  split
  · next c _ _ hc _ => rw [if_pos (hb c hc)]
  · rfl

/-- A ready process is compared at its own `prio` when no process is current, and one higher,
up to `maxPrio`, when a READY `current` competes. -/
theorem paCompared_prio_of_mem (hb : ∀ c, s.current = some c → s.status c = .ready) {q : Nat}
    (hq : q ∈ s.readyqueue) :
    (s.paCompared maxPrio).prio q =
      if s.current = none ∨ maxPrio ≤ s.prio q then s.prio q else s.prio q + 1 := by
  obtain ⟨p, ps, hr⟩ := List.exists_cons_of_ne_nil (List.ne_nil_of_mem hq)
  cases hc : s.current with
  | none => simp only [paCompared, hc, true_or, if_true]
  | some c =>
    have hbc : s.status c ≠ .blocked := by simp [hb c hc]
    simp only [paCompared, hc, hr, if_neg hbc, if_pos (hr ▸ hq), reduceCtorEq, false_or]
    split_ifs <;> omega

theorem paCompared_prio_current {c : Nat} (hc : s.current = some c) (hbc : s.status c = .ready)
    (hcr : c ∉ s.readyqueue) (hne : s.readyqueue ≠ []) :
    (s.paCompared maxPrio).prio c = s.prioOrig c := by
  obtain ⟨p, ps, hr⟩ := List.exists_cons_of_ne_nil hne
  simp only [paCompared, hc, hr, hbc, reduceCtorEq, if_false, if_neg (hr ▸ hcr), if_true]

theorem EarliestMin.mem {next : Nat} (h : s.EarliestMin key next) : next ∈ s.readyqueue :=
  let ⟨_, _, _, hl, _⟩ := h
  hl ▸ List.mem_append_right _ (List.mem_cons_self _ _)

theorem earliestMin_scanFirst (hr : s.readyqueue = p :: ps) :
    s.EarliestMin key (scanFirst (fun q n => decide (key q < key n)) p ps) := by
  rw [EarliestMin, hr]
  exact scanFirst_min key p ps

theorem earliestMax_scanFirst (hr : s.readyqueue = p :: ps) :
    s.EarliestMax key (scanFirst (fun q n => decide (key n < key q)) p ps) := by
  rw [EarliestMax, hr]
  exact scanFirst_max key p ps

theorem runToCompletion_of_not_runnable {pickNext : Sys → Option Nat × Sys}
    (hc : ∀ c, s.current = some c → s.status c = .blocked ∨ s.lifespan c ≤ s.age c) :
    s.runToCompletion pickNext = pickNext s := by
  unfold runToCompletion
  split
  · rfl
  · next c hc' =>
    rcases hc c hc' with hb | hl
    · rw [if_pos hb]
    · split
      · rfl
      · rw [if_neg (by omega)]

end Sys

/-- Under the invariant, the aging loop of `pa_schedule` leaves the priorities of `paCompared`
and selects the earliest ready process of highest aged `prio`. -/
theorem paSchedule_agingLoop {s t : Sys} {maxPrio c p next : Nat} {ps : List Nat}
    (hi : QueueInv s) (hc : s.current = some c) (hb : s.status c ≠ .blocked)
    (hr : s.readyqueue = p :: ps)
    (hf : ps.foldl (agingStep maxPrio) ((s.setPrio c (s.prioOrig c)).agePrio maxPrio p, p) =
      (t, next)) :
    t = s.paCompared maxPrio ∧ t.EarliestMax t.prio next := by
  have hnd : (p :: ps).Nodup := hr ▸ hi.ready_nodup
  obtain ⟨hp, hps⟩ := List.nodup_cons.1 hnd
  have hfst := agingLoop_fst maxPrio ps ((s.setPrio c (s.prioOrig c)).agePrio maxPrio p, p)
  have hsnd := agingLoop_snd maxPrio hps ((s.setPrio c (s.prioOrig c)).agePrio maxPrio p) hp
  have ht : Repriced s t := by simpa only [hf] using agingLoop_repriced maxPrio c p ps s
  rw [hf] at hfst hsnd
  dsimp only at hfst hsnd
  have hcr : c ∉ p :: ps := hr ▸ hi.not_mem_ready_of_current hc
  have hprio : t.prio = (s.paCompared maxPrio).prio := funext fun q => by
    have hall := ageAll_prio maxPrio hnd (s.setPrio c (s.prioOrig c)) q
    rw [List.foldl_cons, ← hfst] at hall
    by_cases hq : q ∈ p :: ps
    · have hqc : q ≠ c := fun h => hcr (h ▸ hq)
      rw [hall, if_pos hq, Sys.setPrio_prio, Function.update_noteq hqc]
      simp only [Sys.paCompared, hc, hr, if_neg hb, if_pos hq]
    · rw [hall, if_neg hq, Sys.setPrio_prio, Function.update_apply]
      simp only [Sys.paCompared, hc, hr, if_neg hb, if_neg hq]
  refine ⟨?_, ?_⟩
  · rw [ht, hprio, ← Sys.repriced_paCompared]
  · rw [hsnd, ← hfst]
    exact Sys.earliestMax_scanFirst (by rw [ht]; exact hr)

/-- Which process a preemptive `schedule` runs when `beats a b` means that `a` is preferred to
`b`: a runnable `current` that beats every ready process, or else the earliest ready process
that no ready process beats and that no runnable `current` beats. -/
inductive Chooses (s : Sys) (beats : Nat → Nat → Prop) : Nat → Prop
  | current {c : Nat} : s.current = some c → s.Runnable c → (∀ q ∈ s.readyqueue, beats c q) →
      Chooses s beats c
  | ready {p : Nat} : (∀ q ∈ s.readyqueue, ¬ beats q p) →
      (∃ l₁ l₂, s.readyqueue = l₁ ++ p :: l₂ ∧ ∀ q ∈ l₁, beats p q) →
      (∀ c, s.current = some c → s.Runnable c → ¬ beats c p) → Chooses s beats p

/-- `schedule` meets the contract and runs the process that `beats` chooses. -/
def Selects (s : Sys) (beats : Nat → Nat → Prop) (n : Option Nat) (s' : Sys) : Prop :=
  ScheduleSpec s n s' ∧ ∃ p, n = some p ∧ Chooses s beats p

namespace Chooses

variable {s : Sys} {key : Nat → Nat} {p : Nat}

theorem of_earliestMax (h : s.EarliestMax key p)
    (hc : ∀ c, s.current = some c → s.Runnable c → key c ≤ key p) :
    Chooses s (fun a b => key b < key a) p :=
  .ready (fun q hq => not_lt.2 (h.1 q hq)) h.2 fun c h' hr => not_lt.2 (hc c h' hr)

theorem of_earliestMin (h : s.EarliestMin key p)
    (hc : ∀ c, s.current = some c → s.Runnable c → key p ≤ key c) :
    Chooses s (fun a b => key a < key b) p :=
  .ready (fun q hq => not_lt.2 (h.1 q hq)) h.2 fun c h' hr => not_lt.2 (hc c h' hr)

end Chooses

/-- SJF keeps a runnable `current` whatever is ready; otherwise it detaches the earliest ready
process of least lifespan, or returns none when nothing is ready. -/
theorem sjf_schedule_shortest_first {s : Sys} (hi : QueueInv s) :
    (∀ c, s.current = some c → s.status c ≠ .blocked → s.age c < s.lifespan c →
      sjfSchedule s = .ok (some c, s)) ∧
    ((∀ c, s.current = some c → s.status c = .blocked ∨ s.lifespan c ≤ s.age c) →
      (s.readyqueue = [] → sjfSchedule s = .ok (none, s)) ∧
      (s.readyqueue ≠ [] → ∃ next, s.EarliestMin s.lifespan next ∧
        sjfSchedule s = .ok (some next, s.listDelInit next) ∧
        next ∉ (s.listDelInit next).readyqueue)) := by
  refine ⟨fun c hc hb ha => by simp_all [sjfSchedule, Sys.runToCompletion], fun hc => ?_⟩
  rw [sjfSchedule, Sys.runToCompletion_of_not_runnable hc]
  unfold Sys.pickShortest
  split
  · exact ⟨fun _ => rfl, fun h => absurd ‹_› h⟩
  · next p ps hr =>
    exact ⟨fun h => absurd (hr.symm.trans h) (List.cons_ne_nil _ _),
      fun _ => ⟨_, Sys.earliestMin_scanFirst hr, rfl, hi.ready_nodup.not_mem_erase⟩⟩

/-- Three jobs of lifespans 5, 2 and 2, none of which has run yet. -/
def threeJobs : Sys := ((Sys.init.fork 5 0).fork 2 0).fork 2 0

theorem sjf_schedule_shortest_first_threeJobs :
    ∃ next, threeJobs.EarliestMin threeJobs.lifespan next ∧
      sjfSchedule threeJobs = .ok (some next, threeJobs.listDelInit next) :=
  have hi : QueueInv threeJobs :=
    ((queueInv_init.fork fresh_init (by decide) 0).fork (fresh_init.fork 5 0) (by decide) 0).fork
      ((fresh_init.fork 5 0).fork 2 0) (by decide) 0
  (((sjf_schedule_shortest_first hi).2 fun _ (h : none = some _) => nomatch h).2
    (by decide)).imp fun _ h => ⟨h.1, h.2.1⟩

theorem stcfSchedule_selects {s s' : Sys} {n : Option Nat} {p : Nat} {ps : List Nat}
    (hi : QueueInv s) (hb : ∀ c, s.current = some c → s.status c = .ready)
    (hr : s.readyqueue = p :: ps) (h : stcfSchedule s = .ok (n, s')) :
    Selects s (fun a b => s.lifespan a - s.age a < s.lifespan b - s.age b) n s' := by
  have hmin : s.EarliestMin (fun q => s.lifespan q - s.age q)
      (scanFirst (fun q n => decide (s.lifespan q - s.age q < s.lifespan n - s.age n)) p ps) :=
    Sys.earliestMin_scanFirst hr
  refine ⟨stcfSchedule_spec hi hb h, ?_⟩
  rcases stcfSchedule_cons hr h with ⟨c, hc, ha, hlt, rfl, -⟩ | ⟨c, hc, -, hle, rfl, -⟩ |
      ⟨hc, rfl, -⟩
  · exact ⟨c, rfl, .current hc ⟨hb c hc, lt_of_le_of_ne (hi.age_le c) (Ne.symm ha)⟩
      fun q hq => lt_of_lt_of_le hlt (hmin.1 q hq)⟩
  · exact ⟨_, rfl, .of_earliestMin hmin fun c' h' _ => Option.some.inj (h'.symm.trans hc) ▸ hle⟩
  · exact ⟨_, rfl, .of_earliestMin hmin fun c' h' hr' =>
      absurd hr' (Sys.not_runnable (.inl (hc c' h').le))⟩

/-- With a READY `current` and a non-empty ready queue, STCF meets the contract and runs a
runnable `current` whose remaining time is below every ready process's, or else the earliest
ready process of least remaining time. -/
theorem stcf_schedule_least_remaining {s s' : Sys} {n : Option Nat} (hi : QueueInv s)
    (hne : s.readyqueue ≠ []) (hb : ∀ c, s.current = some c → s.status c = .ready)
    (h : stcfSchedule s = .ok (n, s')) :
    Selects s (fun a b => s.lifespan a - s.age a < s.lifespan b - s.age b) n s' :=
  let ⟨_, _, hr⟩ := List.exists_cons_of_ne_nil hne
  stcfSchedule_selects hi hb hr h

/-- A state reached under FCFS: process 0 has run one tick of its two, and process 1, of
lifespan one, has just been forked. -/
def stcfTie : Sys := (runOps fcfsScheduler Sys.init [.fork 2 0, .tick, .fork 1 0]).getD Sys.init

theorem queueInv_stcfTie : QueueInv stcfTie :=
  (fcfs_reachable_queueInv .fcfs (.inl rfl)
    (⟨[.fork 2 0, .tick, .fork 1 0], run_of_runOps rfl⟩ :
      Reachable (Policy.fcfs.scheduler 0) stcfTie)).1

theorem stcf_schedule_least_remaining_stcfTie :
    Selects stcfTie
      (fun a b => stcfTie.lifespan a - stcfTie.age a < stcfTie.lifespan b - stcfTie.age b)
      (some 1) ((stcfTie.enqueueReady 0).listDelInit 1) :=
  stcf_schedule_least_remaining queueInv_stcfTie (by decide)
    (fun c h => Option.some.inj ((rfl : stcfTie.current = some 0).symm.trans h) ▸ rfl) rfl

/-- At a tie in remaining time STCF runs the ready process and requeues the incumbent. -/
theorem stcf_tie_preempts_current :
    QueueInv stcfTie ∧ stcfTie.readyqueue = [1] ∧ stcfTie.current = some 0 ∧
      stcfTie.status 0 = .ready ∧ stcfTie.age 0 < stcfTie.lifespan 0 ∧
      stcfTie.lifespan 0 - stcfTie.age 0 = stcfTie.lifespan 1 - stcfTie.age 1 ∧
      stcfSchedule stcfTie = .ok (some 1, (stcfTie.enqueueReady 0).listDelInit 1) :=
  ⟨queueInv_stcfTie, rfl, rfl, rfl, by decide, by decide, rfl⟩

section Priority

variable {s s' : Sys} {n : Option Nat} {p : Nat} {ps : List Nat}

theorem prioSchedule_selects (hi : QueueInv s) (hr : s.readyqueue = p :: ps)
    (h : prioSchedule s = .ok (n, s')) : Selects s (fun a b => s.prio b < s.prio a) n s' := by
  have hscan : scanFirst (fun q n => decide (s.prio n < s.prio q)) p ps =
      scanFirst (fun q n => decide (s.prio n < s.prio q ∧ s.status q = .ready)) p ps :=
    scanFirst_congr fun q hq _ _ => by simp [(hi.runnable_of_mem_ready (hr ▸ hq)).1]
  have hmax : s.EarliestMax s.prio
      (scanFirst (fun q n => decide (s.prio n < s.prio q ∧ s.status q = .ready)) p ps) := by
    rw [← hscan]; exact Sys.earliestMax_scanFirst hr
  refine ⟨prioSchedule_spec hi (fun h' => nomatch hr.symm.trans h') h, ?_⟩
  rcases prioSchedule_cons hr h with ⟨c, hc, hst, ha, hlt, rfl, -⟩ | ⟨c, hc, -, -, hle, rfl, -⟩ |
      ⟨hc, rfl, -⟩
  · exact ⟨c, rfl, .current hc ⟨hst, lt_of_le_of_ne (hi.age_le c) ha⟩
      fun q hq => lt_of_le_of_lt (hmax.1 q hq) hlt⟩
  · exact ⟨_, rfl, .of_earliestMax hmax fun c' h' _ => Option.some.inj (h'.symm.trans hc) ▸ hle⟩
  · exact ⟨_, rfl, .of_earliestMax hmax fun c' h' hr' =>
      absurd hr' (Sys.not_runnable ((hc c' h').imp_left Eq.ge))⟩

theorem pipSchedule_selects (hr : s.readyqueue = p :: ps) (h : pipSchedule s = .ok (n, s')) :
    Selects s (fun a b => s.prio b < s.prio a) n s' := by
  have hmax : s.EarliestMax s.prio (scanFirst s.prioAbove p ps) := Sys.earliestMax_scanFirst hr
  refine ⟨pipSchedule_spec (fun h' => nomatch hr.symm.trans h') h, ?_⟩
  rcases pipSchedule_cons hr h with ⟨c, hc, hst, ha, hlt, rfl, -⟩ | ⟨c, hc, -, -, hle, rfl, -⟩ |
      ⟨hc, rfl, -⟩
  · exact ⟨c, rfl, .current hc ⟨hst, ha⟩ fun q hq => lt_of_le_of_lt (hmax.1 q hq) hlt⟩
  · exact ⟨_, rfl, .of_earliestMax hmax fun c' h' _ => Option.some.inj (h'.symm.trans hc) ▸ hle⟩
  · exact ⟨_, rfl, .of_earliestMax hmax fun c' h' hr' => absurd hr' (Sys.not_runnable (hc c' h'))⟩

theorem pcpSchedule_selects (hb : ∀ c, s.current = some c → s.status c = .ready)
    (hr : s.readyqueue = p :: ps) (h : pcpSchedule s = .ok (n, s')) :
    Selects s (fun a b => s.prio b < s.prio a) n s' := by
  have hmax : s.EarliestMax s.prio (scanFirst s.prioAbove p ps) := Sys.earliestMax_scanFirst hr
  refine ⟨pcpSchedule_spec hb h, ?_⟩
  rcases pcpSchedule_cons hr h with ⟨c, hc, ha, hlt, rfl, -⟩ | ⟨c, hc, -, -, hle, rfl, -⟩ |
      ⟨hc, rfl, -⟩
  · exact ⟨c, rfl, .current hc ⟨hb c hc, ha⟩ fun q hq => lt_of_le_of_lt (hmax.1 q hq) hlt⟩
  · exact ⟨_, rfl, .of_earliestMax hmax fun c' h' _ => Option.some.inj (h'.symm.trans hc) ▸ hle⟩
  · exact ⟨_, rfl, .of_earliestMax hmax fun c' h' hr' =>
      absurd hr' (Sys.not_runnable ((hc c' h').imp_right And.left))⟩

/-- Priority with aging selects by the priorities its reset and aging loop set. -/
theorem paSchedule_selects {maxPrio : Nat} (hi : QueueInv s) (hr : s.readyqueue = p :: ps)
    (h : paSchedule maxPrio s = .ok (n, s')) :
    let t := s.paCompared maxPrio
    Selects t (fun a b => t.prio b < t.prio a) n s' := by
  dsimp only
  rcases paSchedule_ok h with ⟨hb, hp⟩ | ⟨-, -, -, hr', -⟩ |
      ⟨c, p', ps', t, next, hc, hb, hr', hf, hs⟩
  · have hnr : ∀ c, s.current = some c → ¬ s.Runnable c :=
      fun c h' => Sys.not_runnable (.inr (hb c h'))
    have hmax : s.EarliestMax s.prio (scanFirst s.prioAbove p ps) := Sys.earliestMax_scanFirst hr
    simp only [Sys.pickHighest, Sys.highestPrio, hr, Prod.mk.injEq] at hp
    obtain ⟨rfl, rfl⟩ := hp
    rw [Sys.paCompared_of_blocked hb]
    exact ⟨.detach (hr ▸ scanFirst_mem _ _ _) hnr, _, rfl,
      .of_earliestMax hmax fun c h' hr' => absurd hr' (hnr c h')⟩
  · exact absurd (hr.symm.trans hr') (List.cons_ne_nil _ _)
  · obtain ⟨hrep, hspec⟩ := paSchedule_aging_spec hc hb hr' hf hs
    obtain ⟨rfl, hmax⟩ := paSchedule_agingLoop hi hc hb hr' hf
    have htc : (s.paCompared maxPrio).current = some c := by rw [hrep]; exact hc
    have hts : (s.paCompared maxPrio).status c = .ready := by rw [hrep]; simpa using hb
    refine ⟨hspec, ?_⟩
    rcases hs with ⟨ha, hlt, rfl, -⟩ | ⟨-, hle, rfl, -⟩ | ⟨ha, rfl, -⟩
    · exact ⟨c, rfl, .current htc ⟨hts, ha⟩ fun q hq => lt_of_le_of_lt (hmax.1 q hq) hlt⟩
    · exact ⟨_, rfl, .of_earliestMax hmax fun c' h' _ => Option.some.inj (h'.symm.trans htc) ▸ hle⟩
    · exact ⟨_, rfl, .of_earliestMax hmax fun c' h' hr' =>
        absurd hr' (Sys.not_runnable (.inl (Option.some.inj (h'.symm.trans htc) ▸ ha)))⟩

/-- On a non-empty ready queue, Priority and PIP, PCP with a READY `current`, and Priority with
aging over the priorities its aging sets, meet the contract and run a runnable `current` only
when its `prio` is above every ready process's, and otherwise the earliest ready process of
highest `prio`. -/
theorem priority_schedule_selects_highest (maxPrio : Nat) (hi : QueueInv s)
    (hne : s.readyqueue ≠ []) :
    (prioSchedule s = .ok (n, s') → Selects s (fun a b => s.prio b < s.prio a) n s') ∧
    (pipSchedule s = .ok (n, s') → Selects s (fun a b => s.prio b < s.prio a) n s') ∧
    ((∀ c, s.current = some c → s.status c = .ready) → pcpSchedule s = .ok (n, s') →
      Selects s (fun a b => s.prio b < s.prio a) n s') ∧
    (paSchedule maxPrio s = .ok (n, s') →
      let t := s.paCompared maxPrio
      Selects t (fun a b => t.prio b < t.prio a) n s') := by
  obtain ⟨p, ps, hr⟩ := List.exists_cons_of_ne_nil hne
  exact ⟨prioSchedule_selects hi hr, pipSchedule_selects hr, fun hb => pcpSchedule_selects hb hr,
    paSchedule_selects hi hr⟩

end Priority

section Contract

variable {s s' : Sys} {n : Option Nat} {maxPrio : Nat}

/-- Priority with aging meets the contract from every invariant state, over the priorities its
reset and aging loop set. -/
theorem paSchedule_spec (hi : QueueInv s) (h : paSchedule maxPrio s = .ok (n, s')) :
    ScheduleSpec (s.paCompared maxPrio) n s' := by
  rcases paSchedule_ok h with ⟨hb, hp⟩ | ⟨c, hc, hb, hr, rfl, rfl⟩ |
      ⟨c, p, ps, t, next, hc, hb, hr, hf, hs⟩
  · rw [Sys.paCompared_of_blocked hb]
    exact pickHighest_picksReady.spec (fun c h' => Sys.not_runnable (.inr (hb c h'))) hp.symm
  · rw [show s'.paCompared maxPrio = s' by simp only [Sys.paCompared, hc, hr]]
    split
    · exact .keep hc ⟨by simpa using hb, ‹_›⟩
    · next ha => exact .idle hr (current_not_runnable hc fun hr' => ha hr'.2)
  · obtain ⟨rfl, -⟩ := paSchedule_agingLoop hi hc hb hr hf
    exact (paSchedule_aging_spec hc hb hr hf hs).2

/-- `sch` meets the contract of `schedule` from every invariant state whose `current` is READY,
over the priorities `compared` sets, which changes nothing else. -/
def Scheduler.MeetsContract (sch : Scheduler) (compared : Sys → Sys) : Prop :=
  (∀ s, Repriced s (compared s)) ∧ ∀ s n s', QueueInv s →
    (∀ c, s.current = some c → s.status c = .ready) → sch.schedule s = .ok (n, s') →
    ScheduleSpec (compared s) n s'

theorem Policy.meetsContract (pol : Policy) (maxPrio : Nat) :
    (pol.scheduler maxPrio).MeetsContract fun s : Sys => if pol = .pa then s.paCompared maxPrio else s := by
  refine ⟨fun s => ?_, fun s _ _ hi hb h => ?_⟩
  · split
    · exact Sys.repriced_paCompared
    · rfl
  cases pol with
  | fcfs => exact fcfsSchedule_spec h
  | sjf => exact sjfSchedule_spec h
  | stcf => exact stcfSchedule_spec hi hb h
  | rr => exact rrSchedule_spec hi hb h
  | prio => exact prioSchedule_spec hi (fun _ => hb) h
  | pa => exact paSchedule_spec hi h
  | pcp => exact pcpSchedule_spec hb h
  | pip => exact pipSchedule_spec (fun _ => hb) h

/-- With a READY `current`, the `schedule` of every policy but Priority with aging meets the
contract, and `pa_schedule` meets it over the priorities it sets: `current` back at `prio_orig`
and every ready process one higher, up to `MAX_PRIO`, when `current` competes. -/
theorem schedule_spec (pol : Policy) (hi : QueueInv s)
    (hb : ∀ c, s.current = some c → s.status c = .ready)
    (h : (pol.scheduler maxPrio).schedule s = .ok (n, s')) :
    ScheduleSpec (if pol = .pa then s.paCompared maxPrio else s) n s' :=
  (pol.meetsContract maxPrio).2 s n s' hi hb h

theorem schedule_spec_stcfTie :
    ∃ s', (Policy.pa.scheduler 5).schedule stcfTie = .ok (some 1, s') ∧
      ScheduleSpec (stcfTie.paCompared 5) (some 1) s' :=
  ⟨_, rfl, schedule_spec .pa queueInv_stcfTie
    (fun _ h => Option.some.inj ((rfl : stcfTie.current = some 0).symm.trans h) ▸ rfl) rfl⟩

end Contract

/-- A state reached under FCFS: process 1, of `prio` 5, has just blocked on resource 0, which
the finished process 0 still holds, and process 2, of `prio` 0, is ready. -/
def blockedOutranks : Sys :=
  (runOps fcfsScheduler Sys.init
    [.fork 2 0, .tick, .acquire 0, .tick, .fork 3 5, .fork 3 0, .tick, .acquire 0]).getD Sys.init

theorem queueInv_blockedOutranks : QueueInv blockedOutranks :=
  (fcfs_reachable_queueInv .fcfs (.inl rfl)
    (⟨[.fork 2 0, .tick, .acquire 0, .tick, .fork 3 5, .fork 3 0, .tick, .acquire 0],
      run_of_runOps rfl⟩ : Reachable (Policy.fcfs.scheduler 0) blockedOutranks)).1

theorem priority_schedule_selects_highest_blockedOutranks :
    Selects blockedOutranks (fun a b => blockedOutranks.prio b < blockedOutranks.prio a)
      (some 2) (blockedOutranks.listDelInit 2) :=
  (priority_schedule_selects_highest 0 queueInv_blockedOutranks (by decide)).1 rfl

/-- `pcp_schedule` returns a BLOCKED `current` that outranks every ready process, where
`prio_schedule`, `pa_schedule` and `pip_schedule` run the ready process. -/
theorem pcp_schedule_runs_blocked_current :
    QueueInv blockedOutranks ∧ blockedOutranks.readyqueue = [2] ∧
      blockedOutranks.current = some 1 ∧ blockedOutranks.status 1 = .blocked ∧
      blockedOutranks.prio 2 < blockedOutranks.prio 1 ∧
      pcpSchedule blockedOutranks = .ok (some 1, blockedOutranks) ∧
      prioSchedule blockedOutranks = .ok (some 2, blockedOutranks.listDelInit 2) ∧
      (∀ maxPrio, paSchedule maxPrio blockedOutranks = .ok (some 2, blockedOutranks.listDelInit 2)) ∧
      pipSchedule blockedOutranks = .ok (some 2, blockedOutranks.listDelInit 2) :=
  ⟨queueInv_blockedOutranks, rfl, rfl, rfl, by decide, rfl, rfl, fun _ => rfl, rfl⟩

end CpuSched
