import CpuSched.Fcfs

/-! The Priority scheduler, Priority with aging, and Priority with the priority ceiling and
priority inheritance protocols. `maxPrio` is `MAX_PRIO` of the framework header. -/
namespace CpuSched

namespace Sys

/-- `pick_next` of Priority with aging: detach the first ready process of highest `prio`. -/
def pickHighest (s : Sys) : Option Nat × Sys :=
  match s.highestPrio s.readyqueue with
  | none => (none, s)
  | some next => (some next, s.listDelInit next)

/-- `if (p->prio < MAX_PRIO) p->prio++;` -/
def agePrio (s : Sys) (maxPrio p : Nat) : Sys :=
  if s.prio p < maxPrio then s.setPrio p (s.prio p + 1) else s

end Sys

/-- One pass of the aging loop of `pa_schedule`: age `p`, then compare it with `next`. -/
def agingStep (maxPrio : Nat) (acc : Sys × Nat) (p : Nat) : Sys × Nat :=
  let s := acc.1.agePrio maxPrio p
  (s, if s.prio acc.2 < s.prio p then p else acc.2)

/-- Aging only raises priorities, and a priority it raises stays within `maxPrio`. -/
def Aged (maxPrio : Nat) (s s' : Sys) : Prop :=
  ∀ p, s.prio p ≤ s'.prio p ∧ (s'.prio p = s.prio p ∨ s'.prio p ≤ maxPrio)

theorem Aged.refl (maxPrio : Nat) (s : Sys) : Aged maxPrio s s := fun _ => ⟨le_rfl, .inl rfl⟩

theorem Aged.trans {maxPrio : Nat} {s₁ s₂ s₃ : Sys} (h₁ : Aged maxPrio s₁ s₂)
    (h₂ : Aged maxPrio s₂ s₃) : Aged maxPrio s₁ s₃ := fun p => by
  obtain ⟨h₁, h₁'⟩ := h₁ p
  obtain ⟨h₂, h₂'⟩ := h₂ p
  refine ⟨h₁.trans h₂, ?_⟩
  rcases h₂' with h₂' | h₂'
  · rw [h₂']; exact h₁'
  · exact .inr h₂'

/-- `s'` is `s` with other priorities. -/
def Repriced (s s' : Sys) : Prop := s' = { s with prio := s'.prio }

theorem Repriced.trans {s₁ s₂ s₃ : Sys} (h₁ : Repriced s₁ s₂) (h₂ : Repriced s₂ s₃) :
    Repriced s₁ s₃ := by
  unfold Repriced at *
  rw [h₂, h₁]

theorem Repriced.setPrio (s : Sys) (p n : Nat) : Repriced s (s.setPrio p n) := rfl

theorem Repriced.requeued {s s' : Sys} (h : Repriced s s') : Requeued s s' := by
  rw [h]; exact ⟨rfl, rfl, rfl, rfl, rfl, rfl⟩

theorem agePrio_aged (s : Sys) (maxPrio p : Nat) :
    Repriced s (s.agePrio maxPrio p) ∧ Aged maxPrio s (s.agePrio maxPrio p) := by
  unfold Sys.agePrio
  split
  · refine ⟨rfl, fun q => ?_⟩
    by_cases hq : q = p
    · subst hq; simp; omega
    · simp [Function.update_noteq hq]
  · exact ⟨rfl, Aged.refl maxPrio s⟩

/-- The aging loop only ages: it changes nothing but priorities, which it raises, and it
selects one of the entries it went through. -/
theorem agingLoop_aged (maxPrio : Nat) (ps : List Nat) (acc : Sys × Nat) :
    Repriced acc.1 (ps.foldl (agingStep maxPrio) acc).1 ∧
      Aged maxPrio acc.1 (ps.foldl (agingStep maxPrio) acc).1 ∧
      (ps.foldl (agingStep maxPrio) acc).2 ∈ acc.2 :: ps := by
  induction ps generalizing acc with
  | nil => exact ⟨rfl, Aged.refl maxPrio _, List.mem_singleton_self _⟩
  | cons p ps ih =>
    rw [List.foldl_cons]
    obtain ⟨hr, ha⟩ := agePrio_aged acc.1 maxPrio p
    obtain ⟨hr', ha', hm⟩ := ih (agingStep maxPrio acc p)
    refine ⟨hr.trans hr', ha.trans ha', ?_⟩
    have hstep : (agingStep maxPrio acc p).2 = p ∨ (agingStep maxPrio acc p).2 = acc.2 := by
      dsimp only [agingStep]; split <;> simp
    rcases List.mem_cons.1 hm with h | h
    · rcases hstep with h' | h' <;> rw [h, h'] <;> simp
    · exact List.mem_cons_of_mem _ (List.mem_cons_of_mem _ h)

def prioAcquire (s : Sys) (r : Nat) : Except Fault (Bool × Sys) :=
  match s.owner r, s.current with
  | none, _ => .ok (true, s.setOwner r s.current)
  | some _, none => .error .nullDeref
  | some _, some c => .ok (false, ((s.listDelInit c).enqueueWait r c).setStatus c .blocked)

/-- Free `r` and wake the first waiter of highest `prio`. -/
def prioRelease (s : Sys) (r : Nat) : Except Fault Sys :=
  if s.owner r = s.current then
    let s := s.setOwner r none
    s.wakeWaiter r (s.highestPrio (s.waitqueue r))
  else .error .assertFail

theorem agePrio_prio (s : Sys) (maxPrio p q : Nat) :
    (s.agePrio maxPrio p).prio q =
      if q = p then (if s.prio p < maxPrio then s.prio p + 1 else s.prio p) else s.prio q := by
  unfold Sys.agePrio
  by_cases hq : q = p
  · subst hq; split <;> simp [*]
  · split <;> simp [hq]

theorem agingLoop_fst (maxPrio : Nat) (ps : List Nat) (acc : Sys × Nat) :
    (ps.foldl (agingStep maxPrio) acc).1 = ps.foldl (fun s q => s.agePrio maxPrio q) acc.1 := by
  induction ps generalizing acc with
  | nil => rfl
  | cons p ps ih => exact ih _

/-- Aging every process of a duplicate-free queue in turn raises each of them once, up to
`maxPrio`, and no other. -/
theorem ageAll_prio (maxPrio : Nat) {ps : List Nat} (hps : ps.Nodup) (s : Sys) (q : Nat) :
    (ps.foldl (fun s p => s.agePrio maxPrio p) s).prio q =
      if q ∈ ps then (if s.prio q < maxPrio then s.prio q + 1 else s.prio q) else s.prio q := by
  induction ps generalizing s with
  | nil => simp
  | cons p ps ih =>
    obtain ⟨hp, hps⟩ := List.nodup_cons.1 hps
    rw [List.foldl_cons, ih hps, agePrio_prio]
    by_cases hq : q = p
    · subst hq; simp [hp]
    · simp [hq]

/-- The aging loop selects what a scan of the aged priorities would: aging and scanning in
one pass is aging the whole queue, then scanning it. -/
theorem agingLoop_snd (maxPrio : Nat) {ps : List Nat} (hps : ps.Nodup) (s : Sys) {next : Nat}
    (hn : next ∉ ps) :
    let t := ps.foldl (fun s p => s.agePrio maxPrio p) s
    (ps.foldl (agingStep maxPrio) (s, next)).2 =
      scanFirst (fun q n => decide (t.prio n < t.prio q)) next ps := by
  induction ps generalizing s next with
  | nil => rfl
  | cons p ps ih =>
    obtain ⟨hp, hps⟩ := List.nodup_cons.1 hps
    have hnp : next ≠ p := fun h => hn (h ▸ List.mem_cons_self _ _)
    have hn' : next ∉ ps := fun h => hn (List.mem_cons_of_mem _ h)
    have hkeep : ∀ q ∉ ps, (ps.foldl (fun s p => s.agePrio maxPrio p) (s.agePrio maxPrio p)).prio q =
        (s.agePrio maxPrio p).prio q := fun q hq => by rw [ageAll_prio maxPrio hps, if_neg hq]
    intro t
    rw [List.foldl_cons, scanFirst_cons, agingStep]
    dsimp only
    rw [ih hps _ (by split <;> assumption)]
    simp only [t, List.foldl_cons, hkeep next hn', hkeep p hp, decide_eq_true_eq]

theorem agingLoop_repriced (maxPrio c p : Nat) (ps : List Nat) (s : Sys) :
    Repriced s (ps.foldl (agingStep maxPrio) ((s.setPrio c (s.prioOrig c)).agePrio maxPrio p, p)).1 :=
  ((Repriced.setPrio _ _ _).trans (agePrio_aged _ maxPrio p).1).trans (agingLoop_aged maxPrio ps _).1

/-- The scan keeps the first entry and then takes a READY process of strictly higher `prio`. -/
def prioSchedule (s : Sys) : Except Fault (Option Nat × Sys) :=
  match s.readyqueue with
  | [] => s.keepCurrent
  | p :: ps =>
    let next := scanFirst (fun q n => decide (s.prio n < s.prio q ∧ s.status q = .ready)) p ps
    match s.current with
    | none => .ok (some next, s.listDelInit next)
    | some c =>
      if s.age c = s.lifespan c then .ok (some next, s.listDelInit next)
      else if s.status c ≠ .blocked then
        if s.prio next < s.prio c then .ok (some c, s)
        else
          let s := if s.age c ≠ s.lifespan c then s.enqueueReady c else s
          .ok (some next, s.listDelInit next)
      else .ok (some next, s.listDelInit next)

/-- A held resource goes to a requester whose `prio` is not below the owner's; the owner is
then blocked and appended to the wait queue. -/
def paAcquire (s : Sys) (r : Nat) : Except Fault (Bool × Sys) :=
  match s.owner r, s.current with
  | none, _ => .ok (true, s.setOwner r s.current)
  | some _, none => .error .nullDeref
  | some o, some c =>
    if s.prio c < s.prio o then .ok (false, (s.setStatus c .blocked).enqueueWait r c)
    else .ok (true, ((s.setStatus o .blocked).enqueueWait r o).setOwner r (some c))

/-- Free `r` and, when it has waiters, wake the first process of highest `prio` found by a
scan of the ready queue. -/
def paRelease (s : Sys) (r : Nat) : Except Fault Sys :=
  if s.owner r = s.current then
    let s := s.setOwner r none
    s.wakeWaiter r (s.highestPrio s.readyqueue)
  else .error .assertFail

/-- When `current` competes and the ready queue is non-empty, reset `current` to `prio_orig`
and age every ready process while scanning for the highest `prio`. -/
def paSchedule (maxPrio : Nat) (s : Sys) : Except Fault (Option Nat × Sys) :=
  match s.current with
  | none => .ok s.pickHighest
  | some c =>
    if s.status c = .blocked then .ok s.pickHighest
    else match s.readyqueue with
      | [] => .ok (if s.age c < s.lifespan c then some c else none, s)
      | p :: ps =>
        let s := s.setPrio c (s.prioOrig c)
        let (s, next) := ps.foldl (agingStep maxPrio) (s.agePrio maxPrio p, p)
        if s.age c < s.lifespan c then
          if s.prio next < s.prio c then .ok (some c, s)
          else .ok (some next, (s.enqueueReady c).listDelInit next)
        else .ok (some next, s.listDelInit next)

/-- Grant a free resource and raise the new owner to `MAX_PRIO`; else block `current`. -/
def pcpAcquire (maxPrio : Nat) (s : Sys) (r : Nat) : Except Fault (Bool × Sys) :=
  match s.owner r, s.current with
  | none, none => .error .nullDeref
  | none, some c => .ok (true, (s.setOwner r (some c)).setPrio c maxPrio)
  | some _, none => .error .nullDeref
  | some _, some c => .ok (false, ((s.listDelInit c).setStatus c .blocked).enqueueWait r c)

/-- Restore the owner's `prio_orig` (before the owner check), free `r` and wake the first
waiter of highest `prio`. -/
def pcpRelease (s : Sys) (r : Nat) : Except Fault Sys :=
  match s.owner r with
  | none => .error .nullDeref
  | some o =>
    let s := s.setPrio o (s.prioOrig o)
    if s.owner r = s.current then
      let s := s.setOwner r none
      s.wakeWaiter r (s.highestPrio (s.waitqueue r))
    else .error .assertFail

/-- `current` keeps the CPU only while its `prio` is above every ready process. -/
def pcpSchedule (s : Sys) : Except Fault (Option Nat × Sys) :=
  match s.readyqueue with
  | [] => s.keepCurrent
  | p :: ps =>
    let next := scanFirst s.prioAbove p ps
    match s.current with
    | none => .ok (some next, s.listDelInit next)
    | some c =>
      if s.age c < s.lifespan c then
        if s.prio c ≤ s.prio next then
          let s := if s.status c ≠ .blocked then s.enqueueReady c else s
          .ok (some next, s.listDelInit next)
        else .ok (some c, s)
      else .ok (some next, s.listDelInit next)

/-- Block `current` on a held resource, first raising the owner to the requester's `prio`
when that is higher. -/
def pipAcquire (s : Sys) (r : Nat) : Except Fault (Bool × Sys) :=
  match s.owner r, s.current with
  | none, _ => .ok (true, s.setOwner r s.current)
  | some _, none => .error .nullDeref
  | some o, some c =>
    let s := if s.prio o < s.prio c then s.setPrio o (s.prio c) else s
    .ok (false, ((s.listDelInit c).setStatus c .blocked).enqueueWait r c)

/-- Assert that `current` owns `r`, restore its `prio_orig`, free `r` and wake the first
waiter of highest `prio`. -/
def pipRelease (s : Sys) (r : Nat) : Except Fault Sys :=
  if s.owner r = s.current then
    match s.owner r with
    | none => .error .nullDeref
    | some o =>
      let s := (s.setPrio o (s.prioOrig o)).setOwner r none
      s.wakeWaiter r (s.highestPrio (s.waitqueue r))
  else .error .assertFail

/-- As `pcp_schedule`, except that a BLOCKED `current` never keeps the CPU. -/
def pipSchedule (s : Sys) : Except Fault (Option Nat × Sys) :=
  match s.readyqueue with
  | [] => s.keepCurrent
  | p :: ps =>
    let next := scanFirst s.prioAbove p ps
    match s.current with
    | none => .ok (some next, s.listDelInit next)
    | some c =>
      if s.age c < s.lifespan c then
        if s.prio c ≤ s.prio next then
          let s := if s.status c ≠ .blocked then s.enqueueReady c else s
          .ok (some next, s.listDelInit next)
        else if s.status c = .blocked then .ok (some next, s.listDelInit next)
        else .ok (some c, s)
      else .ok (some next, s.listDelInit next)

variable {maxPrio : Nat} {s s' : Sys} {r : Nat} {b : Bool} {n : Option Nat}

theorem prioAcquire_ok (h : prioAcquire s r = .ok (b, s')) :
    (s.owner r = none ∧ b = true ∧ s' = s.setOwner r s.current) ∨
      ∃ o c, s.owner r = some o ∧ s.current = some c ∧ b = false ∧
        s' = ((s.listDelInit c).enqueueWait r c).setStatus c .blocked := by
  unfold prioAcquire at h
  split at h
  · cases h; exact .inl ⟨‹_›, rfl, rfl⟩
  · cases h
  · cases h; exact .inr ⟨_, _, ‹_›, ‹_›, rfl, rfl⟩

theorem prioRelease_ok (h : prioRelease s r = .ok s') :
    s.owner r = s.current ∧ (s.setOwner r none).wakeWaiter r (s.highestPrio (s.waitqueue r)) = .ok s' := by
  unfold prioRelease at h
  split at h
  · exact ⟨‹_›, h⟩
  · cases h

theorem paAcquire_ok (h : paAcquire s r = .ok (b, s')) :
    (s.owner r = none ∧ b = true ∧ s' = s.setOwner r s.current) ∨
      (∃ o c, s.owner r = some o ∧ s.current = some c ∧ s.prio c < s.prio o ∧ b = false ∧
        s' = (s.setStatus c .blocked).enqueueWait r c) ∨
      ∃ o c, s.owner r = some o ∧ s.current = some c ∧ s.prio o ≤ s.prio c ∧ b = true ∧
        s' = ((s.setStatus o .blocked).enqueueWait r o).setOwner r (some c) := by
  unfold paAcquire at h
  split at h
  · cases h; exact .inl ⟨‹_›, rfl, rfl⟩
  · cases h
  · split at h
    · cases h; exact .inr (.inl ⟨_, _, ‹_›, ‹_›, ‹_›, rfl, rfl⟩)
    · cases h; exact .inr (.inr ⟨_, _, ‹_›, ‹_›, not_lt.1 ‹_›, rfl, rfl⟩)

theorem paRelease_ok (h : paRelease s r = .ok s') :
    s.owner r = s.current ∧ (s.setOwner r none).wakeWaiter r (s.highestPrio s.readyqueue) = .ok s' := by
  unfold paRelease at h
  split at h
  · exact ⟨‹_›, h⟩
  · cases h

theorem pcpAcquire_ok (h : pcpAcquire maxPrio s r = .ok (b, s')) :
    (∃ c, s.owner r = none ∧ s.current = some c ∧ b = true ∧
        s' = (s.setOwner r (some c)).setPrio c maxPrio) ∨
      ∃ o c, s.owner r = some o ∧ s.current = some c ∧ b = false ∧
        s' = ((s.listDelInit c).setStatus c .blocked).enqueueWait r c := by
  unfold pcpAcquire at h
  split at h
  · cases h
  · cases h; exact .inl ⟨_, ‹_›, ‹_›, rfl, rfl⟩
  · cases h
  · cases h; exact .inr ⟨_, _, ‹_›, ‹_›, rfl, rfl⟩

theorem pcpRelease_ok (h : pcpRelease s r = .ok s') :
    ∃ o, s.owner r = some o ∧ s.current = some o ∧
      ((s.setPrio o (s.prioOrig o)).setOwner r none).wakeWaiter r
        ((s.setPrio o (s.prioOrig o)).highestPrio (s.waitqueue r)) = .ok s' := by
  unfold pcpRelease at h
  split at h
  · cases h
  · next o ho =>
    dsimp only at h
    split at h
    · next hc => exact ⟨o, ho, hc.symm.trans ho, h⟩
    · cases h

/-- `pcp_release` returns the releasing owner, and no other process, to its `prio_orig`. -/
theorem pcpRelease_prio (h : pcpRelease s r = .ok s') :
    ∃ o, s.owner r = some o ∧ s.current = some o ∧
      s'.prio = Function.update s.prio o (s.prioOrig o) ∧ s'.prioOrig = s.prioOrig ∧
      s'.owner = Function.update s.owner r none := by
  obtain ⟨o, ho, hc, hw⟩ := pcpRelease_ok h
  obtain ⟨hq, hp⟩ := Sys.wakeWaiter_requeued hw
  exact ⟨o, ho, hc, hp, hq.prioOrig, hq.owner⟩

theorem pipAcquire_ok (h : pipAcquire s r = .ok (b, s')) :
    (s.owner r = none ∧ b = true ∧ s' = s.setOwner r s.current) ∨
      ∃ o c, s.owner r = some o ∧ s.current = some c ∧ b = false ∧
        s' = (((if s.prio o < s.prio c then s.setPrio o (s.prio c) else s).listDelInit c).setStatus
          c .blocked).enqueueWait r c := by
  unfold pipAcquire at h
  split at h
  · cases h; exact .inl ⟨‹_›, rfl, rfl⟩
  · cases h
  · cases h; exact .inr ⟨_, _, ‹_›, ‹_›, rfl, rfl⟩

theorem pipRelease_ok (h : pipRelease s r = .ok s') :
    ∃ o, s.owner r = some o ∧ s.current = some o ∧
      ((s.setPrio o (s.prioOrig o)).setOwner r none).wakeWaiter r
        ((s.setPrio o (s.prioOrig o)).highestPrio (s.waitqueue r)) = .ok s' := by
  unfold pipRelease at h
  split at h
  · next hc =>
    split at h
    · cases h
    · next o ho => exact ⟨o, ho, hc.symm.trans ho, h⟩
  · cases h

/-- `pip_release` returns the releasing owner, and no other process, to its `prio_orig`. -/
theorem pipRelease_prio (h : pipRelease s r = .ok s') :
    ∃ o, s.owner r = some o ∧ s.current = some o ∧
      s'.prio = Function.update s.prio o (s.prioOrig o) ∧ s'.prioOrig = s.prioOrig ∧
      s'.owner = Function.update s.owner r none := by
  obtain ⟨o, ho, hc, hw⟩ := pipRelease_ok h
  obtain ⟨hq, hp⟩ := Sys.wakeWaiter_requeued hw
  exact ⟨o, ho, hc, hp, hq.prioOrig, hq.owner⟩

section Cons

variable {p : Nat} {ps : List Nat}

/-- What `prio_schedule` can do on a non-empty ready queue, whose scan gives `next`: keep a
non-BLOCKED unfinished `current` of `prio` above `next`'s, requeue it otherwise, and detach
`next` when `current` is absent, finished or BLOCKED. -/
theorem prioSchedule_cons (hr : s.readyqueue = p :: ps) (h : prioSchedule s = .ok (n, s')) :
    let next := scanFirst (fun q n => decide (s.prio n < s.prio q ∧ s.status q = .ready)) p ps
    (∃ c, s.current = some c ∧ s.status c = .ready ∧ s.age c ≠ s.lifespan c ∧
      s.prio next < s.prio c ∧ n = some c ∧ s' = s) ∨
    (∃ c, s.current = some c ∧ s.status c = .ready ∧ s.age c ≠ s.lifespan c ∧
      s.prio c ≤ s.prio next ∧ n = some next ∧ s' = (s.enqueueReady c).listDelInit next) ∨
    ((∀ c, s.current = some c → s.age c = s.lifespan c ∨ s.status c = .blocked) ∧
      n = some next ∧ s' = s.listDelInit next) := by
  intro next
  rw [prioSchedule, hr] at h
  dsimp only at h
  rcases hc : s.current with _ | c <;> rw [hc] at h <;> dsimp only at h
  · cases h; exact .inr (.inr ⟨fun c h' => (nomatch h'), rfl, rfl⟩)
  · by_cases ha : s.age c = s.lifespan c
    · rw [if_pos ha] at h
      cases h; exact .inr (.inr ⟨fun c' h' => .inl (Option.some.inj h' ▸ ha), rfl, rfl⟩)
    · rw [if_neg ha] at h
      by_cases hst : s.status c = .blocked
      · rw [if_neg (not_not.2 hst)] at h
        cases h; exact .inr (.inr ⟨fun c' h' => .inr (Option.some.inj h' ▸ hst), rfl, rfl⟩)
      · rw [if_pos hst] at h
        by_cases hlt : s.prio next < s.prio c
        · rw [if_pos hlt] at h
          cases h; exact .inl ⟨c, rfl, by simpa using hst, ha, hlt, rfl, rfl⟩
        · rw [if_neg hlt, if_pos ha] at h
          cases h; exact .inr (.inl ⟨c, rfl, by simpa using hst, ha, not_lt.1 hlt, rfl, rfl⟩)

/-- What `pcp_schedule` can do on a non-empty ready queue: keep an unfinished `current` of
`prio` above `next`'s, BLOCKED or not; requeue a READY one otherwise; and detach `next` when
`current` is absent, finished, or BLOCKED and not above `next`. -/
theorem pcpSchedule_cons (hr : s.readyqueue = p :: ps) (h : pcpSchedule s = .ok (n, s')) :
    let next := scanFirst s.prioAbove p ps
    (∃ c, s.current = some c ∧ s.age c < s.lifespan c ∧ s.prio next < s.prio c ∧
      n = some c ∧ s' = s) ∨
    (∃ c, s.current = some c ∧ s.status c = .ready ∧ s.age c < s.lifespan c ∧
      s.prio c ≤ s.prio next ∧ n = some next ∧ s' = (s.enqueueReady c).listDelInit next) ∨
    ((∀ c, s.current = some c → s.lifespan c ≤ s.age c ∨
        s.status c = .blocked ∧ s.prio c ≤ s.prio next) ∧
      n = some next ∧ s' = s.listDelInit next) := by
  intro next
  rw [pcpSchedule, hr] at h
  dsimp only at h
  rcases hc : s.current with _ | c <;> rw [hc] at h <;> dsimp only at h
  · cases h; exact .inr (.inr ⟨fun c h' => (nomatch h'), rfl, rfl⟩)
  · by_cases ha : s.age c < s.lifespan c
    · rw [if_pos ha] at h
      by_cases hle : s.prio c ≤ s.prio next
      · rw [if_pos hle] at h
        by_cases hst : s.status c = .blocked
        · rw [if_neg (not_not.2 hst)] at h
          cases h; exact .inr (.inr ⟨fun c' h' => .inr (Option.some.inj h' ▸ ⟨hst, hle⟩), rfl, rfl⟩)
        · rw [if_pos hst] at h
          cases h; exact .inr (.inl ⟨c, rfl, by simpa using hst, ha, hle, rfl, rfl⟩)
      · rw [if_neg hle] at h
        cases h; exact .inl ⟨c, rfl, ha, not_le.1 hle, rfl, rfl⟩
    · rw [if_neg ha] at h
      cases h; exact .inr (.inr ⟨fun c' h' => .inl (Option.some.inj h' ▸ not_lt.1 ha), rfl, rfl⟩)

/-- What `pip_schedule` can do on a non-empty ready queue: as `pcp_schedule`, except that a
BLOCKED `current` is never kept. -/
theorem pipSchedule_cons (hr : s.readyqueue = p :: ps) (h : pipSchedule s = .ok (n, s')) :
    let next := scanFirst s.prioAbove p ps
    (∃ c, s.current = some c ∧ s.status c = .ready ∧ s.age c < s.lifespan c ∧
      s.prio next < s.prio c ∧ n = some c ∧ s' = s) ∨
    (∃ c, s.current = some c ∧ s.status c = .ready ∧ s.age c < s.lifespan c ∧
      s.prio c ≤ s.prio next ∧ n = some next ∧ s' = (s.enqueueReady c).listDelInit next) ∨
    ((∀ c, s.current = some c → s.lifespan c ≤ s.age c ∨ s.status c = .blocked) ∧
      n = some next ∧ s' = s.listDelInit next) := by
  intro next
  rw [pipSchedule, hr] at h
  dsimp only at h
  rcases hc : s.current with _ | c <;> rw [hc] at h <;> dsimp only at h
  · cases h; exact .inr (.inr ⟨fun c h' => (nomatch h'), rfl, rfl⟩)
  · have hblk : s.status c = .blocked → ∀ c', some c = some c' →
        s.lifespan c' ≤ s.age c' ∨ s.status c' = .blocked := fun hst c' h' =>
      .inr (Option.some.inj h' ▸ hst)
    by_cases ha : s.age c < s.lifespan c
    · rw [if_pos ha] at h
      by_cases hst : s.status c = .blocked
      · by_cases hle : s.prio c ≤ s.prio next
        · rw [if_pos hle, if_neg (not_not.2 hst)] at h
          cases h; exact .inr (.inr ⟨hblk hst, rfl, rfl⟩)
        · rw [if_neg hle, if_pos hst] at h
          cases h; exact .inr (.inr ⟨hblk hst, rfl, rfl⟩)
      · by_cases hle : s.prio c ≤ s.prio next
        · rw [if_pos hle, if_pos hst] at h
          cases h; exact .inr (.inl ⟨c, rfl, by simpa using hst, ha, hle, rfl, rfl⟩)
        · rw [if_neg hle, if_neg hst] at h
          cases h; exact .inl ⟨c, rfl, by simpa using hst, ha, not_le.1 hle, rfl, rfl⟩
    · rw [if_neg ha] at h
      cases h; exact .inr (.inr ⟨fun c' h' => .inl (Option.some.inj h' ▸ not_lt.1 ha), rfl, rfl⟩)

end Cons

theorem prioSchedule_requeued (h : prioSchedule s = .ok (n, s')) :
    Requeued s s' ∧ s'.status = s.status ∧ s'.prio = s.prio := by
  cases hr : s.readyqueue with
  | nil =>
    obtain rfl := Sys.keepCurrent_state (by simpa only [prioSchedule, hr] using h)
    exact ⟨Requeued.refl _, rfl, rfl⟩
  | cons p ps =>
    rcases prioSchedule_cons hr h with ⟨-, -, -, -, -, -, rfl⟩ | ⟨-, -, -, -, -, -, rfl⟩ |
        ⟨-, -, rfl⟩ <;>
      exact ⟨⟨rfl, rfl, rfl, rfl, rfl, rfl⟩, rfl, rfl⟩

theorem pcpSchedule_requeued (h : pcpSchedule s = .ok (n, s')) :
    Requeued s s' ∧ s'.status = s.status ∧ s'.prio = s.prio := by
  cases hr : s.readyqueue with
  | nil =>
    obtain rfl := Sys.keepCurrent_state (by simpa only [pcpSchedule, hr] using h)
    exact ⟨Requeued.refl _, rfl, rfl⟩
  | cons p ps =>
    rcases pcpSchedule_cons hr h with ⟨-, -, -, -, -, rfl⟩ | ⟨-, -, -, -, -, -, rfl⟩ |
        ⟨-, -, rfl⟩ <;>
      exact ⟨⟨rfl, rfl, rfl, rfl, rfl, rfl⟩, rfl, rfl⟩

theorem pipSchedule_requeued (h : pipSchedule s = .ok (n, s')) :
    Requeued s s' ∧ s'.status = s.status ∧ s'.prio = s.prio := by
  cases hr : s.readyqueue with
  | nil =>
    obtain rfl := Sys.keepCurrent_state (by simpa only [pipSchedule, hr] using h)
    exact ⟨Requeued.refl _, rfl, rfl⟩
  | cons p ps =>
    rcases pipSchedule_cons hr h with ⟨-, -, -, -, -, -, rfl⟩ | ⟨-, -, -, -, -, -, rfl⟩ |
        ⟨-, -, rfl⟩ <;>
      exact ⟨⟨rfl, rfl, rfl, rfl, rfl, rfl⟩, rfl, rfl⟩

/-- What `pa_schedule` can do: `pick_next` for an absent or BLOCKED `current`; keep or drop
`current` on an empty ready queue; otherwise reset `current`, age the ready queue, and keep
`current`, preempt it, or replace a finished one. -/
theorem paSchedule_ok (h : paSchedule maxPrio s = .ok (n, s')) :
    ((∀ c, s.current = some c → s.status c = .blocked) ∧ (n, s') = s.pickHighest) ∨
      (∃ c, s.current = some c ∧ s.status c ≠ .blocked ∧ s.readyqueue = [] ∧ s' = s ∧
        n = if s.age c < s.lifespan c then some c else none) ∨
      ∃ c p ps t next, s.current = some c ∧ s.status c ≠ .blocked ∧ s.readyqueue = p :: ps ∧
        ps.foldl (agingStep maxPrio) ((s.setPrio c (s.prioOrig c)).agePrio maxPrio p, p) =
          (t, next) ∧
        ((t.age c < t.lifespan c ∧ t.prio next < t.prio c ∧ n = some c ∧ s' = t) ∨
          (t.age c < t.lifespan c ∧ t.prio c ≤ t.prio next ∧ n = some next ∧
            s' = (t.enqueueReady c).listDelInit next) ∨
          (t.lifespan c ≤ t.age c ∧ n = some next ∧ s' = t.listDelInit next)) := by
  rw [paSchedule] at h
  rcases hc : s.current with _ | c <;> rw [hc] at h <;> dsimp only at h
  · exact .inl ⟨fun c h' => (nomatch h'), (Except.ok.inj h).symm⟩
  · by_cases hb : s.status c = .blocked
    · rw [if_pos hb] at h
      exact .inl ⟨fun c' h' => Option.some.inj h' ▸ hb, (Except.ok.inj h).symm⟩
    · rw [if_neg hb] at h
      rcases hr : s.readyqueue with _ | ⟨p, ps⟩ <;> rw [hr] at h <;> dsimp only at h
      · cases h; exact .inr (.inl ⟨c, rfl, hb, rfl, rfl, rfl⟩)
      · generalize hf : ps.foldl (agingStep maxPrio)
          ((s.setPrio c (s.prioOrig c)).agePrio maxPrio p, p) = acc at h
        obtain ⟨t, next⟩ := acc
        refine .inr (.inr ⟨c, p, ps, t, next, rfl, hb, rfl, hf, ?_⟩)
        dsimp only at h
        by_cases ha : t.age c < t.lifespan c
        · rw [if_pos ha] at h
          by_cases hlt : t.prio next < t.prio c
          · rw [if_pos hlt] at h; cases h; exact .inl ⟨ha, hlt, rfl, rfl⟩
          · rw [if_neg hlt] at h; cases h; exact .inr (.inl ⟨ha, not_lt.1 hlt, rfl, rfl⟩)
        · rw [if_neg ha] at h; cases h; exact .inr (.inr ⟨not_lt.1 ha, rfl, rfl⟩)

theorem paSchedule_requeued (h : paSchedule maxPrio s = .ok (n, s')) :
    Requeued s s' ∧ s'.status = s.status ∧
      (s'.prio = s.prio ∨ ∃ c, s.current = some c ∧ Aged maxPrio (s.setPrio c (s.prioOrig c)) s') := by
  rcases paSchedule_ok h with ⟨-, hp⟩ | ⟨c, -, -, -, rfl, -⟩ | ⟨c, p, ps, t, next, hc, -, -, hf, hs⟩
  · unfold Sys.pickHighest at hp
    split at hp <;> (cases hp; exact ⟨⟨rfl, rfl, rfl, rfl, rfl, rfl⟩, rfl, .inl rfl⟩)
  · exact ⟨Requeued.refl _, rfl, .inl rfl⟩
  · have ha := (agePrio_aged (s.setPrio c (s.prioOrig c)) maxPrio p).2.trans
      (agingLoop_aged maxPrio ps ((s.setPrio c (s.prioOrig c)).agePrio maxPrio p, p)).2.1
    have ht : Repriced s t := by simpa only [hf] using agingLoop_repriced maxPrio c p ps s
    rw [hf] at ha
    have hq := ht.requeued
    have hst : t.status = s.status := by rw [ht]
    rcases hs with ⟨-, -, -, rfl⟩ | ⟨-, -, -, rfl⟩ | ⟨-, -, rfl⟩ <;>
      exact ⟨⟨hq.lifespan, hq.age, hq.prioOrig, hq.nproc, hq.current, hq.owner⟩, hst,
        .inr ⟨c, hc, ha⟩⟩

/-- `prio_schedule`, `pcp_schedule` and `pip_schedule` abort only on an empty ready queue
with a NULL `current`, and `pa_schedule` never aborts. -/
theorem prioSchedule_error {e : Fault} (h : prioSchedule s = .error e) : s.readyqueue = [] ∧ s.current = none := by
  cases hr : s.readyqueue with
  | nil => exact ⟨rfl, Sys.keepCurrent_error (by simpa only [prioSchedule, hr] using h)⟩
  | cons p ps =>
    rw [prioSchedule, hr] at h
    cases hc : s.current <;> rw [hc] at h <;>
      simp only [apply_ite (· = Except.error e), reduceCtorEq, ite_self] at h

theorem pcpSchedule_error {e : Fault} (h : pcpSchedule s = .error e) : s.readyqueue = [] ∧ s.current = none := by
  cases hr : s.readyqueue with
  | nil => exact ⟨rfl, Sys.keepCurrent_error (by simpa only [pcpSchedule, hr] using h)⟩
  | cons p ps =>
    rw [pcpSchedule, hr] at h
    cases hc : s.current <;> rw [hc] at h <;>
      simp only [apply_ite (· = Except.error e), reduceCtorEq, ite_self] at h

theorem pipSchedule_error {e : Fault} (h : pipSchedule s = .error e) : s.readyqueue = [] ∧ s.current = none := by
  cases hr : s.readyqueue with
  | nil => exact ⟨rfl, Sys.keepCurrent_error (by simpa only [pipSchedule, hr] using h)⟩
  | cons p ps =>
    rw [pipSchedule, hr] at h
    cases hc : s.current <;> rw [hc] at h <;>
      simp only [apply_ite (· = Except.error e), reduceCtorEq, ite_self] at h

theorem paSchedule_error {e : Fault} (h : paSchedule maxPrio s = .error e) : False := by
  rw [paSchedule] at h
  cases hc : s.current <;> rw [hc] at h
  · cases h
  · cases hr : s.readyqueue with
    | nil => rw [hr] at h; simp only [apply_ite (· = Except.error e), reduceCtorEq, ite_self] at h
    | cons p ps =>
      rw [hr] at h
      generalize ps.foldl (agingStep maxPrio) _ = acc at h
      simp only [apply_ite (· = Except.error e), reduceCtorEq, ite_self] at h

def prioScheduler : Scheduler where
  acquire := prioAcquire
  release := prioRelease
  schedule := prioSchedule

def paScheduler (maxPrio : Nat) : Scheduler where
  acquire := paAcquire
  release := paRelease
  schedule := paSchedule maxPrio

def pcpScheduler (maxPrio : Nat) : Scheduler where
  acquire := pcpAcquire maxPrio
  release := pcpRelease
  schedule := pcpSchedule

def pipScheduler : Scheduler where
  acquire := pipAcquire
  release := pipRelease
  schedule := pipSchedule

end CpuSched
