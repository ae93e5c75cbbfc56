import CpuSched.Selection
import CpuSched.Progress
import CpuSched.Priorities

/-! Priority with aging starves no process: a waiting process runs within `MAX_PRIO - prio`
ticks plus one for each process ahead of it. -/
namespace CpuSched

/-- A process `x` that stands behind `pre` in one split and does not stand behind `q ≠ x` in
another comes before `q` there. -/
theorem mem_of_split {pre suf l₁ l₂ : List Nat} {x q : Nat} (h : pre ++ x :: suf = l₁ ++ q :: l₂)
    (hq : q ∉ pre) (hqx : q ≠ x) : x ∈ l₁ := by
  rcases List.append_eq_append_iff.1 h with ⟨a, rfl, ha⟩ | ⟨c, rfl, hc⟩
  · cases a with
    | nil => exact absurd (List.cons.inj ha).1.symm hqx
    | cons y a => exact List.mem_append_right _ ((List.cons.inj ha).1 ▸ List.mem_cons_self _ _)
  · cases c with
    | nil => exact absurd (List.cons.inj hc).1 hqx
    | cons y c => exact absurd (List.mem_append_right _ ((List.cons.inj hc).1 ▸ List.mem_cons_self _ _)) hq

/-- Taking `q ≠ x` out of a duplicate-free queue leaves `x` behind what is left of `pre`. -/
theorem erase_split {pre suf : List Nat} {x q : Nat} (hnd : (pre ++ x :: suf).Nodup) (hqx : q ≠ x) :
    (pre ++ x :: suf).erase q = pre.erase q ++ x :: suf.erase q := by
  by_cases hq : q ∈ pre
  · have hs : q ∉ suf := fun h => List.disjoint_of_nodup_append hnd hq (List.mem_cons_of_mem _ h)
    rw [List.erase_append_left _ hq, List.erase_of_not_mem hs]
  · rw [List.erase_append_right _ hq, List.erase_of_not_mem hq,
      List.erase_cons_tail (by simpa using Ne.symm hqx)]

section Aging

variable {maxPrio x : Nat} {s : Sys} {pre suf : List Nat}

/-- The step lemma: from an invariant state within the priority bounds, with a READY `current`,
where `x` waits behind `pre`, a tick of Priority with aging runs `x` or leaves it waiting behind
some `pre'` with less of `MAX_PRIO - prio x + pre.length` left, counting one more while no process
is current. -/
theorem pa_tick_waiting (hi : QueueInv s) (hbd : PrioBounded maxPrio s)
    (hb : ∀ c, s.current = some c → s.status c = .ready) (hr : s.readyqueue = pre ++ x :: suf) :
    ∃ s', exec (paScheduler maxPrio) s .tick = .ok s' ∧ (s'.current = some x ∨
      ∃ pre' suf', s'.readyqueue = pre' ++ x :: suf' ∧
        maxPrio - s'.prio x + pre'.length + (if s'.current = none then 1 else 0) <
          maxPrio - s.prio x + pre.length + (if s.current = none then 1 else 0)) := by
  have hx : x ∈ s.readyqueue := hr ▸ List.mem_append_right _ (List.mem_cons_self _ _)
  obtain ⟨p, ps, hr'⟩ := List.exists_cons_of_ne_nil (List.ne_nil_of_mem hx)
  obtain ⟨n, s₁, hs⟩ : ∃ n s₁, paSchedule maxPrio s = .ok (n, s₁) :=
    schedule_ok .pa maxPrio (List.ne_nil_of_mem hx)
  have hex : exec (paScheduler maxPrio) s .tick = .ok (s₁.dispatch n) := by
    simp only [exec, paScheduler, hs]
  refine ⟨_, hex, ?_⟩
  have hbd₁ : PrioBounded maxPrio (s₁.dispatch n) := exec_prioBounded .pa (fun _ _ h => by cases h) hbd hex
  obtain ⟨hspec, q, rfl, hch⟩ := paSchedule_selects hi hr' hs
  have hrep : Repriced s (s.paCompared maxPrio) := Sys.repriced_paCompared
  have hit : QueueInv (s.paCompared maxPrio) := by rw [hrep]; exact hi.congr rfl rfl rfl rfl rfl rfl
  have hrt : (s.paCompared maxPrio).readyqueue = s.readyqueue := by rw [hrep]
  have hxt : (s.paCompared maxPrio).prio x = _ := Sys.paCompared_prio_of_mem hb hx
  rcases hspec.eq_or_detach with ⟨hc, rfl⟩ | ⟨hq, hprio, e, hrq⟩
  · -- `pa_schedule` keeps `current`, whose `prio_orig` is above the aged `prio` of `x`
    have hcs : s.current = some q := by rw [hrep] at hc; exact hc
    have hlt : (s.paCompared maxPrio).prio x < s.prioOrig q := by
      cases hch with
      | current _ _ hall =>
        rw [← Sys.paCompared_prio_current hcs (hb q hcs) (hi.not_mem_ready_of_current hcs)
          (List.ne_nil_of_mem hx)]
        exact hall x (hrt ▸ hx)
      | ready _ hsp _ =>
        obtain ⟨l₁, l₂, hl, -⟩ := hsp
        exact absurd (hl ▸ List.mem_append_right _ (List.mem_cons_self _ _))
          (hit.not_mem_ready_of_current hc)
    have hq₀ := (hbd q).1.trans (hbd q).2
    rw [hxt, hcs] at hlt
    refine .inr ⟨pre, suf, by rw [Sys.dispatch_readyqueue, hrt, hr], ?_⟩
    simp only [Sys.dispatch_current, Sys.dispatch_prio, hxt, hcs, reduceCtorEq, if_false,
      false_or] at hlt ⊢
    split_ifs at hlt ⊢ <;> omega
  · -- `pa_schedule` runs the earliest ready process `q` of highest compared `prio`
    by_cases hqx : q = x
    · exact .inl (hqx ▸ rfl)
    obtain ⟨l₁, l₂, hl, hbefore⟩ : ∃ l₁ l₂, s.readyqueue = l₁ ++ q :: l₂ ∧
        ∀ r ∈ l₁, (s.paCompared maxPrio).prio r < (s.paCompared maxPrio).prio q := by
      cases hch with
      | current hc _ _ => exact absurd hq (hit.not_mem_ready_of_current hc)
      | ready _ hsp _ => exact hrt ▸ hsp
    have hnd : (pre ++ x :: suf).Nodup := hr ▸ hi.ready_nodup
    refine .inr ⟨pre.erase q, suf.erase q ++ e, ?_, ?_⟩
    · rw [Sys.dispatch_readyqueue, hrq, hrt, hr, erase_split hnd hqx, List.append_assoc,
        List.cons_append]
    have hqm : (s₁.dispatch (some q)).prio q ≤ maxPrio := (hbd₁ q).2
    simp only [Sys.dispatch_current, Sys.dispatch_prio, hprio, reduceCtorEq, if_false] at hqm ⊢
    by_cases hqp : q ∈ pre
    · rw [List.length_erase_of_mem hqp]
      have := List.length_pos_of_mem hqp
      rw [hxt]
      split_ifs <;> omega
    · -- then `x` comes before `q`, below its `prio`: a competing `current` ages `x`, and
      -- otherwise `q` becomes current
      have hxq := hbefore x (mem_of_split (hr.symm.trans hl) hqp hqx)
      rw [List.erase_of_not_mem hqp, hxt]
      rw [hxt] at hxq
      by_cases hn : s.current = none
      · simp only [hn, true_or, if_true] at hxq ⊢; omega
      · simp only [hn, false_or, if_false] at hxq ⊢; split_ifs at hxq ⊢ <;> omega

/-- Priority with aging starves no process: with only ticks, from an invariant state within the
priority bounds whose `current` is READY, a process with `pre.length` processes ahead of it in
the ready queue runs within `MAX_PRIO - prio + pre.length` ticks after the first, and one more
when no process is current. -/
theorem pa_no_starvation (maxPrio : Nat) (hi : QueueInv s) (hbd : PrioBounded maxPrio s)
    (hb : ∀ c, s.current = some c → s.status c = .ready) (hr : s.readyqueue = pre ++ x :: suf) :
    ∃ k ≤ maxPrio - s.prio x + pre.length + (if s.current = none then 1 else 0), ∃ s',
      Run (paScheduler maxPrio) s (List.replicate (k + 1) .tick) s' ∧ s'.current = some x := by
  obtain ⟨m, hm⟩ : ∃ m, maxPrio - s.prio x + pre.length + (if s.current = none then 1 else 0) = m :=
    ⟨_, rfl⟩
  induction m using Nat.strong_induction_on generalizing s pre suf with
  | _ m ih =>
    obtain ⟨s₁, hex, hx | ⟨pre', suf', hr₁, hlt⟩⟩ := pa_tick_waiting hi hbd hb hr
    · exact ⟨0, Nat.zero_le _, s₁, .cons rfl hex (.nil _), hx⟩
    · obtain ⟨hi₁, hb₁⟩ := tick_keeps_ready (Policy.meetsContract .pa maxPrio) hi hb hex
      obtain ⟨k, hk, s', hrun, hx'⟩ :=
        ih _ (hm ▸ hlt) hi₁ (exec_prioBounded .pa (fun _ _ h => by cases h) hbd hex) hb₁ hr₁ rfl
      exact ⟨k + 1, by omega, s', .cons rfl hex hrun, hx'⟩

/-- Two processes at priority 2 ahead of one at priority 0, forked and not yet run. -/
def agingTrio : Sys := ((Sys.init.fork 3 2).fork 3 2).fork 3 0

theorem queueInv_agingTrio : QueueInv agingTrio :=
  ((queueInv_init.fork fresh_init (by decide) 2).fork (fresh_init.fork 3 2) (by decide) 2).fork
    ((fresh_init.fork 3 2).fork 3 2) (by decide) 0

theorem prioBounded_agingTrio : PrioBounded 2 agingTrio :=
  show PrioBounded 2 (((Sys.init.fork 3 2).fork 3 2).fork 3 0) from
    (((prioBounded_init 2).fork (by decide)).fork (by decide)).fork (by decide)

theorem pa_no_starvation_agingTrio :
    ∃ k ≤ 5, ∃ s', Run (paScheduler 2) agingTrio (List.replicate (k + 1) .tick) s' ∧
      s'.current = some 2 :=
  pa_no_starvation 2 queueInv_agingTrio prioBounded_agingTrio (fun _ h => nomatch h)
    (rfl : agingTrio.readyqueue = [0, 1] ++ [2])

end Aging

end CpuSched
