import CpuSched.State
import Mathlib.Order.Basic
import Mathlib.Data.List.Basic

/-! The `list_for_each_entry` selection loops of the schedulers and release functions, and
what they select. -/
namespace CpuSched

/-- The selection loop over a non-empty queue `first :: rest`:
`list_for_each_entry(p, q, list) { if (!next) next = p; else if (better(p, next)) next = p; }`. -/
def scanFirst (better : Nat → Nat → Bool) (first : Nat) (rest : List Nat) : Nat :=
  rest.foldl (fun next p => if better p next then p else next) first

/-- The loop of the priority policies: `p->prio > next->prio`. -/
def Sys.prioAbove (s : Sys) (p n : Nat) : Bool := decide (s.prio n < s.prio p)

/-- The first process of highest `prio` in a queue, or `NULL` for an empty queue. -/
def Sys.highestPrio (s : Sys) : List Nat → Option Nat
  | [] => none
  | p :: ps => some (scanFirst s.prioAbove p ps)

theorem scanFirst_cons (better : Nat → Nat → Bool) (first q : Nat) (rest : List Nat) :
    scanFirst better first (q :: rest) =
      scanFirst better (if better q first then q else first) rest := rfl

theorem scanFirst_mem (better : Nat → Nat → Bool) (first : Nat) (rest : List Nat) :
    scanFirst better first rest ∈ first :: rest := by
  induction rest generalizing first with
  | nil => exact List.mem_singleton_self first
  | cons q rest ih =>
    rw [scanFirst_cons]
    split
    · exact List.mem_cons_of_mem _ (ih q)
    · exact List.cons_subset_cons _ (List.subset_cons_self _ _) (ih first)

/-- The loop keeps its first entry when no later entry beats it. -/
theorem scanFirst_eq_first {better : Nat → Nat → Bool} {first : Nat} {rest : List Nat}
    (h : ∀ q ∈ rest, better q first = false) : scanFirst better first rest = first := by
  induction rest with
  | nil => rfl
  | cons q rest ih =>
    rw [scanFirst_cons, h q (List.mem_cons_self _ _), if_neg Bool.false_ne_true]
    exact ih fun q' hq' => h q' (List.mem_cons_of_mem _ hq')

/-- The loop only compares entries of the queue. -/
theorem scanFirst_congr {b₁ b₂ : Nat → Nat → Bool} {first : Nat} {rest : List Nat}
    (h : ∀ p ∈ first :: rest, ∀ n ∈ first :: rest, b₁ p n = b₂ p n) :
    scanFirst b₁ first rest = scanFirst b₂ first rest := by
  induction rest generalizing first with
  | nil => rfl
  | cons q rest ih =>
    rw [scanFirst_cons, scanFirst_cons, h q (by simp) first (by simp)]
    have hsub : ∀ x ∈ (if b₂ q first then q else first) :: rest, x ∈ first :: q :: rest := by
      intro x hx
      rcases List.mem_cons.1 hx with rfl | hx
      · split <;> simp
      · exact .tail _ (.tail _ hx)
    exact ih fun p hp n hn => h p (hsub p hp) n (hsub n hn)

/-- When `better p n` means that `p` beats `n` under a strict weak order `lt`, the loop returns
an entry that no entry beats and that beats every entry before it. -/
theorem scanFirst_best (lt : Nat → Nat → Prop) (hasymm : ∀ a b, lt a b → ¬ lt b a)
    (hcot : ∀ a b c, lt a b → lt a c ∨ lt c b) (better : Nat → Nat → Bool)
    (hb : ∀ p n, better p n = true ↔ lt n p) (first : Nat) (rest : List Nat) :
    let r := scanFirst better first rest
    (∀ q ∈ first :: rest, ¬ lt r q) ∧ ∃ l₁ l₂, first :: rest = l₁ ++ r :: l₂ ∧ ∀ q ∈ l₁, lt q r := by
  induction rest generalizing first with
  | nil => exact ⟨by simpa [scanFirst] using fun h => hasymm _ _ h h, [], [], rfl, by simp⟩
  | cons q rest ih =>
    dsimp only at ih ⊢
    rw [scanFirst_cons]
    by_cases hq : lt first q
    · rw [if_pos ((hb _ _).2 hq)]
      obtain ⟨hle, l₁, l₂, hl, hlt⟩ := ih q
      have hfirst := (hcot _ _ _ hq).resolve_right (hle q (List.mem_cons_self _ _))
      exact ⟨List.forall_mem_cons.2 ⟨hasymm _ _ hfirst, hle⟩, first :: l₁, l₂, by rw [hl]; rfl,
        List.forall_mem_cons.2 ⟨hfirst, hlt⟩⟩
    · rw [if_neg (mt (hb _ _).1 hq)]
      obtain ⟨hle, l₁, l₂, hl, hlt⟩ := ih first
      generalize scanFirst _ first rest = r at hle hl hlt ⊢
      obtain ⟨h1, h2⟩ := List.forall_mem_cons.1 hle
      have hrq : ¬ lt r q := fun h => (hcot _ _ first h).elim h1 hq
      refine ⟨List.forall_mem_cons.2 ⟨h1, List.forall_mem_cons.2 ⟨hrq, h2⟩⟩, ?_⟩
      cases l₁ with
      | nil =>
        obtain ⟨rfl, rfl⟩ := List.cons.inj hl
        exact ⟨[], q :: rest, rfl, by simp⟩
      | cons a l₁ =>
        obtain ⟨rfl, rfl⟩ := List.cons.inj hl
        obtain ⟨ha, hl₁⟩ := List.forall_mem_cons.1 hlt
        exact ⟨first :: q :: l₁, l₂, rfl,
          List.forall_mem_cons.2 ⟨ha, List.forall_mem_cons.2 ⟨(hcot _ _ q ha).resolve_left hq, hl₁⟩⟩⟩

/-- When `better p n` is `key n < key p`, the loop returns an entry of maximal key that comes
before every other entry of that key. -/
theorem scanFirst_max (key : Nat → Nat) (first : Nat) (rest : List Nat) :
    let r := scanFirst (fun p n => decide (key n < key p)) first rest
    (∀ q ∈ first :: rest, key q ≤ key r) ∧
      ∃ l₁ l₂, first :: rest = l₁ ++ r :: l₂ ∧ ∀ q ∈ l₁, key q < key r := by
  obtain ⟨h₁, h₂⟩ := scanFirst_best (fun a b => key a < key b) (fun _ _ => Nat.lt_asymm)
    (fun _ _ _ _ => by omega) _ (fun _ _ => decide_eq_true_iff) first rest
  exact ⟨fun q hq => Nat.le_of_not_lt (h₁ q hq), h₂⟩

/-- When `better p n` is `key p < key n`, the loop returns an entry of minimal key that comes
before every other entry of that key. -/
theorem scanFirst_min (key : Nat → Nat) (first : Nat) (rest : List Nat) :
    let r := scanFirst (fun p n => decide (key p < key n)) first rest
    (∀ q ∈ first :: rest, key r ≤ key q) ∧
      ∃ l₁ l₂, first :: rest = l₁ ++ r :: l₂ ∧ ∀ q ∈ l₁, key r < key q := by
  obtain ⟨h₁, h₂⟩ := scanFirst_best (fun a b => key b < key a) (fun _ _ => Nat.lt_asymm)
    (fun _ _ _ _ => by omega) _ (fun _ _ => decide_eq_true_iff) first rest
  exact ⟨fun q hq => Nat.le_of_not_lt (h₁ q hq), h₂⟩

theorem highestPrio_mem {s : Sys} {q : List Nat} {w : Nat} (h : s.highestPrio q = some w) :
    w ∈ q := by
  cases q with
  | nil => cases h
  | cons p ps => exact Option.some.inj h ▸ scanFirst_mem _ p ps

/-- `highestPrio` returns the first process of maximal `prio` in the queue. -/
theorem highestPrio_spec {s : Sys} {q : List Nat} {w : Nat} (h : s.highestPrio q = some w) :
    (∀ p ∈ q, s.prio p ≤ s.prio w) ∧ ∃ l₁ l₂, q = l₁ ++ w :: l₂ ∧ ∀ p ∈ l₁, s.prio p < s.prio w := by
  cases q with
  | nil => cases h
  | cons p ps => exact Option.some.inj h ▸ scanFirst_max s.prio p ps

end CpuSched
