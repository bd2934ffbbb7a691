import Mathlib.Data.Fintype.Pigeonhole
import Mathlib.Data.Set.Finite.Basic

/-!
Following pointers. A chain goes from one state to the next until there is no
next one. Among finitely many states it ends if and only if it meets no state
twice.
-/
namespace Eokan.Chains

variable {σ : Type*} (next : σ → Option σ)

/-- The state after n steps, if the chain gets that far. -/
def chain : Option σ → ℕ → Option σ
  | s, 0 => s
  | s, n + 1 => (chain s n).bind next

def Ends (s : Option σ) : Prop := ∃ n, chain next s n = none

/-- Some state is met again. -/
def Returns (s : Option σ) : Prop :=
  ∃ i j x, i < j ∧ chain next s i = some x ∧ chain next s j = some x

theorem chain_add (s : Option σ) (m n : ℕ) :
    chain next s (m + n) = chain next (chain next s m) n := by
  induction n with
  | zero => rfl
  | succ n ih => exact congrArg (·.bind next) ih

/-- The first step may be taken apart. -/
theorem chain_succ (x : σ) (n : ℕ) : chain next (some x) (n + 1) = chain next (next x) n := by
  rw [Nat.add_comm, chain_add]
  rfl

theorem chain_none (n : ℕ) : chain next none n = none := by
  induction n with
  | zero => rfl
  | succ n ih => simp [chain, ih]

theorem chain_none_of_le (s : Option σ) {m n : ℕ} (hle : m ≤ n) (h : chain next s m = none) :
    chain next s n = none := by
  obtain ⟨k, rfl⟩ := Nat.exists_eq_add_of_le hle
  rw [chain_add, h, chain_none]

theorem ends_none : Ends next none := ⟨0, rfl⟩

theorem ends_some (x : σ) : Ends next (some x) ↔ Ends next (next x) := by
  constructor
  · rintro ⟨n, hn⟩
    refine ⟨n, ?_⟩
    rw [← chain_succ]
    exact chain_none_of_le next _ (Nat.le_succ n) hn
  · rintro ⟨n, hn⟩
    exact ⟨n + 1, (chain_succ next x n).trans hn⟩

/-- After a return the chain goes round for ever. -/
theorem chain_cycle (x : σ) (k : ℕ) (h : chain next (some x) k = some x) (n : ℕ) :
    chain next (some x) (n * k) = some x := by
  induction n with
  | zero => rw [Nat.zero_mul]; rfl
  | succ n ih => rw [Nat.succ_mul, chain_add, ih, h]

theorem not_ends_of_returns (s : Option σ) (h : Returns next s) : ¬ Ends next s := by
  obtain ⟨i, j, x, hlt, hi, hj⟩ := h
  rintro ⟨n, hn⟩
  obtain ⟨k, rfl⟩ := Nat.exists_eq_add_of_lt hlt
  have hround : chain next (some x) (k + 1) = some x := by
    rw [← hi, ← chain_add, ← Nat.add_assoc, hj]
    exact hi.symm
  have hlater := chain_cycle next x (k + 1) hround n
  rw [← hi, ← chain_add] at hlater
  have hle : n ≤ i + n * (k + 1) :=
    Nat.le_add_left_of_le (Nat.le_mul_of_pos_right n (Nat.succ_pos k))
  rw [chain_none_of_le next s hle hn, hi] at hlater
  cases hlater

/-- Among finitely many states a chain ends if it never returns. -/
theorem ends_iff_not_returns (s : Option σ) (states : Set σ) (hfinite : states.Finite)
    (hmem : ∀ n x, chain next s n = some x → x ∈ states) : Ends next s ↔ ¬ Returns next s := by
  constructor
  · exact fun hends hreturns => not_ends_of_returns next s hreturns hends
  · intro hnever
    by_contra hends
    have hsome : ∀ n, ∃ x, chain next s n = some x := fun n =>
      Option.ne_none_iff_exists'.mp fun hnone => hends ⟨n, hnone⟩
    choose visit hvisit using hsome
    have : Finite states := hfinite
    obtain ⟨i, j, hne, heq⟩ := Finite.exists_ne_map_eq_of_infinite
      fun n => (⟨visit n, hmem n _ (hvisit n)⟩ : states)
    have hsame : visit i = visit j := congrArg Subtype.val heq
    rcases Nat.lt_or_gt_of_ne hne with hlt | hgt
    · exact hnever ⟨i, j, visit i, hlt, hvisit i, (hvisit j).trans (congrArg some hsame.symm)⟩
    · exact hnever ⟨j, i, visit j, hgt, hvisit j, (hvisit i).trans (congrArg some hsame)⟩

end Eokan.Chains
