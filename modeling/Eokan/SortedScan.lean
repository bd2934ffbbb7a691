import Mathlib.Data.Nat.Notation
import Mathlib.Order.Lattice

/-!
Linear search in sorted entries. The loop stops at the first entry that a test
does not pass over. If the entries that pass come before all others, the place
where it stops says exactly which entries pass.
-/
namespace Eokan.SortedScan

/-- The first index from i on, of n more, that `go` does not pass over. -/
def scanEntries (go : ℕ → Bool) : ℕ → ℕ → ℕ
  | 0, i => i
  | n + 1, i => if go i then scanEntries go n (i + 1) else i

variable (go : ℕ → Bool)

theorem scanEntries_bounds (n i : ℕ) :
    i ≤ scanEntries go n i ∧ scanEntries go n i ≤ i + n := by
  induction n generalizing i with
  | zero => exact ⟨Nat.le_refl i, Nat.le_refl i⟩
  | succ n ih =>
    unfold scanEntries
    have hnext := ih (i + 1)
    split
    · omega
    · omega

theorem go_of_lt_scanEntries (n i j : ℕ) (hij : i ≤ j) (hj : j < scanEntries go n i) :
    go j = true := by
  induction n generalizing i with
  | zero =>
    unfold scanEntries at hj
    omega
  | succ n ih =>
    unfold scanEntries at hj
    by_cases hgo : go i = true
    · rw [if_pos hgo] at hj
      rcases Nat.eq_or_lt_of_le hij with heq | hlt
      · rw [← heq]
        exact hgo
      · exact ih (i + 1) hlt hj
    · rw [if_neg hgo] at hj
      omega

theorem not_go_scanEntries (n i : ℕ) (hlt : scanEntries go n i < i + n) :
    go (scanEntries go n i) = false := by
  induction n generalizing i with
  | zero =>
    unfold scanEntries at hlt
    omega
  | succ n ih =>
    unfold scanEntries at hlt ⊢
    by_cases hgo : go i = true
    · rw [if_pos hgo] at hlt ⊢
      exact ih (i + 1) (by omega)
    · rw [if_neg hgo]
      exact Bool.eq_false_iff.mpr hgo

/-- On a prefix property the scan counts the entries that have it. -/
theorem go_iff_lt_scanEntries (n : ℕ)
    (hdown : ∀ j k, j ≤ k → k < n → go k = true → go j = true) (j : ℕ) (hj : j < n) :
    go j = true ↔ j < scanEntries go n 0 := by
  constructor
  · intro hgo
    rcases Nat.lt_or_ge j (scanEntries go n 0) with hlt | hge
    · exact hlt
    · have hstop := not_go_scanEntries go n 0 (by omega)
      have hpass := hdown _ _ hge hj hgo
      rw [hstop] at hpass
      exact absurd hpass Bool.false_ne_true
  · intro hlt
    exact go_of_lt_scanEntries go n 0 j (Nat.zero_le j) hlt

/-- Keys in order: the scan stops just behind the last key up to x. -/
theorem scanEntries_le_iff (keys : ℕ → ℕ) (n : ℕ)
    (hsorted : ∀ j k, j ≤ k → k < n → keys j ≤ keys k) (x j : ℕ) (hj : j < n) :
    keys j ≤ x ↔ j < scanEntries (fun i => keys i ≤ x) n 0 := by
  rw [← go_iff_lt_scanEntries _ n _ j hj]
  · exact decide_eq_true_iff.symm
  · intro i k hik hk hgo
    have hkey := hsorted i k hik hk
    have hle := of_decide_eq_true hgo
    exact decide_eq_true (by omega)

/-- The indices that the scan looks at. -/
def examined (go : ℕ → Bool) : ℕ → ℕ → List ℕ
  | 0, _ => []
  | n + 1, i => i :: if go i then examined go n (i + 1) else []

theorem mem_examined (n i j : ℕ) :
    j ∈ examined go n i ↔ i ≤ j ∧ j < i + n ∧ ∀ k, i ≤ k → k < j → go k = true := by
  induction n generalizing i with
  | zero =>
    simp only [examined, List.not_mem_nil, false_iff]
    omega
  | succ n ih =>
    rw [examined, List.mem_cons]
    constructor
    · rintro (rfl | hrest)
      · exact ⟨Nat.le_refl j, by omega, fun k hk hkj => by omega⟩
      · by_cases hgo : go i = true
        · rw [if_pos hgo] at hrest
          obtain ⟨hij, hj, hpass⟩ := (ih (i + 1)).mp hrest
          refine ⟨by omega, by omega, fun k hk hkj => ?_⟩
          rcases Nat.eq_or_lt_of_le hk with rfl | hlt
          · exact hgo
          · exact hpass k hlt hkj
        · simp [hgo] at hrest
    · rintro ⟨hij, hj, hpass⟩
      rcases Nat.eq_or_lt_of_le hij with rfl | hlt
      · exact Or.inl rfl
      · right
        rw [if_pos (hpass i (Nat.le_refl i) hlt)]
        exact (ih (i + 1)).mpr ⟨hlt, by omega, fun k hk hkj => hpass k (by omega) hkj⟩

theorem mem_examined_of_lt {n j : ℕ} (h : j < scanEntries go n 0) : j ∈ examined go n 0 := by
  have hbounds := scanEntries_bounds go n 0
  refine (mem_examined go n 0 j).mpr ⟨Nat.zero_le j, by omega, fun k _ hk => ?_⟩
  exact go_of_lt_scanEntries go n 0 k (Nat.zero_le k) (by omega)

/-- The test matters only where the scan looks. -/
theorem scanEntries_congr {go go' : ℕ → Bool} {n i : ℕ} (h : ∀ j ∈ examined go n i, go' j = go j) :
    scanEntries go' n i = scanEntries go n i := by
  induction n generalizing i with
  | zero => rfl
  | succ n ih =>
    rw [examined] at h
    obtain ⟨hfirst, hrest⟩ := List.forall_mem_cons.mp h
    rw [scanEntries, scanEntries, hfirst]
    by_cases hgo : go i = true
    · rw [if_pos hgo] at hrest
      rw [if_pos hgo, if_pos hgo, ih hrest]
    · rw [if_neg hgo, if_neg hgo]

theorem examined_congr {go go' : ℕ → Bool} {n i : ℕ} (h : ∀ j ∈ examined go n i, go' j = go j) :
    examined go' n i = examined go n i := by
  induction n generalizing i with
  | zero => rfl
  | succ n ih =>
    rw [examined] at h
    obtain ⟨hfirst, hrest⟩ := List.forall_mem_cons.mp h
    rw [examined, examined, hfirst]
    by_cases hgo : go i = true
    · rw [if_pos hgo] at hrest
      rw [if_pos hgo, if_pos hgo, ih hrest]
    · rw [if_neg hgo, if_neg hgo]

/-- Only indices below a bound are looked at if there are no others, or one
below the bound stops the scan. -/
theorem examined_lt_iff (n cap : ℕ) :
    (∀ j ∈ examined go n 0, j < cap) ↔ n ≤ cap ∨ ∃ k < cap, go k = false := by
  constructor
  · intro hinside
    by_contra hcond
    obtain ⟨hmore, hpass⟩ := not_or.mp hcond
    have hcap : cap ∈ examined go n 0 := by
      refine (mem_examined go n 0 cap).mpr ⟨Nat.zero_le cap, by omega, fun k _ hk => ?_⟩
      by_contra hgo
      exact hpass ⟨k, hk, Bool.eq_false_iff.mpr hgo⟩
    exact Nat.lt_irrefl cap (hinside cap hcap)
  · rintro hcond j hj
    obtain ⟨-, hlt, hpass⟩ := (mem_examined go n 0 j).mp hj
    rcases hcond with hle | ⟨k, hk, hstop⟩
    · omega
    · by_contra hge
      have hgo := hpass k (Nat.zero_le k) (by omega)
      rw [hstop] at hgo
      cases hgo

/-- The entry before the one where the scan stops. -/
def lastPassed (n : ℕ) : Option ℕ :=
  let i := scanEntries go n 0
  if i = 0 then none else some (i - 1)

/-- On a prefix property it is the last entry that has it. -/
theorem lastPassed_eq_some_iff {n : ℕ}
    (hdown : ∀ j k, j ≤ k → k < n → go k = true → go j = true) {i : ℕ} :
    lastPassed go n = some i ↔ i < n ∧ go i = true ∧ ∀ j < n, go j = true → j ≤ i := by
  have hbounds := scanEntries_bounds go n 0
  have hcount := go_iff_lt_scanEntries go n hdown
  unfold lastPassed
  constructor
  · intro h
    dsimp only at h
    split at h
    · cases h
    · obtain rfl := Option.some.inj h
      have hlt : scanEntries go n 0 - 1 < n := by omega
      refine ⟨hlt, (hcount _ hlt).mpr (by omega), fun j hj hgo => ?_⟩
      have hbelow := (hcount j hj).mp hgo
      omega
  · rintro ⟨hi, hgo, hlast⟩
    have hlt := (hcount i hi).mp hgo
    have hend : scanEntries go n 0 = i + 1 := by
      by_contra hne
      have hnext := hlast (i + 1) (by omega) ((hcount (i + 1) (by omega)).mpr (by omega))
      omega
    rw [hend]
    rfl

section Keys
variable {α : Type*} [LinearOrder α] (keys : ℕ → α) (n : ℕ) (x : α)

/-- Entry i has the last key up to x. -/
def LastUpTo (i : ℕ) : Prop := i < n ∧ keys i ≤ x ∧ ∀ j < n, keys j ≤ x → j ≤ i

variable {keys n x} (hsorted : ∀ j k, j < k → k < n → keys j < keys k)
include hsorted

theorem keys_le {j k : ℕ} (hjk : j ≤ k) (hk : k < n) : keys j ≤ keys k := by
  rcases Nat.eq_or_lt_of_le hjk with rfl | hlt
  · exact le_refl (keys j)
  · exact le_of_lt (hsorted j k hlt hk)

theorem lastPassed_le_iff {i : ℕ} :
    lastPassed (fun k => keys k ≤ x) n = some i ↔ LastUpTo keys n x i := by
  rw [lastPassed_eq_some_iff]
  · simp [LastUpTo]
  · intro j k hjk hk hgo
    exact decide_eq_true (le_trans (keys_le hsorted hjk hk) (of_decide_eq_true hgo))

/-- A search that stops at x itself finds the last key up to x just where x is
not a key. -/
theorem lastPassed_lt_iff {i : ℕ} (hlast : LastUpTo keys n x i) :
    lastPassed (fun k => keys k < x) n = some i ↔ ∀ j < n, keys j ≠ x := by
  rw [lastPassed_eq_some_iff]
  · obtain ⟨hi, hle, hmax⟩ := hlast
    simp only [decide_eq_true_eq]
    constructor
    · rintro ⟨-, hlt, -⟩ j hj rfl
      have hji := hmax j hj (le_refl _)
      exact absurd (keys_le hsorted hji hi) (not_le_of_gt hlt)
    · intro hne
      exact ⟨hi, lt_of_le_of_ne hle (hne i hi), fun j hj hlt => hmax j hj (le_of_lt hlt)⟩
  · intro j k hjk hk hgo
    exact decide_eq_true (lt_of_le_of_lt (keys_le hsorted hjk hk) (of_decide_eq_true hgo))

theorem exists_lastUpTo (hn : 0 < n) (hfirst : keys 0 ≤ x) : ∃ i, LastUpTo keys n x i := by
  cases h : lastPassed (fun k => decide (keys k ≤ x)) n with
  | some i => exact ⟨i, (lastPassed_le_iff hsorted).mp h⟩
  | none =>
    have hzero : scanEntries (fun k => decide (keys k ≤ x)) n 0 = 0 := by
      unfold lastPassed at h
      simpa using h
    have hstop := not_go_scanEntries (fun k => decide (keys k ≤ x)) n 0 (by omega)
    rw [hzero] at hstop
    exact absurd hfirst (of_decide_eq_false hstop)

end Keys

end Eokan.SortedScan
