import Mathlib.Algebra.Group.Int.Defs
import Mathlib.Data.Int.Basic

/-!
Two's complement values of the C integer types, as integers.
Each conversion maps an exact result to the value the type stores. A
computation whose exact result fits its type is left unchanged.
-/
namespace Eokan.CInt

/-- The value of a 32-bit `int` or `long` after wrap-around. -/
@[irreducible] def int32 (x : ℤ) : ℤ := (x + 2 ^ 31) % 2 ^ 32 - 2 ^ 31

@[irreducible] def uint32 (x : ℤ) : ℤ := x % 2 ^ 32

@[irreducible] def int64 (x : ℤ) : ℤ := (x + 2 ^ 63) % 2 ^ 64 - 2 ^ 63

@[irreducible] def uint64 (x : ℤ) : ℤ := x % 2 ^ 64

theorem int32_of_range (x : ℤ) (hlo : -2 ^ 31 ≤ x) (hhi : x < 2 ^ 31) : int32 x = x := by
  unfold int32
  omega

theorem int32_of_nat (x : ℤ) (hlo : 0 ≤ x) (hhi : x < 2 ^ 31) : int32 x = x :=
  int32_of_range x (by omega) hhi

theorem uint32_of_range (x : ℤ) (hlo : 0 ≤ x) (hhi : x < 2 ^ 32) : uint32 x = x := by
  unfold uint32
  omega

theorem int64_of_range (x : ℤ) (hlo : -2 ^ 63 ≤ x) (hhi : x < 2 ^ 63) : int64 x = x := by
  unfold int64
  omega

theorem int32_bounds (x : ℤ) : -2 ^ 31 ≤ int32 x ∧ int32 x < 2 ^ 31 := by
  unfold int32
  omega

theorem uint32_bounds (x : ℤ) : 0 ≤ uint32 x ∧ uint32 x < 2 ^ 32 := by
  unfold uint32
  omega

@[simp] theorem int32_zero : int32 0 = 0 := int32_of_nat 0 (by decide) (by decide)

@[simp] theorem uint32_zero : uint32 0 = 0 := uint32_of_range 0 (by decide) (by decide)

@[simp] theorem uint32_int32 (x : ℤ) : uint32 (int32 x) = uint32 x := by
  unfold uint32 int32
  omega

@[simp] theorem int32_uint32 (x : ℤ) : int32 (uint32 x) = int32 x := by
  unfold uint32 int32
  omega

@[simp] theorem int32_int32 (x : ℤ) : int32 (int32 x) = int32 x := by
  unfold int32
  omega

/-- Comparing as unsigned is comparing the stored bits. -/
theorem uint32_eq_iff (x y : ℤ) : uint32 x = uint32 y ↔ int32 x = int32 y := by
  unfold uint32 int32
  omega

theorem int32_int32_add (x y : ℤ) : int32 (int32 x + y) = int32 (x + y) := by
  unfold int32
  omega

theorem int32_int32_sub (x y : ℤ) : int32 (int32 x - y) = int32 (x - y) := by
  unfold int32
  omega

/-- A counter that wraps is at a number with the next step. -/
theorem int32_steps_zero {no got : ℤ} (h : int32 (got + 1) = no) :
    ((no - got - 1) % 2 ^ 32).toNat = 0 := by
  unfold int32 at h
  omega

/-- One step brings it nearer to a number that it does not hit. -/
theorem int32_steps_succ {no got : ℤ} (hno : -2 ^ 31 ≤ no ∧ no < 2 ^ 31)
    (h : ¬ int32 (got + 1) = no) :
    ((no - got - 1) % 2 ^ 32).toNat = ((no - int32 (got + 1) - 1) % 2 ^ 32).toNat + 1 := by
  unfold int32 at h ⊢
  omega

end Eokan.CInt
