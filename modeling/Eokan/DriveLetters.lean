import Eokan.Device
import Mathlib.Data.Int.Order.Basic
import Mathlib.Data.Nat.Find

/-!
The search of a free drive letter. The drives in use are the bits of a mask, bit
0 for A. The loop goes on in its condition and in its body, so it passes over
every second letter.
-/
namespace Eokan.DriveLetters

open Device

/-- The codes of A and of Z. -/
def letterA : ℤ := 65

def letterZ : ℤ := 90

/-- Both the body of the loop and its head add one. -/
def skipUsed (dflag : BitVec 32) (x : ℕ) : ℕ :=
  if x < 32 ∧ dflag.getLsbD x then skipUsed dflag (x + 2) else x
  termination_by 32 - x

/-- The mask is what the system says about the drives. A shift by a negative
number is not defined. -/
def findValidDrive (dflag : BitVec 32) (start : ℤ) : Except Fault ℤ :=
  if start < letterA then .error .badShift
  else
    let x := skipUsed dflag (start - letterA).toNat
    if 32 ≤ x then .ok 0 else .ok (letterA + x)

section Letters
variable (dflag : BitVec 32) (start : ℤ)

def Used (c : ℤ) : Prop := dflag.getLsbD (c - letterA).toNat = true

instance (c : ℤ) : Decidable (Used dflag c) := by
  unfold Used
  infer_instance

/-- The first letter from start on that is not used. -/
structure FirstFree (c : ℤ) : Prop where
  after : start ≤ c
  letter : c ≤ letterZ
  free : ¬ Used dflag c
  used : ∀ d, start ≤ d → d < c → Used dflag d

/-- The first free letter is found, and 0 just if there is none. -/
structure Finds (c : ℤ) : Prop where
  first : ∀ d, FirstFree dflag start d → c = d
  none : c = 0 ↔ ∀ d, start ≤ d → d ≤ letterZ → Used dflag d
  letter : c ≤ letterZ

end Letters

/-- The search goes on in steps of two, over drives that are used. -/
theorem skipUsed_steps (dflag : BitVec 32) (x : ℕ) :
    ∃ m, skipUsed dflag x = x + 2 * m ∧
      (∀ k < m, x + 2 * k < 32 ∧ dflag.getLsbD (x + 2 * k) = true) ∧
      ¬ (x + 2 * m < 32 ∧ dflag.getLsbD (x + 2 * m) = true) := by
  fun_induction skipUsed dflag x with
  | case1 x hgo ih =>
    obtain ⟨m, hend, hpass, hstop⟩ := ih
    have hshift : ∀ k, x + 2 + 2 * k = x + 2 * (k + 1) := fun k => by omega
    simp only [hshift] at hend hpass hstop
    refine ⟨m + 1, hend, fun k hk => ?_, hstop⟩
    cases k with
    | zero => exact hgo
    | succ k => exact hpass k (by omega)
  | case2 x hstop => exact ⟨0, rfl, fun k hk => absurd hk (Nat.not_lt_zero k), hstop⟩

section Search
variable {dflag : BitVec 32} {start : ℤ} (hdrives : dflag.toNat < 2 ^ 26)
  (hlo : letterA ≤ start) (hhi : start ≤ letterZ)

theorem FirstFree.unique {c d : ℤ} (hc : FirstFree dflag start c) (hd : FirstFree dflag start d) :
    c = d := by
  rcases lt_trichotomy c d with hlt | heq | hgt
  · exact absurd (hd.used c hc.after hlt) hc.free
  · exact heq
  · exact absurd (hc.used d hd.after hgt) hd.free

theorem exists_firstFree {c : ℤ} (hstart : start ≤ c) (hletter : c ≤ letterZ)
    (hfree : ¬ Used dflag c) : ∃ d, FirstFree dflag start d := by
  classical
  have hsome : ∃ n : ℕ, ¬ Used dflag (start + n) := ⟨(c - start).toNat, by
    rwa [show start + ((c - start).toNat : ℤ) = c by omega]⟩
  have hmin : ∀ k < Nat.find hsome, Used dflag (start + k) := fun k hk =>
    not_not.mp (Nat.find_min hsome hk)
  refine ⟨start + Nat.find hsome, by omega, ?_, Nat.find_spec hsome, fun d hd hlt => ?_⟩
  · by_contra hgt
    have hused := hmin (c - start).toNat (by omega)
    rw [show start + ((c - start).toNat : ℤ) = c by omega] at hused
    exact hfree hused
  · obtain ⟨k, rfl⟩ := Int.exists_add_of_le hd
    exact hmin k (by omega)

include hdrives hlo hhi

/-- What is returned is not used, and every second letter before it is. -/
theorem findValidDrive_steps :
    ∃ m : ℕ, findValidDrive dflag start = .ok (start + 2 * m) ∧ ¬ Used dflag (start + 2 * m) ∧
      ∀ k : ℕ, k < m → Used dflag (start + 2 * k) := by
  obtain ⟨m, hend, hpass, hstop⟩ := skipUsed_steps dflag (start - letterA).toNat
  have hplace : ∀ k : ℕ, (start + 2 * k - letterA).toNat = (start - letterA).toNat + 2 * k := by
    intro k
    omega
  have hbelow : ∀ k < m, (start - letterA).toNat + 2 * k < 26 := by
    intro k hk
    by_contra hge
    have hsmall : dflag.toNat < 2 ^ ((start - letterA).toNat + 2 * k) :=
      Nat.lt_of_lt_of_le hdrives (Nat.pow_le_pow_right (by decide) (Nat.le_of_not_lt hge))
    have hbit : dflag.getLsbD ((start - letterA).toNat + 2 * k) = false :=
      Nat.testBit_lt_two_pow hsmall
    rw [(hpass k hk).2] at hbit
    cases hbit
  have hlast : (start - letterA).toNat + 2 * m < 28 := by
    unfold letterA letterZ at *
    rcases Nat.eq_zero_or_pos m with rfl | hpos
    · omega
    · have hprev := hbelow (m - 1) (by omega)
      omega
  refine ⟨m, ?_, ?_, fun k hk => ?_⟩
  · unfold findValidDrive
    rw [if_neg (by omega), hend]
    dsimp only
    rw [if_neg (by omega)]
    congr 1
    omega
  · unfold Used
    rw [hplace]
    exact fun hbit => hstop ⟨by omega, hbit⟩
  · unfold Used
    rw [hplace]
    exact (hpass k hk).2

/-- The first free letter is found just if there is one, an even number of
letters behind the start. -/
theorem findValidDrive_finds_iff :
    ∃ c, findValidDrive dflag start = .ok c ∧
      (Finds dflag start c ↔ ∃ d, FirstFree dflag start d ∧ 2 ∣ d - start) := by
  obtain ⟨m, hrun, hfree, hused⟩ := findValidDrive_steps hdrives hlo hhi
  refine ⟨start + 2 * m, hrun, ?_, ?_⟩
  · rintro ⟨hfirst, -, hletter⟩
    obtain ⟨d, hd⟩ := exists_firstFree (show start ≤ start + 2 * (m : ℤ) by omega) hletter hfree
    have heq := hfirst d hd
    exact ⟨d, hd, ⟨m, by omega⟩⟩
  · rintro ⟨d, hd, j, hj⟩
    have hafter := hd.after
    have hsame : start + 2 * (m : ℤ) = d := by
      rcases lt_trichotomy (start + 2 * (m : ℤ)) d with hlt | heq | hgt
      · exact absurd (hd.used _ (by omega) hlt) hfree
      · exact heq
      · have hbefore := hused j.toNat (by omega)
        rw [show start + 2 * (j.toNat : ℤ) = d by omega] at hbefore
        exact absurd hbefore hd.free
    rw [hsame]
    refine ⟨fun d' hd' => hd.unique hd', ?_, hd.letter⟩
    refine iff_of_false ?_ fun hall => hd.free (hall d hafter hd.letter)
    unfold letterA at hlo
    omega

end Search

/-- Only C is free. -/
theorem findValidDrive_finds_iff_free :
    ∃ c, findValidDrive 0x3fffffb 67 = .ok c ∧
      (Finds 0x3fffffb 67 c ↔ ∃ d, FirstFree 0x3fffffb 67 d ∧ 2 ∣ d - 67) :=
  findValidDrive_finds_iff (by decide) (by decide) (by decide)

/-- All drives but D are used, and what is found is behind Z. -/
theorem only_d_free :
    FirstFree 0x3fffff7 67 68 ∧ findValidDrive 0x3fffff7 67 = .ok 91 := by
  refine ⟨⟨by decide, by decide, by decide +kernel, fun d hstart hd => ?_⟩, ?_⟩
  · obtain rfl : d = 67 := by omega
    decide +kernel
  · decide +kernel

end Eokan.DriveLetters
