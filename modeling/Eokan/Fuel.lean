import Eokan.Programs

/-!
Programs that may run out of fuel. With more fuel a run goes on where it ran out,
and is the same otherwise.
-/
namespace Eokan.Fuel

open Programs

variable {σ ε α β : Type}

/-- A run of y is the run of x, unless that runs out of fuel. -/
def Extends (out : ε) (x y : Prog σ ε α) : Prop := ∀ s, x s ≠ .error out → y s = x s

namespace Extends

variable {out : ε} {x y x' y' : Prog σ ε α} {f g : α → Prog σ ε β}

theorem refl (x : Prog σ ε α) : Extends out x x := fun _ _ => rfl

theorem of_out (y : Prog σ ε α) : Extends out (fault out) y := fun _ h => absurd rfl h

theorem bind (hx : Extends out x y) (hf : ∀ a, Extends out (f a) (g a)) :
    Extends out (x >>= f) (y >>= g) := by
  intro s h
  cases hrun : x s with
  | error e =>
    rw [bind_error hrun] at h ⊢
    have hne : x s ≠ .error out := by
      rw [hrun]
      rintro ⟨⟩
      exact h rfl
    have hy : y s = .error e := (hx s hne).trans hrun
    exact bind_error hy
  | ok p =>
    obtain ⟨a, s'⟩ := p
    rw [bind_ok hrun] at h ⊢
    have hy : y s = .ok (a, s') := (hx s fun he => nomatch hrun.symm.trans he).trans hrun
    rw [bind_ok hy]
    exact hf a s' h

theorem ite {c : Prop} [Decidable c] (hx : Extends out x y) (hx' : Extends out x' y') :
    Extends out (if c then x else x') (if c then y else y') := by
  split
  · exact hx
  · exact hx'

end Extends

end Eokan.Fuel
