import Eokan.Programs

/-!
Two programs side by side, in states that are related. What the first one does
the second one does as well, as long as the first one comes to good states only.
-/
namespace Eokan.Simulations

open Programs

variable {σ σ' ε α β : Type}

/-- Which state can come after which one, and which ones are good. A run never
comes back to good states. -/
structure Watch (σ : Type) where
  after : σ → σ → Prop
  good : σ → Prop
  refl : ∀ s, after s s
  trans : ∀ {s t u}, after s t → after t u → after s u
  back : ∀ {s t}, after s t → good t → good s

/-- From related states y follows x to a good state, and with the same result. -/
structure Simulates (watch : Watch σ) (sim : σ → σ' → Prop) (x : Prog σ ε α) (y : Prog σ' ε α) :
    Prop where
  after : ∀ s a t, x s = .ok (a, t) → watch.after s t
  follows : ∀ s s' a t, sim s s' → x s = .ok (a, t) → watch.good t →
    ∃ t', y s' = .ok (a, t') ∧ sim t t'

namespace Simulates

variable {watch : Watch σ} {sim : σ → σ' → Prop}

theorem pure (a : α) :
    Simulates watch sim (Pure.pure a : Prog σ ε α) (Pure.pure a : Prog σ' ε α) := by
  constructor
  · intro s b t h
    cases h
    exact watch.refl s
  · intro s s' b t hsim h _
    cases h
    exact ⟨s', rfl, hsim⟩

theorem fault (e : ε) :
    Simulates watch sim (Programs.fault e : Prog σ ε α) (Programs.fault e : Prog σ' ε α) := by
  constructor
  · intro s a t h
    cases h
  · intro s s' a t _ h
    cases h

theorem lift (z : Except ε α) :
    Simulates watch sim (liftM z : Prog σ ε α) (liftM z : Prog σ' ε α) := by
  cases z with
  | error e => exact fault e
  | ok a => exact pure a

theorem bind {x : Prog σ ε α} {y : Prog σ' ε α} {f : α → Prog σ ε β} {g : α → Prog σ' ε β}
    (hx : Simulates watch sim x y) (hf : ∀ a, Simulates watch sim (f a) (g a)) :
    Simulates watch sim (x >>= f) (y >>= g) := by
  constructor
  · intro s b u h
    obtain ⟨a, t, hrun, hrest⟩ := bind_eq_ok h
    exact watch.trans (hx.after s a t hrun) ((hf a).after t b u hrest)
  · intro s s' b u hsim h hgood
    obtain ⟨a, t, hrun, hrest⟩ := bind_eq_ok h
    have hbefore := watch.back ((hf a).after t b u hrest) hgood
    obtain ⟨t', hrun', hsim'⟩ := hx.follows s s' a t hsim hrun hbefore
    rw [bind_ok hrun']
    exact (hf a).follows t t' b u hsim' hrest hgood

theorem ite {c : Prop} [Decidable c] {x x₁ : Prog σ ε α} {y y₁ : Prog σ' ε α}
    (h : c → Simulates watch sim x y) (h₁ : ¬ c → Simulates watch sim x₁ y₁) :
    Simulates watch sim (if c then x else x₁) (if c then y else y₁) := by
  split
  · exact h ‹c›
  · exact h₁ ‹¬ c›

end Simulates

end Eokan.Simulations
