import Eokan.Programs

/-!
Two runs next to each other. They may start in different states and be those of
different programs, but if one faults then so does the other, in the same way,
and if they return then their results are related.
-/
namespace Eokan.TwoRuns

open Programs

variable {σ σ' ε α α' β β' : Type}

/-- What is known of two runs that return. -/
def Alike (post : α → σ → α' → σ' → Prop) : Except ε (α × σ) → Except ε (α' × σ') → Prop
  | .ok (a, s), .ok (a', s') => post a s a' s'
  | .error e, .error e' => e = e'
  | _, _ => False

namespace Alike

variable {x : Prog σ ε α} {x' : Prog σ' ε α'} {f : α → Prog σ ε β} {f' : α' → Prog σ' ε β'}
  {s : σ} {s' : σ'} {mid : α → σ → α' → σ' → Prop} {post : β → σ → β' → σ' → Prop}

theorem pure {a : α} {a' : α'} {post : α → σ → α' → σ' → Prop} (h : post a s a' s') :
    Alike post ((Pure.pure a : Prog σ ε α) s) ((Pure.pure a' : Prog σ' ε α') s') := h

theorem fault (e : ε) {post : α → σ → α' → σ' → Prop} :
    Alike post ((Programs.fault e : Prog σ ε α) s) ((Programs.fault e : Prog σ' ε α') s') := rfl

theorem error {r : Except ε (α × σ)} {r' : Except ε (α' × σ')} {e : ε}
    {post : α → σ → α' → σ' → Prop} (h : r = .error e) (h' : r' = .error e) :
    Alike post r r' := by
  rw [h, h']
  rfl

theorem mono {r : Except ε (α × σ)} {r' : Except ε (α' × σ')}
    {post post' : α → σ → α' → σ' → Prop} (h : Alike post r r')
    (hpost : ∀ a s a' s', post a s a' s' → post' a s a' s') : Alike post' r r' := by
  rcases r with e | ⟨a, s⟩ <;> rcases r' with e' | ⟨a', s'⟩
  · exact h
  · exact h
  · exact h
  · exact hpost a s a' s' h

/-- A run is like itself. -/
theorem same (x : Prog σ ε α) (s : σ) :
    Alike (fun a t a' t' => a' = a ∧ t' = t) (x s) (x s) := by
  cases x s with
  | error e => rfl
  | ok p => exact ⟨rfl, rfl⟩

/-- What holds of the first run when it returns is known as well. -/
theorem and_return {c : α → σ → Prop} (h : Alike mid (x s) (x' s')) (hc : OnReturn x s c) :
    Alike (fun a t a' t' => mid a t a' t' ∧ c a t) (x s) (x' s') := by
  cases hrun : x s with
  | error e =>
    rw [hrun] at h
    cases hrun' : x' s' with
    | error e' =>
      rw [hrun'] at h
      exact h
    | ok p' =>
      rw [hrun'] at h
      exact h.elim
  | ok p =>
    rw [hrun] at h
    cases hrun' : x' s' with
    | error e' =>
      rw [hrun'] at h
      exact h.elim
    | ok p' =>
      rw [hrun'] at h
      exact ⟨h, hc p.1 p.2 hrun⟩

theorem of_yields {post : α → σ → Prop} {post' : α' → σ' → Prop} (h : Yields x s post)
    (h' : Yields x' s' post') : Alike (fun a t a' t' => post a t ∧ post' a' t') (x s) (x' s') := by
  obtain ⟨a, t, hrun, hpost⟩ := h
  obtain ⟨a', t', hrun', hpost'⟩ := h'
  rw [hrun, hrun']
  exact ⟨hpost, hpost'⟩

theorem bind (hx : Alike mid (x s) (x' s'))
    (hf : ∀ a t a' t', mid a t a' t' → Alike post (f a t) (f' a' t')) :
    Alike post ((x >>= f) s) ((x' >>= f') s') := by
  cases hrun : x s with
  | error e =>
    cases hrun' : x' s' with
    | error e' =>
      rw [hrun, hrun'] at hx
      obtain rfl : e = e' := hx
      exact error (bind_error hrun) (bind_error hrun')
    | ok p =>
      rw [hrun, hrun'] at hx
      exact hx.elim
  | ok p =>
    cases hrun' : x' s' with
    | error e' =>
      rw [hrun, hrun'] at hx
      exact hx.elim
    | ok p' =>
      rw [hrun, hrun'] at hx
      rw [bind_ok hrun, bind_ok hrun']
      exact hf p.1 p.2 p'.1 p'.2 hx

theorem ite {c : Prop} [Decidable c] {y : Prog σ ε β} {y' : Prog σ' ε β'} {z : Prog σ ε β}
    {z' : Prog σ' ε β'} (h : c → Alike post (y s) (y' s')) (h' : ¬ c → Alike post (z s) (z' s')) :
    Alike post ((if c then y else z) s) ((if c then y' else z') s') := by
  split
  · exact h ‹c›
  · exact h' ‹¬ c›

end Alike

end Eokan.TwoRuns
