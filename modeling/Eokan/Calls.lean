import Eokan.Fuel
import Mathlib.Data.List.Basic

/-!
Programs that record the calls they make. The record is kept however a run ends,
so one that runs out of fuel has it as well. A run comes to an end with some
amount of fuel exactly when all the calls do that it makes with any.
-/
namespace Eokan.Calls

open Programs Fuel

variable {κ σ ε α β : Type}

/-- A run leaves the calls it made, and then returns or not. -/
def Traced (κ σ ε α : Type) : Type := σ → List κ × Except ε (α × σ)

namespace Traced

def bind (x : Traced κ σ ε α) (f : α → Traced κ σ ε β) : Traced κ σ ε β := fun s =>
  match x s with
  | (calls, .ok (a, s')) => (calls ++ (f a s').1, (f a s').2)
  | (calls, .error e) => (calls, .error e)

instance : Monad (Traced κ σ ε) where
  pure a := fun s => ([], .ok (a, s))
  bind := bind

/-- A program that makes no calls. -/
def silent (x : Prog σ ε α) : Traced κ σ ε α := fun s => ([], x s)

/-- A call is recorded before it is made. -/
def call (c : σ → κ) (x : Prog σ ε α) : Traced κ σ ε α := fun s => ([c s], x s)

/-- The program without the record. -/
def erase (x : Traced κ σ ε α) : Prog σ ε α := fun s => (x s).2

@[simp] theorem erase_pure (a : α) : erase (pure a : Traced κ σ ε α) = pure a := rfl

@[simp] theorem erase_silent (x : Prog σ ε α) : erase (silent x : Traced κ σ ε α) = x := rfl

@[simp] theorem erase_call (c : σ → κ) (x : Prog σ ε α) : erase (call c x) = x := rfl

theorem bind_ok {x : Traced κ σ ε α} {f : α → Traced κ σ ε β} {s s' : σ} {a : α}
    (h : (x s).2 = .ok (a, s')) : (x >>= f) s = ((x s).1 ++ (f a s').1, (f a s').2) := by
  change bind x f s = _
  unfold bind
  rcases hx : x s with ⟨calls, r⟩
  rw [hx] at h
  subst h
  rfl

theorem bind_error {x : Traced κ σ ε α} {f : α → Traced κ σ ε β} {s : σ} {e : ε}
    (h : (x s).2 = .error e) : (x >>= f) s = ((x s).1, .error e) := by
  change bind x f s = _
  unfold bind
  rcases hx : x s with ⟨calls, r⟩
  rw [hx] at h
  subst h
  rfl

theorem silent_ok {x : Prog σ ε α} {f : α → Traced κ σ ε β} {s s' : σ} {a : α}
    (h : x s = .ok (a, s')) : (silent x >>= f) s = f a s' :=
  bind_ok (x := silent x) h

theorem silent_error {x : Prog σ ε α} {f : α → Traced κ σ ε β} {s : σ} {e : ε}
    (h : x s = .error e) : (silent x >>= f) s = ([], .error e) :=
  bind_error (x := silent x) h

theorem call_ok {c : σ → κ} {x : Prog σ ε α} {f : α → Traced κ σ ε β} {s s' : σ} {a : α}
    (h : x s = .ok (a, s')) : (call c x >>= f) s = (c s :: (f a s').1, (f a s').2) :=
  bind_ok (x := call c x) h

theorem call_error {c : σ → κ} {x : Prog σ ε α} {f : α → Traced κ σ ε β} {s : σ} {e : ε}
    (h : x s = .error e) : (call c x >>= f) s = ([c s], .error e) :=
  bind_error (x := call c x) h

@[simp] theorem erase_bind (x : Traced κ σ ε α) (f : α → Traced κ σ ε β) :
    erase (x >>= f) = erase x >>= fun a => erase (f a) := by
  funext s
  cases h : (x s).2 with
  | error e =>
    rw [Programs.bind_error (show erase x s = .error e from h)]
    change ((x >>= f) s).2 = _
    rw [bind_error h]
  | ok p =>
    obtain ⟨a, s'⟩ := p
    rw [Programs.bind_ok (show erase x s = .ok (a, s') from h)]
    change ((x >>= f) s).2 = (f a s').2
    rw [bind_ok h]

end Traced

open Traced

/-- What the calls of a program with more and more fuel say about its end. -/
structure Settles (out : ε) (ends : κ → Prop) (x : ℕ → Traced κ σ ε α) (s : σ) : Prop where
  grows : ∀ n m, n ≤ m → (x n s).1 <+: (x m s).1
  steady : ∀ n m, n ≤ m → (x n s).2 ≠ .error out → x m s = x n s
  ended : ∀ n, (x n s).2 ≠ .error out → ∀ c ∈ (x n s).1, ends c
  enough : (∀ n, ∀ c ∈ (x n s).1, ends c) → ∃ n, (x n s).2 ≠ .error out

namespace Settles

variable {out : ε} {ends : κ → Prop} {s : σ}

/-- A program comes to an end exactly when its calls do. -/
theorem ends_iff {x : ℕ → Traced κ σ ε α} (h : Settles out ends x s) :
    (∃ n, (x n s).2 ≠ .error out) ↔ ∀ n, ∀ c ∈ (x n s).1, ends c := by
  refine ⟨fun ⟨n, hn⟩ m c hc => ?_, h.enough⟩
  have hmax := h.steady n (max n m) (Nat.le_max_left n m) hn
  refine h.ended n hn c ?_
  rw [← hmax]
  exact (h.grows m (max n m) (Nat.le_max_right n m)).subset hc

theorem silent {x : Prog σ ε α} (h : x s ≠ .error out) :
    Settles out ends (fun _ => (silent x : Traced κ σ ε α)) s :=
  ⟨fun _ _ _ => List.prefix_refl _, fun _ _ _ _ => rfl,
    fun _ _ _ hc => absurd hc List.not_mem_nil, fun _ => ⟨0, h⟩⟩

theorem call {c : σ → κ} {x : ℕ → Prog σ ε α} (hx : ∀ n m, n ≤ m → Extends out (x n) (x m))
    (hends : ends (c s) ↔ ∃ n, x n s ≠ .error out) :
    Settles out ends (fun n => call c (x n)) s where
  grows _ _ _ := List.prefix_refl _
  steady n m hle h := congrArg (Prod.mk [c s]) (hx n m hle s h)
  ended n h c' hc := by
    rw [List.mem_singleton.mp hc]
    exact hends.mpr ⟨n, h⟩
  enough h := hends.mp (h 0 (c s) (List.mem_singleton.mpr rfl))

/-- The second program may be asked about only where the first one leads. -/
theorem bind {x : ℕ → Traced κ σ ε α} {f : ℕ → α → Traced κ σ ε β} (hx : Settles out ends x s)
    (hf : ∀ n a s', (x n s).2 = .ok (a, s') → Settles out ends (fun m => f m a) s') :
    Settles out ends (fun n => x n >>= f n) s := by
  have hokay : ∀ n m a s', n ≤ m → (x n s).2 = .ok (a, s') → x m s = x n s := by
    intro n m a s' hle h
    refine hx.steady n m hle ?_
    rw [h]
    exact nofun
  have hstarts : ∀ n, (x n s).1 <+: ((x n >>= f n) s).1 := by
    intro n
    cases h : (x n s).2 with
    | error e =>
      have hsame : ((x n >>= f n) s).1 = (x n s).1 := congrArg Prod.fst (bind_error h)
      exact hsame.symm ▸ List.prefix_refl (x n s).1
    | ok p =>
      rw [bind_ok h]
      exact List.prefix_append _ _
  have hwiden : ∀ e, (.error e : Except ε (β × σ)) ≠ .error out →
      (.error e : Except ε (α × σ)) ≠ .error out := by
    rintro e hne ⟨⟩
    exact hne rfl
  refine ⟨fun n m hle => ?_, fun n m hle hne => ?_, fun n hne c hc => ?_, fun hcalls => ?_⟩
  · cases h : (x n s).2 with
    | error e =>
      rw [bind_error h]
      exact (hx.grows n m hle).trans (hstarts m)
    | ok p =>
      obtain ⟨a, s'⟩ := p
      have hsame := hokay n m a s' hle h
      rw [bind_ok h, bind_ok (hsame ▸ h), hsame]
      exact List.prefix_append_right_inj _ |>.mpr ((hf n a s' h).grows n m hle)
  · cases h : (x n s).2 with
    | error e =>
      rw [bind_error h] at hne ⊢
      have hsame := hx.steady n m hle (by rw [h]; exact hwiden e hne)
      rw [bind_error (hsame ▸ h), hsame]
    | ok p =>
      obtain ⟨a, s'⟩ := p
      have hsame := hokay n m a s' hle h
      rw [bind_ok h] at hne ⊢
      rw [bind_ok (hsame ▸ h), hsame, (hf n a s' h).steady n m hle hne]
  · cases h : (x n s).2 with
    | error e =>
      rw [bind_error h] at hne hc
      exact hx.ended n (by rw [h]; exact hwiden e hne) c hc
    | ok p =>
      obtain ⟨a, s'⟩ := p
      rw [bind_ok h] at hne hc
      rcases List.mem_append.mp hc with hc | hc
      · exact hx.ended n (by rw [h]; exact nofun) c hc
      · exact (hf n a s' h).ended n hne c hc
  · obtain ⟨n, hn⟩ := hx.enough fun n c hc => hcalls n c ((hstarts n).subset hc)
    cases h : (x n s).2 with
    | error e =>
      refine ⟨n, ?_⟩
      rw [bind_error h]
      rw [h] at hn
      rintro ⟨⟩
      exact hn rfl
    | ok p =>
      obtain ⟨a, s'⟩ := p
      have hsettles := hf n a s' h
      have hrun : ∀ m, n ≤ m → (x m >>= f m) s = ((x n s).1 ++ (f m a s').1, (f m a s').2) := by
        intro m hle
        have hsame := hokay n m a s' hle h
        rw [bind_ok (hsame ▸ h), hsame]
      obtain ⟨m, hm⟩ := hsettles.enough fun m c hc => by
        refine hcalls (max n m) c ?_
        rw [hrun _ (Nat.le_max_left n m)]
        exact List.mem_append_right _
          ((hsettles.grows m _ (Nat.le_max_right n m)).subset hc)
      refine ⟨max n m, ?_⟩
      rw [hrun _ (Nat.le_max_left n m)]
      dsimp only
      rw [hsettles.steady m _ (Nat.le_max_right n m) hm]
      exact hm

end Settles

end Eokan.Calls
