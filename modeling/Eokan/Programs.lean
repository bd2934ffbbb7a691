import Mathlib.Data.Nat.Notation

/-!
Programs with a state that may fault, and total correctness for them.
`Yields x s post` says that x started in s returns and that post holds of the
value and the state. The rules follow the ways such programs are built.
-/
namespace Eokan.Programs

abbrev Prog (σ ε α : Type) := StateT σ (Except ε) α

variable {σ ε α β : Type}

def fault (e : ε) : Prog σ ε α := fun _ => .error e

def Yields (x : Prog σ ε α) (s : σ) (post : α → σ → Prop) : Prop :=
  ∃ a s', x s = .ok (a, s') ∧ post a s'

theorem bind_ok {x : Prog σ ε α} {f : α → Prog σ ε β} {s s' : σ} {a : α}
    (h : x s = .ok (a, s')) : (x >>= f) s = f a s' := by
  simp only [bind, StateT.bind, h, Except.bind]

theorem bind_error {x : Prog σ ε α} {f : α → Prog σ ε β} {s : σ} {e : ε}
    (h : x s = .error e) : (x >>= f) s = .error e := by
  simp only [bind, StateT.bind, h, Except.bind]

theorem pure_run (a : α) (s : σ) : (pure a : Prog σ ε α) s = .ok (a, s) := rfl

theorem lift_ok {x : Except ε α} {a : α} (h : x = .ok a) (s : σ) :
    (liftM x : Prog σ ε α) s = .ok (a, s) := by
  subst h
  rfl

theorem bind_eq_ok {x : Prog σ ε α} {f : α → Prog σ ε β} {s s'' : σ} {b : β}
    (h : (x >>= f) s = .ok (b, s'')) :
    ∃ a s', x s = .ok (a, s') ∧ f a s' = .ok (b, s'') := by
  cases hx : x s with
  | error e => rw [bind_error hx] at h; cases h
  | ok p =>
    obtain ⟨a, s'⟩ := p
    exact ⟨a, s', rfl, by rwa [bind_ok hx] at h⟩

theorem bind_eq_error {x : Prog σ ε α} {f : α → Prog σ ε β} {s : σ} {e : ε}
    (h : (x >>= f) s = .error e) :
    x s = .error e ∨ ∃ a s', x s = .ok (a, s') ∧ f a s' = .error e := by
  cases hx : x s with
  | error e' =>
    rw [bind_error hx] at h
    cases h
    exact Or.inl rfl
  | ok p => exact Or.inr ⟨p.1, p.2, rfl, by rwa [bind_ok hx] at h⟩

/-- A run can be evaluated, with a check of what it returns. -/
theorem run_of_check {x : Prog σ ε α} {s : σ} (p : α → σ → Prop) [∀ a s', Decidable (p a s')]
    (hcheck : (match x s with
      | .ok (a, s') => decide (p a s')
      | .error _ => false) = true) : ∃ a s', x s = .ok (a, s') ∧ p a s' := by
  split at hcheck
  · rename_i a s' hrun
    exact ⟨a, s', hrun, of_decide_eq_true hcheck⟩
  · cases hcheck

namespace Yields

variable {x : Prog σ ε α} {f : α → Prog σ ε β} {s : σ}

theorem pure {a : α} {post : α → σ → Prop} (h : post a s) :
    Yields (Pure.pure a : Prog σ ε α) s post := ⟨a, s, rfl, h⟩

theorem bind {mid : α → σ → Prop} {post : β → σ → Prop} (hx : Yields x s mid)
    (hf : ∀ a s', mid a s' → Yields (f a) s' post) : Yields (x >>= f) s post := by
  obtain ⟨a, s', hrun, hmid⟩ := hx
  obtain ⟨b, s'', hrest, hpost⟩ := hf a s' hmid
  exact ⟨b, s'', (bind_ok hrun).trans hrest, hpost⟩

theorem mono {post post' : α → σ → Prop} (hx : Yields x s post)
    (h : ∀ a s', post a s' → post' a s') : Yields x s post' := by
  obtain ⟨a, s', hrun, hpost⟩ := hx
  exact ⟨a, s', hrun, h a s' hpost⟩

theorem lift {y : Except ε α} {a : α} {post : β → σ → Prop} (hy : y = .ok a)
    (hf : Yields (f a) s post) : Yields ((liftM y : Prog σ ε α) >>= f) s post := by
  obtain ⟨b, s', hrun, hpost⟩ := hf
  exact ⟨b, s', (bind_ok (lift_ok hy s)).trans hrun, hpost⟩

theorem of_run {post : α → σ → Prop} {p : α × σ} (h : x s = .ok p) (hpost : post p.1 p.2) :
    Yields x s post := ⟨p.1, p.2, h, hpost⟩

theorem of_ok {post : α → σ → Prop} {a : α} {s' : σ} (hx : Yields x s post)
    (h : x s = .ok (a, s')) : post a s' := by
  obtain ⟨b, t, hrun, hpost⟩ := hx
  cases hrun.symm.trans h
  exact hpost

/-- A run has one result, so two conclusions about it hold together. -/
theorem and {post post' : α → σ → Prop} (h : Yields x s post) (h' : Yields x s post') :
    Yields x s fun a t => post a t ∧ post' a t := by
  obtain ⟨a, t, hrun, hp⟩ := h
  obtain ⟨a', t', hrun', hp'⟩ := h'
  have heq : (a, t) = (a', t') := Except.ok.inj (hrun.symm.trans hrun')
  cases heq
  exact ⟨a, t, hrun, hp, hp'⟩

/-- A run has one result. -/
theorem iff_of {post : α → σ → Prop} {c : Prop} (h : Yields x s fun a s' => post a s' ↔ c) :
    Yields x s post ↔ c := by
  obtain ⟨a, s', hrun, hiff⟩ := h
  exact ⟨fun hpost => hiff.mp (hpost.of_ok hrun), fun hc => ⟨a, s', hrun, hiff.mpr hc⟩⟩

end Yields

/-- No run of x ends in one of these faults. -/
def Avoids (bad : ε → Prop) (x : Prog σ ε α) : Prop := ∀ s e, x s = .error e → ¬ bad e

namespace Avoids

variable {bad : ε → Prop} {x y : Prog σ ε α} {f : α → Prog σ ε β}

theorem pure (a : α) : Avoids bad (Pure.pure a : Prog σ ε α) := by
  intro s e h
  cases h

/-- What every result of x has is known when f goes on. -/
theorem bind_of_returns {post : α → Prop} (hx : Avoids bad x)
    (hpost : ∀ s a s', x s = .ok (a, s') → post a) (hf : ∀ a, post a → Avoids bad (f a)) :
    Avoids bad (x >>= f) := by
  intro s e h
  cases hrun : x s with
  | error e' =>
    rw [bind_error hrun] at h
    cases h
    exact hx s _ hrun
  | ok p =>
    obtain ⟨a, s'⟩ := p
    rw [bind_ok hrun] at h
    exact hf a (hpost s a s' hrun) s' e h

theorem bind (hx : Avoids bad x) (hf : ∀ a, Avoids bad (f a)) : Avoids bad (x >>= f) :=
  bind_of_returns hx (fun _ _ _ _ => trivial) fun a _ => hf a

theorem fault {e : ε} (he : ¬ bad e) : Avoids bad (Programs.fault e : Prog σ ε α) := by
  intro s e' h
  cases h
  exact he

theorem lift {z : Except ε α} (h : ∀ e, z = .error e → ¬ bad e) :
    Avoids bad (liftM z : Prog σ ε α) := by
  intro s e hrun
  cases z with
  | error e' =>
    cases hrun
    exact h _ rfl
  | ok a => cases hrun

theorem ite {c : Prop} [Decidable c] (hx : c → Avoids bad x) (hy : ¬ c → Avoids bad y) :
    Avoids bad (if c then x else y) := by
  split
  · exact hx ‹c›
  · exact hy ‹¬ c›

end Avoids

/-- What holds of the result of x, if a run from s returns. -/
def OnReturn (x : Prog σ ε α) (s : σ) (post : α → σ → Prop) : Prop :=
  ∀ a s', x s = .ok (a, s') → post a s'

namespace OnReturn

variable {x : Prog σ ε α} {f : α → Prog σ ε β} {s : σ}

theorem pure {a : α} {post : α → σ → Prop} (h : post a s) :
    OnReturn (Pure.pure a : Prog σ ε α) s post := by
  intro b s' hrun
  cases hrun
  exact h

theorem fault (e : ε) {post : α → σ → Prop} :
    OnReturn (Programs.fault e : Prog σ ε α) s post := by
  intro a s' hrun
  cases hrun

theorem bind {mid : α → σ → Prop} {post : β → σ → Prop} (hx : OnReturn x s mid)
    (hf : ∀ a s', mid a s' → OnReturn (f a) s' post) : OnReturn (x >>= f) s post := by
  intro b s'' hrun
  obtain ⟨a, s', hfirst, hrest⟩ := bind_eq_ok hrun
  exact hf a s' (hx a s' hfirst) b s'' hrest

theorem mono {post post' : α → σ → Prop} (hx : OnReturn x s post)
    (h : ∀ a s', post a s' → post' a s') : OnReturn x s post' :=
  fun a s' hrun => h a s' (hx a s' hrun)

end OnReturn

/-- A run can be evaluated. -/
instance {x : Prog σ ε α} {s : σ} {post : α → σ → Prop} [∀ a s', Decidable (post a s')] :
    Decidable (Yields x s post) :=
  match hrun : x s with
  | .ok (a, s') => decidable_of_iff (post a s') ⟨fun h => ⟨a, s', hrun, h⟩, fun ⟨b, t, hb, h⟩ => by
      rw [hrun] at hb
      cases hb
      exact h⟩
  | .error e => isFalse fun ⟨b, t, hb, _⟩ => by
      rw [hrun] at hb
      cases hb

instance {x : Prog σ ε α} {s : σ} {post : α → σ → Prop} [∀ a s', Decidable (post a s')] :
    Decidable (OnReturn x s post) :=
  match hrun : x s with
  | .ok (a, s') => decidable_of_iff (post a s') ⟨fun h b t hb => by
      rw [hrun] at hb
      cases hb
      exact h, fun h => h a s' hrun⟩
  | .error e => isTrue fun b t hb => by
      rw [hrun] at hb
      cases hb

/-- A run of x from s ends in no bad fault, and post holds if it returns. -/
def Safely (bad : ε → Prop) (x : Prog σ ε α) (s : σ) (post : α → σ → Prop) : Prop :=
  (∀ e, x s = .error e → ¬ bad e) ∧ OnReturn x s post

namespace Safely

variable {bad : ε → Prop} {x : Prog σ ε α} {f : α → Prog σ ε β} {s : σ}

theorem pure {a : α} {post : α → σ → Prop} (h : post a s) :
    Safely bad (Pure.pure a : Prog σ ε α) s post := by
  refine ⟨fun e hrun => ?_, fun b s' hrun => ?_⟩
  · cases hrun
  · cases hrun
    exact h

theorem bind {mid : α → σ → Prop} {post : β → σ → Prop} (hx : Safely bad x s mid)
    (hf : ∀ a s', mid a s' → Safely bad (f a) s' post) : Safely bad (x >>= f) s post := by
  cases hrun : x s with
  | error e =>
    refine ⟨fun e' h => ?_, fun b s' h => ?_⟩
    · rw [bind_error hrun] at h
      cases h
      exact hx.1 e hrun
    · rw [bind_error hrun] at h
      cases h
  | ok p =>
    obtain ⟨a, s'⟩ := p
    unfold Safely OnReturn
    rw [bind_ok hrun]
    exact hf a s' (hx.2 a s' hrun)

theorem mono {post post' : α → σ → Prop} (hx : Safely bad x s post)
    (h : ∀ a s', post a s' → post' a s') : Safely bad x s post' :=
  ⟨hx.1, fun a s' hrun => h a s' (hx.2 a s' hrun)⟩

theorem of_yields {post : α → σ → Prop} (h : Yields x s post) : Safely bad x s post := by
  obtain ⟨a, s', hrun, hpost⟩ := h
  refine ⟨fun e he => ?_, fun b t hb => ?_⟩
  · rw [hrun] at he
    cases he
  · rw [hrun] at hb
    cases hb
    exact hpost

theorem of_run {post : α → σ → Prop} {a : α} {s' : σ} (h : x s = .ok (a, s'))
    (hpost : post a s') : Safely bad x s post := of_yields ⟨a, s', h, hpost⟩

/-- A first step that is known. -/
theorem bind_run {post : β → σ → Prop} {a : α} {s' : σ} (h : x s = .ok (a, s'))
    (hf : Safely bad (f a) s' post) : Safely bad (x >>= f) s post := by
  unfold Safely OnReturn
  rw [bind_ok h]
  exact hf

theorem fault {e : ε} {post : α → σ → Prop} (he : ¬ bad e) :
    Safely bad (Programs.fault e : Prog σ ε α) s post := by
  refine ⟨fun e' h => ?_, fun a s' h => ?_⟩
  · cases h
    exact he
  · cases h

end Safely

/-- From a state with the invariant x comes to such a state again, and post holds
of what it returns. -/
def Keeps (inv : σ → Prop) (x : Prog σ ε α) (post : α → Prop) : Prop :=
  ∀ s, inv s → OnReturn x s fun a s' => inv s' ∧ post a

namespace Keeps

variable {inv : σ → Prop} {x y : Prog σ ε α} {f : α → Prog σ ε β} {post : α → Prop}

theorem pure {a : α} (h : post a) : Keeps inv (Pure.pure a : Prog σ ε α) post :=
  fun _ hs => OnReturn.pure ⟨hs, h⟩

theorem fault (e : ε) : Keeps inv (Programs.fault e : Prog σ ε α) post :=
  fun _ _ => OnReturn.fault e

theorem bind {mid : α → Prop} {post : β → Prop} (hx : Keeps inv x mid)
    (hf : ∀ a, mid a → Keeps inv (f a) post) : Keeps inv (x >>= f) post := by
  intro s hs
  exact (hx s hs).bind fun a s' ha => hf a ha.2 s' ha.1

theorem mono {post' : α → Prop} (hx : Keeps inv x post) (h : ∀ a, post a → post' a) :
    Keeps inv x post' :=
  fun s hs => (hx s hs).mono fun a _ ha => ⟨ha.1, h a ha.2⟩

theorem ite {c : Prop} [Decidable c] (hx : c → Keeps inv x post) (hy : ¬ c → Keeps inv y post) :
    Keeps inv (if c then x else y) post := by
  split
  · exact hx ‹c›
  · exact hy ‹¬ c›

/-- What comes after a check may rely on it. -/
theorem lift {z : Except ε α} {post : β → Prop} (hf : ∀ a, z = .ok a → Keeps inv (f a) post) :
    Keeps inv ((liftM z : Prog σ ε α) >>= f) post := by
  cases z with
  | error e =>
    intro s _ b s' hrun
    cases hrun
  | ok a => exact hf a rfl

/-- What is known of every run is known here as well. -/
theorem and {post' : α → Prop} (hx : Keeps inv x post)
    (h : ∀ s a s', x s = .ok (a, s') → post' a) : Keeps inv x fun a => post a ∧ post' a := by
  intro s hs a s' hrun
  obtain ⟨hinv, hpost⟩ := hx s hs a s' hrun
  exact ⟨hinv, hpost, h s a s' hrun⟩

end Keeps

end Eokan.Programs
