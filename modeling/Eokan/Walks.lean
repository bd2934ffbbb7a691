import Mathlib.Data.Fintype.Card
import Mathlib.Data.Set.Finite.Lattice
import Mathlib.Logic.Relation
import Mathlib.Order.Bounds.Basic

/-!
Walks in a graph, for recursions that follow all arrows of a node. Among finitely
many nodes the walks from one are bounded if and only if none meets a cycle.
-/
namespace Eokan.Walks

open Relation

variable {σ : Type*} (leads : σ → σ → Prop)

/-- Every walk from here has fewer than n steps. -/
def Within : ℕ → σ → Prop
  | 0, _ => False
  | n + 1, s => ∀ t, leads s t → Within n t

/-- A walk from here comes to a node that leads back to itself. -/
def MeetsCycle (s : σ) : Prop := ∃ t, ReflTransGen leads s t ∧ TransGen leads t t

variable {leads}

theorem Within.mono {m n : ℕ} {s : σ} (hle : m ≤ n) (h : Within leads m s) :
    Within leads n s := by
  induction m generalizing n s with
  | zero => exact h.elim
  | succ m ih =>
    cases n with
    | zero => exact absurd hle (Nat.not_succ_le_zero m)
    | succ n =>
      intro t ht
      exact ih (Nat.le_of_succ_le_succ hle) (h t ht)

theorem not_within_of_cycle {n : ℕ} {s : σ} (h : TransGen leads s s) : ¬ Within leads n s := by
  induction n generalizing s with
  | zero => exact id
  | succ n ih =>
    intro hwithin
    obtain ⟨t, hst, hts⟩ := TransGen.head'_iff.mp h
    exact ih (TransGen.tail' hts hst) (hwithin t hst)

theorem not_within_of_meetsCycle {n : ℕ} {s : σ} (h : MeetsCycle leads s) :
    ¬ Within leads n s := by
  obtain ⟨t, hreach, hcycle⟩ := h
  induction hreach using ReflTransGen.head_induction_on generalizing n with
  | refl => exact not_within_of_cycle hcycle
  | head hab _ ih =>
    cases n with
    | zero => exact id
    | succ n => exact fun hwithin => ih (hwithin _ hab)

/-- The induction is along the arrows, which only lead down when there is no cycle. -/
theorem exists_within {s : σ} {states : Set σ} (hfinite : states.Finite)
    (hstates : ∀ t, ReflTransGen leads s t → t ∈ states) (hnone : ¬ MeetsCycle leads s) :
    ∃ n, Within leads n s := by
  have : Finite {t // ReflTransGen leads s t} := hfinite.subset hstates
  let below (x y : {t // ReflTransGen leads s t}) : Prop := TransGen leads y.1 x.1
  have : IsTrans _ below := ⟨fun _ _ _ hxy hyz => hyz.trans hxy⟩
  have : Std.Irrefl below := ⟨fun x hx => hnone ⟨x.1, x.2, hx⟩⟩
  have hall : ∀ x : {t // ReflTransGen leads s t}, ∃ n, Within leads n x.1 := by
    intro x
    induction x using (Finite.wellFounded_of_trans_of_irrefl below).induction with
    | h x ih =>
      choose! bound hbound using ih
      obtain ⟨most, hmost⟩ := (Set.finite_range bound).bddAbove
      refine ⟨most + 1, fun t ht => ?_⟩
      let y : {t // ReflTransGen leads s t} := ⟨t, x.2.tail ht⟩
      exact (hbound y (.single ht)).mono (hmost ⟨y, rfl⟩)
  exact hall ⟨s, .refl⟩

theorem exists_within_iff {s : σ} {states : Set σ} (hfinite : states.Finite)
    (hstates : ∀ t, ReflTransGen leads s t → t ∈ states) :
    (∃ n, Within leads n s) ↔ ¬ MeetsCycle leads s :=
  ⟨fun ⟨_, hn⟩ hcycle => not_within_of_meetsCycle hcycle hn, exists_within hfinite hstates⟩

end Eokan.Walks
