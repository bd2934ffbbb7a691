import Mathlib.Logic.Function.Basic
import Mathlib.Tactic.Simps.Basic

/-!
Critical sections. Threads make calls on a shared state, and every call is one
section: the thread enters, makes its steps one at a time, and leaves. Nothing but
entering waits, so that other threads may come in between any two steps. A run is
explained by the calls in the order in which they were left, each made at once.
-/
namespace Eokan.CriticalSections

variable {ι ρ σ κ : Type}

/-- One step, on the shared state and what the thread keeps for itself. -/
abbrev Act (σ κ : Type) := σ × κ → σ × κ

/-- What a thread does inside, from where it starts. -/
structure Body (σ κ : Type) where
  start : κ
  acts : List (Act σ κ)

def runActs (acts : List (Act σ κ)) (p : σ × κ) : σ × κ := acts.foldl (fun p act => act p) p

/-- A call made at once. -/
def Body.run (body : Body σ κ) (shared : σ) : σ × κ := runActs body.acts (shared, body.start)

/-- A thread inside, with the call that it makes and the steps that it has left. -/
structure Inside (ρ σ κ : Type) where
  call : ρ
  own : κ
  left : List (Act σ κ)

/-- The thread that has entered last, the calls that are still to come, the threads
inside and the results of the calls that have been left. -/
structure Config (ι ρ σ κ : Type) where
  shared : σ
  owner : Option ι
  todo : ι → List ρ
  inside : ι → Option (Inside ρ σ κ)
  done : ι → List κ

/-- Nobody is inside, and nothing is done yet. -/
def initial (shared : σ) (todo : ι → List ρ) : Config ι ρ σ κ :=
  ⟨shared, none, todo, fun _ => none, fun _ => []⟩

/-- What belongs to one thread. -/
def ofThread {α : Type} [DecidableEq ι] (i : ι) : List (ι × α) → List α
  | [] => []
  | (j, a) :: rest => if j = i then a :: ofThread i rest else ofThread i rest

section Threads
variable [DecidableEq ι]

theorem ofThread_append {α : Type} (i : ι) (l l' : List (ι × α)) :
    ofThread i (l ++ l') = ofThread i l ++ ofThread i l' := by
  induction l with
  | nil => rfl
  | cons p l ih =>
    obtain ⟨j, a⟩ := p
    rw [List.cons_append, ofThread, ofThread, ih]
    split <;> simp

@[simp] theorem ofThread_self {α : Type} (i : ι) (a : α) : ofThread i [(i, a)] = [a] := by
  simp [ofThread]

@[simp] theorem ofThread_other {α : Type} {i j : ι} (h : j ≠ i) (a : α) :
    ofThread i [(j, a)] = [] := by
  simp [ofThread, h]

variable (body : ρ → Body σ κ)

@[simps]
def Config.enter (c : Config ι ρ σ κ) (i : ι) (call : ρ) (rest : List ρ) : Config ι ρ σ κ :=
  { c with
    owner := some i
    todo := Function.update c.todo i rest
    inside := Function.update c.inside i (some ⟨call, (body call).start, (body call).acts⟩) }

@[simps]
def Config.work (c : Config ι ρ σ κ) (i : ι) (call : ρ) (own : κ) (act : Act σ κ)
    (left : List (Act σ κ)) : Config ι ρ σ κ :=
  { c with
    shared := (act (c.shared, own)).1
    inside := Function.update c.inside i (some ⟨call, (act (c.shared, own)).2, left⟩) }

@[simps]
def Config.leave (c : Config ι ρ σ κ) (i : ι) (own : κ) : Config ι ρ σ κ :=
  { c with
    owner := none
    inside := Function.update c.inside i none
    done := Function.update c.done i (c.done i ++ [own]) }

/-- The next step of a thread. Only entering needs the section to be free, and a
thread that has nothing to do or has to wait stays where it is. -/
def Config.advance (c : Config ι ρ σ κ) (i : ι) : Config ι ρ σ κ :=
  match c.inside i with
  | some ⟨call, own, act :: left⟩ => c.work i call own act left
  | some ⟨_, own, []⟩ => c.leave i own
  | none =>
    match c.owner, c.todo i with
    | none, call :: rest => c.enter body i call rest
    | _, _ => c

/-- The threads make their steps in this order. -/
def Config.runSchedule (c : Config ι ρ σ κ) (schedule : List ι) : Config ι ρ σ κ :=
  schedule.foldl (fun c i => c.advance body i) c

/-- Calls one after the other, and the result of each. -/
def serial : σ → List (ι × ρ) → σ × List (ι × κ)
  | shared, [] => (shared, [])
  | shared, (i, call) :: calls =>
    let (shared, own) := (body call).run shared
    let (shared, results) := serial shared calls
    (shared, (i, own) :: results)

omit [DecidableEq ι] in
theorem serial_append (shared : σ) (calls calls' : List (ι × ρ)) :
    serial body shared (calls ++ calls') =
      ((serial body (serial body shared calls).1 calls').1,
        (serial body shared calls).2 ++ (serial body (serial body shared calls).1 calls').2) := by
  induction calls generalizing shared with
  | nil => rfl
  | cons p calls ih =>
    obtain ⟨i, call⟩ := p
    rw [List.cons_append, serial, serial]
    dsimp only
    rw [ih]
    rfl

/-- The calls that were left, in this order, explain what is there. A thread inside
is on its way through its call, and it is the only one. -/
structure Explained (shared : σ) (todo : ι → List ρ) (order : List (ι × ρ))
    (c : Config ι ρ σ κ) : Prop where
  calls : ∀ i, todo i = ofThread i order ++ ((c.inside i).map Inside.call).toList ++ c.todo i
  results : ∀ i, c.done i = ofThread i (serial body shared order).2
  alone : ∀ i, c.inside i ≠ none ↔ c.owner = some i
  free : c.owner = none → c.shared = (serial body shared order).1
  underWay : ∀ i call own left, c.inside i = some ⟨call, own, left⟩ →
    runActs left (c.shared, own) = (body call).run (serial body shared order).1

variable {body} {shared : σ} {todo : ι → List ρ} {order : List (ι × ρ)} {c : Config ι ρ σ κ}

theorem explained_initial : Explained body shared todo [] (initial shared todo) where
  calls _ := rfl
  results _ := rfl
  alone _ := ⟨fun h => absurd rfl h, fun h => by cases h⟩
  free _ := rfl
  underWay _ _ _ _ h := by cases h

/-- No two threads are inside. -/
theorem Explained.exclusive (h : Explained body shared todo order c) {i j : ι}
    (hi : c.inside i ≠ none) (hj : c.inside j ≠ none) : i = j :=
  Option.some.inj (((h.alone i).mp hi).symm.trans ((h.alone j).mp hj))

theorem Explained.enter (h : Explained body shared todo order c) {i : ι} {call : ρ}
    {rest : List ρ} (hfree : c.owner = none) (htodo : c.todo i = call :: rest) :
    Explained body shared todo order (c.enter body i call rest) := by
  have hout : ∀ j, c.inside j = none := by
    intro j
    by_contra hj
    have howner := (h.alone j).mp hj
    rw [hfree] at howner
    cases howner
  refine ⟨fun j => ?_, h.results, fun j => ?_, fun howner => ?_, fun j call' own left hj => ?_⟩
  · have hcalls := h.calls j
    rw [hout j] at hcalls
    by_cases hji : j = i
    · subst hji
      rw [htodo] at hcalls
      simpa using hcalls
    · simpa [hji, hout j] using hcalls
  · by_cases hji : j = i
    · simp [hji]
    · simp [hji, hout j, Ne.symm hji]
  · cases howner
  · by_cases hji : j = i
    · subst hji
      have heq : (⟨call, (body call).start, (body call).acts⟩ : Inside ρ σ κ) =
          ⟨call', own, left⟩ := by simpa using hj
      cases heq
      rw [← h.free hfree]
      rfl
    · simp [hji, hout j] at hj

theorem Explained.work (h : Explained body shared todo order c) {i : ι} {call : ρ} {own : κ}
    {act : Act σ κ} {left : List (Act σ κ)} (hinside : c.inside i = some ⟨call, own, act :: left⟩) :
    Explained body shared todo order (c.work i call own act left) := by
  have hi : c.inside i ≠ none := by simp [hinside]
  refine ⟨fun j => ?_, h.results, fun j => ?_, fun howner => ?_, fun j call' own' left' hj => ?_⟩
  · have hcalls := h.calls j
    by_cases hji : j = i
    · subst hji
      rw [hinside] at hcalls
      simpa using hcalls
    · simpa [hji] using hcalls
  · have halone := h.alone j
    by_cases hji : j = i
    · subst hji
      simpa [hinside] using halone
    · simpa [hji] using halone
  · have hsome := (h.alone i).mp hi
    rw [show c.owner = none from howner] at hsome
    cases hsome
  · by_cases hji : j = i
    · subst hji
      have heq : (⟨call, (act (c.shared, own)).2, left⟩ : Inside ρ σ κ) = ⟨call', own', left'⟩ := by
        simpa using hj
      cases heq
      exact h.underWay j call own (act :: left) hinside
    · have hother : c.inside j = some ⟨call', own', left'⟩ := by simpa [hji] using hj
      exact absurd (h.exclusive (by simp [hother]) hi) hji

theorem Explained.leave (h : Explained body shared todo order c) {i : ι} {call : ρ} {own : κ}
    (hinside : c.inside i = some ⟨call, own, []⟩) :
    Explained body shared todo (order ++ [(i, call)]) (c.leave i own) := by
  have hi : c.inside i ≠ none := by simp [hinside]
  have hout : ∀ j, Function.update c.inside i none j = none := by
    intro j
    by_cases hji : j = i
    · simp [hji]
    · by_contra hj
      exact hji (h.exclusive (by simpa [hji] using hj) hi)
  have hrun : (c.shared, own) = (body call).run (serial body shared order).1 :=
    h.underWay i call own [] hinside
  have hserial : serial body shared (order ++ [(i, call)]) =
      (c.shared, (serial body shared order).2 ++ [(i, own)]) := by
    rw [serial_append, serial, ← hrun]
    rfl
  refine ⟨fun j => ?_, fun j => ?_, fun j => ⟨fun hj => absurd (hout j) hj, fun hj => by cases hj⟩,
    fun _ => ?_, fun j call' own' left' hj => ?_⟩
  · have hcalls := h.calls j
    by_cases hji : j = i
    · subst hji
      rw [hinside] at hcalls
      simpa [ofThread_append] using hcalls
    · have hij : i ≠ j := fun heq => hji heq.symm
      simpa [ofThread_append, hji, hij] using hcalls
  · have hresults := h.results j
    rw [hserial]
    by_cases hji : j = i
    · subst hji
      simpa [ofThread_append] using hresults
    · have hij : i ≠ j := fun heq => hji heq.symm
      simpa [ofThread_append, hji, hij] using hresults
  · simp [hserial]
  · have hnone := hout j
    rw [show Function.update c.inside i none j = some ⟨call', own', left'⟩ from hj] at hnone
    cases hnone

/-- Only leaving adds a call to the explanation. -/
theorem Explained.advance (h : Explained body shared todo order c) (i : ι) :
    ∃ more, Explained body shared todo (order ++ more) (c.advance body i) := by
  unfold Config.advance
  split
  · rename_i call own act left hinside
    exact ⟨[], by simpa using h.work hinside⟩
  · rename_i call own hinside
    exact ⟨[(i, call)], h.leave hinside⟩
  · split
    · rename_i call rest hfree htodo
      exact ⟨[], by simpa using h.enter hfree htodo⟩
    · exact ⟨[], by simpa using h⟩

/-- Whatever the schedule, the explanation of a run goes on explaining it. -/
theorem Explained.run (h : Explained body shared todo order c) (schedule : List ι) :
    ∃ more, Explained body shared todo (order ++ more) (c.runSchedule body schedule) := by
  induction schedule generalizing order c with
  | nil => exact ⟨[], by rwa [List.append_nil]⟩
  | cons i schedule ih =>
    obtain ⟨first, hfirst⟩ := h.advance i
    obtain ⟨more, hmore⟩ := ih hfirst
    exact ⟨first ++ more, by rwa [← List.append_assoc]⟩

end Threads

end Eokan.CriticalSections
