import Eokan.Holdings
import Mathlib.Tactic.Abel

/-!
The service is installed and removed through the service manager. Before it is
removed it is told to stop, and so are the services that depend on it. What the
service manager answers, and when a service stops, is left open.
-/
namespace Eokan.ServiceSetup

open Programs CommandLine Holdings

structure ServiceStatusProcess where
  dwCurrentState : ℕ
  dwWaitHint : ℕ

def serviceStopped : ℕ := 1

def serviceStopPending : ℕ := 3

def errorMoreData : ℕ := 234

/-- The access that is asked for when a service is to be deleted. -/
def deleteAccess : ℕ := 0x10000

def serviceStop : ℕ := 0x20

def serviceQueryStatus : ℕ := 4

/-- In milliseconds. -/
def dwTimeout : ℕ := 30000

def eokanSvcName : Text := "eokan_svc".toList

/-- The answers, each to all that was asked up to then. -/
structure ServiceManager where
  succeeds : List Request → Bool
  getLastError : List Request → ℕ
  status : List Request → ServiceStatusProcess
  services : List Request → List Text
  getTickCount : List Request → BitVec 32

namespace ServiceManager
variable (scm : ServiceManager) (asked : List Request)

def reported : Option ServiceStatusProcess :=
  if scm.succeeds asked then some (scm.status asked) else none

def failure : Option ℕ := if scm.succeeds asked then none else some (scm.getLastError asked)

def listed : Option (List Text) := if scm.succeeds asked then some (scm.services asked) else none

end ServiceManager

section Functions
variable (scm : ServiceManager)

def sleep (milliseconds : ℕ) : LaunchM Unit := ask (.sleep milliseconds) fun _ => ()

def eokanSvcInstall (getModuleFileName : Option Text) : LaunchM ℤ :=
  match getModuleFileName with
  | none => pure (-1)
  | some szPath => do
    if ← ask .openSCManager scm.succeeds then do
      take .scManager
      if ← ask (.createService szPath) scm.succeeds then do
        take .service
        let _ ← ask .startService scm.succeeds
        release .service
        release .scManager
        pure 0
      else do
        release .scManager
        pure (-2)
    else pure (-1)

/-- The loop at the end of both functions: whether the service has stopped. -/
def waitStopped (dwStartTime : BitVec 32) : ℕ → ServiceStatusProcess → LaunchM Bool
  | 0, _ => fault (.fault .outOfFuel)
  | fuel + 1, ssp =>
    if ssp.dwCurrentState = serviceStopped then pure true
    else do
      sleep ssp.dwWaitHint
      match ← ask .queryServiceStatusEx scm.reported with
      | none => pure false
      | some ssp =>
        if ssp.dwCurrentState = serviceStopped then pure true
        else do
          let now ← ask .getTickCount scm.getTickCount
          if dwTimeout < (now - dwStartTime).toNat then pure false
          else waitStopped dwStartTime fuel ssp

/-- The loop over the dependent services. Their handles are never closed. -/
def stopServices (dwStartTime : BitVec 32) (fuel : ℕ) : List Text → LaunchM Bool
  | [] => pure true
  | lpServiceName :: rest => do
    if ← ask (.openService lpServiceName (serviceStop ||| serviceQueryStatus)) scm.succeeds then do
      take .dependentService
      match ← ask .controlService scm.reported with
      | none => pure false
      | some ssp => do
        if ← waitStopped scm dwStartTime fuel ssp then stopServices dwStartTime fuel rest
        else pure false
    else pure false

/-- The buffer for the list is freed only if all services have stopped. -/
def stopDepends (fuel : ℕ) : LaunchM Bool := do
  let dwStartTime ← ask .getTickCount scm.getTickCount
  match ← ask .enumDependentServices scm.failure with
  | none => pure true
  | some error =>
    if error ≠ errorMoreData then pure false
    else do
      if ← ask .heapAlloc scm.succeeds then do
        take .dependencies
        match ← ask .enumDependentServices scm.listed with
        | none => pure false
        | some services => do
          if ← stopServices scm dwStartTime fuel services then do
            release .dependencies
            pure true
          else pure false
      else pure false

/-- The loop as long as a stop is pending: whether there is still something to stop. -/
def waitPending (dwStartTime : BitVec 32) :
    ℕ → ServiceStatusProcess → LaunchM Bool
  | 0, _ => fault (.fault .outOfFuel)
  | fuel + 1, ssp =>
    if ssp.dwCurrentState = serviceStopPending then do
      let dwWaitTime := ssp.dwWaitHint / 10
      sleep (if dwWaitTime < 1000 then 1000 else if 10000 < dwWaitTime then 10000 else dwWaitTime)
      match ← ask .queryServiceStatusEx scm.reported with
      | none => pure false
      | some ssp =>
        if ssp.dwCurrentState = serviceStopped then pure false
        else do
          let now ← ask .getTickCount scm.getTickCount
          if dwTimeout < (now - dwStartTime).toNat then pure false
          else waitPending dwStartTime fuel ssp
    else pure true

def doStopEokansvc (fuel : ℕ) : LaunchM Unit := do
  let dwStartTime ← ask .getTickCount scm.getTickCount
  match ← ask .queryServiceStatusEx scm.reported with
  | none => pure ()
  | some ssp =>
    if ssp.dwCurrentState = serviceStopped then pure ()
    else do
      if ← waitPending scm dwStartTime fuel ssp then do
        let _ ← stopDepends scm fuel
        match ← ask .controlService scm.reported with
        | none => pure ()
        | some ssp => do
          let _ ← waitStopped scm dwStartTime fuel ssp
          pure ()
      else pure ()

/-- Whatever comes of stopping it, the service is deleted. -/
def eokanSvcRemove (fuel : ℕ) : LaunchM ℤ := do
  if ← ask .openSCManager scm.succeeds then do
    take .scManager
    if ← ask (.openService eokanSvcName deleteAccess) scm.succeeds then do
      take .service
      doStopEokansvc scm fuel
      let _ ← ask .deleteService scm.succeeds
      release .service
      release .scManager
      pure 0
    else do
      release .scManager
      pure (-2)
  else pure (-1)

end Functions

/-- The handles of so many dependent services, and so many buffers. -/
def stopLeaks (services buffers : ℕ) : Multiset Resource :=
  services • {.dependentService} + buffers • {.dependencies}

section Runs
variable {scm : ServiceManager} {m : Machine} {base : Multiset Resource}

/-- Nothing but requests. -/
def Asks (m m' : Machine) : Prop := ∃ requests, m' = { m with requests := requests }

theorem Asks.refl (m : Machine) : Asks m m := ⟨m.requests, rfl⟩

theorem Asks.trans {m' m'' : Machine} (h : Asks m m') (h' : Asks m' m'') : Asks m m'' := by
  obtain ⟨_, rfl⟩ := h
  obtain ⟨requests, rfl⟩ := h'
  exact ⟨requests, rfl⟩

theorem asks_run {α β : Type} {request : Request} {answer : List Request → α}
    {f : α → LaunchM β} {post : β → Machine → Prop}
    (hf : ∀ a m', Asks m m' → Safely Misused (f a) m' post) :
    Safely Misused (ask request answer >>= f) m post :=
  .bind_run (ask_run request answer) (hf _ _ ⟨_, rfl⟩)

theorem waitStopped_safely (dwStartTime : BitVec 32) (fuel : ℕ) (ssp : ServiceStatusProcess) :
    Safely Misused (waitStopped scm dwStartTime fuel ssp) m fun _ m' => Asks m m' := by
  induction fuel generalizing ssp m with
  | zero => exact .fault id
  | succ fuel ih =>
    unfold waitStopped
    split
    · exact .pure (.refl m)
    refine asks_run fun _ m₁ h₁ => asks_run fun ssp m₂ h₂ => ?_
    have hasks := h₁.trans h₂
    cases ssp with
    | none => exact .pure hasks
    | some ssp =>
      dsimp only
      split
      · exact .pure hasks
      refine asks_run fun now m₃ h₃ => ?_
      split
      · exact .pure (hasks.trans h₃)
      · exact (ih ssp).mono fun _ _ h => (hasks.trans h₃).trans h

theorem waitPending_safely (dwStartTime : BitVec 32) (fuel : ℕ) (ssp : ServiceStatusProcess) :
    Safely Misused (waitPending scm dwStartTime fuel ssp) m fun _ m' => Asks m m' := by
  induction fuel generalizing ssp m with
  | zero => exact .fault id
  | succ fuel ih =>
    unfold waitPending
    split
    · refine asks_run fun _ m₁ h₁ => asks_run fun ssp m₂ h₂ => ?_
      have hasks := h₁.trans h₂
      cases ssp with
      | none => exact .pure hasks
      | some ssp =>
        dsimp only
        split
        · exact .pure hasks
        refine asks_run fun now m₃ h₃ => ?_
        split
        · exact .pure (hasks.trans h₃)
        · exact (ih ssp).mono fun _ _ h => (hasks.trans h₃).trans h
    · exact .pure (.refl m)

/-- Handles of dependent services and buffers that were taken and not given back. -/
def Leaks (m m' : Machine) (services buffers : ℕ) : Prop :=
  ∃ requests, m' = { m with held := stopLeaks services buffers + m.held, requests := requests }

theorem Asks.leaks {m' : Machine} (h : Asks m m') : Leaks m m' 0 0 := by
  obtain ⟨requests, rfl⟩ := h
  exact ⟨requests, by simp [stopLeaks, one_nsmul]⟩

theorem Leaks.trans {m' m'' : Machine} {services services' buffers buffers' : ℕ}
    (h : Leaks m m' services buffers) (h' : Leaks m' m'' services' buffers') :
    Leaks m m'' (services' + services) (buffers' + buffers) := by
  obtain ⟨_, rfl⟩ := h
  obtain ⟨requests, rfl⟩ := h'
  refine ⟨requests, ?_⟩
  have hheld : stopLeaks services' buffers' + (stopLeaks services buffers + m.held) =
      stopLeaks (services' + services) (buffers' + buffers) + m.held := by
    unfold stopLeaks
    rw [add_nsmul, add_nsmul]
    abel
  rw [hheld]

theorem leaks_service : Leaks m { m with held := {.dependentService} + m.held } 1 0 :=
  ⟨m.requests, by simp [stopLeaks, one_nsmul]⟩

theorem stopServices_safely (dwStartTime : BitVec 32) (fuel : ℕ) (services : List Text) :
    Safely Misused (stopServices scm dwStartTime fuel services) m fun _ m' =>
      ∃ n, Leaks m m' n 0 := by
  induction services generalizing m with
  | nil => exact .pure ⟨0, (Asks.refl m).leaks⟩
  | cons lpServiceName rest ih =>
    unfold stopServices
    refine asks_run fun opened m₁ h₁ => ?_
    split
    · refine .bind_run (take_run _) (asks_run fun ssp m₂ h₂ => ?_)
      have hopened := (h₁.leaks.trans leaks_service).trans h₂.leaks
      cases ssp with
      | none => exact .pure ⟨_, hopened⟩
      | some ssp =>
        refine Safely.bind (waitStopped_safely dwStartTime fuel ssp) fun stopped m₃ h₃ => ?_
        have hwaited := hopened.trans h₃.leaks
        split
        · refine ih.mono fun _ m' h => ?_
          obtain ⟨n, hrest⟩ := h
          exact ⟨_, hwaited.trans hrest⟩
        · exact .pure ⟨_, hwaited⟩
    · exact .pure ⟨0, h₁.leaks⟩

/-- The buffer is lost in a failure after it was taken. -/
theorem stopDepends_safely (fuel : ℕ) :
    Safely Misused (stopDepends scm fuel) m fun ok m' =>
      ∃ n b, Leaks m m' n b ∧ b ≤ 1 ∧ (ok = true → b = 0) := by
  unfold stopDepends
  refine asks_run fun dwStartTime m₁ h₁ => asks_run fun failure m₂ h₂ => ?_
  have hasked := (h₁.trans h₂).leaks
  cases failure with
  | none => exact .pure ⟨_, _, hasked, by omega, fun _ => rfl⟩
  | some error =>
    dsimp only
    split
    · exact .pure ⟨_, _, hasked, by omega, fun _ => rfl⟩
    refine asks_run fun alloc m₃ h₃ => ?_
    have halloc := (h₁.trans h₂).trans h₃
    split
    · refine .bind_run (take_run _) (asks_run fun services m₄ h₄ => ?_)
      have hbuffer : Leaks m₃ { m₃ with held := {.dependencies} + m₃.held } 0 1 :=
        ⟨m₃.requests, by simp [stopLeaks, one_nsmul]⟩
      have hlisted := (halloc.leaks.trans hbuffer).trans h₄.leaks
      cases services with
      | none => exact .pure ⟨_, _, hlisted, by omega, fun h => by cases h⟩
      | some services =>
        refine Safely.bind (stopServices_safely dwStartTime fuel services) fun stopped m₅ h₅ => ?_
        obtain ⟨n, hservices⟩ := h₅
        have hall := hlisted.trans hservices
        split
        · obtain ⟨requests, rfl⟩ := hall
          have hheld : stopLeaks (n + (0 + (0 + 0))) (0 + (0 + (1 + 0))) + m.held =
              {.dependencies} + (stopLeaks n 0 + m.held) := by
            simp only [stopLeaks, add_zero, zero_add, one_nsmul, zero_nsmul]
            abel
          refine .bind_run (release_run hheld) (.pure ?_)
          exact ⟨n, 0, ⟨requests, rfl⟩, by omega, fun _ => rfl⟩
        · exact .pure ⟨_, _, hall, by omega, fun h => by cases h⟩
    · exact .pure ⟨_, _, halloc.leaks, by omega, fun _ => rfl⟩

theorem doStopEokansvc_safely (fuel : ℕ) :
    Safely Misused (doStopEokansvc scm fuel) m fun _ m' => ∃ n b, Leaks m m' n b ∧ b ≤ 1 := by
  unfold doStopEokansvc
  refine asks_run fun dwStartTime m₁ h₁ => asks_run fun ssp m₂ h₂ => ?_
  have hasked := h₁.trans h₂
  cases ssp with
  | none => exact .pure ⟨0, 0, hasked.leaks, by omega⟩
  | some ssp =>
    dsimp only
    split
    · exact .pure ⟨0, 0, hasked.leaks, by omega⟩
    refine Safely.bind (waitPending_safely dwStartTime fuel ssp) fun waits m₃ h₃ => ?_
    have hwaited := (hasked.trans h₃).leaks
    split
    · refine Safely.bind (stopDepends_safely fuel) fun _ m₄ h₄ => ?_
      obtain ⟨n, b, hdepends, hb, -⟩ := h₄
      refine asks_run fun ssp m₅ h₅ => ?_
      have htold := (hwaited.trans hdepends).trans h₅.leaks
      cases ssp with
      | none => exact .pure ⟨_, _, htold, by omega⟩
      | some ssp =>
        refine Safely.bind (waitStopped_safely dwStartTime fuel ssp) fun _ m₆ h₆ => ?_
        exact .pure ⟨_, _, htold.trans h₆.leaks, by omega⟩
    · exact .pure ⟨_, _, hwaited, by omega⟩

/-- All that is taken to install the service is given back. -/
theorem eokanSvcInstall_safely (getModuleFileName : Option Text) :
    Safely Misused (eokanSvcInstall scm getModuleFileName) m fun _ m' => Asks m m' := by
  cases getModuleFileName with
  | none => exact .pure (.refl m)
  | some szPath =>
    refine asks_run fun opened m₁ h₁ => ?_
    obtain ⟨_, rfl⟩ := h₁
    split
    · refine .bind_run (take_run _) (asks_run fun made m₂ h₂ => ?_)
      obtain ⟨_, rfl⟩ := h₂
      split
      · refine .bind_run (take_run _) (asks_run fun _ m₃ h₃ => ?_)
        obtain ⟨requests, rfl⟩ := h₃
        refine .bind_run (release_run rfl) (.bind_run (release_run rfl) (.pure ?_))
        exact ⟨requests, rfl⟩
      · exact .bind_run (release_run rfl) (.pure ⟨_, rfl⟩)
    · exact .pure ⟨_, rfl⟩

/-- Only what is taken for the dependent services is not given back. -/
theorem eokanSvcRemove_safely (fuel : ℕ) :
    Safely Misused (eokanSvcRemove scm fuel) m fun _ m' => ∃ n b, Leaks m m' n b ∧ b ≤ 1 := by
  unfold eokanSvcRemove
  refine asks_run fun opened m₁ h₁ => ?_
  have hasked := h₁.leaks
  obtain ⟨_, rfl⟩ := h₁
  split
  · refine .bind_run (take_run _) (asks_run fun found m₂ h₂ => ?_)
    obtain ⟨_, rfl⟩ := h₂
    split
    · refine .bind_run (take_run _) (Safely.bind (doStopEokansvc_safely fuel) fun _ m₃ h₃ => ?_)
      obtain ⟨n, b, ⟨_, rfl⟩, hb⟩ := h₃
      refine asks_run fun _ m₄ h₄ => ?_
      obtain ⟨requests, rfl⟩ := h₄
      have hheld : stopLeaks n b + ({.service} + ({.scManager} + m.held)) =
          {.service} + ({.scManager} + (stopLeaks n b + m.held)) := by
        abel
      refine .bind_run (release_run hheld) (.bind_run (release_run rfl) (.pure ?_))
      exact ⟨n, b, ⟨requests, rfl⟩, hb⟩
    · exact .bind_run (release_run rfl) (.pure ⟨0, 0, Asks.leaks ⟨_, rfl⟩, by omega⟩)
  · exact .pure ⟨0, 0, hasked, by omega⟩

end Runs

end Eokan.ServiceSetup
