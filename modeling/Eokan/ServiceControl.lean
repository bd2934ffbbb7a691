import Mathlib.Data.List.Infix
import Mathlib.Data.List.Basic
import Eokan.CInt

/-!
The service and the service manager. One thread mounts the drives, waits and
unmounts them. Another one gets the controls that the manager sends, and both
report the state of the service through the same record, statement by statement
and without a lock. A run is any order of their statements.
-/
namespace Eokan.ServiceControl

inductive SvcState
  | unset
  | stopped
  | startPending
  | stopPending
  | running
  deriving DecidableEq

structure ServiceStatus where
  serviceType : ℕ
  currentState : SvcState
  controlsAccepted : ℕ
  win32ExitCode : ℕ
  serviceSpecificExitCode : ℕ
  checkPoint : ℤ
  waitHint : ℕ
  deriving DecidableEq

def serviceWin32OwnProcess : ℕ := 0x10

def serviceAcceptStop : ℕ := 1

/-- What is done with the drives. -/
inductive Pass
  | mount
  | umount
  deriving DecidableEq

/-- The statements of the two threads. -/
inductive Statement
  | setServiceType
  | setServiceSpecificExitCode
  | setCurrentState (state : SvcState)
  | setWin32ExitCode (code : ℕ)
  | setWaitHint (hint : ℕ)
  | setControlsAccepted (state : SvcState)
  | setCheckPoint (state : SvcState)
  | setServiceStatus
  | createEvent (created : Bool)
  | mountPhydiskParts
  | waitForSingleObject
  | umountPhydiskParts
  | setEvent
  | reportCurrentState
  deriving DecidableEq

def reportSvcStatus (currentState : SvcState) (waitHint : ℕ) : List Statement :=
  [.setCurrentState currentState, .setWin32ExitCode 0, .setWaitHint waitHint,
    .setControlsAccepted currentState, .setCheckPoint currentState, .setServiceStatus]

/-- From where the service waits. -/
def finish : List Statement :=
  [.waitForSingleObject, .umountPhydiskParts] ++ reportSvcStatus .stopped 0

/-- The handler may not be registered, and the event may not be created. -/
def eokanSvcMain (registered created : Bool) : List Statement :=
  if registered then
    [.setServiceType, .setServiceSpecificExitCode] ++ reportSvcStatus .startPending 3000 ++
      [.createEvent created] ++
      if created then [.mountPhydiskParts] ++ reportSvcStatus .running 0 ++ finish
      else reportSvcStatus .stopped 0
  else []

inductive Control
  | stop
  | interrogate
  | other
  deriving DecidableEq

/-- The state is read for the second report before anything of it is written. -/
def svcctlHandler : Control → List Statement
  | .stop => reportSvcStatus .stopPending 0 ++ [.setEvent, .reportCurrentState]
  | .interrogate => []
  | .other => []

/-- What the threads share, what the manager has been told, the latest first, and
what was done with the drives. -/
structure Shared where
  gSvcStatus : ServiceStatus
  dwCheckPoint : ℤ
  ghSvcStopEvent : Option Bool
  told : List ServiceStatus
  passes : List Pass
  deriving DecidableEq

inductive Thread
  | service
  | handler
  deriving DecidableEq

structure System where
  shared : Shared
  service : List Statement
  handler : List Statement
  history : List (Thread × Statement)
  deriving DecidableEq

section Statements
variable (sh : Shared)

def Shared.write (f : ServiceStatus → ServiceStatus) : Shared :=
  { sh with gSvcStatus := f sh.gSvcStatus }

/-- What a statement does, and the statements of a function that it calls. Waiting
for an event that is not signalled does nothing. -/
def Shared.exec : Statement → Option (Shared × List Statement)
  | .setServiceType =>
    some (sh.write fun st => { st with serviceType := serviceWin32OwnProcess }, [])
  | .setServiceSpecificExitCode =>
    some (sh.write fun st => { st with serviceSpecificExitCode := 0 }, [])
  | .setCurrentState state => some (sh.write fun st => { st with currentState := state }, [])
  | .setWin32ExitCode code => some (sh.write fun st => { st with win32ExitCode := code }, [])
  | .setWaitHint hint => some (sh.write fun st => { st with waitHint := hint }, [])
  | .setControlsAccepted state =>
    some (sh.write fun st => { st with
      controlsAccepted := if state = .startPending then 0 else serviceAcceptStop }, [])
  | .setCheckPoint state =>
    if state = .running ∨ state = .stopped then
      some (sh.write fun st => { st with checkPoint := 0 }, [])
    else
      some ({ sh.write fun st => { st with checkPoint := sh.dwCheckPoint } with
        dwCheckPoint := CInt.uint32 (sh.dwCheckPoint + 1) }, [])
  | .setServiceStatus => some ({ sh with told := sh.gSvcStatus :: sh.told }, [])
  | .createEvent created =>
    some ({ sh with ghSvcStopEvent := if created then some false else none }, [])
  | .mountPhydiskParts => some ({ sh with passes := .mount :: sh.passes }, [])
  | .waitForSingleObject => if sh.ghSvcStopEvent = some true then some (sh, []) else none
  | .umountPhydiskParts => some ({ sh with passes := .umount :: sh.passes }, [])
  | .setEvent => some ({ sh with ghSvcStopEvent := sh.ghSvcStopEvent.map fun _ => true }, [])
  | .reportCurrentState => some (sh, reportSvcStatus sh.gSvcStatus.currentState 0)

end Statements

/-- A stop is sent to a service that is running as far as the manager knows, and
that accepts it. -/
def System.Accepts (s : System) : Control → Prop
  | .stop => ∃ st ∈ s.shared.told.head?, st.currentState = .running ∧
      st.controlsAccepted = serviceAcceptStop
  | _ => True

instance (s : System) (control : Control) : Decidable (s.Accepts control) := by
  cases control <;> unfold System.Accepts <;> infer_instance

inductive Move
  | service
  | handler
  | control (control : Control)
  deriving DecidableEq

/-- The next statement of a thread, or the next control. -/
def System.advance (s : System) : Move → System
  | .service =>
    match s.service with
    | [] => s
    | statement :: rest =>
      match s.shared.exec statement with
      | none => s
      | some (shared, called) =>
        { s with
          shared := shared
          service := called ++ rest
          history := (.service, statement) :: s.history }
  | .handler =>
    match s.handler with
    | [] => s
    | statement :: rest =>
      match s.shared.exec statement with
      | none => s
      | some (shared, called) =>
        { s with
          shared := shared
          handler := called ++ rest
          history := (.handler, statement) :: s.history }
  | .control control =>
    if s.handler = [] ∧ s.Accepts control then { s with handler := svcctlHandler control } else s

def System.run (s : System) (moves : List Move) : System := moves.foldl System.advance s

/-- All is zero before, but for the counter of the reports. -/
def start (registered created : Bool) : System where
  shared := ⟨⟨0, .unset, 0, 0, 0, 0, 0⟩, 1, none, [], []⟩
  service := eokanSvcMain registered created
  handler := []
  history := []

/-- What has happened since the handler read the state for its second report. -/
inductive Race
  | idle
  | read
  | overtaken
  | lost
  deriving DecidableEq

/-- The handler loses if the service writes its last state after the handler has read
the state and before the handler writes that back. -/
def race : List (Thread × Statement) → Race
  | [] => .idle
  | (thread, statement) :: history =>
    match thread, statement, race history with
    | .handler, .reportCurrentState, _ => .read
    | .service, .setCurrentState .stopped, .read => .overtaken
    | .handler, .setCurrentState _, .read => .idle
    | .handler, .setCurrentState _, .overtaken => .lost
    | _, _, before => before

/-- The state that is reported last as far as the service has come. -/
def written (service : List Statement) : SvcState :=
  if .setCurrentState .stopped ∈ service then .stopPending else .stopped

/-- Where the handler is after it has set the event, with the state in the record,
the race so far, and the last state that the service has written. -/
inductive Handling (state : SvcState) (r : Race) (w : SvcState) : List Statement → Prop
  | waits (hstate : state = w) (hrace : r = .idle) : Handling state r w [.reportCurrentState]
  | reads (hstate : state = w) (hrace : r = .read) : Handling state r w (reportSvcStatus state 0)
  | overtaken (hstate : state = .stopped) (hw : w = .stopped) (hrace : r = .overtaken) :
      Handling state r w (reportSvcStatus .stopPending 0)
  | wrote {left : List Statement} {s : SvcState} (hstate : state = w) (hrace : r = .idle)
      (hleft : left <:+ (reportSvcStatus s 0).tail) : Handling state r w left
  | lost {left : List Statement} (hstate : state = .stopPending) (hw : w = .stopped)
      (hrace : r = .lost) (hleft : left <:+ (reportSvcStatus .stopPending 0).tail) :
      Handling state r w left

/-- The reports that are still to come. -/
def reportsLeft (left : List Statement) : ℕ :=
  left.count .setServiceStatus + left.count .reportCurrentState

/-- The states that the manager has been told, the latest first. -/
def Shared.states (sh : Shared) : List SvcState := sh.told.map (·.currentState)

/-- Behind a stop: the two threads end, each with a report of its own. -/
structure Racing (s : System) : Prop where
  event : s.shared.ghSvcStopEvent = some true
  signalled : (.handler, .setEvent) ∈ s.history
  service : s.service <:+ finish
  handling : Handling s.shared.gSvcStatus.currentState (race s.history) (written s.service)
    s.handler
  passes : s.shared.passes =
    if .umountPhydiskParts ∈ s.service then [.mount] else [.umount, .mount]
  told : ∃ more, s.shared.states = more ++ [.stopPending, .running, .startPending] ∧
    (∀ state ∈ more, state = .stopPending ∨ state = .stopped ∧ written s.service = .stopped) ∧
    more.length + reportsLeft s.service + reportsLeft s.handler = 2
  settled : s.service = [] → s.handler = [] →
    s.shared.states.head? = some s.shared.gSvcStatus.currentState

/-- Statements that change nothing of what Racing is about. -/
def Quiet : Statement → Prop
  | .setWin32ExitCode _ => True
  | .setWaitHint _ => True
  | .setControlsAccepted _ => True
  | .setCheckPoint _ => True
  | _ => False

theorem quiet_exec {statement : Statement} (h : Quiet statement) (sh : Shared) :
    ∃ sh', sh.exec statement = some (sh', []) ∧ sh'.ghSvcStopEvent = sh.ghSvcStopEvent ∧
      sh'.passes = sh.passes ∧ sh'.told = sh.told ∧
      sh'.gSvcStatus.currentState = sh.gSvcStatus.currentState := by
  cases statement with
  | setWin32ExitCode code => exact ⟨_, rfl, rfl, rfl, rfl, rfl⟩
  | setWaitHint hint => exact ⟨_, rfl, rfl, rfl, rfl, rfl⟩
  | setControlsAccepted state => exact ⟨_, rfl, rfl, rfl, rfl, rfl⟩
  | setCheckPoint state =>
    unfold Shared.exec
    dsimp only
    split
    · exact ⟨_, rfl, rfl, rfl, rfl, rfl⟩
    · exact ⟨_, rfl, rfl, rfl, rfl, rfl⟩
  | _ => cases h

theorem quiet_race {statement : Statement} (h : Quiet statement) (thread : Thread)
    (history : List (Thread × Statement)) :
    race ((thread, statement) :: history) = race history := by
  cases statement <;> cases thread <;> first | rfl | cases h

theorem quiet_reportsLeft {statement : Statement} (h : Quiet statement) (rest : List Statement) :
    reportsLeft (statement :: rest) = reportsLeft rest := by
  unfold reportsLeft
  rw [List.count_cons_of_ne, List.count_cons_of_ne]
  · rintro rfl
    exact h
  · rintro rfl
    exact h

/-- What is left of a report behind its first statement. -/
theorem tail_cases {left : List Statement} {state : SvcState}
    (h : left <:+ (reportSvcStatus state 0).tail) :
    left = [] ∨ left = [.setServiceStatus] ∨ ∃ statement rest, left = statement :: rest ∧
      Quiet statement ∧ rest ≠ [] ∧ rest <:+ (reportSvcStatus state 0).tail := by
  have hrest : ∀ statement rest, statement :: rest <:+ (reportSvcStatus state 0).tail →
      rest <:+ (reportSvcStatus state 0).tail :=
    fun statement rest hsuffix => (List.suffix_cons statement rest).trans hsuffix
  have hcases := h
  simp only [reportSvcStatus, List.tail_cons, List.suffix_cons_iff, List.suffix_nil] at hcases
  rcases hcases with rfl | rfl | rfl | rfl | rfl | rfl
  · exact Or.inr (Or.inr ⟨_, _, rfl, trivial, by simp, hrest _ _ h⟩)
  · exact Or.inr (Or.inr ⟨_, _, rfl, trivial, by simp, hrest _ _ h⟩)
  · exact Or.inr (Or.inr ⟨_, _, rfl, trivial, by simp, hrest _ _ h⟩)
  · exact Or.inr (Or.inr ⟨_, _, rfl, trivial, by simp, hrest _ _ h⟩)
  · exact Or.inr (Or.inl rfl)
  · exact Or.inl rfl

/-- Where the service is. -/
theorem finish_cases {left : List Statement} (h : left <:+ finish) :
    left = finish ∨ left = finish.tail ∨ left = reportSvcStatus .stopped 0 ∨
      left <:+ (reportSvcStatus .stopped 0).tail := by
  unfold finish at h ⊢
  rw [List.cons_append, List.cons_append, List.nil_append, List.suffix_cons_iff,
    List.suffix_cons_iff] at h
  rcases h with rfl | rfl | h
  · exact Or.inl rfl
  · exact Or.inr (Or.inl rfl)
  · rw [reportSvcStatus, List.suffix_cons_iff] at h
    rcases h with rfl | h
    · exact Or.inr (Or.inr (Or.inl rfl))
    · exact Or.inr (Or.inr (Or.inr h))

theorem tail_not_mem {left : List Statement} {state : SvcState} {statement : Statement}
    (h : left <:+ (reportSvcStatus state 0).tail)
    (hstatement : statement ∉ (reportSvcStatus state 0).tail) : statement ∉ left :=
  fun hmem => hstatement (h.subset hmem)

section Steps
variable {s : System}

theorem advance_service {statement : Statement} {rest called : List Statement} {sh : Shared}
    (hservice : s.service = statement :: rest)
    (hexec : s.shared.exec statement = some (sh, called)) :
    s.advance .service = ⟨sh, called ++ rest, s.handler, (.service, statement) :: s.history⟩ := by
  unfold System.advance
  simp only [hservice, hexec]

theorem advance_handler {statement : Statement} {rest called : List Statement} {sh : Shared}
    (hhandler : s.handler = statement :: rest)
    (hexec : s.shared.exec statement = some (sh, called)) :
    s.advance .handler = ⟨sh, s.service, called ++ rest, (.handler, statement) :: s.history⟩ := by
  unfold System.advance
  simp only [hhandler, hexec]

/-- The service writes its last state. -/
theorem Handling.service_writes {state : SvcState} {history : List (Thread × Statement)}
    {left : List Statement} (h : Handling state (race history) .stopPending left) :
    Handling .stopped (race ((.service, .setCurrentState .stopped) :: history)) .stopped left := by
  cases h with
  | waits hstate hrace =>
    exact .waits rfl (by simp [race, hrace])
  | reads hstate hrace =>
    subst hstate
    exact .overtaken rfl rfl (by simp [race, hrace])
  | overtaken hstate hw hrace => cases hw
  | wrote hstate hrace hleft =>
    exact .wrote rfl (by simp [race, hrace]) hleft
  | lost hstate hw hrace hleft => cases hw

theorem written_cases (service : List Statement) :
    written service = .stopPending ∨ written service = .stopped := by
  unfold written
  split
  · exact Or.inl rfl
  · exact Or.inr rfl

/-- Only these two states are in the record. -/
theorem Handling.state_cases {state w : SvcState} {r : Race} {left : List Statement}
    (h : Handling state r w left) (hw : w = .stopPending ∨ w = .stopped) :
    state = .stopPending ∨ state = .stopped ∧ w = .stopped := by
  have hsame : state = w → state = .stopPending ∨ state = .stopped ∧ w = .stopped := by
    rintro rfl
    simpa using hw
  cases h with
  | waits hstate hrace => exact hsame hstate
  | reads hstate hrace => exact hsame hstate
  | overtaken hstate hlast hrace => exact Or.inr ⟨hstate, hlast⟩
  | wrote hstate hrace hleft => exact hsame hstate
  | lost hstate hlast hrace hleft => exact Or.inl hstate

/-- Statements that nothing here depends on. -/
theorem Racing.silent (h : Racing s) {s' : System}
    (hevent : s'.shared.ghSvcStopEvent = s.shared.ghSvcStopEvent)
    (hpasses : s'.shared.passes = s.shared.passes) (htold : s'.shared.told = s.shared.told)
    (hstate : s'.shared.gSvcStatus.currentState = s.shared.gSvcStatus.currentState)
    (hsignalled : (.handler, .setEvent) ∈ s'.history) (hservice : s'.service <:+ finish)
    (hhandling : Handling s.shared.gSvcStatus.currentState (race s'.history) (written s'.service)
      s'.handler)
    (humount : Statement.umountPhydiskParts ∈ s'.service ↔ .umountPhydiskParts ∈ s.service)
    (hwritten : written s'.service = written s.service)
    (hleft : reportsLeft s'.service + reportsLeft s'.handler =
      reportsLeft s.service + reportsLeft s.handler)
    (hopen : s'.service ≠ [] ∨ s'.handler ≠ []) : Racing s' := by
  obtain ⟨more, hstates, hmore, hcount⟩ := h.told
  refine ⟨hevent.trans h.event, hsignalled, hservice, hstate ▸ hhandling, ?_,
    ⟨more, ?_, hwritten ▸ hmore, by omega⟩, fun hs hh => ?_⟩
  · rw [hpasses, h.passes]
    simp only [humount]
  · rw [Shared.states, htold]
    exact hstates
  · exact (hopen.elim (fun hne => hne hs) fun hne => hne hh).elim

/-- A report of one of the two threads, behind which it ends. -/
theorem Racing.tells (h : Racing s) {s' : System}
    (hshared : s'.shared = { s.shared with told := s.shared.gSvcStatus :: s.shared.told })
    (hsignalled : (.handler, .setEvent) ∈ s'.history) (hservice : s'.service <:+ finish)
    (hhandling : Handling s.shared.gSvcStatus.currentState (race s'.history) (written s'.service)
      s'.handler)
    (humount : Statement.umountPhydiskParts ∈ s'.service ↔ .umountPhydiskParts ∈ s.service)
    (hwritten : written s'.service = written s.service)
    (hleft : reportsLeft s'.service + reportsLeft s'.handler + 1 =
      reportsLeft s.service + reportsLeft s.handler) : Racing s' := by
  obtain ⟨more, hstates, hmore, hcount⟩ := h.told
  refine ⟨?_, hsignalled, hservice, ?_, ?_,
    ⟨s.shared.gSvcStatus.currentState :: more, ?_, ?_, ?_⟩, fun _ _ => ?_⟩
  · rw [hshared]
    exact h.event
  · rw [hshared]
    exact hhandling
  · rw [hshared, h.passes]
    simp only [humount]
  · rw [hshared, List.cons_append, ← hstates]
    rfl
  · intro state hmem
    rw [hwritten]
    rcases List.mem_cons.mp hmem with rfl | hold
    · exact h.handling.state_cases (written_cases _)
    · exact hmore state hold
  · rw [List.length_cons]
    omega
  · rw [hshared]
    rfl

theorem Racing.service_step (h : Racing s) : Racing (s.advance .service) := by
  have hsuffix := h.service
  have hhandling := h.handling
  rcases finish_cases hsuffix with hservice | hservice | hservice | hservice
  · have hexec : s.shared.exec .waitForSingleObject = some (s.shared, []) := if_pos h.event
    rw [advance_service hservice hexec]
    rw [hservice] at hsuffix hhandling
    refine h.silent rfl rfl rfl rfl (List.mem_cons_of_mem _ h.signalled)
      ((List.suffix_cons _ _).trans hsuffix) hhandling ?_ ?_ ?_
      (Or.inl (by simp [reportSvcStatus]))
    · simp [hservice, finish]
    · rw [hservice]
      rfl
    · rw [hservice]
      rfl
  · have hexec : s.shared.exec .umountPhydiskParts =
        some ({ s.shared with passes := .umount :: s.shared.passes }, []) := rfl
    rw [advance_service hservice hexec]
    rw [hservice] at hsuffix hhandling
    obtain ⟨more, hstates, hmore, hcount⟩ := h.told
    rw [hservice] at hmore hcount
    refine ⟨h.event, List.mem_cons_of_mem _ h.signalled, (List.suffix_cons _ _).trans hsuffix,
      hhandling, ?_, ⟨more, hstates, hmore, hcount⟩, fun hs => by cases hs⟩
    have hpasses := h.passes
    rw [hservice] at hpasses
    simp [hpasses, finish, reportSvcStatus]
  · have hexec : s.shared.exec (.setCurrentState .stopped) =
        some (s.shared.write fun st => { st with currentState := .stopped }, []) := rfl
    rw [advance_service hservice hexec]
    rw [hservice] at hsuffix hhandling
    obtain ⟨more, hstates, hmore, hcount⟩ := h.told
    rw [hservice] at hcount
    refine ⟨h.event, List.mem_cons_of_mem _ h.signalled, (List.suffix_cons _ _).trans hsuffix,
      hhandling.service_writes, ?_,
      ⟨more, hstates, fun state hmem => (hmore state hmem).imp_right fun hst => ⟨hst.1, rfl⟩,
        hcount⟩, fun hs => by cases hs⟩
    have hpasses := h.passes
    rw [hservice] at hpasses
    exact hpasses
  · rcases tail_cases hservice with hnil | hlast | ⟨statement, rest, hcons, hquiet, hne, hrest⟩
    · have hsame : s.advance .service = s := by
        unfold System.advance
        simp only [hnil]
      rwa [hsame]
    · have hexec : s.shared.exec .setServiceStatus =
          some ({ s.shared with told := s.shared.gSvcStatus :: s.shared.told }, []) := rfl
      rw [advance_service hlast hexec]
      rw [hlast] at hhandling
      refine h.tells rfl (List.mem_cons_of_mem _ h.signalled) List.nil_suffix hhandling ?_ ?_ ?_
      · simp [hlast]
      · rw [hlast]
        rfl
      · rw [hlast]
        change 0 + reportsLeft s.handler + 1 = 1 + reportsLeft s.handler
        omega
    · obtain ⟨sh, hexec, hevent, hpasses, htold, hstate⟩ := quiet_exec hquiet s.shared
      rw [advance_service hcons hexec]
      have hgone : ∀ x, x ∉ (reportSvcStatus .stopped 0).tail → (x ∈ rest ↔ x ∈ s.service) :=
        fun x hx => iff_of_false (tail_not_mem hrest hx) (tail_not_mem hservice hx)
      have hwritten : written rest = written s.service := by
        unfold written
        simp only [hgone (.setCurrentState .stopped) (by decide)]
      refine h.silent hevent hpasses htold hstate (List.mem_cons_of_mem _ h.signalled) ?_ ?_
        (hgone _ (by decide)) hwritten ?_ (Or.inl hne)
      · rw [hcons] at hsuffix
        exact (List.suffix_cons _ _).trans hsuffix
      · rw [quiet_race hquiet]
        change Handling _ _ (written rest) _
        rw [hwritten]
        exact hhandling
      · rw [hcons, quiet_reportsLeft hquiet]
        rfl

theorem reportsLeft_report (state : SvcState) : reportsLeft (reportSvcStatus state 0) = 1 := by
  simp [reportsLeft, reportSvcStatus]

/-- The rest of the second report of the handler. -/
theorem Racing.handler_tail (h : Racing s) {state : SvcState}
    (hleft : s.handler <:+ (reportSvcStatus state 0).tail)
    (hkeeps : ∀ left, left <:+ (reportSvcStatus state 0).tail →
      Handling s.shared.gSvcStatus.currentState (race s.history) (written s.service) left) :
    Racing (s.advance .handler) := by
  rcases tail_cases hleft with hnil | hlast | ⟨statement, rest, hcons, hquiet, hne, hrest⟩
  · have hsame : s.advance .handler = s := by
      unfold System.advance
      simp only [hnil]
    rwa [hsame]
  · have hexec : s.shared.exec .setServiceStatus =
        some ({ s.shared with told := s.shared.gSvcStatus :: s.shared.told }, []) := rfl
    rw [advance_handler hlast hexec]
    refine h.tells rfl (List.mem_cons_of_mem _ h.signalled) h.service
      (hkeeps [] List.nil_suffix) Iff.rfl rfl ?_
    rw [hlast]
    change reportsLeft s.service + 0 + 1 = reportsLeft s.service + 1
    omega
  · obtain ⟨sh, hexec, hevent, hpasses, htold, hstate⟩ := quiet_exec hquiet s.shared
    rw [advance_handler hcons hexec]
    refine h.silent hevent hpasses htold hstate (List.mem_cons_of_mem _ h.signalled) h.service ?_
      Iff.rfl rfl ?_ (Or.inr hne)
    · rw [quiet_race hquiet]
      exact hkeeps rest hrest
    · rw [hcons, quiet_reportsLeft hquiet]
      rfl

theorem Racing.handler_step (h : Racing s) : Racing (s.advance .handler) := by
  have hhandling := h.handling
  generalize hleft : s.handler = left at hhandling
  cases hhandling with
  | waits hstate hrace =>
    have hexec : s.shared.exec .reportCurrentState =
        some (s.shared, reportSvcStatus s.shared.gSvcStatus.currentState 0) := rfl
    rw [advance_handler hleft hexec, List.append_nil]
    refine h.silent rfl rfl rfl rfl (List.mem_cons_of_mem _ h.signalled) h.service
      (.reads hstate (by simp [race])) Iff.rfl rfl ?_ (Or.inr (by simp [reportSvcStatus]))
    rw [reportsLeft_report, hleft]
    rfl
  | reads hstate hrace =>
    have hexec : s.shared.exec (.setCurrentState s.shared.gSvcStatus.currentState) =
        some (s.shared.write fun st =>
          { st with currentState := s.shared.gSvcStatus.currentState }, []) := rfl
    rw [advance_handler hleft hexec, List.nil_append]
    refine h.silent rfl rfl rfl rfl (List.mem_cons_of_mem _ h.signalled) h.service
      (.wrote hstate (by simp [race, hrace]) (List.suffix_refl _)) Iff.rfl rfl ?_ (Or.inr (by simp))
    rw [hleft, reportsLeft_report]
    rfl
  | overtaken hstate hw hrace =>
    -- the state that the service has just written is lost
    have hexec : s.shared.exec (.setCurrentState .stopPending) =
        some (s.shared.write fun st => { st with currentState := .stopPending }, []) := rfl
    rw [advance_handler hleft hexec, List.nil_append]
    obtain ⟨more, hstates, hmore, hcount⟩ := h.told
    rw [hleft, reportsLeft_report] at hcount
    exact ⟨h.event, List.mem_cons_of_mem _ h.signalled, h.service,
      .lost rfl hw (by simp [race, hrace]) (List.suffix_refl _), h.passes,
      ⟨more, hstates, hmore, hcount⟩, fun _ hh => by cases hh⟩
  | wrote hstate hrace hsuffix =>
    rw [← hleft] at hsuffix
    exact h.handler_tail hsuffix fun _ => .wrote hstate hrace
  | lost hstate hw hrace hsuffix =>
    rw [← hleft] at hsuffix
    exact h.handler_tail hsuffix fun _ => .lost hstate hw hrace

theorem Racing.not_running (h : Racing s) : ¬ s.Accepts .stop := by
  rintro ⟨st, hst, hrunning, -⟩
  obtain ⟨more, hstates, hmore, -⟩ := h.told
  have hhead : s.shared.states.head? = some .running := by
    rw [Shared.states, List.head?_map, hst, Option.map_some, hrunning]
  rw [hstates] at hhead
  cases more with
  | nil => cases hhead
  | cons state more =>
    obtain rfl : state = .running := Option.some.inj hhead
    rcases hmore .running List.mem_cons_self with heq | heq
    · cases heq
    · cases heq.1

/-- Other controls do nothing, and a stop that is not accepted is not sent. -/
theorem advance_control (control : Control)
    (h : control = .stop → s.handler = [] → ¬ s.Accepts .stop) :
    s.advance (.control control) = s := by
  unfold System.advance
  dsimp only
  split
  · rename_i hgo
    obtain ⟨hidle, haccepts⟩ := hgo
    cases control with
    | stop => exact absurd haccepts (h rfl hidle)
    | interrogate => rw [svcctlHandler, ← hidle]
    | other => rw [svcctlHandler, ← hidle]
  · rfl

theorem Racing.step (h : Racing s) (move : Move) : Racing (s.advance move) := by
  cases move with
  | service => exact h.service_step
  | handler => exact h.handler_step
  | control control =>
    rw [advance_control control fun _ _ => h.not_running]
    exact h

end Steps

/-- The service alone, after so many statements. -/
def serviceAlone (registered created : Bool) (n : ℕ) : System :=
  (start registered created).run (List.replicate n .service)

/-- A stop has been sent to the waiting service, and so many statements of the handler
were made. -/
def stopSent (n : ℕ) : System :=
  { serviceAlone true true 16 with handler := svcctlHandler .stop }.run
    (List.replicate n .handler)

theorem run_replicate_succ (s : System) (move : Move) (n : ℕ) :
    s.run (List.replicate (n + 1) move) = (s.run (List.replicate n move)).advance move := by
  unfold System.run
  rw [List.replicate_succ', List.foldl_append]
  rfl

/-- What is there in a run of a service that starts: up to the stop there is nothing to
choose. -/
inductive Reached : System → Prop
  | starting (n : ℕ) (hn : n ≤ 16) : Reached (serviceAlone true true n)
  | stopping (n : ℕ) (hn : n < 7) : Reached (stopSent n)
  | racing {s : System} (h : Racing s) : Reached s

/-- While the service starts, there is no handler and no stop is accepted. -/
theorem serviceAlone_quiet : ∀ n ≤ 16, (serviceAlone true true n).handler = [] ∧
    (n < 16 → ¬ (serviceAlone true true n).Accepts .stop) := by
  decide +kernel

theorem waiting_waits :
    (serviceAlone true true 16).advance .service = serviceAlone true true 16 := by
  decide +kernel

theorem waiting_stops : (serviceAlone true true 16).advance (.control .stop) = stopSent 0 := by
  decide +kernel

/-- The event is not set yet, and there is no other control before the handler ends. -/
theorem stopping_alone : ∀ n < 7, (stopSent n).advance .service = stopSent n ∧
    (stopSent n).handler ≠ [] := by
  decide +kernel

theorem stopping_racing : Racing (stopSent 7) := by
  have hshared : (stopSent 7).service = finish ∧ (stopSent 7).handler = [.reportCurrentState] ∧
      (stopSent 7).shared.gSvcStatus.currentState = .stopPending ∧
      race (stopSent 7).history = .idle := by
    decide +kernel
  obtain ⟨hservice, hhandler, hstate, hrace⟩ := hshared
  refine ⟨by decide +kernel, by decide +kernel, hservice ▸ List.suffix_refl _, ?_,
    by decide +kernel, ⟨[], by decide +kernel, by simp, by decide +kernel⟩, fun hs => ?_⟩
  · rw [hhandler]
    exact .waits (by rw [hservice, hstate]; decide) hrace
  · rw [hservice] at hs
    cases hs

theorem advance_handler_idle {s : System} (h : s.handler = []) : s.advance .handler = s := by
  unfold System.advance
  simp only [h]

theorem Reached.step {s : System} (h : Reached s) (move : Move) : Reached (s.advance move) := by
  cases h with
  | starting n hn =>
    obtain ⟨hidle, hrefuses⟩ := serviceAlone_quiet n hn
    cases move with
    | service =>
      rcases Nat.lt_or_eq_of_le hn with hlt | rfl
      · rw [serviceAlone, ← run_replicate_succ]
        exact .starting (n + 1) hlt
      · rw [waiting_waits]
        exact .starting 16 hn
    | handler =>
      rw [advance_handler_idle hidle]
      exact .starting n hn
    | control control =>
      rcases Nat.lt_or_eq_of_le hn with hlt | rfl
      · rw [advance_control control fun _ _ => hrefuses hlt]
        exact .starting n hn
      · by_cases hstop : control = .stop
        · rw [hstop, waiting_stops]
          exact .stopping 0 (by decide)
        · rw [advance_control control fun h => absurd h hstop]
          exact .starting 16 hn
  | stopping n hn =>
    obtain ⟨hwaits, hbusy⟩ := stopping_alone n hn
    cases move with
    | service =>
      rw [hwaits]
      exact .stopping n hn
    | handler =>
      rw [stopSent, ← run_replicate_succ]
      rcases Nat.lt_or_eq_of_le (Nat.succ_le_of_lt hn) with hlt | heq
      · exact .stopping (n + 1) hlt
      · have hlast : n + 1 = 7 := heq
        rw [← stopSent, hlast]
        exact .racing stopping_racing
    | control control =>
      have hsame : (stopSent n).advance (.control control) = stopSent n :=
        if_neg fun hgo => hbusy hgo.1
      rw [hsame]
      exact .stopping n hn
  | racing h => exact .racing (h.step move)

theorem reached_run (moves : List Move) : Reached ((start true true).run moves) := by
  have hrun : ∀ s, Reached s → Reached (s.run moves) := by
    induction moves with
    | nil => exact fun s h => h
    | cons move moves ih => exact fun s h => ih _ (h.step move)
  exact hrun _ (.starting 0 (by decide))

/-- A service that does not start is alone to its end. -/
theorem failing_quiet : ∀ registered created, ¬ (registered = true ∧ created = true) → ∀ n ≤ 15,
    (serviceAlone registered created n).handler = [] ∧
      ¬ (serviceAlone registered created n).Accepts .stop ∧
      (n = 15 → (serviceAlone registered created n).service = []) := by
  decide +kernel

theorem failing_run {registered created : Bool} (h : ¬ (registered = true ∧ created = true))
    (moves : List Move) :
    ∃ n ≤ 15, (start registered created).run moves = serviceAlone registered created n := by
  have hrun : ∀ n ≤ 15, ∃ m ≤ 15, (serviceAlone registered created n).run moves =
      serviceAlone registered created m := by
    induction moves with
    | nil => exact fun n hn => ⟨n, hn, rfl⟩
    | cons move moves ih =>
      intro n hn
      have hstep : ∃ m ≤ 15, (serviceAlone registered created n).advance move =
          serviceAlone registered created m := by
        obtain ⟨hidle, hrefuses, hlast⟩ := failing_quiet registered created h n hn
        cases move with
        | service =>
          rcases Nat.lt_or_eq_of_le hn with hlt | heq
          · refine ⟨n + 1, hlt, ?_⟩
            rw [serviceAlone, ← run_replicate_succ, serviceAlone]
          · refine ⟨n, hn, ?_⟩
            unfold System.advance
            simp only [hlast heq]
        | handler => exact ⟨n, hn, advance_handler_idle hidle⟩
        | control control => exact ⟨n, hn, advance_control control fun _ _ => hrefuses⟩
      obtain ⟨m, hm, heq⟩ := hstep
      obtain ⟨k, hk, hrest⟩ := ih m hm
      refine ⟨k, hk, ?_⟩
      rw [← hrest, ← heq]
      rfl
  exact hrun 0 (by decide)

/-- The order of what is done with the drives and of what the manager is told of it. Without
the event it is told only that the service starts and has stopped, without the handler
nothing at all. -/
structure Ordered (registered created : Bool) (s : System) : Prop where
  passes : s.shared.passes <:+ [.umount, .mount]
  asked : .umount ∈ s.shared.passes → (.handler, .setEvent) ∈ s.history
  running : .running ∈ s.shared.states → .mount ∈ s.shared.passes
  stopped : .stopped ∈ s.shared.states → .mount ∈ s.shared.passes → .umount ∈ s.shared.passes
  states : if registered && created then
      ∃ more, more.length ≤ 2 ∧ (∀ state ∈ more, state = .stopPending ∨ state = .stopped) ∧
        s.shared.states <:+ more ++ [.stopPending, .running, .startPending]
    else s.shared.states <:+ if registered then [.stopped, .startPending] else []

/-- The drives are unmounted when the last state is written. -/
theorem Racing.umounted {s : System} (h : Racing s) (hwritten : written s.service = .stopped) :
    .umount ∈ s.shared.passes := by
  have hgone : Statement.umountPhydiskParts ∉ s.service := by
    intro hmem
    rcases finish_cases h.service with hservice | hservice | hservice | hservice
    · rw [hservice] at hwritten
      cases hwritten
    · rw [hservice] at hwritten
      cases hwritten
    · rw [hservice] at hmem
      revert hmem
      decide
    · exact tail_not_mem hservice (by decide) hmem
  rw [h.passes, if_neg hgone]
  exact List.mem_cons_self

theorem Racing.ordered {s : System} (h : Racing s) : Ordered true true s := by
  obtain ⟨more, hstates, hmore, hcount⟩ := h.told
  refine ⟨?_, fun _ => h.signalled, fun _ => ?_, fun hstopped _ => ?_,
    ⟨more, by omega, fun state hmem => (hmore state hmem).imp_right fun hst => hst.1, ?_⟩⟩
  · rw [h.passes]
    split <;> decide
  · rw [h.passes]
    split <;> decide
  · rw [hstates, List.mem_append] at hstopped
    rcases hstopped with hmem | hmem
    · rcases hmore _ hmem with heq | ⟨-, hwritten⟩
      · cases heq
      · exact h.umounted hwritten
    · simp at hmem
  · rw [hstates]

/-- What is there up to the stop. -/
theorem ordered_of_started {s : System} (hpasses : s.shared.passes <:+ [.mount])
    (hrunning : .running ∈ s.shared.states → .mount ∈ s.shared.passes)
    (hstates : s.shared.states <:+ [.stopPending, .running, .startPending]) :
    Ordered true true s := by
  refine ⟨hpasses.trans (List.suffix_cons _ _), fun hmem => ?_, hrunning, fun hmem => ?_,
    ⟨[], by simp, by simp, hstates⟩⟩
  · have hmount := hpasses.subset hmem
    simp at hmount
  · have hearly := hstates.subset hmem
    simp at hearly

theorem Reached.ordered {s : System} (h : Reached s) : Ordered true true s := by
  cases h with
  | starting n hn =>
    have hstarted : ∀ n ≤ 16, (serviceAlone true true n).shared.passes <:+ [.mount] ∧
        (.running ∈ (serviceAlone true true n).shared.states →
          .mount ∈ (serviceAlone true true n).shared.passes) ∧
        (serviceAlone true true n).shared.states <:+ [.stopPending, .running, .startPending] := by
      decide +kernel
    obtain ⟨hpasses, hrunning, hstates⟩ := hstarted n hn
    exact ordered_of_started hpasses hrunning hstates
  | stopping n hn =>
    have hstarted : ∀ n < 7, (stopSent n).shared.passes <:+ [.mount] ∧
        (.running ∈ (stopSent n).shared.states → .mount ∈ (stopSent n).shared.passes) ∧
        (stopSent n).shared.states <:+ [.stopPending, .running, .startPending] := by
      decide +kernel
    obtain ⟨hpasses, hrunning, hstates⟩ := hstarted n hn
    exact ordered_of_started hpasses hrunning hstates
  | racing h => exact h.ordered

theorem failing_ordered {registered created : Bool} (h : ¬ (registered = true ∧ created = true))
    {n : ℕ} (hn : n ≤ 15) :
    Ordered registered created (serviceAlone registered created n) := by
  have hfails : ∀ registered created, ¬ (registered = true ∧ created = true) → ∀ n ≤ 15,
      (serviceAlone registered created n).shared.passes = [] ∧
        .running ∉ (serviceAlone registered created n).shared.states ∧
        (serviceAlone registered created n).shared.states <:+
          if registered then [.stopped, .startPending] else [] := by
    decide +kernel
  obtain ⟨hpasses, hrunning, hstates⟩ := hfails registered created h n hn
  refine ⟨hpasses ▸ List.nil_suffix, fun hmem => ?_, fun hmem => absurd hmem hrunning,
    fun _ hmem => ?_, ?_⟩
  · rw [hpasses] at hmem
    cases hmem
  · rw [hpasses] at hmem
    cases hmem
  · rw [if_neg]
    · exact hstates
    · simpa using h

/-- In any order of the statements of the two threads and of the controls, the drives are
mounted once and then, only once a stop was asked for, unmounted once. The manager is told
that the service runs only behind the mounting, and that it has stopped only behind the
unmounting, if there was anything to unmount. -/
theorem service_in_order (registered created : Bool) (moves : List Move) :
    Ordered registered created ((start registered created).run moves) := by
  by_cases h : registered = true ∧ created = true
  · obtain ⟨rfl, rfl⟩ := h
    exact (reached_run moves).ordered
  · obtain ⟨n, hn, hrun⟩ := failing_run h moves
    rw [hrun]
    exact failing_ordered h hn

/-- How many statements are still to be made. -/
def stepsLeft (left : List Statement) : ℕ := left.length + 6 * left.count .reportCurrentState

theorem stepsLeft_of_not_mem {left : List Statement} (h : .reportCurrentState ∉ left) :
    stepsLeft left = left.length := by
  unfold stepsLeft
  rw [List.count_eq_zero_of_not_mem h, Nat.mul_zero, Nat.add_zero]

/-- Behind a stop no statement waits. -/
theorem Shared.exec_signalled {sh : Shared} (h : sh.ghSvcStopEvent = some true)
    (statement : Statement) (rest : List Statement) :
    ∃ sh' called, sh.exec statement = some (sh', called) ∧
      stepsLeft (called ++ rest) + 1 = stepsLeft (statement :: rest) := by
  by_cases hreport : statement = .reportCurrentState
  · refine ⟨sh, reportSvcStatus sh.gSvcStatus.currentState 0, by rw [hreport, Shared.exec], ?_⟩
    simp only [hreport, stepsLeft, reportSvcStatus, List.count_append, List.count_cons_self,
      List.length_append, List.length_cons, List.length_nil]
    simp only [List.count_cons, List.count_nil]
    simp only [reduceCtorEq, beq_iff_eq, ite_false]
    omega
  · have hexec : ∃ sh', sh.exec statement = some (sh', []) := by
      cases statement with
      | waitForSingleObject => exact ⟨sh, if_pos h⟩
      | reportCurrentState => exact absurd rfl hreport
      | setCheckPoint state =>
        unfold Shared.exec
        dsimp only
        split
        · exact ⟨_, rfl⟩
        · exact ⟨_, rfl⟩
      | _ => exact ⟨_, rfl⟩
    obtain ⟨sh', hexec⟩ := hexec
    refine ⟨sh', [], hexec, ?_⟩
    simp only [stepsLeft, List.nil_append, List.length_cons, List.count_cons_of_ne hreport]
    omega

theorem Racing.service_left {s : System} (h : Racing s) :
    stepsLeft (s.advance .service).service = stepsLeft s.service - 1 ∧
      (s.advance .service).handler = s.handler := by
  cases hservice : s.service with
  | nil =>
    unfold System.advance
    simp [hservice, stepsLeft]
  | cons statement rest =>
    obtain ⟨sh', called, hexec, hsteps⟩ := Shared.exec_signalled h.event statement rest
    rw [advance_service hservice hexec]
    refine ⟨?_, rfl⟩
    dsimp only
    omega

theorem Racing.handler_left {s : System} (h : Racing s) :
    stepsLeft (s.advance .handler).handler = stepsLeft s.handler - 1 ∧
      (s.advance .handler).service = s.service := by
  cases hhandler : s.handler with
  | nil => simp [advance_handler_idle hhandler, hhandler, stepsLeft]
  | cons statement rest =>
    obtain ⟨sh', called, hexec, hsteps⟩ := Shared.exec_signalled h.event statement rest
    rw [advance_handler hhandler hexec]
    refine ⟨?_, rfl⟩
    dsimp only
    omega

theorem nil_of_stepsLeft {left : List Statement} (h : stepsLeft left ≤ 0) : left = [] := by
  unfold stepsLeft at h
  exact List.length_eq_zero_iff.mp (by omega)

/-- Both threads end when each gets its turns, in whatever order. -/
theorem Racing.ends {s : System} (h : Racing s) {moves : List Move}
    (hservice : stepsLeft s.service ≤ moves.count .service)
    (hhandler : stepsLeft s.handler ≤ moves.count .handler) :
    Racing (s.run moves) ∧ (s.run moves).service = [] ∧ (s.run moves).handler = [] := by
  induction moves generalizing s with
  | nil => exact ⟨h, nil_of_stepsLeft hservice, nil_of_stepsLeft hhandler⟩
  | cons move moves ih =>
    have hleft : stepsLeft (s.advance move).service ≤ moves.count .service ∧
        stepsLeft (s.advance move).handler ≤ moves.count .handler := by
      cases move with
      | service =>
        obtain ⟨hless, hsame⟩ := h.service_left
        rw [List.count_cons_self] at hservice
        rw [List.count_cons_of_ne (by decide)] at hhandler
        rw [hless, hsame]
        omega
      | handler =>
        obtain ⟨hless, hsame⟩ := h.handler_left
        rw [List.count_cons_of_ne (by decide)] at hservice
        rw [List.count_cons_self] at hhandler
        rw [hless, hsame]
        omega
      | control control =>
        rw [List.count_cons_of_ne (by simp)] at hservice hhandler
        rw [advance_control control fun _ _ => h.not_running]
        exact ⟨hservice, hhandler⟩
    exact ih (h.step move) hleft.1 hleft.2

theorem Racing.stepsLeft_le {s : System} (h : Racing s) :
    stepsLeft s.service ≤ 8 ∧ stepsLeft s.handler ≤ 7 := by
  have htail : ∀ state left, left <:+ (reportSvcStatus state 0).tail → stepsLeft left ≤ 7 := by
    intro state left hleft
    rw [stepsLeft_of_not_mem (tail_not_mem hleft (by simp [reportSvcStatus]))]
    have hlength := hleft.length_le
    simp only [reportSvcStatus, List.tail_cons, List.length_cons, List.length_nil] at hlength
    omega
  have hhandling := h.handling
  refine ⟨?_, ?_⟩
  · rw [stepsLeft_of_not_mem fun hmem => absurd (h.service.subset hmem) (by decide)]
    exact h.service.length_le
  · generalize s.handler = left at hhandling
    cases hhandling with
    | waits hstate hrace => decide
    | reads hstate hrace => simp [stepsLeft, reportSvcStatus]
    | overtaken hstate hw hrace => decide
    | wrote hstate hrace hleft => exact htail _ _ hleft
    | lost hstate hw hrace hleft => exact htail _ _ hleft

theorem Reached.racing_of_signalled {s : System} (h : Reached s)
    (hsignalled : (.handler, .setEvent) ∈ s.history) : Racing s := by
  cases h with
  | starting n hn =>
    have hearly : ∀ n ≤ 16, (Thread.handler, Statement.setEvent) ∉
        (serviceAlone true true n).history := by
      decide +kernel
    exact absurd hsignalled (hearly n hn)
  | stopping n hn =>
    have hearly : ∀ n < 7, (Thread.handler, Statement.setEvent) ∉ (stopSent n).history := by
      decide +kernel
    exact absurd hsignalled (hearly n hn)
  | racing h => exact h

theorem run_append (s : System) (moves more : List Move) :
    s.run (moves ++ more) = (s.run moves).run more := List.foldl_append

/-- Once the stop is signalled, both threads end in any order that gives them their turns:
no drive stays mounted. The last that the manager hears is that the service has stopped,
unless that state was written between the reading of the state by the handler, for its
second report, and its writing it back: then it hears for good that the stop is pending. -/
theorem stop_ends (moves more : List Move)
    (hsignalled : (.handler, .setEvent) ∈ ((start true true).run moves).history)
    (hservice : 8 ≤ more.count .service) (hhandler : 7 ≤ more.count .handler) :
    let s := (start true true).run (moves ++ more)
    s.service = [] ∧ s.handler = [] ∧ s.shared.passes = [.umount, .mount] ∧
      s.shared.states.head? =
        some (if race s.history = .lost then .stopPending else .stopped) := by
  have hracing := (reached_run moves).racing_of_signalled hsignalled
  obtain ⟨hserviceLeft, hhandlerLeft⟩ := hracing.stepsLeft_le
  obtain ⟨hend, hnoService, hnoHandler⟩ := hracing.ends (hserviceLeft.trans hservice)
    (hhandlerLeft.trans hhandler)
  dsimp only
  rw [run_append]
  refine ⟨hnoService, hnoHandler, ?_, ?_⟩
  · rw [hend.passes, hnoService]
    rfl
  · have hhandling := hend.handling
    rw [hnoService, hnoHandler] at hhandling
    rw [hend.settled hnoService hnoHandler]
    cases hhandling with
    | wrote hstate hrace hleft => simp [hstate, hrace, written]
    | lost hstate hw hrace hleft => simp [hstate, hrace]

/-- The handler reads that the stop is pending, the service writes that it has stopped, and
the handler goes on with what it has read. -/
theorem stop_ends_lost :
    let s := (start true true).run
      ((List.replicate 16 .service ++ [.control .stop] ++ List.replicate 8 .handler) ++
        (List.replicate 3 .service ++ List.replicate 7 .handler ++ List.replicate 5 .service))
    s.service = [] ∧ s.handler = [] ∧ s.shared.states.head? = some .stopPending := by
  have h := stop_ends
    (List.replicate 16 .service ++ [.control .stop] ++ List.replicate 8 .handler)
    (List.replicate 3 .service ++ List.replicate 7 .handler ++ List.replicate 5 .service)
    (by decide +kernel) (by decide) (by decide)
  have hlost : race ((start true true).run
      ((List.replicate 16 .service ++ [.control .stop] ++ List.replicate 8 .handler) ++
        (List.replicate 3 .service ++ List.replicate 7 .handler ++
          List.replicate 5 .service))).history = .lost := by
    decide +kernel
  dsimp only at h ⊢
  rw [if_pos hlost] at h
  exact ⟨h.1, h.2.1, h.2.2.2⟩

end Eokan.ServiceControl
