import Eokan.CommandLine
import Eokan.Device
import Mathlib.Algebra.Order.Group.Multiset

/-!
What a program holds of the system. Libraries, handles, disks, partitions and file
systems are kept as a multiset, and only what is in it can be given back.
-/
namespace Eokan.Holdings

open Programs Device CommandLine

inductive Resource
  | dokanLibrary
  | diskDev
  | criticalSection
  | fileHandle
  | vixLibrary
  | vixInit
  | vixConnection
  | vixDisk
  | partition
  | filesysSpec
  | filesysDescr
  | processHandle
  | threadHandle
  | scManager
  | service
  | dependentService
  | dependencies
  deriving DecidableEq

/-- How a run can go wrong. -/
inductive Crash
  | fault (fault : Fault)
  | nullPointer
  | assertion
  | notHeld (resource : Resource)
  | undefinedNumber

/-- What is asked of the service manager, of the heap and of the clock. -/
inductive Request
  | openSCManager
  | createService (szPath : Text)
  | startService
  | openService (name : Text) (access : ℕ)
  | queryServiceStatusEx
  | controlService
  | enumDependentServices
  | heapAlloc
  | deleteService
  | getTickCount
  | sleep (milliseconds : ℕ)
  deriving DecidableEq

/-- The log is that of the disk that is open. -/
structure Machine where
  held : Multiset Resource
  libdokan : Bool
  dokanMainPtr : Bool
  dokanUmountPtr : Bool
  log : Log
  created : List Text
  removed : List ℤ
  requests : List Request

/-- A program that has just been started. -/
def Machine.start : Machine := ⟨0, false, false, false, [], [], [], []⟩

abbrev LaunchM (α : Type) := Prog Machine Crash α

def take (resource : Resource) : LaunchM Unit := fun m =>
  .ok ((), { m with held := {resource} + m.held })

def release (resource : Resource) : LaunchM Unit := fun m =>
  if resource ∈ m.held then .ok ((), { m with held := m.held.erase resource })
  else .error (.notHeld resource)

def onDisk {α : Type} (x : DevM α) : LaunchM α := fun m =>
  match x m.log with
  | .ok (a, log) => .ok (a, { m with log := log })
  | .error e => .error (.fault e)

/-- The answer may depend on all that was asked so far, this request included. -/
def ask {α : Type} (request : Request) (answer : List Request → α) : LaunchM α := fun m =>
  .ok (answer (m.requests ++ [request]), { m with requests := m.requests ++ [request] })

/-- Something was given back that was not held. -/
def Misused : Crash → Prop
  | .notHeld _ => True
  | _ => False

section Runs
variable {m : Machine} {base : Multiset Resource}

theorem take_run (resource : Resource) :
    take resource m = .ok ((), { m with held := {resource} + m.held }) := rfl

theorem release_run {resource : Resource} (h : m.held = {resource} + base) :
    release resource m = .ok ((), { m with held := base }) := by
  unfold release
  rw [h, Multiset.singleton_add, if_pos (Multiset.mem_cons_self _ _), Multiset.erase_cons_head]

theorem ask_run {α : Type} (request : Request) (answer : List Request → α) :
    ask request answer m =
      .ok (answer (m.requests ++ [request]), { m with requests := m.requests ++ [request] }) := rfl

theorem onDisk_run {α : Type} {x : DevM α} {a : α} {log : Log} (h : x m.log = .ok (a, log)) :
    onDisk x m = .ok (a, { m with log := log }) := by
  unfold onDisk
  rw [h]

theorem onDisk_safely {α : Type} (x : DevM α) :
    Safely Misused (onDisk x) m fun a m' =>
      ∃ log, x m.log = .ok (a, log) ∧ m' = { m with log := log } := by
  unfold Safely OnReturn onDisk
  cases x m.log with
  | error e =>
    refine ⟨fun e' h => ?_, fun a m' h => ?_⟩
    · cases h
      exact id
    · cases h
  | ok r =>
    refine ⟨fun e' h => ?_, fun a m' h => ?_⟩
    · cases h
    · cases h
      exact ⟨_, rfl, rfl⟩

end Runs

end Eokan.Holdings
