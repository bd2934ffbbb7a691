import Eokan.CriticalSections
import Eokan.PhyDisk

/-!
The lock of a disk. A read or a write moves the position of the handle first and
transfers from there, in two steps that another thread must not come between. Every
access to a disk is one critical section, so that together they are as good as
accesses made at once, on sectors that have no position.
-/
namespace Eokan.DiskLock

open ByteMem CInt PhyDisk CriticalSections

/-- The count goes to the out-parameter. -/
def winWriteFile (h : Handle) (transfers : Option ℕ) (buf : Bytes) : Bool × ℕ × Handle :=
  match transfers with
  | none => (false, 0, h)
  | some k => (true, k, ⟨write h.content h.position k buf, h.position + k⟩)

def phyDiskWrite (h : Handle) (behaviour : Behaviour) (start : ℤ) (buf : Bytes) : ℤ × Handle :=
  let (_, h) := diskSeek h behaviour.seeks start
  let (succ, _, h) := winWriteFile h behaviour.transfers buf
  if !succ then (-1, h) else (0, h)

/-- The status of a call, and the buffer of its thread. -/
structure Outcome where
  status : ℤ
  buf : Bytes

/-- A call of disk_read or of disk_write. -/
inductive Access
  | read (call : Call) (buf : Bytes)
  | write (call : Call) (buf : Bytes)

def seekAct (call : Call) : Act Handle Outcome := fun p =>
  ((diskSeek p.1 call.behaviour.seeks call.start).2, p.2)

def readAct (call : Call) : Act Handle Outcome := fun p =>
  let (succ, _, h, buf) := winReadFile p.1 call.behaviour.transfers p.2.buf
  (h, ⟨if !succ then -1 else 0, buf⟩)

def writeAct (call : Call) : Act Handle Outcome := fun p =>
  let (succ, _, h) := winWriteFile p.1 call.behaviour.transfers p.2.buf
  (h, ⟨if !succ then -1 else 0, p.2.buf⟩)

def diskRead (call : Call) (buf : Bytes) : Body Handle Outcome :=
  ⟨⟨0, buf⟩, [seekAct call, readAct call]⟩

def diskWrite (call : Call) (buf : Bytes) : Body Handle Outcome :=
  ⟨⟨0, buf⟩, [seekAct call, writeAct call]⟩

/-- What is done between entering the critical section of the disk and leaving it. -/
def diskAccess : Access → Body Handle Outcome
  | .read call buf => diskRead call buf
  | .write call buf => diskWrite call buf

/-- On its own, a call does what the physical disk does. -/
theorem diskRead_run (h : Handle) (call : Call) (buf : Bytes) :
    (diskRead call buf).run h =
      ((phyDiskRead h call.behaviour call.start buf).2.1,
        ⟨(phyDiskRead h call.behaviour call.start buf).1,
          (phyDiskRead h call.behaviour call.start buf).2.2⟩) := by
  unfold phyDiskRead Body.run diskRead runActs seekAct readAct winReadFile
  cases call.behaviour.transfers <;> rfl

theorem diskWrite_run (h : Handle) (call : Call) (buf : Bytes) :
    (diskWrite call buf).run h =
      ((phyDiskWrite h call.behaviour call.start buf).2,
        ⟨(phyDiskWrite h call.behaviour call.start buf).1, buf⟩) := by
  unfold phyDiskWrite Body.run diskWrite runActs seekAct writeAct winWriteFile
  cases call.behaviour.transfers <;> rfl

theorem phyDiskWrite_eq (h : Handle) (call : Call) (buf : Bytes) :
    phyDiskWrite h call.behaviour call.start buf =
      match call.behaviour.transfers with
      | none => (-1, { h with position := transferPosition h.position call })
      | some k => (0, ⟨ByteMem.write h.content (transferPosition h.position call) k buf,
          transferPosition h.position call + k⟩) := by
  unfold phyDiskWrite diskSeek setFilePointerEx winWriteFile transferPosition
  cases call.behaviour.seeks <;> cases call.behaviour.transfers <;>
    simp only [Bool.false_eq_true, if_false, if_true, Bool.not_true, Bool.not_false]

/-- Sectors without a position: an access is done at once, or not at all. -/
def onStore (content : Bytes) : Access → Bytes × Outcome
  | .read call buf =>
    if call.behaviour.transfers.isSome then
      (content, ⟨0, ByteMem.write buf 0 (call.num * 512) (slice content (call.start * 512))⟩)
    else (content, ⟨-1, buf⟩)
  | .write call buf =>
    if call.behaviour.transfers.isSome then
      (ByteMem.write content (call.start * 512) (call.num * 512) buf, ⟨0, buf⟩)
    else (content, ⟨-1, buf⟩)

def storeAccess (access : Access) : Body Bytes Outcome :=
  ⟨⟨0, fun _ => 0⟩, [fun p => onStore p.1 access]⟩

def Access.call : Access → Call
  | .read call _ => call
  | .write call _ => call

/-- The seek succeeds, and the transfer is complete unless it fails. -/
structure Whole (call : Call) : Prop where
  seeks : call.behaviour.seeks = true
  start : call.start * 512 < 2 ^ 63
  transfers : ∀ k, call.behaviour.transfers = some k → k = call.num * 512

section Accesses
variable {access : Access} (hwhole : Whole access.call)
include hwhole

omit hwhole in
theorem transferPosition_whole {call : Call} (hwhole : Whole call) (position : ℕ) :
    transferPosition position call = call.start * 512 := by
  obtain ⟨hseeks, hstart, -⟩ := hwhole
  unfold transferPosition
  rw [if_pos hseeks, int64_of_range _ (by omega) (by omega)]
  omega

/-- The position does not matter to a whole access. -/
theorem diskAccess_store (h : Handle) :
    ((diskAccess access).run h).1.content = (onStore h.content access).1 ∧
      ((diskAccess access).run h).2 = (onStore h.content access).2 := by
  cases access with
  | read call buf =>
    have hposition : transferPosition h.position call = call.start * 512 :=
      transferPosition_whole hwhole h.position
    rw [diskAccess, diskRead_run, phyDiskRead_eq, hposition, onStore]
    cases htransfers : call.behaviour.transfers with
    | none => exact ⟨rfl, rfl⟩
    | some k =>
      obtain rfl := hwhole.transfers k htransfers
      exact ⟨rfl, rfl⟩
  | write call buf =>
    have hposition : transferPosition h.position call = call.start * 512 :=
      transferPosition_whole hwhole h.position
    rw [diskAccess, diskWrite_run, phyDiskWrite_eq, hposition, onStore]
    cases htransfers : call.behaviour.transfers with
    | none => exact ⟨rfl, rfl⟩
    | some k =>
      obtain rfl := hwhole.transfers k htransfers
      exact ⟨rfl, rfl⟩

end Accesses

section Threads
variable {ι : Type} [DecidableEq ι]

omit [DecidableEq ι] in
theorem serial_store (order : List (ι × Access)) (hwhole : ∀ p ∈ order, Whole p.2.call)
    (h : Handle) :
    (serial diskAccess h order).1.content = (serial storeAccess h.content order).1 ∧
      (serial diskAccess h order).2 = (serial storeAccess h.content order).2 := by
  induction order generalizing h with
  | nil => exact ⟨rfl, rfl⟩
  | cons p order ih =>
    obtain ⟨i, access⟩ := p
    obtain ⟨hcontent, hresult⟩ := diskAccess_store (hwhole _ List.mem_cons_self) h
    obtain ⟨hcontents, hresults⟩ :=
      ih (fun q hq => hwhole q (List.mem_cons_of_mem _ hq)) ((diskAccess access).run h).1
    rw [hcontent] at hcontents hresults
    rw [serial, serial]
    exact ⟨hcontents, congrArg₂ (fun result results => (i, result) :: results) hresult hresults⟩

/-- What the threads see of a store, when the accesses that have returned are made
in this order. -/
structure Agrees (content : Bytes) (todo : ι → List Access) (order : List (ι × Access))
    (c : Config ι Access Handle Outcome) : Prop where
  calls : ∀ i, todo i = ofThread i order ++ ((c.inside i).map Inside.call).toList ++ c.todo i
  results : ∀ i, c.done i = ofThread i (serial storeAccess content order).2
  alone : ∀ i j, c.inside i ≠ none → c.inside j ≠ none → i = j
  content : (∀ i, c.inside i = none) → c.shared.content = (serial storeAccess content order).1

theorem mem_ofThread {i : ι} {access : Access} {order : List (ι × Access)}
    (h : (i, access) ∈ order) : access ∈ ofThread i order := by
  induction order with
  | nil => cases h
  | cons p order ih =>
    obtain ⟨j, other⟩ := p
    rw [ofThread]
    rcases List.mem_cons.mp h with heq | hmem
    · cases heq
      simp
    · split
      · exact List.mem_cons_of_mem _ (ih hmem)
      · exact ih hmem

variable {h : Handle} {todo : ι → List Access} (hwhole : ∀ i, ∀ access ∈ todo i, Whole access.call)
include hwhole

theorem agrees_of_explained {order : List (ι × Access)} {c : Config ι Access Handle Outcome}
    (hexplained : Explained diskAccess h todo order c) : Agrees h.content todo order c := by
  have horder : ∀ p ∈ order, Whole p.2.call := by
    intro p hp
    refine hwhole p.1 p.2 ?_
    rw [hexplained.calls p.1, List.append_assoc]
    exact List.mem_append_left _ (mem_ofThread hp)
  obtain ⟨hcontent, hresults⟩ := serial_store order horder h
  refine ⟨hexplained.calls, fun i => ?_, fun i j => hexplained.exclusive, fun hout => ?_⟩
  · rw [hexplained.results i, hresults]
  · have hfree : c.owner = none := by
      cases howner : c.owner with
      | none => rfl
      | some i => exact absurd (hout i) ((hexplained.alone i).mpr howner)
    rw [hexplained.free hfree, hcontent]

/-- Accesses to a disk are as good as accesses to a store that are made at once, one
after the other. Once they have returned they keep their place. -/
theorem disk_linearizes (schedule : List ι) :
    ∃ order, Agrees h.content todo order ((initial h todo).runSchedule diskAccess schedule) ∧
      ∀ later, ∃ more, Agrees h.content todo (order ++ more)
        ((initial h todo).runSchedule diskAccess (schedule ++ later)) := by
  have hinitial : Explained diskAccess h todo [] (initial h todo) := explained_initial
  obtain ⟨order, horder⟩ := hinitial.run schedule
  rw [List.nil_append] at horder
  refine ⟨order, agrees_of_explained hwhole horder, fun later => ?_⟩
  obtain ⟨more, hmore⟩ := horder.run later
  refine ⟨more, agrees_of_explained hwhole ?_⟩
  unfold Config.runSchedule at hmore ⊢
  rwa [List.foldl_append]

end Threads

/-- One thread writes a sector and another one reads it. -/
def twoThreads : Bool → List Access
  | true => [.write ⟨3, 1, ⟨true, some 512⟩⟩ fun _ => 7]
  | false => [.read ⟨3, 1, ⟨true, some 512⟩⟩ fun _ => 0]

theorem twoThreads_whole : ∀ i, ∀ access ∈ twoThreads i, Whole access.call := by
  intro i access haccess
  cases i with
  | true =>
    obtain rfl := List.mem_singleton.mp haccess
    exact ⟨rfl, by decide, fun k hk => (Option.some.inj hk).symm⟩
  | false =>
    obtain rfl := List.mem_singleton.mp haccess
    exact ⟨rfl, by decide, fun k hk => (Option.some.inj hk).symm⟩

/-- The reader asks for the disk while the writer has it. -/
theorem disk_linearizes_two :
    ∃ order, Agrees (fun _ => 0) twoThreads order
        ((initial ⟨fun _ => 0, 0⟩ twoThreads).runSchedule diskAccess
          [true, true, false, true, false, true, false]) ∧
      ∀ later, ∃ more, Agrees (fun _ => 0) twoThreads (order ++ more)
        ((initial ⟨fun _ => 0, 0⟩ twoThreads).runSchedule diskAccess
          ([true, true, false, true, false, true, false] ++ later)) :=
  disk_linearizes (h := ⟨fun _ => 0, 0⟩) twoThreads_whole
    [true, true, false, true, false, true, false]

end Eokan.DiskLock
