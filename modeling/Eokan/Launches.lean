import Eokan.DriveLetters
import Eokan.PartitionTable
import Eokan.ServiceSetup
import Eokan.Sessions

/-!
The program from its start to its end. On every way out it gives back what it took,
but for a few things that are lost. The service goes over the drives and starts the
program once for each partition that can be mounted.
-/
namespace Eokan.Launches

open ByteMem CInt Programs Device Layout Mount PartitionTable DriveLetters CommandLine Holdings
  ServiceSetup
open FileNames (Conversions)
open Sessions (Callback Reply)

inductive DiskSpec
  | physical
  | vmdk
  deriving DecidableEq

def DiskSpec.name : DiskSpec → Text
  | .physical => physicalType
  | .vmdk => "vmdk".toList

def disks : List DiskSpec := [.physical, .vmdk]

structure OpenDisk where
  spec : DiskSpec
  disk : DiskDescr

/-- The answers of the system and of the libraries. Only the service manager may answer
differently when it is asked again. -/
structure Environment where
  dokanDll : Bool
  dokanMain : Bool
  dokanRemoveMountPoint : Bool
  createFile : Text → ℕ → ℕ → Option DiskDescr
  vixDll : Bool
  vixExports : Text → Bool
  vixInit : Bool
  vixConnect : Bool
  vixOpen : Text → ℕ → Option DiskDescr
  getLogicalDrives : BitVec 32
  getModuleFileName : Option Text
  createProcess : Text → Text → Bool
  removeMountPoint : ℤ → ℤ
  serviceManager : ServiceManager
  serviceStarts : Bool

section Dokan
variable (env : Environment)

def eokanLoad : LaunchM ℤ := fun m =>
  if env.dokanDll then
    let m := { m with
      held := {.dokanLibrary} + m.held
      libdokan := true
      dokanMainPtr := env.dokanMain }
    if env.dokanMain then
      let m := { m with dokanUmountPtr := env.dokanRemoveMountPoint }
      if env.dokanRemoveMountPoint then .ok (0, m)
      else (do
        release .dokanLibrary
        fun m => .ok (-1, { m with libdokan := false })) m
    else (do
      release .dokanLibrary
      fun m => .ok (-1, { m with libdokan := false })) m
  else .ok (-1, { m with libdokan := false })

def eokanUnload : LaunchM Unit := fun m =>
  if m.libdokan then release .dokanLibrary m else .ok ((), m)

def eokanUmount (c : ℤ) : LaunchM ℤ := fun m =>
  if m.dokanUmountPtr then .ok (env.removeMountPoint c, { m with removed := m.removed ++ [c] })
  else .error .nullPointer

end Dokan

def diskFlagRead : ℕ := 1

def diskFlagWrite : ℕ := 2

/-- The same bits for each flag that is set. -/
def accessOf (flags forRead forWrite : ℕ) : ℕ :=
  (if flags &&& diskFlagRead = 0 then 0 else forRead) |||
    (if flags &&& diskFlagWrite = 0 then 0 else forWrite)

def genericRead : ℕ := 0x80000000

def genericWrite : ℕ := 0x40000000

def fileShareRead : ℕ := 1

def fileShareWrite : ℕ := 2

/-- A flag that is set to read and cleared to write. -/
def vixOpenReadOnly : ℕ := 4

/-- What is loaded of vixDiskLib, in this order. -/
def vixFunctions : List Text :=
  ["VixDiskLib_Init", "VixDiskLib_Connect", "VixDiskLib_Open", "VixDiskLib_Read",
    "VixDiskLib_Write", "VixDiskLib_Close", "VixDiskLib_Disconnect", "VixDiskLib_Exit",
    "VixDiskLib_GetTransportMode", "VixDiskLib_GetInfo", "VixDiskLib_FreeInfo",
    "VixDiskLib_ListTransportModes"].map String.toList

section Disks
variable (env : Environment) (path : Text) (flags : ℕ)

def phyDiskCreate : LaunchM (Option DiskDescr) :=
  match env.createFile path (accessOf flags genericRead genericWrite)
    (accessOf flags fileShareRead fileShareWrite) with
  | none => pure none
  | some disk => do
    take .fileHandle
    pure (some disk)

def loadfunc (funcName : Text) : ℤ := if env.vixExports funcName then 0 else -1

/-- The assertion fails at the first function that is not there. -/
def loadFuncs : List Text → LaunchM Unit
  | [] => pure ()
  | funcName :: rest =>
    if loadfunc env funcName = 0 then loadFuncs rest else fault .assertion

/-- The library is loaded for each disk and never freed. -/
def vmdkDiskCreate : LaunchM (Option DiskDescr) :=
  if env.vixDll then do
    take .vixLibrary
    loadFuncs env vixFunctions
    if env.vixInit then do
      take .vixInit
      if env.vixConnect then do
        take .vixConnection
        let vflags := if flags &&& diskFlagRead ≠ 0 ∧ flags &&& diskFlagWrite = 0
          then vixOpenReadOnly else 0
        match env.vixOpen path vflags with
        | none => do
          release .vixConnection
          release .vixInit
          pure none
        | some disk => do
          take .vixDisk
          pure (some disk)
      else do
        release .vixInit
        pure none
    else pure none
  else pure none

def DiskSpec.probe : DiskSpec → LaunchM (Option DiskDescr)
  | .physical => phyDiskCreate env path flags
  | .vmdk => vmdkDiskCreate env path flags

def DiskSpec.release : DiskSpec → LaunchM Unit
  | .physical => Holdings.release .fileHandle
  | .vmdk => do
    Holdings.release .vixDisk
    Holdings.release .vixConnection
    Holdings.release .vixInit

/-- The first type of which the given one is the beginning, in either case. -/
def findSpec (type : Text) : Option DiskSpec :=
  disks.find? fun spec => (type.map Char.toLower).isPrefixOf spec.name

/-- No reads were made on a disk that was just opened. If it could not be opened, its
critical section stays. -/
def diskOpen (type : Text) : LaunchM (Option OpenDisk) :=
  match findSpec type with
  | none => pure none
  | some spec => do
    take .diskDev
    take .criticalSection
    match ← spec.probe env path flags with
    | none => do
      release .diskDev
      pure none
    | some disk => fun m => .ok (some ⟨spec, disk⟩, { m with log := [] })

def diskClose (disk : OpenDisk) : LaunchM Unit := do
  disk.spec.release
  release .criticalSection
  release .diskDev

end Disks

section Partitions
variable (past : Bytes) (fuel : ℕ) (disk : DiskDescr)

def openPartition (no : ℤ) : LaunchM (Option PartDescr) := do
  match ← onDisk (diskGetPartition fuel disk no) with
  | none => pure none
  | some part => do
    take .partition
    pure (some part)

def partClose : LaunchM Unit := release .partition

def vfsMount (part : PartDescr) : LaunchM (Option (ExtFilesystem × Ext2fsNode)) := do
  match ← onDisk (ext4fsMount past part) with
  | none => pure none
  | some fs => do
    take .filesysSpec
    take .filesysDescr
    pure (some fs)

def vfsUmount : LaunchM Unit := do
  release .filesysSpec
  release .filesysDescr

end Partitions

section Service
variable (env : Environment) (past : Bytes) (fuel : ℕ)

/-- The handles of the process and of its thread are never closed. -/
def createEokanProcess (path : Text) (part : ℤ) : LaunchM Unit :=
  match env.getModuleFileName with
  | none => pure ()
  | some szPath =>
    let cmdline := eokanCmdline szPath part path
    if env.createProcess szPath cmdline then do
      take .processHandle
      take .threadHandle
      fun m => .ok ((), { m with created := m.created ++ [cmdline] })
    else pure ()

/-- What is done with one partition. -/
def mountPart (path : Text) (k : ℕ) (part : PartDescr) : LaunchM Unit := do
  match ← vfsMount past part with
  | none => partClose
  | some _ => do
    vfsUmount
    createEokanProcess env path (k + 1)
    partClose

def mountDiskParts (disk : DiskDescr) (path : Text) : LaunchM Unit := do
  let _ ← mountParts (openPartition fuel disk) (mountPart env past path) 16 0
  pure ()

/-- The loop over the drives, n more of them from number k on. -/
def mountDrives : ℕ → ℕ → LaunchM Unit
  | 0, _ => pure ()
  | n + 1, k => do
    match ← diskOpen env (drivePath k) diskFlagRead physicalType with
    | none => mountDrives n (k + 1)
    | some disk => do
      mountDiskParts env past fuel disk.disk (drivePath k)
      diskClose disk
      mountDrives n (k + 1)

def mountPhydiskParts : LaunchM Unit := do
  let status ← eokanLoad env
  if status < 0 then pure ()
  else do
    mountDrives env past fuel 4 0
    eokanUnload

/-- The loop over the drives in use, n more of them from letter x on. -/
def umountDrives : ℕ → ℕ → LaunchM Unit
  | 0, _ => pure ()
  | n + 1, x => do
    if env.getLogicalDrives.getLsbD x then do
      let _ ← eokanUmount env (letterA + x)
      umountDrives n (x + 1)
    else umountDrives n (x + 1)

/-- From the third letter on. -/
def umountPhydiskParts : LaunchM Unit := do
  let status ← eokanLoad env
  if status < 0 then pure ()
  else do
    umountDrives env 30 2
    eokanUnload

/-- What the service does with the drives, from its start to its end. -/
def service : LaunchM Unit :=
  if env.serviceStarts then do
    mountPhydiskParts env past fuel
    umountPhydiskParts env
  else pure ()

end Service

section Program
variable (env : Environment) (api : Conversions) (past : Bytes) (fuel steps : ℕ)
  (calls : List Callback)

/-- The calls are those that come as long as the drive is mounted. -/
def eokanMain (fs : ExtFilesystem × Ext2fsNode) : LaunchM (List Reply) := fun m =>
  if m.dokanMainPtr then
    onDisk (Sessions.eokanMain api fs.1 fuel steps fs.2 calls) m
  else .error .nullPointer

/-- What a drive showed while it was mounted, and its letter. -/
abbrev Drive := ℤ × List Reply

/-- The letter that was asked for, or a free one. -/
def driveLetter (settings : Settings) : LaunchM ℤ :=
  match settings.mflag with
  | some c => pure c.toNat
  | none => onDisk (liftM (findValidDrive env.getLogicalDrives (letterA + 2)))

/-- From the partition to its unmounting. -/
def servePartition (settings : Settings) (disk : DiskDescr) : LaunchM (ℤ × Option Drive) :=
  match settings.part with
  | none => fault .undefinedNumber
  | some no => do
    match ← openPartition fuel disk no with
    | none => pure (-2, none)
    | some part => do
      match ← vfsMount past part with
      | none => do
        partClose
        pure (-3, none)
      | some fs => do
        let drive ← driveLetter env settings
        let replies ← eokanMain api fuel steps calls fs
        vfsUmount
        partClose
        pure (0, some (drive, replies))

def serveDisk (settings : Settings) (path : Text) : LaunchM (ℤ × Option Drive) := do
  match ← diskOpen env path diskFlagRead settings.diskType with
  | none => pure (-1, none)
  | some disk => do
    let r ← servePartition env api past fuel steps calls settings disk.disk
    diskClose disk
    pure r

/-- The exit code, and the drive that was mounted. -/
def main (argv : List Text) : LaunchM (ℤ × Option Drive) :=
  match parseArguments argv with
  | none => pure (0, none)
  | some (settings, operands) =>
    if settings.iflag then do
      let status ← eokanSvcInstall env.serviceManager env.getModuleFileName
      pure (status, none)
    else if settings.rflag then do
      let status ← eokanSvcRemove env.serviceManager fuel
      pure (status, none)
    else
      match settings.uflag with
      | some c => do
        let _ ← eokanLoad env
        let e ← eokanUmount env c.toNat
        eokanUnload
        pure (e, none)
      | none =>
        match if settings.sflag then none else operands.head? with
        | none => do
          service env past fuel
          pure (0, none)
        | some path => do
          let status ← eokanLoad env
          if status < 0 then pure (-1, none)
          else do
            let r ← serveDisk env api past fuel steps calls settings path
            eokanUnload
            pure r

end Program

section Answers
variable (env : Environment) (path : Text) (flags : ℕ)

/-- dokan.dll is there, with both functions. -/
def Environment.loads : Bool := env.dokanDll && env.dokanMain && env.dokanRemoveMountPoint

/-- No assertion fails in the probe. -/
def Environment.probes : DiskSpec → Bool
  | .physical => true
  | .vmdk => !env.vixDll || vixFunctions.all env.vixExports

/-- The disk that a probe gets, if no assertion fails. -/
def Environment.answers : DiskSpec → Option DiskDescr
  | .physical => env.createFile path (accessOf flags genericRead genericWrite)
      (accessOf flags fileShareRead fileShareWrite)
  | .vmdk =>
    if env.vixDll && env.vixInit && env.vixConnect then
      env.vixOpen path (if flags &&& diskFlagRead ≠ 0 ∧ flags &&& diskFlagWrite = 0
        then vixOpenReadOnly else 0)
    else none

def Environment.opens (type : Text) : Option OpenDisk :=
  (findSpec type).bind fun spec => (env.answers path flags spec).map (OpenDisk.mk spec)

/-- What a probe takes for good. -/
def probeLeaks : DiskSpec → Multiset Resource
  | .physical => 0
  | .vmdk => if env.vixDll then {.vixLibrary} else 0

def DiskSpec.holds : DiskSpec → Multiset Resource
  | .physical => {.fileHandle}
  | .vmdk => {.vixDisk} + {.vixConnection} + {.vixInit}

def OpenDisk.holds (disk : OpenDisk) : Multiset Resource :=
  disk.spec.holds + {.criticalSection} + {.diskDev}

def holdsOf (disk : Option OpenDisk) : Multiset Resource := (disk.map OpenDisk.holds).getD 0

/-- The handles of the processes with these command lines. -/
def handlesOf (created : List Text) : Multiset Resource :=
  created.length • ({.processHandle} + {.threadHandle})

/-- What is lost with each disk, whether or not it can be opened. -/
def openLeaks (type : Text) : Multiset Resource :=
  match findSpec type with
  | none => 0
  | some spec => probeLeaks env spec +
      if (env.answers path flags spec).isSome then 0 else {.criticalSection}

end Answers

section Runs
variable {m : Machine} {base : Multiset Resource}

theorem handlesOf_nil : handlesOf [] = 0 := zero_nsmul _

theorem handlesOf_append (created created' : List Text) :
    handlesOf (created ++ created') = handlesOf created' + handlesOf created := by
  unfold handlesOf
  rw [List.length_append, add_nsmul, add_comm]

section Loads
variable {env : Environment}

theorem eokanLoad_run (h : env.loads = true) : eokanLoad env m = .ok (0, { m with
    held := {.dokanLibrary} + m.held
    libdokan := true
    dokanMainPtr := true
    dokanUmountPtr := true }) := by
  obtain ⟨⟨hdll, hmain⟩, humount⟩ : (env.dokanDll = true ∧ env.dokanMain = true) ∧
      env.dokanRemoveMountPoint = true := by
    simpa [Environment.loads] using h
  simp [eokanLoad, hdll, hmain, humount]

/-- A library without one of the functions is freed at once. -/
theorem eokanLoad_fails (h : env.loads = false) :
    ∃ m', eokanLoad env m = .ok (-1, m') ∧ m'.held = m.held ∧ m'.libdokan = false ∧
      m'.created = m.created ∧ m'.removed = m.removed := by
  have hfree : ∀ n : Machine, n.held = {.dokanLibrary} + m.held →
      n.created = m.created → n.removed = m.removed →
      ∃ m', (do
        release .dokanLibrary
        fun m => .ok (-1, { m with libdokan := false }) : LaunchM ℤ) n = .ok (-1, m') ∧
          m'.held = m.held ∧ m'.libdokan = false ∧ m'.created = m.created ∧
          m'.removed = m.removed := by
    intro n hheld hcreated hremoved
    rw [bind_ok (release_run hheld)]
    exact ⟨_, rfl, rfl, rfl, hcreated, hremoved⟩
  unfold eokanLoad
  by_cases hdll : env.dokanDll = true
  · rw [if_pos hdll]
    by_cases hmain : env.dokanMain = true
    · rw [if_pos hmain]
      have humount : ¬ env.dokanRemoveMountPoint = true := by
        intro humount
        simp [Environment.loads, hdll, hmain, humount] at h
      rw [if_neg humount]
      exact hfree _ rfl rfl rfl
    · rw [if_neg hmain]
      exact hfree _ rfl rfl rfl
  · rw [if_neg hdll]
    exact ⟨_, rfl, rfl, rfl, rfl, rfl⟩

theorem eokanUnload_run (hlib : m.libdokan = true) (hheld : m.held = {.dokanLibrary} + base) :
    eokanUnload m = .ok ((), { m with held := base }) := by
  unfold eokanUnload
  rw [if_pos hlib, release_run hheld]

theorem eokanUnload_idle (hlib : m.libdokan = false) : eokanUnload m = .ok ((), m) := by
  unfold eokanUnload
  rw [hlib]
  rfl

end Loads

section Opens
variable {env : Environment} {path : Text} {flags : ℕ}

theorem loadFuncs_run {names : List Text} (h : names.all env.vixExports = true) :
    loadFuncs env names m = .ok ((), m) := by
  induction names with
  | nil => rfl
  | cons funcName rest ih =>
    obtain ⟨hfunc, hrest⟩ : env.vixExports funcName = true ∧ rest.all env.vixExports = true := by
      simpa using h
    unfold loadFuncs loadfunc
    rw [if_pos (if_pos hfunc), ih hrest]

theorem loadFuncs_aborts {names : List Text} (h : names.all env.vixExports = false) :
    loadFuncs env names m = .error .assertion := by
  induction names with
  | nil => cases h
  | cons funcName rest ih =>
    unfold loadFuncs loadfunc
    by_cases hfunc : env.vixExports funcName = true
    · rw [if_pos (if_pos hfunc)]
      refine ih ?_
      simpa [hfunc] using h
    · rw [if_neg hfunc, if_neg (by decide)]
      rfl

theorem probe_run (spec : DiskSpec) (h : env.probes spec = true) : spec.probe env path flags m =
    .ok (env.answers path flags spec, { m with
      held := (if (env.answers path flags spec).isSome then spec.holds else 0) +
        (probeLeaks env spec + m.held) }) := by
  cases spec with
  | physical =>
    unfold DiskSpec.probe phyDiskCreate Environment.answers
    cases env.createFile path (accessOf flags genericRead genericWrite)
      (accessOf flags fileShareRead fileShareWrite) with
    | none => simp [probeLeaks, pure_run]
    | some disk =>
      simp only [bind_ok (take_run _), pure_run]
      simp [DiskSpec.holds, probeLeaks]
  | vmdk =>
    unfold DiskSpec.probe vmdkDiskCreate Environment.answers probeLeaks
    dsimp only
    by_cases hdll : env.vixDll = true
    · have hexports : vixFunctions.all env.vixExports = true := by
        simpa [Environment.probes, hdll] using h
      rw [if_pos hdll, if_pos hdll, bind_ok (take_run _), bind_ok (loadFuncs_run hexports)]
      by_cases hinit : env.vixInit = true
      · rw [if_pos hinit, bind_ok (take_run _)]
        by_cases hconnect : env.vixConnect = true
        · rw [if_pos hconnect, bind_ok (take_run _), hdll, hinit, hconnect]
          simp only [Bool.and_self, if_true]
          cases env.vixOpen path _ with
          | none =>
            dsimp only
            rw [bind_ok (release_run rfl), bind_ok (release_run rfl), pure_run]
            simp
          | some disk =>
            dsimp only
            rw [bind_ok (take_run _), pure_run]
            simp only [Option.isSome_some, if_true, DiskSpec.holds, add_assoc]
        · rw [if_neg hconnect, bind_ok (release_run rfl), pure_run]
          simp [hconnect]
      · rw [if_neg hinit, pure_run]
        simp [hinit]
    · rw [if_neg hdll, if_neg hdll, pure_run]
      simp [hdll]

theorem probe_aborts {spec : DiskSpec} (h : env.probes spec = false) :
    spec.probe env path flags m = .error .assertion := by
  cases spec with
  | physical => cases h
  | vmdk =>
    obtain ⟨hdll, hexports⟩ : env.vixDll = true ∧ vixFunctions.all env.vixExports = false := by
      simpa only [Environment.probes, Bool.or_eq_false_iff, Bool.not_eq_false'] using h
    unfold DiskSpec.probe vmdkDiskCreate
    dsimp only
    rw [if_pos hdll, bind_ok (take_run _), bind_error (loadFuncs_aborts hexports)]

theorem findSpec_physical : findSpec physicalType = some .physical := by decide +kernel

variable (m env path flags) in
theorem diskOpen_run {type : Text}
    (h : ∀ spec, findSpec type = some spec → env.probes spec = true) :
    ∃ log, diskOpen env path flags type m = .ok (env.opens path flags type, { m with
      held := holdsOf (env.opens path flags type) + (openLeaks env path flags type + m.held)
      log := log }) := by
  unfold diskOpen Environment.opens openLeaks holdsOf
  cases hspec : findSpec type with
  | none => exact ⟨m.log, by simp [pure_run]⟩
  | some spec =>
    dsimp only [Option.bind_some]
    rw [bind_ok (take_run _), bind_ok (take_run _), bind_ok (probe_run spec (h spec hspec))]
    generalize env.answers path flags spec = disk
    cases disk with
    | none =>
      refine ⟨m.log, ?_⟩
      have hheld : (0 : Multiset Resource) +
          (probeLeaks env spec + ({.criticalSection} + ({.diskDev} + m.held))) =
            {.diskDev} + (probeLeaks env spec + {.criticalSection} + m.held) := by
        abel
      exact (bind_ok (release_run hheld)).trans (by simp [pure_run])
    | some disk =>
      refine ⟨[], ?_⟩
      have hheld : spec.holds +
          (probeLeaks env spec + ({.criticalSection} + ({.diskDev} + m.held))) =
            spec.holds + {.criticalSection} + {.diskDev} + (probeLeaks env spec + 0 + m.held) := by
        abel
      simp only [Option.isSome_some, if_true, hheld]
      rfl

variable (m env path flags) in
theorem diskOpen_physical :
    ∃ log, diskOpen env path flags physicalType m =
      .ok (env.opens path flags physicalType, { m with
        held := holdsOf (env.opens path flags physicalType) +
          (openLeaks env path flags physicalType + m.held)
        log := log }) := by
  refine diskOpen_run m env path flags fun spec hspec => ?_
  rw [findSpec_physical] at hspec
  cases hspec
  rfl

theorem diskOpen_safely (type : Text) :
    Safely Misused (diskOpen env path flags type) m fun r m' =>
      r = env.opens path flags type ∧ ∃ log, m' = { m with
        held := holdsOf r + (openLeaks env path flags type + m.held)
        log := log } := by
  by_cases hprobes : ∀ spec, findSpec type = some spec → env.probes spec = true
  · obtain ⟨log, hopen⟩ := diskOpen_run m env path flags hprobes
    exact .of_run hopen ⟨rfl, log, rfl⟩
  · push Not at hprobes
    obtain ⟨spec, hspec, hfails⟩ := hprobes
    have haborts : diskOpen env path flags type m = .error .assertion := by
      unfold diskOpen
      rw [hspec]
      dsimp only
      rw [bind_ok (take_run _), bind_ok (take_run _),
        bind_error (probe_aborts (Bool.eq_false_of_not_eq_true hfails))]
    unfold Safely OnReturn
    rw [haborts]
    refine ⟨fun e h => ?_, fun a m' h => ?_⟩
    · cases h
      exact id
    · cases h

theorem diskClose_run (disk : OpenDisk) (h : m.held = disk.holds + base) :
    diskClose disk m = .ok ((), { m with held := base }) := by
  obtain ⟨spec, disk⟩ := disk
  unfold diskClose
  cases spec with
  | physical =>
    have hheld : m.held = {.fileHandle} + ({.criticalSection} + ({.diskDev} + base)) := by
      rw [h]
      simp only [OpenDisk.holds, DiskSpec.holds, add_assoc]
    unfold DiskSpec.release
    rw [bind_ok (release_run hheld), bind_ok (release_run rfl), release_run rfl]
  | vmdk =>
    have hheld : m.held = {.vixDisk} + ({.vixConnection} + ({.vixInit} +
        ({.criticalSection} + ({.diskDev} + base)))) := by
      rw [h]
      simp only [OpenDisk.holds, DiskSpec.holds, add_assoc]
    unfold DiskSpec.release
    dsimp only
    rw [bind_assoc, bind_ok (release_run hheld), bind_assoc, bind_ok (release_run rfl),
      bind_ok (release_run rfl), bind_ok (release_run rfl), release_run rfl]

end Opens

section Partitions
variable {past : Bytes} {fuel : ℕ} {disk : DiskDescr}

theorem openPartition_run {no : ℤ} {r : Option PartDescr} {log : Log}
    (h : diskGetPartition fuel disk no m.log = .ok (r, log)) :
    openPartition fuel disk no m = .ok (r, { m with
      held := (if r.isSome then {.partition} else 0) + m.held
      log := log }) := by
  unfold openPartition
  rw [bind_ok (onDisk_run h)]
  cases r with
  | none => simp [pure_run]
  | some part => rfl

theorem openPartition_safely (no : ℤ) :
    Safely Misused (openPartition fuel disk no) m fun r m' => ∃ log, m' = { m with
      held := (if r.isSome then {.partition} else 0) + m.held
      log := log } := by
  refine Safely.bind (onDisk_safely _) ?_
  rintro r m' ⟨log, -, rfl⟩
  cases r with
  | none => exact .pure ⟨log, by simp⟩
  | some part => exact .of_run rfl ⟨log, rfl⟩

theorem vfsMount_run {part : PartDescr} {r : Option (ExtFilesystem × Ext2fsNode)} {log : Log}
    (h : ext4fsMount past part m.log = .ok (r, log)) :
    vfsMount past part m = .ok (r, { m with
      held := if r.isSome then {.filesysDescr} + ({.filesysSpec} + m.held) else m.held
      log := log }) := by
  unfold vfsMount
  rw [bind_ok (onDisk_run h)]
  cases r with
  | none => rfl
  | some fs => rfl

theorem vfsMount_safely (part : PartDescr) :
    Safely Misused (vfsMount past part) m fun r m' => ∃ log, m' = { m with
      held := if r.isSome then {.filesysDescr} + ({.filesysSpec} + m.held) else m.held
      log := log } := by
  refine Safely.bind (onDisk_safely _) ?_
  rintro r m' ⟨log, -, rfl⟩
  cases r with
  | none => exact .pure ⟨log, rfl⟩
  | some fs => exact .of_run rfl ⟨log, rfl⟩

theorem vfsUmount_run (h : m.held = {.filesysDescr} + ({.filesysSpec} + base)) :
    vfsUmount m = .ok ((), { m with held := base }) := by
  have hheld : m.held = {.filesysSpec} + ({.filesysDescr} + base) := by
    rw [h]
    abel
  unfold vfsUmount
  rw [bind_ok (release_run hheld), release_run rfl]

end Partitions

section Drives
variable {env : Environment} {past : Bytes} {fuel : ℕ} {path : Text}

/-- The command line of the process for this partition, if there can be one. -/
def Environment.commands (env : Environment) (path : Text) (part : ℤ) : List Text :=
  match env.getModuleFileName with
  | none => []
  | some szPath =>
    if env.createProcess szPath (eokanCmdline szPath part path) then
      [eokanCmdline szPath part path]
    else []

theorem createEokanProcess_run (part : ℤ) : createEokanProcess env path part m =
    .ok ((), { m with
      held := handlesOf (env.commands path part) + m.held
      created := m.created ++ env.commands path part }) := by
  unfold createEokanProcess Environment.commands
  cases env.getModuleFileName with
  | none => simp [handlesOf, pure_run]
  | some szPath =>
    dsimp only
    split
    · have hheld : {.threadHandle} + ({.processHandle} + m.held) =
          handlesOf [eokanCmdline szPath part path] + m.held := by
        simp only [handlesOf, List.length_singleton, one_nsmul]
        abel
      rw [bind_ok (take_run _), bind_ok (take_run _), hheld]
    · simp [handlesOf, pure_run]

theorem mountPart_run {k : ℕ} {part : PartDescr} {r : Option (ExtFilesystem × Ext2fsNode)}
    {log : Log} (h : ext4fsMount past part m.log = .ok (r, log))
    (hheld : m.held = {.partition} + base) :
    mountPart env past path k part m = .ok ((), { m with
      held := handlesOf (if r.isSome then env.commands path (k + 1) else []) + base
      log := log
      created := m.created ++ if r.isSome then env.commands path (k + 1) else [] }) := by
  unfold mountPart
  rw [bind_ok (vfsMount_run h)]
  cases r with
  | none =>
    simp only [Option.isSome_none, Bool.false_eq_true, if_false, List.append_nil, handlesOf_nil,
      zero_add]
    exact release_run hheld
  | some fs =>
    have hafter : handlesOf (env.commands path (k + 1)) + m.held =
        {.partition} + (handlesOf (env.commands path (k + 1)) + base) := by
      rw [hheld]
      abel
    dsimp only [Option.isSome_some, if_true]
    rw [bind_ok (vfsUmount_run rfl), bind_ok (createEokanProcess_run _)]
    exact release_run hafter

theorem mountPart_safely (k : ℕ) (part : PartDescr) (hheld : m.held = {.partition} + base) :
    Safely Misused (mountPart env past path k part) m fun _ m' => ∃ log created, m' = { m with
      held := handlesOf created + base
      log := log
      created := m.created ++ created } := by
  refine Safely.bind (vfsMount_safely part) ?_
  rintro r m' ⟨log, rfl⟩
  cases r with
  | none => exact .of_run (release_run hheld) ⟨log, [], by simp [handlesOf_nil]⟩
  | some fs =>
    have hafter : handlesOf (env.commands path (k + 1)) + m.held =
        {.partition} + (handlesOf (env.commands path (k + 1)) + base) := by
      rw [hheld]
      abel
    refine .bind_run (vfsUmount_run rfl) (.bind_run (createEokanProcess_run _) ?_)
    exact .of_run (release_run hafter) ⟨log, _, rfl⟩

theorem mountParts_safely (disk : DiskDescr) (n k : ℕ) :
    Safely Misused (mountParts (openPartition fuel disk) (mountPart env past path) n k) m
      fun _ m' => ∃ log created, m' = { m with
        held := handlesOf created + m.held
        log := log
        created := m.created ++ created } := by
  induction n generalizing k m with
  | zero => exact .pure ⟨m.log, [], by simp [handlesOf_nil]⟩
  | succ n ih =>
    refine Safely.bind (openPartition_safely _) ?_
    rintro r m' ⟨log, rfl⟩
    cases r with
    | none => exact .pure ⟨log, [], by simp [handlesOf_nil]⟩
    | some part =>
      refine Safely.bind (mountPart_safely k part rfl) ?_
      rintro _ m' ⟨log₁, created, rfl⟩
      refine Safely.bind (ih (k + 1)) ?_
      rintro _ m' ⟨log₂, created', rfl⟩
      exact .pure ⟨log₂, created ++ created', by rw [handlesOf_append]; simp [add_assoc]⟩

/-- All that is taken for the partitions of a disk is given back, but for the handles of
the processes. -/
theorem mountDiskParts_safely (disk : DiskDescr) :
    Safely Misused (mountDiskParts env past fuel disk path) m fun _ m' =>
      ∃ log created, m' = { m with
        held := handlesOf created + m.held
        log := log
        created := m.created ++ created } :=
  Safely.bind (mountParts_safely disk 16 0) fun _ _ h => .pure h

/-- What is lost with the drives, n of them from number k on. -/
def drivesLeaks (env : Environment) (n k : ℕ) : Multiset Resource :=
  ((List.range' k n).map fun i =>
    openLeaks env (drivePath i) diskFlagRead physicalType).sum

theorem drivesLeaks_succ (n k : ℕ) : drivesLeaks env (n + 1) k =
    openLeaks env (drivePath k) diskFlagRead physicalType + drivesLeaks env n (k + 1) := by
  unfold drivesLeaks
  rw [List.range'_succ, List.map_cons, List.sum_cons]

theorem mountDrives_safely (n k : ℕ) :
    Safely Misused (mountDrives env past fuel n k) m fun _ m' =>
      ∃ log created, m' = { m with
        held := handlesOf created + (drivesLeaks env n k + m.held)
        log := log
        created := m.created ++ created } := by
  induction n generalizing k m with
  | zero => exact .pure ⟨m.log, [], by simp [drivesLeaks, handlesOf_nil]⟩
  | succ n ih =>
    obtain ⟨log, hopen⟩ := diskOpen_physical m env (drivePath k) diskFlagRead
    refine .bind_run hopen ?_
    cases env.opens (drivePath k) diskFlagRead physicalType with
    | none =>
      refine (ih (k + 1)).mono ?_
      rintro _ m' ⟨log₁, created, rfl⟩
      refine ⟨log₁, created, ?_⟩
      rw [drivesLeaks_succ]
      simp only [holdsOf, Option.map_none, Option.getD_none, Machine.mk.injEq, and_true]
      abel
    | some disk =>
      refine Safely.bind (mountDiskParts_safely disk.disk) ?_
      rintro _ m' ⟨log₁, created, rfl⟩
      have hheld : handlesOf created + (holdsOf (some disk) +
          (openLeaks env (drivePath k) diskFlagRead physicalType + m.held)) =
            disk.holds + (handlesOf created +
              (openLeaks env (drivePath k) diskFlagRead physicalType + m.held)) := by
        simp only [holdsOf, Option.map_some, Option.getD_some]
        abel
      refine .bind_run (diskClose_run disk hheld) ((ih (k + 1)).mono ?_)
      rintro _ m' ⟨log₂, created', rfl⟩
      refine ⟨log₂, created ++ created', ?_⟩
      rw [drivesLeaks_succ, handlesOf_append, List.append_assoc]
      simp only [Machine.mk.injEq, and_true]
      abel

/-- The letters in use, of n ones from number x on. -/
def lettersInUse (env : Environment) (n x : ℕ) : List ℤ :=
  ((List.range' x n).filter fun i => env.getLogicalDrives.getLsbD i).map fun i : ℕ =>
    letterA + (i : ℤ)

theorem umountDrives_run (n x : ℕ) (h : m.dokanUmountPtr = true) :
    umountDrives env n x m =
      .ok ((), { m with removed := m.removed ++ lettersInUse env n x }) := by
  induction n generalizing x m with
  | zero => simp [umountDrives, lettersInUse, pure_run]
  | succ n ih =>
    have hletters : lettersInUse env (n + 1) x =
        (if env.getLogicalDrives.getLsbD x then [letterA + (x : ℤ)] else []) ++
          lettersInUse env n (x + 1) := by
      unfold lettersInUse
      rw [List.range'_succ, List.filter_cons]
      split
      · rfl
      · rfl
    unfold umountDrives
    by_cases hused : env.getLogicalDrives.getLsbD x = true
    · have humount : eokanUmount env (letterA + x) m = .ok (env.removeMountPoint (letterA + x),
          { m with removed := m.removed ++ [letterA + (x : ℤ)] }) := by
        unfold eokanUmount
        rw [if_pos h]
      rw [if_pos hused, bind_ok humount]
      rw [ih (m := { m with removed := m.removed ++ [letterA + (x : ℤ)] }) (x + 1) h, hletters,
        if_pos hused, List.append_assoc]
    · rw [if_neg hused, ih _ h, hletters, if_neg hused, List.nil_append]

variable (env) in
/-- Every drive from the third letter on that is in use is unmounted, whoever mounted it. -/
theorem umountPhydiskParts_run (m : Machine) :
    ∃ m', umountPhydiskParts env m = .ok ((), m') ∧ m'.held = m.held ∧
      m'.created = m.created ∧
      m'.removed = m.removed ++ if env.loads then lettersInUse env 30 2 else [] := by
  unfold umountPhydiskParts
  cases hloads : env.loads with
  | true =>
    refine ⟨{ m with
      libdokan := true
      dokanMainPtr := true
      dokanUmountPtr := true
      removed := m.removed ++ lettersInUse env 30 2 }, ?_, rfl, rfl, by simp⟩
    rw [bind_ok (eokanLoad_run hloads), if_neg (by decide), bind_ok (umountDrives_run 30 2 rfl),
      eokanUnload_run rfl rfl]
  | false =>
    obtain ⟨m', hload, hheld, -, hcreated, hremoved⟩ := eokanLoad_fails (m := m) hloads
    refine ⟨m', ?_, hheld, hcreated, by simp [hremoved]⟩
    rw [bind_ok hload, if_pos (by decide)]
    rfl

/-- What the service loses: the handles of its processes, and what is lost with the drives. -/
theorem mountPhydiskParts_safely :
    Safely Misused (mountPhydiskParts env past fuel) m fun _ m' => ∃ created,
      m'.created = m.created ++ created ∧
      m'.held = handlesOf created + ((if env.loads then drivesLeaks env 4 0 else 0) + m.held) := by
  cases hloads : env.loads with
  | true =>
    refine .bind_run (eokanLoad_run hloads) (Safely.bind (mountDrives_safely 4 0) ?_)
    rintro _ m' ⟨log, created, rfl⟩
    have hheld : handlesOf created + (drivesLeaks env 4 0 + ({.dokanLibrary} + m.held)) =
        {.dokanLibrary} + (handlesOf created + (drivesLeaks env 4 0 + m.held)) := by
      abel
    exact .of_run (eokanUnload_run rfl hheld) ⟨created, rfl, rfl⟩
  | false =>
    obtain ⟨m', hload, hheld, -, hcreated, -⟩ := eokanLoad_fails (m := m) hloads
    refine .bind_run hload (.pure ⟨[], ?_, ?_⟩)
    · rw [hcreated, List.append_nil]
    · simp [hheld, handlesOf_nil]

theorem service_safely :
    Safely Misused (service env past fuel) m fun _ m' => ∃ created,
      m'.created = m.created ++ created ∧
      m'.held = handlesOf created +
        ((if env.serviceStarts && env.loads then drivesLeaks env 4 0 else 0) + m.held) := by
  unfold service
  by_cases hstarts : env.serviceStarts = true
  · rw [if_pos hstarts, hstarts, Bool.true_and]
    refine Safely.bind mountPhydiskParts_safely ?_
    intro _ m' hmount
    obtain ⟨created, hcreated, hheld⟩ := hmount
    obtain ⟨m'', humount, hsame, hnone, -⟩ := umountPhydiskParts_run env m'
    exact .of_run humount ⟨created, hnone.trans hcreated, hsame.trans hheld⟩
  · rw [if_neg hstarts]
    exact .pure ⟨[], by simp, by simp [hstarts, handlesOf_nil]⟩

end Drives

section Serving
variable {env : Environment} {api : Conversions} {past : Bytes} {fuel steps : ℕ}
  {calls : List Callback} {settings : Settings}

theorem eokanMain_safely (fs : ExtFilesystem × Ext2fsNode) :
    Safely Misused (eokanMain api fuel steps calls fs) m fun _ m' =>
      ∃ log, m' = { m with log := log } := by
  by_cases hptr : m.dokanMainPtr = true
  · have hmain : eokanMain api fuel steps calls fs m =
        onDisk (Sessions.eokanMain api fs.1 fuel steps fs.2 calls) m := if_pos hptr
    obtain ⟨hsafe, hreturn⟩ :=
      onDisk_safely (m := m) (Sessions.eokanMain api fs.1 fuel steps fs.2 calls)
    unfold Safely OnReturn
    rw [hmain]
    refine ⟨hsafe, fun replies m' h => ?_⟩
    obtain ⟨log, -, rfl⟩ := hreturn replies m' h
    exact ⟨log, rfl⟩
  · have hmain : eokanMain api fuel steps calls fs m = .error .nullPointer := if_neg hptr
    unfold Safely OnReturn
    rw [hmain]
    refine ⟨fun e h => ?_, fun replies m' h => ?_⟩
    · cases h
      exact id
    · cases h

theorem driveLetter_safely :
    Safely Misused (driveLetter env settings) m fun _ m' => ∃ log, m' = { m with log := log } := by
  unfold driveLetter
  cases settings.mflag with
  | some c => exact .pure ⟨m.log, rfl⟩
  | none =>
    refine (onDisk_safely _).mono ?_
    rintro _ m' ⟨log, -, rfl⟩
    exact ⟨log, rfl⟩

/-- Whatever the partition is, and whatever is asked of it, nothing of it is kept. -/
theorem servePartition_safely (disk : DiskDescr) :
    Safely Misused (servePartition env api past fuel steps calls settings disk) m fun _ m' =>
      ∃ log, m' = { m with log := log } := by
  unfold servePartition
  cases settings.part with
  | none => exact .fault id
  | some no =>
    refine Safely.bind (openPartition_safely no) ?_
    rintro part m' ⟨log, rfl⟩
    cases part with
    | none => exact .pure ⟨log, by simp⟩
    | some part =>
      refine Safely.bind (vfsMount_safely part) ?_
      rintro fs m' ⟨log₁, rfl⟩
      cases fs with
      | none => exact .bind_run (release_run rfl) (.pure ⟨log₁, rfl⟩)
      | some fs =>
        refine Safely.bind driveLetter_safely ?_
        rintro drive m' ⟨log₂, rfl⟩
        refine Safely.bind (eokanMain_safely fs) ?_
        rintro replies m' ⟨log₃, rfl⟩
        refine .bind_run (vfsUmount_run rfl) (.bind_run (release_run rfl) ?_)
        exact .pure ⟨log₃, rfl⟩

theorem serveDisk_safely (path : Text) :
    Safely Misused (serveDisk env api past fuel steps calls settings path) m fun _ m' =>
      ∃ log, m' = { m with
        held := openLeaks env path diskFlagRead settings.diskType + m.held
        log := log } := by
  refine Safely.bind (diskOpen_safely settings.diskType) ?_
  rintro disk m' ⟨-, log, rfl⟩
  cases disk with
  | none => exact .pure ⟨log, by simp [holdsOf]⟩
  | some disk =>
    refine Safely.bind (servePartition_safely disk.disk) ?_
    rintro r m' ⟨log₁, rfl⟩
    exact .bind_run (diskClose_run disk rfl) (.pure ⟨log₁, rfl⟩)

/-- What a run of the program never gives back. -/
def mainLeaks (env : Environment) (argv : List Text) : Multiset Resource :=
  match parseArguments argv with
  | none => 0
  | some (settings, operands) =>
    if settings.iflag ∨ settings.rflag ∨ settings.uflag.isSome then 0
    else
      match if settings.sflag then none else operands.head? with
      | none => if env.serviceStarts && env.loads then drivesLeaks env 4 0 else 0
      | some path => if env.loads then openLeaks env path diskFlagRead settings.diskType else 0

theorem openLeaks_only (env : Environment) (path : Text) (flags : ℕ) (type : Text) :
    ∀ resource ∈ openLeaks env path flags type,
      resource = .criticalSection ∨ resource = .vixLibrary := by
  intro resource hmem
  have hcritical : ∀ b : Bool,
      resource ∈ (if b then 0 else {.criticalSection} : Multiset Resource) →
        resource = .criticalSection := by
    intro b hcase
    cases b with
    | false => exact Multiset.mem_singleton.mp hcase
    | true => exact absurd hcase (Multiset.notMem_zero _)
  unfold openLeaks at hmem
  cases hspec : findSpec type with
  | none =>
    rw [hspec] at hmem
    exact absurd hmem (Multiset.notMem_zero _)
  | some spec =>
    rw [hspec] at hmem
    rcases Multiset.mem_add.mp hmem with hprobe | hfails
    · right
      cases spec with
      | physical => exact absurd hprobe (Multiset.notMem_zero _)
      | vmdk =>
        unfold probeLeaks at hprobe
        dsimp only at hprobe
        split at hprobe
        · exact Multiset.mem_singleton.mp hprobe
        · exact absurd hprobe (Multiset.notMem_zero _)
    · exact Or.inl (hcritical _ hfails)

theorem drivesLeaks_only (env : Environment) (n k : ℕ) :
    ∀ resource ∈ drivesLeaks env n k, resource = .criticalSection ∨ resource = .vixLibrary := by
  induction n generalizing k with
  | zero => simp [drivesLeaks]
  | succ n ih =>
    intro resource hmem
    rw [drivesLeaks_succ] at hmem
    rcases Multiset.mem_add.mp hmem with hopen | hrest
    · exact openLeaks_only _ _ _ _ resource hopen
    · exact ih (k + 1) resource hrest

theorem mainLeaks_only (env : Environment) (argv : List Text) :
    ∀ resource ∈ mainLeaks env argv, resource = .criticalSection ∨ resource = .vixLibrary := by
  intro resource hmem
  have hzero : resource ∉ (0 : Multiset Resource) := Multiset.notMem_zero _
  unfold mainLeaks at hmem
  split at hmem
  · exact absurd hmem hzero
  split at hmem
  · exact absurd hmem hzero
  split at hmem
  · split at hmem
    · exact drivesLeaks_only _ _ _ resource hmem
    · exact absurd hmem hzero
  · split at hmem
    · exact openLeaks_only _ _ _ _ resource hmem
    · exact absurd hmem hzero

theorem eokanUmount_safely (c : ℤ) :
    Safely Misused (eokanUmount env c) m fun _ m' =>
      m' = { m with removed := m.removed ++ [c] } := by
  unfold Safely OnReturn eokanUmount
  split
  · refine ⟨fun e h => ?_, fun a m' h => ?_⟩
    · cases h
    · cases h
      rfl
  · refine ⟨fun e h => ?_, fun a m' h => ?_⟩
    · cases h
      exact id
    · cases h

/-- Only the removal of a mount point. -/
theorem umountOnly_safely (c : ℤ) :
    Safely Misused (do
      let _ ← eokanLoad env
      let e ← eokanUmount env c
      eokanUnload
      pure (e, none) : LaunchM (ℤ × Option Drive)) m fun _ m' =>
        m'.created = m.created ∧ m'.held = m.held := by
  cases hloads : env.loads with
  | true =>
    refine .bind_run (eokanLoad_run hloads) (Safely.bind (eokanUmount_safely c) ?_)
    rintro e m' rfl
    exact .bind_run (eokanUnload_run rfl rfl) (.pure ⟨rfl, rfl⟩)
  | false =>
    obtain ⟨n, hload, hheld, hlib, hcreated, -⟩ := eokanLoad_fails (m := m) hloads
    refine .bind_run hload (Safely.bind (eokanUmount_safely c) ?_)
    rintro e m' rfl
    exact .bind_run (eokanUnload_idle hlib) (.pure ⟨hcreated, hheld⟩)

/-- The arguments ask that the service be removed. -/
def Removes (argv : List Text) : Prop :=
  ∃ parsed, parseArguments argv = some parsed ∧ parsed.1.iflag = false ∧ parsed.1.rflag = true

/-- What is still held at the end: the handles of the processes that were started, those of
the dependent services if the service was removed, and what is lost with the disks. -/
def Settles (argv : List Text) (lost : Multiset Resource) (m m' : Machine) : Prop :=
  ∃ created services buffers, m'.created = m.created ++ created ∧
    m'.held = handlesOf created + stopLeaks services buffers + lost + m.held ∧
    buffers ≤ 1 ∧ (¬ Removes argv → services = 0 ∧ buffers = 0)

theorem settles_of_held {argv : List Text} {lost : Multiset Resource} {m' : Machine}
    (hcreated : m'.created = m.created) (hheld : m'.held = lost + m.held) :
    Settles argv lost m m' :=
  ⟨[], 0, 0, by rw [hcreated, List.append_nil], by simp [hheld, handlesOf_nil, stopLeaks],
    by omega, fun _ => ⟨rfl, rfl⟩⟩

end Serving

end Runs

end Eokan.Launches
