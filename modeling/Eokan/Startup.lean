import Eokan.Launches
import Eokan.SessionDisks

/-!
The start of the service and the programs that it starts. Each of them finds the
partition that it was started for, and serves it. When the service stops, the
drives of all of them are unmounted.
-/
namespace Eokan.Startup

open ByteMem CInt Programs Device Layout Mount PartitionTable DriveLetters CommandLine Holdings
  Launches Simulations PartPairs
open FileNames (Conversions)
open Sessions (Callback Reply mountAndServe)

/-- What a read gives does not depend on the reads before it. -/
structure Steady (disk : DiskDescr) : Prop where
  fails : ∀ log q, disk.fails log q = disk.fails [] q
  leftover : ∀ log q, disk.leftover log q = disk.leftover [] q

def anyLog : Watch Log where
  after _ _ := True
  good _ := True
  refl _ := trivial
  trans _ _ := trivial
  back _ _ := trivial

section Sessions
variable {api : Conversions} {past : Bytes} {fuel steps : ℕ} {part : PartDescr}
  (hsteady : Steady part.disk)
include hsteady

theorem Steady.reads :
    Reads anyLog (fun _ _ => True) part (PartDescr.on part part.disk part.off) := by
  intro start num buf dst
  constructor
  · intro log r log₁ _
    trivial
  · intro log log' r log₁ _ hrun _
    change ∃ log₂, diskRead part.disk (int64 (start + part.off)) num buf dst log' = .ok (r, log₂) ∧
      True
    unfold partRead at hrun
    rw [SessionDisks.diskRead_eq, hsteady.fails log, hsteady.leftover log] at hrun
    rw [SessionDisks.diskRead_eq, hsteady.fails log', hsteady.leftover log']
    cases hrun
    exact ⟨_, rfl, trivial⟩

/-- A session is the same whatever was read before. -/
theorem Steady.session {calls : List Callback} {replies : Option (List Reply)} {log log₁ : Log}
    (h : mountAndServe api past fuel steps part calls log = .ok (replies, log₁)) (log' : Log) :
    ∃ log₂, mountAndServe api past fuel steps part calls log' = .ok (replies, log₂) := by
  obtain ⟨log₂, hrun, -⟩ := (SessionPairs.mountAndServe_simulates api past fuel steps
    hsteady.reads calls).follows log log' replies log₁ trivial h trivial
  exact ⟨log₂, hrun⟩

end Sessions

/-- A mount with nothing asked of it. -/
theorem mountAndServe_nil {api : Conversions} {past : Bytes} {fuel steps : ℕ} {part : PartDescr}
    {log log₁ : Log} {replies : Option (List Reply)} :
    mountAndServe api past fuel steps part [] log = .ok (replies, log₁) ↔
      ∃ r, ext4fsMount past part log = .ok (r, log₁) ∧ replies = r.map fun _ => [] := by
  unfold mountAndServe
  constructor
  · intro h
    obtain ⟨r, log₂, hmount, h⟩ := bind_eq_ok h
    refine ⟨r, ?_⟩
    cases r with
    | none =>
      cases h
      exact ⟨hmount, rfl⟩
    | some fs =>
      cases h
      exact ⟨hmount, rfl⟩
  · rintro ⟨r, hmount, rfl⟩
    rw [bind_ok hmount]
    cases r with
    | none => rfl
    | some fs => rfl

theorem Steady.mount {past : Bytes} {part : PartDescr} (hsteady : Steady part.disk)
    {r : Option (ExtFilesystem × Ext2fsNode)} {log log₁ : Log}
    (h : ext4fsMount past part log = .ok (r, log₁)) (log' : Log) :
    ∃ r' log₂, ext4fsMount past part log' = .ok (r', log₂) ∧ r'.isSome = r.isSome := by
  have hserve : mountAndServe FileNames.ascii past 0 0 part [] log =
      .ok (r.map fun _ => [], log₁) := mountAndServe_nil.mpr ⟨r, h, rfl⟩
  obtain ⟨log₂, hrun⟩ := hsteady.session hserve log'
  obtain ⟨r', hmount, heq⟩ := mountAndServe_nil.mp hrun
  refine ⟨r', log₂, hmount, ?_⟩
  have hsome := congrArg Option.isSome heq
  simpa using hsome.symm

def badSectors (disk : DiskDescr) (s : ℕ) : Bool := disk.fails [] ⟨s, 1⟩

theorem Steady.badSectors {disk : DiskDescr} (h : Steady disk) :
    BadSectors disk (badSectors disk) := fun log _ => h.fails log _

theorem listEntries_all {p : PartDescr → Prop} {follow : ℕ → Option (List PartDescr)}
    {leaf : TableEntry → Option PartDescr}
    (hfollow : ∀ off l, follow off = some l → ∀ part ∈ l, p part)
    (hleaf : ∀ e part, leaf e = some part → p part) (entries : List TableEntry)
    {l : List PartDescr} (h : listEntries follow leaf entries = some l) : ∀ part ∈ l, p part := by
  induction entries generalizing l with
  | nil =>
    cases h
    simp
  | cons e entries ih =>
    unfold listEntries at h
    obtain ⟨here, hhere, h⟩ := Option.bind_eq_some_iff.mp h
    obtain ⟨rest, hrest, rfl⟩ := Option.map_eq_some_iff.mp h
    have hentry : ∀ part ∈ here, p part := by
      unfold listEntry at hhere
      split at hhere
      · exact hfollow _ _ hhere
      split at hhere
      · cases hhere
        simp
      · obtain ⟨part, hpart, rfl⟩ := Option.map_eq_some_iff.mp hhere
        simpa using hleaf _ _ hpart
    intro part hmem
    rcases List.mem_append.mp hmem with hleft | hright
    · exact hentry part hleft
    · exact ih hrest part hright

/-- The partitions of a disk are on that disk. -/
theorem partitionList_disk {disk : DiskDescr} {bad : ℕ → Bool} {n : ℕ} {l : List PartDescr}
    (h : partitionList disk bad n = some l) : ∀ part ∈ l, part.disk = disk := by
  have hlogical : ∀ n base off l, logicalList disk bad base n off = some l →
      ∀ part ∈ l, part.disk = disk := by
    intro n
    induction n with
    | zero =>
      intro base off l hl
      cases hl
    | succ n ih =>
      intro base off l hl
      unfold logicalList at hl
      split at hl
      · cases hl
      split at hl
      · cases hl
        simp
      · refine listEntries_all (ih base) (fun e part hpart => ?_) _ hl
        split at hpart
        · cases hpart
        · cases hpart
          rfl
  unfold partitionList at h
  split at h
  · cases h
    simp
  · refine listEntries_all (fun off => hlogical n off 0) (fun e part hpart => ?_) _ h
    cases hpart
    rfl

section Drives
variable (env : Environment) (past : Bytes) (fuel : ℕ)

/-- The disk behind a path of the loop of the service. -/
def driveAt (n : ℕ) : Option DiskDescr := env.answers (drivePath n) diskFlagRead .physical

def partsOf (disk : DiskDescr) : List PartDescr :=
  (partitionList disk (badSectors disk) fuel).getD []

/-- There is a file system on the partition. -/
def mountable (part : PartDescr) : Bool :=
  match ext4fsMount past part [] with
  | .ok (some _, _) => true
  | _ => false

/-- The processes for these partitions, the first of which has number k + 1. -/
def startedFor (path : Text) (parts : List PartDescr) (k : ℕ) : List Text :=
  (parts.zipIdx k).flatMap fun p => if mountable past p.1 then env.commands path (p.2 + 1) else []

def startedFrom (n : ℕ) : List Text :=
  match driveAt env n with
  | none => []
  | some disk => startedFor env past (drivePath n) ((partsOf fuel disk).take 16) 0

def started : List Text := (List.range 4).flatMap (startedFrom env past fuel)

/-- The service has its library, the disks answer always the same, their partition tables
end, and no superblock is such that mounting fails with a fault. -/
structure Ready : Prop where
  loads : env.loads = true
  steady : ∀ n < 4, ∀ disk, driveAt env n = some disk → Steady disk
  listed : ∀ n < 4, ∀ disk, driveAt env n = some disk →
    (partitionList disk (badSectors disk) fuel).isSome = true
  mounts : ∀ n < 4, ∀ disk, driveAt env n = some disk → ∀ part ∈ (partsOf fuel disk).take 16,
    ∃ r log, ext4fsMount past part [] = .ok (r, log)

end Drives

section Starts
variable {env : Environment} {past : Bytes} {fuel : ℕ}

theorem opens_physical (n : ℕ) : env.opens (drivePath n) diskFlagRead physicalType =
    (driveAt env n).map (OpenDisk.mk .physical) := by
  unfold Environment.opens
  rw [findSpec_physical]
  rfl

theorem mountable_eq {part : PartDescr} {r : Option (ExtFilesystem × Ext2fsNode)} {log : Log}
    (h : ext4fsMount past part [] = .ok (r, log)) : mountable past part = r.isSome := by
  unfold mountable
  rw [h]
  cases r with
  | none => rfl
  | some fs => rfl

theorem startedFor_cons (path : Text) (part : PartDescr) (parts : List PartDescr) (k : ℕ) :
    startedFor env past path (part :: parts) k =
      (if mountable past part then env.commands path (k + 1) else []) ++
        startedFor env past path parts (k + 1) := by
  unfold startedFor
  rw [List.zipIdx_cons, List.flatMap_cons]

variable (env) in
/-- The loop over the partitions starts one process for each that can be mounted, in their
order. -/
theorem mountParts_starts {disk : DiskDescr} (path : Text) (hsteady : Steady disk)
    {l : List PartDescr} (hl : partitionList disk (badSectors disk) fuel = some l) (n k : ℕ)
    (hk : k + n < 2 ^ 31)
    (hmounts : ∀ part ∈ (l.drop k).take n, ∃ r log, ext4fsMount past part [] = .ok (r, log))
    (m : Machine) :
    ∃ found log,
      mountParts (openPartition fuel disk) (mountPart env past path) n k m = .ok (found, { m with
        held := handlesOf (startedFor env past path ((l.drop k).take n) k) + m.held
        log := log
        created := m.created ++ startedFor env past path ((l.drop k).take n) k }) := by
  induction n generalizing k m with
  | zero => exact ⟨[], m.log, by simp [mountParts, pure_run, startedFor, handlesOf_nil]⟩
  | succ n ih =>
    obtain ⟨found, log, hfound, heq⟩ := diskGetPartition_nth disk (badSectors disk)
      hsteady.badSectors fuel fuel (Nat.le_refl _) l hl k (by omega) m.log
    subst heq
    unfold mountParts
    rw [bind_ok (openPartition_run hfound)]
    cases hpart : l[k]? with
    | none =>
      have hlen : l.length ≤ k := List.getElem?_eq_none_iff.mp hpart
      refine ⟨[], log, ?_⟩
      rw [List.drop_eq_nil_of_le hlen]
      simp [pure_run, startedFor, handlesOf_nil]
    | some part =>
      obtain ⟨hlt, hget⟩ := List.getElem?_eq_some_iff.mp hpart
      have hcons : (l.drop k).take (n + 1) = part :: (l.drop (k + 1)).take n := by
        rw [List.drop_eq_getElem_cons hlt, List.take_succ_cons, hget]
      rw [hcons] at hmounts ⊢
      obtain ⟨r, log₁, hmount⟩ := hmounts part List.mem_cons_self
      have hdisk : part.disk = disk := partitionList_disk hl part (hget ▸ List.getElem_mem hlt)
      obtain ⟨r', log₂, hrun, hsome⟩ := Steady.mount (hdisk.symm ▸ hsteady) hmount log
      have hone : mountPart env past path k part
          { m with held := {.partition} + m.held, log := log } = _ := mountPart_run hrun rfl
      have hcommands : startedFor env past path (part :: (l.drop (k + 1)).take n) k =
          (if r'.isSome then env.commands path (k + 1) else []) ++
            startedFor env past path ((l.drop (k + 1)).take n) (k + 1) := by
        rw [startedFor_cons, mountable_eq hmount, hsome]
      simp only [Option.isSome_some, if_true]
      rw [bind_ok hone, hcommands, handlesOf_append]
      obtain ⟨rest, log₃, hrest⟩ := ih (k + 1) (by omega)
        (fun p hp => hmounts p (List.mem_cons_of_mem _ hp)) { m with
          held := handlesOf (if r'.isSome then env.commands path (k + 1) else []) + m.held
          log := log₂
          created := m.created ++ if r'.isSome then env.commands path (k + 1) else [] }
      refine ⟨part :: rest, log₃, (bind_ok hrest).trans ?_⟩
      simp only [pure_run, List.append_assoc, add_assoc]

variable (env) in
theorem mountDiskParts_starts {disk : DiskDescr} (path : Text) (hsteady : Steady disk)
    {l : List PartDescr} (hl : partitionList disk (badSectors disk) fuel = some l)
    (hmounts : ∀ part ∈ l.take 16, ∃ r log, ext4fsMount past part [] = .ok (r, log))
    (m : Machine) :
    ∃ log, mountDiskParts env past fuel disk path m = .ok ((), { m with
      held := handlesOf (startedFor env past path (l.take 16) 0) + m.held
      log := log
      created := m.created ++ startedFor env past path (l.take 16) 0 }) := by
  obtain ⟨found, log, hrun⟩ :=
    mountParts_starts env path hsteady hl 16 0 (by decide) hmounts m
  exact ⟨log, bind_ok hrun⟩

theorem partsOf_eq {disk : DiskDescr}
    (h : (partitionList disk (badSectors disk) fuel).isSome = true) :
    partitionList disk (badSectors disk) fuel = some (partsOf fuel disk) := by
  obtain ⟨l, hl⟩ := Option.isSome_iff_exists.mp h
  unfold partsOf
  rw [hl]
  rfl

theorem mountDrives_starts (hready : Ready env past fuel) (n k : ℕ) (hk : k + n ≤ 4)
    (m : Machine) :
    ∃ log, mountDrives env past fuel n k m = .ok ((), { m with
      held := handlesOf ((List.range' k n).flatMap (startedFrom env past fuel)) +
        (drivesLeaks env n k + m.held)
      log := log
      created := m.created ++ (List.range' k n).flatMap (startedFrom env past fuel) }) := by
  induction n generalizing k m with
  | zero => exact ⟨m.log, by simp [mountDrives, pure_run, drivesLeaks, handlesOf_nil]⟩
  | succ n ih =>
    obtain ⟨log, hopen⟩ := diskOpen_physical m env (drivePath k) diskFlagRead
    rw [opens_physical] at hopen
    unfold mountDrives
    rw [bind_ok hopen, List.range'_succ, List.flatMap_cons, handlesOf_append, drivesLeaks_succ]
    cases hdrive : driveAt env k with
    | none =>
      obtain ⟨log₁, hrest⟩ := ih (k + 1) (by omega) { m with
        held := openLeaks env (drivePath k) diskFlagRead physicalType + m.held
        log := log }
      refine ⟨log₁, ?_⟩
      have hnone : holdsOf none + (openLeaks env (drivePath k) diskFlagRead physicalType + m.held) =
          openLeaks env (drivePath k) diskFlagRead physicalType + m.held := zero_add _
      have hstarted : startedFrom env past fuel k = [] := by
        unfold startedFrom
        rw [hdrive]
      have hheld : ∀ handles, handles + (drivesLeaks env n (k + 1) +
          (openLeaks env (drivePath k) diskFlagRead physicalType + m.held)) =
            handles + 0 + (openLeaks env (drivePath k) diskFlagRead physicalType +
              drivesLeaks env n (k + 1) + m.held) := by
        intro handles
        abel
      dsimp only [Option.map_none]
      rw [hnone, hrest, hstarted, handlesOf_nil, hheld, List.nil_append]
    | some disk =>
      have hl := partsOf_eq (hready.listed k (by omega) disk hdrive)
      obtain ⟨log₁, hparts⟩ := mountDiskParts_starts env (drivePath k)
        (hready.steady k (by omega) disk hdrive) hl
        (hready.mounts k (by omega) disk hdrive) { m with
          held := holdsOf (some ⟨.physical, disk⟩) +
            (openLeaks env (drivePath k) diskFlagRead physicalType + m.held)
          log := log }
      have hstarted : startedFor env past (drivePath k) ((partsOf fuel disk).take 16) 0 =
          startedFrom env past fuel k := by
        unfold startedFrom
        rw [hdrive]
      rw [hstarted] at hparts
      have hholds : handlesOf (startedFrom env past fuel k) + (holdsOf (some ⟨.physical, disk⟩) +
          (openLeaks env (drivePath k) diskFlagRead physicalType + m.held)) =
            (OpenDisk.mk .physical disk).holds + (handlesOf (startedFrom env past fuel k) +
              (openLeaks env (drivePath k) diskFlagRead physicalType + m.held)) := by
        simp only [holdsOf, Option.map_some, Option.getD_some]
        abel
      dsimp only [Option.map_some]
      rw [bind_ok hparts, bind_ok (diskClose_run ⟨.physical, disk⟩ hholds)]
      obtain ⟨log₂, hrest⟩ := ih (k + 1) (by omega) { m with
        held := handlesOf (startedFrom env past fuel k) +
          (openLeaks env (drivePath k) diskFlagRead physicalType + m.held)
        log := log₁
        created := m.created ++ startedFrom env past fuel k }
      have hheld : ∀ handles, handles + (drivesLeaks env n (k + 1) +
          (handlesOf (startedFrom env past fuel k) +
            (openLeaks env (drivePath k) diskFlagRead physicalType + m.held))) =
              handles + handlesOf (startedFrom env past fuel k) +
                (openLeaks env (drivePath k) diskFlagRead physicalType +
                  drivesLeaks env n (k + 1) + m.held) := by
        intro handles
        abel
      refine ⟨log₂, hrest.trans ?_⟩
      rw [hheld, List.append_assoc]

/-- The service starts the program for each partition of the first four drives that can
be mounted, sixteen of a drive at most, and for no other one. It keeps the handles of the
processes. -/
theorem service_starts (hready : Ready env past fuel) (m : Machine) :
    ∃ m', mountPhydiskParts env past fuel m = .ok ((), m') ∧
      m'.created = m.created ++ started env past fuel ∧ m'.removed = m.removed ∧
      m'.held = handlesOf (started env past fuel) + (drivesLeaks env 4 0 + m.held) := by
  obtain ⟨log, hdrives⟩ := mountDrives_starts hready 4 0 (Nat.le_refl _) { m with
    held := {.dokanLibrary} + m.held
    libdokan := true
    dokanMainPtr := true
    dokanUmountPtr := true }
  have hheld : handlesOf (started env past fuel) +
      (drivesLeaks env 4 0 + ({.dokanLibrary} + m.held)) =
        {.dokanLibrary} + (handlesOf (started env past fuel) +
          (drivesLeaks env 4 0 + m.held)) := by
    abel
  have hstarted : (List.range' 0 4).flatMap (startedFrom env past fuel) =
      started env past fuel := rfl
  rw [hstarted] at hdrives
  unfold mountPhydiskParts
  rw [bind_ok (eokanLoad_run hready.loads), if_neg (by decide), bind_ok hdrives,
    eokanUnload_run rfl hheld]
  exact ⟨_, rfl, rfl, rfl, rfl⟩

/-- A disk with one partition, which holds a file system, and no other drive. -/
def bootDisk : DiskDescr := DiskDescr.ofImage fun b =>
  match b with
  | 450 => 0x83
  | 454 => 5
  | 458 => 16
  | _ => FileNames.backslashImage (b - 2560)

def programPath : Text := "C:\\eokan.exe".toList

def bootEnvironment : Environment where
  dokanDll := true
  dokanMain := true
  dokanRemoveMountPoint := true
  createFile path _ _ := if path = drivePath 0 then some bootDisk else none
  vixDll := false
  vixExports _ := false
  vixInit := false
  vixConnect := false
  vixOpen _ _ := none
  getLogicalDrives := 4#32
  getModuleFileName := some programPath
  createProcess _ _ := true
  removeMountPoint _ := 1
  serviceManager := ⟨fun _ => false, fun _ => 0, fun _ => ⟨0, 0⟩, fun _ => [], fun _ => 0#32⟩
  serviceStarts := true

theorem bootEnvironment_drive : ∀ n < 4, ∀ disk, driveAt bootEnvironment n = some disk →
    n = 0 ∧ disk = bootDisk := by
  intro n hn disk hdisk
  have hpaths : ∀ n < 4, drivePath n = drivePath 0 → n = 0 := by decide +kernel
  change (if drivePath n = drivePath 0 then some bootDisk else none) = some disk at hdisk
  split at hdisk
  · rename_i hpath
    exact ⟨hpaths n hn hpath, (Option.some.inj hdisk).symm⟩
  · cases hdisk

theorem bootDisk_list :
    partitionList bootDisk (badSectors bootDisk) 1 = some [⟨bootDisk, 5, 16⟩] := by
  have hentries : tableEntries bootDisk 0 4 =
      [⟨0x83, 5, 16⟩, ⟨0, 0, 0⟩, ⟨0, 0, 0⟩, ⟨0, 0, 0⟩] := by decide +kernel
  have hgood : badSectors bootDisk 0 = false := rfl
  simp [partitionList, hentries, hgood, listEntries, listEntry, TableEntry.Extended]

theorem bootDisk_mounts : ∃ r log, ext4fsMount (fun _ => 0) ⟨bootDisk, 5, 16⟩ [] = .ok (r, log) ∧
    r.isSome = true := by
  apply run_of_check
  decide +kernel

theorem bootEnvironment_ready : Ready bootEnvironment (fun _ => 0) 1 := by
  constructor
  · rfl
  · intro n hn disk hdisk
    obtain ⟨-, rfl⟩ := bootEnvironment_drive n hn disk hdisk
    exact ⟨fun _ _ => rfl, fun _ _ => rfl⟩
  · intro n hn disk hdisk
    obtain ⟨-, rfl⟩ := bootEnvironment_drive n hn disk hdisk
    rw [bootDisk_list]
    rfl
  · intro n hn disk hdisk part hmem
    obtain ⟨-, rfl⟩ := bootEnvironment_drive n hn disk hdisk
    unfold partsOf at hmem
    rw [bootDisk_list] at hmem
    obtain rfl : part = ⟨bootDisk, 5, 16⟩ := by simpa using hmem
    obtain ⟨r, log, hrun, -⟩ := bootDisk_mounts
    exact ⟨r, log, hrun⟩

theorem bootEnvironment_started : started bootEnvironment (fun _ => 0) 1 =
    [eokanCmdline programPath 1 (drivePath 0)] := by
  decide +kernel

/-- One process, for the only partition. -/
theorem service_starts_boot : ∃ m',
    mountPhydiskParts bootEnvironment (fun _ => 0) 1 Machine.start = .ok ((), m') ∧
      m'.created = [eokanCmdline programPath 1 (drivePath 0)] ∧
      m'.held = {.processHandle} + {.threadHandle} +
        3 • ({.criticalSection} : Multiset Resource) := by
  obtain ⟨m', hrun, hcreated, -, hheld⟩ := service_starts bootEnvironment_ready Machine.start
  rw [bootEnvironment_started] at hcreated hheld
  refine ⟨m', hrun, hcreated, hheld.trans ?_⟩
  have hlost : drivesLeaks bootEnvironment 4 0 = 3 • {.criticalSection} := by decide +kernel
  rw [hlost]
  simp [handlesOf, one_nsmul, Machine.start]

theorem mem_started {cmdline : Text} (h : cmdline ∈ started env past fuel) :
    ∃ n < 4, ∃ disk, driveAt env n = some disk ∧ ∃ k : ℕ, k < 16 ∧ ∃ part,
      (partsOf fuel disk)[k]? = some part ∧ mountable past part = true ∧
        cmdline ∈ env.commands (drivePath n) (k + 1) := by
  unfold started at h
  obtain ⟨n, hn, h⟩ := List.mem_flatMap.mp h
  refine ⟨n, List.mem_range.mp hn, ?_⟩
  unfold startedFrom at h
  cases hdrive : driveAt env n with
  | none =>
    rw [hdrive] at h
    cases h
  | some disk =>
    rw [hdrive] at h
    obtain ⟨⟨part, k⟩, hmem, h⟩ := List.mem_flatMap.mp h
    dsimp only at h
    have hget : ((partsOf fuel disk).take 16)[k]? = some part :=
      List.mem_zipIdx_iff_getElem?.mp hmem
    obtain ⟨hlt, hpart⟩ := List.getElem?_eq_some_iff.mp hget
    have hk : k < 16 := Nat.lt_of_lt_of_le hlt (List.length_take_le _ _)
    split at h
    · rename_i hmountable
      refine ⟨disk, rfl, k, hk, part, ?_, hmountable, h⟩
      rw [← hget, List.getElem?_take_of_lt hk]
    · cases h

end Starts

section Programs
variable {env : Environment} {api : Conversions} {past : Bytes} {fuel steps : ℕ}
  {calls : List Callback} {m : Machine}

theorem mountAndServe_some {part : PartDescr} {replies : List Reply} {log log₁ : Log}
    (h : mountAndServe api past fuel steps part calls log = .ok (some replies, log₁)) :
    ∃ fs log₂, ext4fsMount past part log = .ok (some fs, log₂) ∧
      Sessions.eokanMain api fs.1 fuel steps fs.2 calls log₂ = .ok (replies, log₁) := by
  unfold mountAndServe at h
  obtain ⟨r, log₂, hmount, h⟩ := bind_eq_ok h
  cases r with
  | none => cases h
  | some fs =>
    obtain ⟨replies', log₃, hmain, h⟩ := bind_eq_ok h
    cases h
    exact ⟨fs, log₂, hmount, hmain⟩

/-- The partition is found, mounted and served, and all of it is given back. -/
theorem servePartition_run {settings : Settings} {disk : DiskDescr} {part : PartDescr}
    {no letter : ℤ} {replies : List Reply} {log log₁ : Log} (hpart : settings.part = some no)
    (hmflag : settings.mflag = none)
    (hfound : diskGetPartition fuel disk no m.log = .ok (some part, log))
    (hsession : mountAndServe api past fuel steps part calls log = .ok (some replies, log₁))
    (hletter : findValidDrive env.getLogicalDrives (letterA + 2) = .ok letter)
    (hptr : m.dokanMainPtr = true) :
    servePartition env api past fuel steps calls settings disk m =
      .ok ((0, some (letter, replies)), { m with log := log₁ }) := by
  obtain ⟨fs, log₂, hmount, hmain⟩ := mountAndServe_some hsession
  have hdrive : ∀ n : Machine, driveLetter env settings n = .ok (letter, n) := by
    intro n
    unfold driveLetter
    rw [hmflag, hletter]
    rfl
  have hserve : eokanMain api fuel steps calls fs { m with
      held := {.filesysDescr} + ({.filesysSpec} + ({.partition} + m.held))
      log := log₂ } = .ok (replies, { m with
        held := {.filesysDescr} + ({.filesysSpec} + ({.partition} + m.held))
        log := log₁ }) := by
    unfold eokanMain
    rw [if_pos hptr]
    exact onDisk_run hmain
  unfold servePartition
  rw [hpart]
  dsimp only
  rw [bind_ok (openPartition_run hfound)]
  dsimp only
  have hmounted : vfsMount past part
      { m with held := (if (some part).isSome then {.partition} else 0) + m.held, log := log } =
        _ := vfsMount_run hmount
  rw [bind_ok hmounted]
  simp only [Option.isSome_some, if_true]
  rw [bind_ok (hdrive _), bind_ok hserve, bind_ok (vfsUmount_run rfl)]
  unfold partClose
  rw [bind_ok (release_run rfl), pure_run]

/-- A program that is told a drive and the number of a partition serves that partition. -/
theorem main_serves {argv : List Text} {n : ℕ} {no letter : ℤ} {disk : DiskDescr}
    {part : PartDescr} {replies : List Reply} {log : Log} {operands : List Text}
    (hparsed : parseArguments argv =
      some ({ Settings.default with part := some no }, operands))
    (hpath : operands.head? = some (drivePath n)) (hloads : env.loads = true)
    (hdrive : driveAt env n = some disk) (hsteady : Steady part.disk)
    (hfound : ∀ log, Yields (diskGetPartition fuel disk no) log fun r _ => r = some part)
    (hsession : mountAndServe api past fuel steps part calls [] = .ok (some replies, log))
    (hletter : findValidDrive env.getLogicalDrives (letterA + 2) = .ok letter) :
    ∃ m', main env api past fuel steps calls argv m = .ok ((0, some (letter, replies)), m') ∧
      m'.held = m.held ∧ m'.created = m.created ∧ m'.removed = m.removed := by
  obtain ⟨log₀, hopen⟩ := diskOpen_physical { m with
    held := {.dokanLibrary} + m.held
    libdokan := true
    dokanMainPtr := true
    dokanUmountPtr := true } env (drivePath n) diskFlagRead
  rw [opens_physical, hdrive] at hopen
  obtain ⟨found, log₁, hget, rfl⟩ := hfound log₀
  obtain ⟨log₂, hrun⟩ := hsteady.session hsession log₁
  have hlost : openLeaks env (drivePath n) diskFlagRead physicalType = 0 := by
    unfold openLeaks
    rw [findSpec_physical]
    change (0 : Multiset Resource) + (if (driveAt env n).isSome then 0 else _) = 0
    rw [hdrive]
    rfl
  have hserve : servePartition env api past fuel steps calls
      { Settings.default with part := some no } disk { m with
        held := holdsOf (some ⟨.physical, disk⟩) +
          (openLeaks env (drivePath n) diskFlagRead physicalType + ({.dokanLibrary} + m.held))
        libdokan := true
        dokanMainPtr := true
        dokanUmountPtr := true
        log := log₀ } = _ := servePartition_run rfl rfl hget hrun hletter rfl
  have hdisk : serveDisk env api past fuel steps calls
      { Settings.default with part := some no } (drivePath n) { m with
        held := {.dokanLibrary} + m.held
        libdokan := true
        dokanMainPtr := true
        dokanUmountPtr := true } = .ok ((0, some (letter, replies)), { m with
          held := {.dokanLibrary} + m.held
          libdokan := true
          dokanMainPtr := true
          dokanUmountPtr := true
          log := log₂ }) := by
    unfold serveDisk
    change (diskOpen env (drivePath n) diskFlagRead physicalType >>= _) _ = _
    rw [bind_ok hopen]
    dsimp only [Option.map_some]
    rw [bind_ok hserve, bind_ok (diskClose_run ⟨.physical, disk⟩ rfl), pure_run, hlost, zero_add]
  have hmain : main env api past fuel steps calls argv m =
      .ok ((0, some (letter, replies)), { m with
        libdokan := true
        dokanMainPtr := true
        dokanUmountPtr := true
        log := log₂ }) := by
    unfold main
    rw [hparsed]
    dsimp only [Settings.default]
    simp only [Bool.false_eq_true, if_false, hpath]
    rw [bind_ok (eokanLoad_run hloads), if_neg (by decide)]
    refine (bind_ok hdisk).trans ?_
    rw [bind_ok (eokanUnload_run rfl rfl), pure_run]
  exact ⟨_, hmain, rfl, rfl, rfl⟩

/-- A letter that was found free is among those that are unmounted, once it is in use. -/
theorem letter_unmounted {before : BitVec 32} {letter : ℤ}
    (hletter : findValidDrive before (letterA + 2) = .ok letter) (hne : letter ≠ 0)
    (hloads : env.loads = true)
    (hused : env.getLogicalDrives.getLsbD (letter - letterA).toNat = true) (m : Machine) :
    ∃ m', umountPhydiskParts env m = .ok ((), m') ∧ letter ∈ m'.removed := by
  obtain ⟨m', hrun, -, -, hremoved⟩ := umountPhydiskParts_run env m
  refine ⟨m', hrun, ?_⟩
  obtain ⟨steps, hsteps, -⟩ := skipUsed_steps before 2
  have hstart : (letterA + 2 - letterA).toNat = 2 := by decide
  unfold findValidDrive at hletter
  rw [if_neg (by decide), hstart] at hletter
  dsimp only at hletter
  split at hletter
  · exact absurd (Except.ok.inj hletter).symm hne
  · rename_i hlt
    obtain rfl := Except.ok.inj hletter
    have hbit : (letterA + (skipUsed before 2 : ℤ) - letterA).toNat = skipUsed before 2 := by
      omega
    rw [hbit] at hused
    rw [hremoved, hloads, if_pos rfl]
    refine List.mem_append_right _ (List.mem_map.mpr ⟨skipUsed before 2, ?_, rfl⟩)
    rw [List.mem_filter, List.mem_range'_1]
    exact ⟨by omega, hused⟩

/-- If the path of the program is one word, every process that the service starts is for a
partition of its own, finds it again, and shows of it what there is to be seen. It gives
back all that it takes, and the drive it gets is unmounted when the service stops, if it
is still in use. -/
theorem started_serves {szPath program : Text} (hready : Ready env past fuel)
    (hname : env.getModuleFileName = some szPath) (hword : arguments szPath = [program])
    (hlength : szPath.length < maxPath) {cmdline : Text}
    (hstarted : cmdline ∈ started env past fuel) :
    ∃ n < 4, ∃ disk, driveAt env n = some disk ∧ ∃ k : ℕ, k < 16 ∧ ∃ part,
      (partsOf fuel disk)[k]? = some part ∧ cmdline = eokanCmdline szPath (k + 1) (drivePath n) ∧
      ∀ child : Environment, child.loads = true → driveAt child n = some disk →
        ∀ api steps calls replies log,
          mountAndServe api past fuel steps part calls [] = .ok (some replies, log) →
        ∀ m, ∃ letter m',
          main child api past fuel steps calls (arguments cmdline) m =
            .ok ((0, some (letter, replies)), m') ∧
          m'.held = m.held ∧ m'.created = m.created ∧ m'.removed = m.removed ∧
          ∀ after : Environment, after.loads = true → letter ≠ 0 →
            after.getLogicalDrives.getLsbD (letter - letterA).toNat = true →
              ∀ n, ∃ n', umountPhydiskParts after n = .ok ((), n') ∧ letter ∈ n'.removed := by
  obtain ⟨n, hn, disk, hdrive, k, hk, part, hpart, -, hcommand⟩ := mem_started hstarted
  have hcmdline : cmdline = eokanCmdline szPath (k + 1) (drivePath n) := by
    unfold Environment.commands at hcommand
    rw [hname] at hcommand
    dsimp only at hcommand
    split at hcommand
    · exact List.mem_singleton.mp hcommand
    · cases hcommand
  refine ⟨n, hn, disk, hdrive, k, hk, part, hpart, hcmdline, ?_⟩
  intro child hloads hchild api steps calls replies log hsession m
  obtain ⟨hplain, hshort⟩ := drivePath_plain n hn
  have hdigits : ∀ k < 16, (decimal ((k : ℕ) + 1)).length ≤ 2 := by decide +kernel
  obtain ⟨operands, hparsed, hpath⟩ : ∃ operands,
      parseArguments (arguments (eokanCmdline szPath ((k : ℤ) + 1) (drivePath n))) =
        some ({ Settings.default with part := some ((k : ℤ) + 1) }, operands) ∧
      operands.head? = some (drivePath n) := by
    have hfit := hdigits k hk
    have hmax : maxPath = 260 := rfl
    exact parses_one_word (by omega) hplain (by omega) hword
  have hsteady := hready.steady n hn disk hdrive
  have hl := partsOf_eq (hready.listed n hn disk hdrive)
  have hdisk : part.disk = disk := partitionList_disk hl part (List.mem_of_getElem? hpart)
  have hletter : ∃ letter, findValidDrive child.getLogicalDrives (letterA + 2) = .ok letter := by
    unfold findValidDrive
    rw [if_neg (by decide)]
    dsimp only
    split
    · exact ⟨_, rfl⟩
    · exact ⟨_, rfl⟩
  obtain ⟨letter, hletter⟩ := hletter
  obtain ⟨m', hmain, hheld, hcreated, hremoved⟩ := main_serves (m := m) hparsed hpath hloads hchild
    (hdisk.symm ▸ hsteady) (fun log => (diskGetPartition_nth disk (badSectors disk)
      hsteady.badSectors fuel fuel (Nat.le_refl _) _ hl k (by omega) log).mono
        fun r _ hr => hr.trans hpart) hsession hletter
  rw [hcmdline]
  exact ⟨letter, m', hmain, hheld, hcreated, hremoved, fun after hafter hne hused =>
    letter_unmounted hletter hne hafter hused⟩

/-- The process for the only partition, in which a file is read. -/
theorem started_serves_boot : ∃ letter replies m',
    main bootEnvironment FileNames.ascii (fun _ => 0) 1 3 SessionDisks.oneFile
        (arguments (eokanCmdline programPath 1 (drivePath 0))) Machine.start =
      .ok ((0, some (letter, replies)), m') ∧ replies.length = 4 ∧ m'.held = 0 := by
  have hmem : eokanCmdline programPath 1 (drivePath 0) ∈
      started bootEnvironment (fun _ => 0) 1 := by
    rw [bootEnvironment_started]
    exact List.mem_singleton_self _
  obtain ⟨n, hn, disk, hdrive, k, -, part, hpart, -, hserves⟩ :=
    started_serves bootEnvironment_ready rfl
      (show arguments programPath = [programPath] by decide +kernel)
      (by decide) hmem
  obtain ⟨rfl, rfl⟩ := bootEnvironment_drive n hn disk hdrive
  have hpartition : part = ⟨bootDisk, 5, 16⟩ := by
    unfold partsOf at hpart
    rw [bootDisk_list] at hpart
    exact List.mem_singleton.mp (List.mem_of_getElem? hpart)
  obtain ⟨r, log, hrun, hlength⟩ : ∃ r log, mountAndServe FileNames.ascii (fun _ => 0) 1 3
      ⟨bootDisk, 5, 16⟩ SessionDisks.oneFile [] = .ok (r, log) ∧
        r.map List.length = some 4 := by
    apply run_of_check
    decide +kernel
  obtain ⟨replies, rfl, hfour⟩ := Option.map_eq_some_iff.mp hlength
  obtain ⟨letter, m', hmain, hheld, -⟩ := hserves bootEnvironment rfl hdrive FileNames.ascii 3
    SessionDisks.oneFile replies log (hpartition ▸ hrun) Machine.start
  exact ⟨letter, replies, m', hmain, hfour, hheld⟩

end Programs

end Eokan.Startup
