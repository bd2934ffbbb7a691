import Eokan.PartPairs
import Eokan.Sessions

/-!
Sessions on two partitions of the same length. The nodes are the same all the
time, only the disks differ, so the replies are the same as well.
-/
namespace Eokan.SessionPairs

open ByteMem CInt Programs Device Devread Layout Mount Inodes ReadFile DokanRead NodeHeap Directory
  Resolve FileNames VolumeLabel Sessions Simulations PartPairs

/-- Two worlds that differ in their logs only. -/
def Beside (sim : Log → Log → Prop) (w w' : World) : Prop :=
  ∃ log, w' = w.withLog log ∧ sim w.log log

/-- A world is watched by its log. -/
def onLog (watch : Watch Log) : Watch World where
  after w w' := watch.after w.log w'.log
  good w := watch.good w.log
  refl w := watch.refl w.log
  trans h h' := watch.trans h h'
  back h hgood := watch.back h hgood

/-- The two programs do the same as long as the watched logs are good. -/
def Same (watch : Watch Log) (sim : Log → Log → Prop) {α : Type} (x y : NodeM α) : Prop :=
  Simulates (onLog watch) (Beside sim) x y

section Nodes
variable {watch : Watch Log} {sim : Log → Log → Prop} {α : Type}

theorem device_same {x y : DevM α} (h : Simulates watch sim x y) :
    Same watch sim (device x) (device y) := by
  constructor
  · intro w a w' hrun
    unfold device at hrun
    split at hrun
    · cases hrun
      exact h.after _ _ _ ‹_›
    · cases hrun
  · rintro w w' a w₁ ⟨log', rfl, hsim⟩ hrun hgood
    unfold device at hrun
    split at hrun
    · rename_i b log hx
      cases hrun
      obtain ⟨log₁, hy, hsim'⟩ := h.follows w.log log' a log hsim hx hgood
      have hlog : y (w.withLog log').log = .ok (a, log₁) := hy
      refine ⟨w.withLog log₁, ?_, log₁, rfl, hsim'⟩
      unfold device
      rw [hlog]
      rfl
    · cases hrun

/-- What looks at the nodes only does the same. -/
theorem same_of_nodes {x : NodeM α} (hlog : ∀ w a w', x w = .ok (a, w') → w'.log = w.log)
    (h : ∀ w a w' log, x w = .ok (a, w') → x (w.withLog log) = .ok (a, w'.withLog log)) :
    Same watch sim x x := by
  constructor
  · intro w a w' hrun
    have heq := hlog w a w' hrun
    change watch.after w.log w'.log
    rw [heq]
    exact watch.refl w.log
  · rintro w w' a w₁ ⟨log', rfl, hsim⟩ hrun _
    refine ⟨w₁.withLog log', h w a w₁ log' hrun, log', rfl, ?_⟩
    rw [hlog w a w₁ hrun]
    exact hsim

theorem deref_same (ref : NodeRef) : Same watch sim (deref ref) (deref ref) := by
  apply same_of_nodes
  · intro w a w' h
    unfold deref at h
    split at h <;> cases h
    rfl
  · intro w a w' log h
    unfold deref at h ⊢
    rw [get_withLog]
    split at h
    · cases h
      rfl
    · cases h

theorem store_same (ref : NodeRef) (node : Ext2fsNode) :
    Same watch sim (store ref node) (store ref node) := by
  apply same_of_nodes
  · intro w a w' h
    unfold store at h
    split at h <;> cases h
    exact log_set w ref node
  · intro w a w' log h
    unfold store at h ⊢
    rw [get_withLog]
    split at h
    · cases h
      rw [if_pos ‹_›]
      cases ref <;> rfl
    · cases h

theorem allocNode_same (node : Ext2fsNode) :
    Same watch sim (allocNode node) (allocNode node) := by
  apply same_of_nodes
  · intro w a w' h
    cases h
    rfl
  · intro w a w' log h
    cases h
    rfl

theorem free_same (id : ℕ) : Same watch sim (free id) (free id) := by
  apply same_of_nodes
  · intro w a w' h
    unfold free at h
    split at h <;> cases h
    rfl
  · intro w a w' log h
    unfold free at h ⊢
    split at h
    · cases h
      exact if_pos ‹_›
    · cases h

theorem ext4fsFreeNode_same (node currroot : NodeRef) :
    Same watch sim (ext4fsFreeNode node currroot) (ext4fsFreeNode node currroot) := by
  cases node with
  | diropen => exact Simulates.pure _
  | alloc id => exact Simulates.ite (fun _ => free_same id) fun _ => Simulates.pure _

theorem setInodeRead_same (ref : NodeRef) :
    Same watch sim (setInodeRead ref) (setInodeRead ref) :=
  (deref_same ref).bind fun _ => store_same ref _

end Nodes

section Directories
variable {watch : Watch Log} {sim : Log → Log → Prop} {fs : ExtFilesystem} {disk : DiskDescr}
  {off : ℕ} (h : Reads watch sim fs.devDesc (PartDescr.on fs.devDesc disk off))
include h

theorem readFileAt_same (fuel : ℕ) (ref : NodeRef) (pos len : ℤ) (buf : Bytes) :
    Same watch sim (readFileAt fs fuel ref pos len buf)
      (readFileAt (ExtFilesystem.on fs disk off) fuel ref pos len buf) := by
  apply (deref_same ref).bind
  intro node
  apply (device_same (ext4fsReadFile_simulates h fuel node _ _ _)).bind
  intro r
  exact (store_same ref _).bind fun _ => Simulates.pure _

theorem loadInode_same (ref : NodeRef) :
    Same watch sim (loadInode fs ref) (loadInode (ExtFilesystem.on fs disk off) ref) := by
  apply (deref_same ref).bind
  intro node
  apply (device_same (ext4fsReadInode_simulates h _ _)).bind
  intro r
  exact (store_same ref _).bind fun _ => Simulates.pure _

theorem needInode_same (ref : NodeRef) :
    Same watch sim (needInode fs ref) (needInode (ExtFilesystem.on fs disk off) ref) := by
  apply (deref_same ref).bind
  intro node
  apply Simulates.ite (fun _ => Simulates.pure _)
  intro _
  exact (loadInode_same h ref).bind fun _ => Simulates.pure _

theorem entryType_same (id : ℕ) (dirent : Ext2Dirent) :
    Same watch sim (entryType fs id dirent)
      (entryType (ExtFilesystem.on fs disk off) id dirent) := by
  apply Simulates.ite (fun _ => Simulates.pure _)
  intro _
  apply (loadInode_same h _).bind
  intro status
  apply Simulates.ite (fun _ => Simulates.pure _)
  intro _
  apply (setInodeRead_same _).bind
  intro _
  exact (deref_same _).bind fun _ => Simulates.pure _

variable {α : Type}

theorem listEntry_same (id : ℕ) (filename : List UInt8) (type : FileType)
    (dirFunc : Option (α → List UInt8 → Xstat → Bool → ℤ × α)) (data : α) :
    Same watch sim (listEntry fs id filename type dirFunc data)
      (listEntry (ExtFilesystem.on fs disk off) id filename type dirFunc data) := by
  apply (needInode_same h _).bind
  intro read
  apply Simulates.ite (fun _ => Simulates.pure _)
  intro _
  apply (setInodeRead_same _).bind
  intro _
  apply (deref_same _).bind
  intro node
  cases dirFunc <;> exact Simulates.pure _

theorem visitEntry_same (mode : DirMode α) (dirent : Ext2Dirent) (filename : List UInt8)
    (data : α) :
    Same watch sim (visitEntry fs mode dirent filename data)
      (visitEntry (ExtFilesystem.on fs disk off) mode dirent filename data) := by
  apply (allocNode_same _).bind
  intro id
  apply (entryType_same h id dirent).bind
  intro type
  cases type with
  | none => exact (free_same id).bind fun _ => Simulates.pure _
  | some type =>
    cases mode with
    | lookup name =>
      apply Simulates.ite (fun _ => Simulates.pure _)
      intro _
      exact (free_same id).bind fun _ => Simulates.pure _
    | list dirFunc =>
      apply (listEntry_same h id filename type dirFunc data).bind
      intro listed
      apply (free_same id).bind
      intro _
      cases listed <;> exact Simulates.pure _

theorem iterateFrom_same (fuel : ℕ) (dir : NodeRef) (mode : DirMode α) (steps fpos : ℕ)
    (data : α) :
    Same watch sim (iterateFrom fs fuel dir mode steps fpos data)
      (iterateFrom (ExtFilesystem.on fs disk off) fuel dir mode steps fpos data) := by
  induction steps generalizing fpos data with
  | zero => exact Simulates.fault _
  | succ steps ih =>
    apply (deref_same dir).bind
    intro diro
    apply Simulates.ite
    · intro _
      apply (readFileAt_same h fuel dir _ _ _).bind
      intro r
      apply Simulates.ite (fun _ => Simulates.pure _)
      intro _
      apply Simulates.ite (fun _ => ih _ _)
      intro _
      apply (readFileAt_same h fuel dir _ _ _).bind
      intro r'
      apply Simulates.ite (fun _ => Simulates.pure _)
      intro _
      apply (visitEntry_same h mode _ _ data).bind
      intro visit
      cases visit with
      | done found data' => exact Simulates.pure _
      | next got data' => exact Simulates.ite (fun _ => Simulates.pure _) fun _ => ih _ _
    · intro _
      exact Simulates.pure _

theorem ext4fsIterateDir_same (fuel steps : ℕ) (dir : NodeRef) (mode : DirMode α) (data : α) :
    Same watch sim (ext4fsIterateDir fs fuel steps dir mode data)
      (ext4fsIterateDir (ExtFilesystem.on fs disk off) fuel steps dir mode data) := by
  apply (needInode_same h dir).bind
  intro read
  exact Simulates.ite (fun _ => Simulates.pure _) fun _ => iterateFrom_same h fuel dir mode _ _ _

end Directories

section Searches
variable {watch : Watch Log} {sim : Log → Log → Prop} {fs : ExtFilesystem} {disk : DiskDescr}
  {off : ℕ} (h : Reads watch sim fs.devDesc (PartDescr.on fs.devDesc disk off)) (fuel steps : ℕ)
include h

theorem ext4fsReadSymlink_same (ref : NodeRef) :
    Same watch sim (ext4fsReadSymlink fs fuel ref)
      (ext4fsReadSymlink (ExtFilesystem.on fs disk off) fuel ref) := by
  apply (needInode_same h ref).bind
  intro read
  apply Simulates.ite (fun _ => Simulates.pure _)
  intro _
  apply (deref_same ref).bind
  intro diro
  apply Simulates.ite (fun _ => Simulates.fault _)
  intro _
  apply Simulates.ite (fun _ => Simulates.pure _)
  intro _
  apply (readFileAt_same h fuel ref _ _ _).bind
  intro r
  exact Simulates.ite (fun _ => Simulates.pure _) fun _ => Simulates.pure _

/-- A link is followed the same way if its target is. -/
theorem followLink_same {follow follow' : List UInt8 → NodeRef → ℕ → NodeM (Option Found)}
    (hfollow : ∀ path start k, Same watch sim (follow path start k) (follow' path start k))
    (link oldnode currroot : NodeRef) (symlinknest : ℕ) :
    Same watch sim (followLink fs fuel follow link oldnode currroot symlinknest)
      (followLink (ExtFilesystem.on fs disk off) fuel follow' link oldnode currroot
        symlinknest) := by
  apply Simulates.ite
  · intro _
    apply (ext4fsFreeNode_same link currroot).bind
    intro _
    exact (ext4fsFreeNode_same oldnode currroot).bind fun _ => Simulates.pure _
  intro _
  have htake : Same watch sim (takeLink fs fuel link currroot)
      (takeLink (ExtFilesystem.on fs disk off) fuel link currroot) := by
    apply (ext4fsReadSymlink_same h fuel link).bind
    intro symlink
    exact (ext4fsFreeNode_same link currroot).bind fun _ => Simulates.pure _
  apply htake.bind
  intro symlink
  cases symlink with
  | none => exact (ext4fsFreeNode_same oldnode currroot).bind fun _ => Simulates.pure _
  | some symlink =>
    have hstart : Same watch sim (linkStart symlink oldnode currroot)
        (linkStart symlink oldnode currroot) := by
      apply Simulates.ite
      · intro _
        exact (ext4fsFreeNode_same oldnode currroot).bind fun _ => Simulates.pure _
      · intro _
        exact Simulates.pure _
    apply hstart.bind
    intro start
    apply (hfollow symlink start _).bind
    intro found
    cases found with
    | none => exact (ext4fsFreeNode_same start currroot).bind fun _ => Simulates.pure _
    | some found => exact Simulates.pure _

theorem walk_same {follow follow' : List UInt8 → NodeRef → ℕ → NodeM (Option Found)}
    (hfollow : ∀ path start k, Same watch sim (follow path start k) (follow' path start k))
    (currroot : NodeRef) (path : List (List UInt8)) (currnode : NodeRef) (type : FileType)
    (symlinknest : ℕ) :
    Same watch sim (walk fs fuel steps follow currroot path currnode type symlinknest)
      (walk (ExtFilesystem.on fs disk off) fuel steps follow' currroot path currnode type
        symlinknest) := by
  induction path generalizing currnode type symlinknest with
  | nil => exact (deref_same currnode).bind fun _ => Simulates.pure _
  | cons name next ih =>
    apply Simulates.ite
    · intro _
      exact (ext4fsFreeNode_same currnode currroot).bind fun _ => Simulates.pure _
    intro _
    have hlookup : Same watch sim (lookupIn fs fuel steps currnode name)
        (lookupIn (ExtFilesystem.on fs disk off) fuel steps currnode name) :=
      (ext4fsIterateDir_same h fuel steps currnode _ _).bind fun _ => Simulates.pure _
    apply hlookup.bind
    intro found
    rcases found with _ | ⟨entry, type'⟩
    · exact Simulates.pure _
    cases type' with
    | symlink =>
      apply (followLink_same h fuel hfollow (.alloc entry) currnode currroot symlinknest).bind
      intro res
      cases res with
      | none => exact Simulates.pure _
      | some res => exact (ext4fsFreeNode_same _ currroot).bind fun _ => ih _ _ _
    | unknown => exact (ext4fsFreeNode_same currnode currroot).bind fun _ => ih _ _ _
    | reg => exact (ext4fsFreeNode_same currnode currroot).bind fun _ => ih _ _ _
    | directory => exact (ext4fsFreeNode_same currnode currroot).bind fun _ => ih _ _ _

theorem ext4fsFindFile1_same (depth : ℕ) (path : List UInt8) (start : NodeRef) (k : ℕ) :
    Same watch sim (ext4fsFindFile1 fs fuel steps depth path start k)
      (ext4fsFindFile1 (ExtFilesystem.on fs disk off) fuel steps depth path start k) := by
  induction depth generalizing path start k with
  | zero => exact Simulates.fault _
  | succ depth ih =>
    unfold ext4fsFindFile1
    cases names path with
    | nil => exact Simulates.pure _
    | cons name next => exact walk_same h fuel steps ih start _ start _ _

theorem ext4fsFindFile_same (path : List UInt8) (rootnode : NodeRef) (expecttype : FileType) :
    Same watch sim (ext4fsFindFile fs fuel steps path rootnode expecttype)
      (ext4fsFindFile (ExtFilesystem.on fs disk off) fuel steps path rootnode expecttype) := by
  apply (ext4fsFindFile1_same h fuel steps 8 path rootnode 0).bind
  intro found
  cases found with
  | none => exact Simulates.pure _
  | some found =>
    apply Simulates.ite (fun _ => Simulates.pure _)
    intro _
    exact Simulates.ite (fun _ => Simulates.pure _) fun _ => Simulates.pure _

omit h in
theorem openFail_same (found : Option NodeRef) :
    Same watch sim (openFail found) (openFail found) := by
  cases found with
  | none => exact Simulates.pure _
  | some node => exact (ext4fsFreeNode_same node _).bind fun _ => Simulates.pure _

theorem ext4fsOpen_same (filename : List UInt8) :
    Same watch sim (ext4fsOpen fs fuel steps filename)
      (ext4fsOpen (ExtFilesystem.on fs disk off) fuel steps filename) := by
  apply (ext4fsFindFile_same h fuel steps filename _ _).bind
  rintro ⟨status, found⟩
  cases status with
  | false => exact openFail_same found
  | true =>
    cases found with
    | none => exact openFail_same none
    | some node =>
      apply (needInode_same h node).bind
      intro read
      exact Simulates.ite (fun _ => openFail_same _) fun _ => Simulates.pure _

theorem ext4fsListFiles_same {α : Type} (dirname : List UInt8)
    (func : Option (α → List UInt8 → Xstat → Bool → ℤ × α)) (data : α) :
    Same watch sim (ext4fsListFiles fs fuel steps dirname func data)
      (ext4fsListFiles (ExtFilesystem.on fs disk off) fuel steps dirname func data) := by
  apply (ext4fsFindFile_same h fuel steps dirname _ _).bind
  rintro ⟨status, found⟩
  cases status with
  | false => exact Simulates.pure _
  | true =>
    cases found with
    | none => exact Simulates.pure _
    | some node =>
      apply (ext4fsIterateDir_same h fuel steps node _ data).bind
      intro r
      exact (ext4fsFreeNode_same node _).bind fun _ => Simulates.pure _

end Searches

section Callbacks
variable {watch : Watch Log} {sim : Log → Log → Prop} {fs : ExtFilesystem} {disk : DiskDescr}
  {off : ℕ} (h : Reads watch sim fs.devDesc (PartDescr.on fs.devDesc disk off))
  (api : Conversions) (fuel steps : ℕ)
include h

theorem callback_same (call : Callback) (contexts : Contexts) :
    Same watch sim (callback api fs fuel steps call contexts)
      (callback api (ExtFilesystem.on fs disk off) fuel steps call contexts) := by
  cases call with
  | createFile handle fileName isDirectory =>
    have hcreate : Same watch sim (createFile api fs fuel steps fileName isDirectory)
        (createFile api (ExtFilesystem.on fs disk off) fuel steps fileName isDirectory) := by
      apply Simulates.ite (fun _ => Simulates.pure _)
      intro _
      exact (ext4fsOpen_same h fuel steps _).bind fun _ => Simulates.pure _
    exact hcreate.bind fun _ => Simulates.pure _
  | openDirectory handle => exact Simulates.pure _
  | closeFile handle =>
    unfold callback closeFile
    dsimp only
    split
    · exact Simulates.pure _
    · exact (ext4fsFreeNode_same _ _).bind fun _ => Simulates.pure _
  | readFile handle buffer bufferLength offset =>
    have hread : Same watch sim
        (readHandle fs fuel (contexts handle) buffer bufferLength offset)
        (readHandle (ExtFilesystem.on fs disk off) fuel (contexts handle) buffer bufferLength
          offset) := by
      cases contexts handle with
      | none => exact (device_same (Simulates.pure _)).bind fun _ => Simulates.pure _
      | some filp =>
        apply (deref_same filp).bind
        intro node
        apply (device_same (readFile_simulates h fuel (some node) _ _ _)).bind
        intro r
        exact (store_same filp _).bind fun _ => Simulates.pure _
    exact hread.bind fun _ => Simulates.pure _
  | getFileInformation handle info =>
    have hstat : Same watch sim (statHandle (contexts handle) info)
        (statHandle (contexts handle) info) := by
      cases contexts handle with
      | none => exact Simulates.pure _
      | some filp => exact (deref_same filp).bind fun _ => Simulates.pure _
    exact hstat.bind fun _ => Simulates.pure _
  | findFiles fileName =>
    have hfind : Same watch sim
        (findFiles api fs fuel steps fileName (fun found data => found ++ [data]) [])
        (findFiles api (ExtFilesystem.on fs disk off) fuel steps fileName
          (fun found data => found ++ [data]) []) :=
      (ext4fsListFiles_same h fuel steps _ _ _).bind fun _ => Simulates.pure _
    exact hfind.bind fun _ => Simulates.pure _
  | getDiskFreeSpace => exact Simulates.pure _
  | getVolumeInformation volumeNameSize =>
    have hsame : getVolumeInformation api (ExtFilesystem.on fs disk off) volumeNameSize =
        getVolumeInformation api fs volumeNameSize := rfl
    unfold callback
    dsimp only
    rw [hsame]
    exact (device_same (Simulates.lift _)).bind fun _ => Simulates.pure _
  | ignored function => exact Simulates.pure _

theorem serve_same (calls : List Callback) (contexts : Contexts) :
    Same watch sim (serve api fs fuel steps calls contexts)
      (serve api (ExtFilesystem.on fs disk off) fuel steps calls contexts) := by
  induction calls generalizing contexts with
  | nil => exact Simulates.pure _
  | cons call calls ih =>
    apply (callback_same h api fuel steps call contexts).bind
    intro r
    exact (ih r.2).bind fun _ => Simulates.pure _

theorem eokanMain_simulates (root : Ext2fsNode) (calls : List Callback) :
    Simulates watch sim (eokanMain api fs fuel steps root calls)
      (eokanMain api (ExtFilesystem.on fs disk off) fuel steps root calls) := by
  have hserve := serve_same h api fuel steps calls noContexts
  constructor
  · intro log replies log' hrun
    unfold eokanMain at hrun
    split at hrun
    · rename_i hw
      cases hrun
      exact hserve.after _ _ _ hw
    · cases hrun
  · intro log log' replies log₁ hsim hrun hgood
    unfold eokanMain at hrun
    split at hrun
    · rename_i replies contexts w hw
      cases hrun
      obtain ⟨w', hw', log₂, rfl, hsim'⟩ := hserve.follows (World.mounted root log)
        (World.mounted root log') _ w ⟨log', rfl, hsim⟩ hw hgood
      refine ⟨log₂, ?_, hsim'⟩
      unfold eokanMain
      rw [hw']
      rfl
    · cases hrun

end Callbacks

section Sessions
variable (api : Conversions) (past : Bytes) (fuel steps : ℕ)

/-- The mount and the session in one program. -/
theorem mountAndServe_eq (part : PartDescr) (calls : List Callback) :
    mountAndServe api past fuel steps part calls = (do
      let (status, raw) ← vfsDevread part 2 0 204 sblockBuf 0
      let sblock : Ext2Sblock := ⟨raw⟩
      if status = 0 then pure none
      else if sblock.magic ≠ ext2Magic then pure none
      else do
        let inodesz := if sblock.revisionLevel = 0 then 128 else sblock.inodeSize
        let fs : ExtFilesystem := { blksz := 0, inodesz, devDesc := part, sblock, past }
        checkShifts fs
        let (status, inode) ← ext4fsReadInode fs ext2RootIno diropen.inode
        if status = 0 then pure none
        else do
          let replies ← eokanMain api fs fuel steps { diropen with inode } calls
          pure (some replies)) := by
  unfold mountAndServe ext4fsMount
  rw [bind_assoc]
  congr 1
  funext r
  dsimp only
  split
  · rfl
  split
  · rfl
  rw [bind_assoc]
  congr 1
  funext _
  rw [bind_assoc]
  congr 1
  funext r'
  split
  · rfl
  · rfl

variable {watch : Watch Log} {sim : Log → Log → Prop} {part : PartDescr} {disk : DiskDescr}
  {off : ℕ} (h : Reads watch sim part (PartDescr.on part disk off))
include h

/-- From the mount on, all that is seen of the one partition is seen of the other. -/
theorem mountAndServe_simulates (calls : List Callback) :
    Simulates watch sim (mountAndServe api past fuel steps part calls)
      (mountAndServe api past fuel steps (PartDescr.on part disk off) calls) := by
  rw [mountAndServe_eq, mountAndServe_eq]
  apply (vfsDevread_simulates h _ _ _ _ _).bind
  intro r
  apply Simulates.ite (fun _ => Simulates.pure _)
  intro _
  apply Simulates.ite (fun _ => Simulates.pure _)
  intro _
  apply (Simulates.lift _).bind
  intro _
  refine Simulates.bind (ext4fsReadInode_simulates h _ _) fun r' => ?_
  apply Simulates.ite (fun _ => Simulates.pure _)
  intro _
  exact Simulates.bind (eokanMain_simulates h api fuel steps _ calls) fun _ => Simulates.pure _

end Sessions

end Eokan.SessionPairs
