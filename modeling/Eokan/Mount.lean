import Eokan.Inodes

/-!
Mounting. The superblock is read, some of its fields are copied, and the root
inode is read into the node that all paths start from. The block size field
of the file system is not among the fields that are set.
-/
namespace Eokan.Mount

open ByteMem CInt Programs Device Devread Layout Inodes

/-- The 1024 bytes at most that a superblock is read into are zero before. -/
def sblockBuf : Bytes := fun _ => 0

def ext2Magic : ℕ := 0xef53

def ext2RootIno : ℤ := 2

/-- The root node, before its inode is read into it. -/
def diropen : Ext2fsNode :=
  ⟨⟨fun _ => 0⟩, ⟨none, 0, 0⟩, ⟨none, 0, 0⟩, ⟨none, 0, 0⟩, ext2RootIno, true⟩

/-- The file system is allocated with zeros, also where a field is never set. -/
def ext4fsMount (past : Bytes) (part : PartDescr) :
    DevM (Option (ExtFilesystem × Ext2fsNode)) := do
  let (status, raw) ← vfsDevread part 2 0 204 sblockBuf 0
  let sblock : Ext2Sblock := ⟨raw⟩
  if status = 0 then pure none
  else if sblock.magic ≠ ext2Magic then pure none
  else do
    let inodesz := if sblock.revisionLevel = 0 then 128 else sblock.inodeSize
    let fs : ExtFilesystem := { blksz := 0, inodesz, devDesc := part, sblock, past }
    checkShifts fs
    let (status, inode) ← ext4fsReadInode fs ext2RootIno diropen.inode
    if status = 0 then pure none
    else pure (some (fs, { diropen with inode }))

/-- What a mounted file system is. -/
structure Mounted (part : PartDescr) (fs : ExtFilesystem) (root : Ext2fsNode) : Prop where
  devDesc : fs.devDesc = part
  blksz : fs.blksz = 0
  shifts : fs.sblock.log2BlockSize ≤ 20
  magic : fs.sblock.magic = ext2Magic
  indir1 : root.indir1.block = none
  indir2 : root.indir2.block = none
  indir3 : root.indir3.block = none

theorem checkShifts_eq_ok (fs : ExtFilesystem) (u : Unit) (h : checkShifts fs = .ok u) :
    fs.sblock.log2BlockSize ≤ 20 := by
  unfold checkShifts at h
  by_cases hle : fs.sblock.log2BlockSize ≤ 20
  · exact hle
  · rw [if_neg hle] at h
    cases h

/-- Every successful mount has these properties. -/
theorem ext4fsMount_mounted (past : Bytes) (part : PartDescr) (log log' : Log)
    (fs : ExtFilesystem) (root : Ext2fsNode)
    (h : ext4fsMount past part log = .ok (some (fs, root), log')) : Mounted part fs root := by
  unfold ext4fsMount at h
  obtain ⟨⟨status, raw⟩, log₁, -, h⟩ := bind_eq_ok h
  dsimp only at h
  by_cases hstatus : status = 0
  · rw [if_pos hstatus] at h
    cases h
  rw [if_neg hstatus] at h
  by_cases hmagic : (⟨raw⟩ : Ext2Sblock).magic ≠ ext2Magic
  · rw [if_pos hmagic] at h
    cases h
  rw [if_neg hmagic] at h
  obtain ⟨u, log₂, hshift, h⟩ := bind_eq_ok h
  obtain ⟨⟨status', inode⟩, log₃, -, h⟩ := bind_eq_ok h
  dsimp only at h
  by_cases hstatus' : status' = 0
  · rw [if_pos hstatus'] at h
    cases h
  rw [if_neg hstatus'] at h
  cases h
  refine ⟨rfl, rfl, ?_, Classical.not_not.mp hmagic, rfl, rfl, rfl⟩
  cases hcheck : checkShifts _ with
  | error e =>
    rw [hcheck] at hshift
    cases hshift
  | ok v => exact checkShifts_eq_ok _ v hcheck

/-- The inode of the root is the one that is read for its number. -/
theorem ext4fsMount_root (past : Bytes) (part : PartDescr) (log log' : Log)
    (fs : ExtFilesystem) (root : Ext2fsNode)
    (h : ext4fsMount past part log = .ok (some (fs, root), log')) {bytes : Bytes}
    (hread : ReadsInode fs ext2RootIno bytes) :
    root = { diropen with inode := ⟨write (fun _ => 0) 0 128 bytes⟩ } := by
  unfold ext4fsMount at h
  obtain ⟨⟨status, raw⟩, log₁, -, h⟩ := bind_eq_ok h
  dsimp only at h
  split at h
  · cases h
  split at h
  · cases h
  obtain ⟨u, log₂, -, h⟩ := bind_eq_ok h
  obtain ⟨⟨status', inode⟩, log₃, hinode, h⟩ := bind_eq_ok h
  dsimp only at h
  split at h
  · cases h
  cases h
  obtain ⟨r, log₄, hrun, -, hraw⟩ := hread diropen.inode log₂
  rw [hinode] at hrun
  cases hrun
  exact congrArg (fun inode => { diropen with inode }) (congrArg Ext2Inode.mk hraw)

/-- A mount can be evaluated, with a check of what it yields. -/
theorem mount_of_check (past : Bytes) (part : PartDescr)
    (p : ExtFilesystem → Ext2fsNode → Log → Prop) [∀ fs root log, Decidable (p fs root log)]
    (hcheck : (match ext4fsMount past part [] with
      | .ok (some (fs, root), log) => decide (p fs root log)
      | _ => false) = true) :
    ∃ fs root log, ext4fsMount past part [] = .ok (some (fs, root), log) ∧ p fs root log := by
  split at hcheck
  · rename_i fs root log hrun
    exact ⟨fs, root, log, hrun, of_decide_eq_true hcheck⟩
  · exact absurd hcheck Bool.false_ne_true

end Eokan.Mount
