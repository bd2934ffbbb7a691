import Eokan.Mount
import Eokan.ReadFaults

/-!
Divisions and shifts by fields of the superblock. Mounting checks the magic
number and nothing else. The block size, the inodes of a group and the size of
an inode go into shifts and divisors as they are.
-/
namespace Eokan.MountChecks

open ByteMem CInt Programs Device Devread Layout BlockMap Inodes Mount ReadFile
  ReadFaults

/-- A division by zero, or a block size that no shift gives an `int`. What wraps is no
fault. -/
def Arithmetic (e : Fault) : Prop := e = .badShift ∨ e = .divByZero

/-- The inode size that a file system is mounted with. -/
def inodeSizeOf (sb : Ext2Sblock) : ℕ := if sb.revisionLevel = 0 then 128 else sb.inodeSize

/-- The file system that is mounted with a superblock. -/
def mountedFs (past : Bytes) (part : PartDescr) (sb : Ext2Sblock) : ExtFilesystem :=
  { blksz := 0, inodesz := inodeSizeOf sb, devDesc := part, sblock := sb, past }

/-- Mounting and what follows it are free of arithmetic faults: reads of any
inode and any descriptor, and of any file through any node. -/
def MountSafe (past : Bytes) (part : PartDescr) (log : Log) : Prop :=
  (∀ e, ext4fsMount past part log = .error e → ¬ Arithmetic e) ∧
  ∀ fs root log', ext4fsMount past part log = .ok (some (fs, root), log') →
    (∀ ino inode, Avoids Arithmetic (ext4fsReadInode fs ino inode)) ∧
    (∀ group, Avoids Arithmetic (ext4fsBlockgroup fs group)) ∧
    ∀ fuel node pos len buf, Avoids Arithmetic (ext4fsReadFile fs fuel node pos len buf)

/-- The group of the root inode, as the code computes it. -/
def rootGroup (sb : Ext2Sblock) : ℤ := int32 (uint32 (int32 (ext2RootIno - 1)) / sb.inodesPerGroup)

/-- The descriptor that mounting needs is read, after the reads in log. -/
def RootGroupReadable (past : Bytes) (part : PartDescr) (sb : Ext2Sblock) (log : Log) : Prop :=
  ∃ status desc log', status ≠ 0 ∧
    ext4fsBlockgroup (mountedFs past part sb) (rootGroup sb) log = .ok ((status, desc), log')

/-- The fields of a superblock that passes the magic check are fit for use. The
size of an inode matters only if the descriptor of the root can be read. -/
def FieldsFit (past : Bytes) (part : PartDescr) (log : Log) : Prop :=
  ∀ status raw log', vfsDevread part 2 0 204 sblockBuf 0 log = .ok ((status, raw), log') →
    status ≠ 0 → Ext2Sblock.magic ⟨raw⟩ = ext2Magic →
      (Ext2Sblock.log2BlockSize ⟨raw⟩ ≤ 20 ∧ Ext2Sblock.inodesPerGroup ⟨raw⟩ ≠ 0) ∧
      (RootGroupReadable past part ⟨raw⟩ log' →
        inodeSizeOf ⟨raw⟩ ≠ 0 ∧ inodeSizeOf ⟨raw⟩ ≤ ext2BlockSize (mountedFs past part ⟨raw⟩))

/-- After the magic check the rest of a mount is the read of the root inode. -/
theorem ext4fsMount_run (past : Bytes) (part : PartDescr) (log log' : Log) (status : ℤ)
    (raw : Bytes) (hread : vfsDevread part 2 0 204 sblockBuf 0 log = .ok ((status, raw), log'))
    (hstatus : status ≠ 0) (hmagic : Ext2Sblock.magic ⟨raw⟩ = ext2Magic) :
    ext4fsMount past part log = (do
      checkShifts (mountedFs past part ⟨raw⟩)
      let (status, inode) ← ext4fsReadInode (mountedFs past part ⟨raw⟩) ext2RootIno diropen.inode
      if status = 0 then pure none
      else pure (some (mountedFs past part ⟨raw⟩, { diropen with inode })) :
        DevM (Option (ExtFilesystem × Ext2fsNode))) log' := by
  unfold ext4fsMount
  rw [bind_ok hread]
  dsimp only
  rw [if_neg hstatus, if_neg (not_not_intro hmagic)]
  rfl

section RootInode
variable (fs : ExtFilesystem) (log : Log)

theorem readInode_of_desc (hgroup : fs.sblock.inodesPerGroup ≠ 0) (status : ℤ)
    (desc : Ext2BlockGroup) (log' : Log) (inode : Ext2Inode)
    (hdesc : ext4fsBlockgroup fs (rootGroup fs.sblock) log = .ok ((status, desc), log')) :
    (status = 0 → ext4fsReadInode fs ext2RootIno inode log = .ok ((0, inode), log')) ∧
    (status ≠ 0 → ¬ (fs.inodesz ≠ 0 ∧ fs.inodesz ≤ ext2BlockSize fs) →
      ext4fsReadInode fs ext2RootIno inode log = .error .divByZero) := by
  unfold rootGroup at hdesc
  unfold ext4fsReadInode
  simp only [hgroup, if_false]
  constructor
  · intro hzero
    rw [bind_ok hdesc, if_pos hzero]
    rfl
  · intro hne hbad
    rw [bind_ok hdesc, if_neg hne]
    by_cases hsize : fs.inodesz = 0
    · rw [if_pos hsize]
      rfl
    · have hsmall : ext2BlockSize fs / fs.inodesz = 0 :=
        Nat.div_eq_of_lt (Nat.lt_of_not_le fun hle => hbad ⟨hsize, hle⟩)
      rw [if_neg hsize, if_pos hsmall]
      rfl

theorem blockgroup_total (hlog : fs.sblock.log2BlockSize ≤ 20) (group : ℤ) :
    ∃ status desc log', ext4fsBlockgroup fs group log = .ok ((status, desc), log') := by
  have hshifts : checkShifts fs = .ok () := if_pos hlog
  unfold ext4fsBlockgroup
  rw [bind_ok (lift_ok hshifts log)]
  obtain ⟨⟨status, raw⟩, log', hread⟩ := vfsDevread_total fs.devDesc _ _ _ _ _ log
  exact ⟨status, ⟨raw⟩, log', bind_ok hread⟩

end RootInode

section Mounts
variable (past : Bytes) (part : PartDescr) (log : Log)

theorem fieldsFit_of_mountSafe (hsafe : MountSafe past part log) : FieldsFit past part log := by
  intro status raw log' hread hstatus hmagic
  have hrun := ext4fsMount_run past part log log' status raw hread hstatus hmagic
  have hnever := hsafe.1
  rw [hrun] at hnever
  have hlog : Ext2Sblock.log2BlockSize ⟨raw⟩ ≤ 20 := by
    by_contra hbig
    have hshifts : checkShifts (mountedFs past part ⟨raw⟩) = .error .badShift := if_neg hbig
    refine hnever .badShift ?_ (Or.inl rfl)
    rw [hshifts]
    rfl
  have hshifts : checkShifts (mountedFs past part ⟨raw⟩) = .ok () := if_pos hlog
  rw [bind_ok (lift_ok hshifts log')] at hnever
  have hgroup : Ext2Sblock.inodesPerGroup ⟨raw⟩ ≠ 0 := by
    intro hzero
    refine hnever .divByZero (bind_error ?_) (Or.inr rfl)
    exact congrFun (if_pos hzero) log'
  refine ⟨⟨hlog, hgroup⟩, ?_⟩
  intro ⟨status', desc, log₂, hne, hdesc⟩
  by_contra hbad
  have hfault := (readInode_of_desc (mountedFs past part ⟨raw⟩) log' hgroup status' desc log₂
    diropen.inode hdesc).2 hne hbad
  exact hnever .divByZero (bind_error hfault) (Or.inr rfl)

theorem mountSafe_of_fieldsFit (hfit : FieldsFit past part log) : MountSafe past part log := by
  obtain ⟨⟨status, raw⟩, log', hread⟩ := vfsDevread_total part 2 0 204 sblockBuf 0 log
  by_cases hstatus : status = 0
  · have hnone : ext4fsMount past part log = .ok (none, log') := by
      unfold ext4fsMount
      rw [bind_ok hread]
      dsimp only
      rw [if_pos hstatus]
      rfl
    unfold MountSafe
    simp [hnone]
  by_cases hmagic : Ext2Sblock.magic ⟨raw⟩ = ext2Magic
  swap
  · have hnone : ext4fsMount past part log = .ok (none, log') := by
      unfold ext4fsMount
      rw [bind_ok hread]
      dsimp only
      rw [if_neg hstatus, if_pos hmagic]
      rfl
    unfold MountSafe
    simp [hnone]
  obtain ⟨⟨hlog, hgroup⟩, hsize⟩ := hfit status raw log' hread hstatus hmagic
  have hrun := ext4fsMount_run past part log log' status raw hread hstatus hmagic
  have hshifts : checkShifts (mountedFs past part ⟨raw⟩) = .ok () := if_pos hlog
  rw [bind_ok (lift_ok hshifts log')] at hrun
  obtain ⟨status', desc, log₂, hdesc⟩ :=
    blockgroup_total (mountedFs past part ⟨raw⟩) log' hlog (rootGroup ⟨raw⟩)
  by_cases hzero : status' = 0
  · -- the mount fails before it divides by the size of an inode
    have hinode := (readInode_of_desc (mountedFs past part ⟨raw⟩) log' hgroup status' desc log₂
      diropen.inode hdesc).1 hzero
    rw [bind_ok hinode] at hrun
    have hnone : ext4fsMount past part log = .ok (none, log₂) := hrun
    unfold MountSafe
    simp [hnone]
  obtain ⟨hpos, hfits⟩ := hsize ⟨status', desc, log₂, hzero, hdesc⟩
  have hinodes := ext4fsReadInode_avoids (mountedFs past part ⟨raw⟩) Arithmetic (fun _ => hlog)
    fun _ => ⟨hgroup, hpos, hfits⟩
  constructor
  · intro e herror
    rw [hrun] at herror
    refine Avoids.bind (hinodes ext2RootIno diropen.inode) (fun r => ?_) log' e herror
    exact Avoids.ite (fun _ => Avoids.pure _) fun _ => Avoids.pure _
  · intro fs root log₃ hmount
    have hfs : fs = mountedFs past part ⟨raw⟩ := by
      rw [hrun] at hmount
      obtain ⟨⟨status₂, inode⟩, log₄, -, hmount⟩ := bind_eq_ok hmount
      dsimp only at hmount
      split at hmount
      · cases hmount
      · cases hmount
        rfl
    rw [hfs]
    exact ⟨hinodes, ext4fsBlockgroup_avoids _ Arithmetic fun _ => hlog,
      ext4fsReadFile_avoids _ Arithmetic (fun _ => hlog) (by simp [Arithmetic])
        (by simp [Arithmetic])⟩

/-- No division by zero and no undefined shift, in a mount and ever after,
exactly if the fields that go into them are fit. -/
theorem mountSafe_iff : MountSafe past part log ↔ FieldsFit past part log :=
  ⟨fieldsFit_of_mountSafe past part log, mountSafe_of_fieldsFit past part log⟩

end Mounts

/-- A superblock that is zero apart from its magic number. -/
def bareImage : Bytes := fun b =>
  match b with
  | 1080 => 0x53
  | 1081 => 0xef
  | _ => 0

/-- Mounting it divides by the inodes of a group, which are 0. -/
theorem bare_superblock_divides_by_zero :
    ¬ MountSafe (fun _ => 0) ⟨DiskDescr.ofImage bareImage, 0, 16⟩ [] := by
  have hcheck : (match ext4fsMount (fun _ => 0) ⟨DiskDescr.ofImage bareImage, 0, 16⟩ [] with
      | .error e => decide (e = .divByZero)
      | .ok _ => false) = true := by
    decide +kernel
  intro hsafe
  split at hcheck
  · rename_i e hrun
    exact hsafe.1 e hrun (Or.inr (of_decide_eq_true hcheck))
  · exact absurd hcheck Bool.false_ne_true

end Eokan.MountChecks
