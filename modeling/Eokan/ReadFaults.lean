import Eokan.IndirectWalk
import Eokan.Inodes
import Eokan.ReadFile

/-!
The faults that reads can end in. A failed read of the disk is a status and no
fault. What is left are shifts by the block size, divisions by fields of the
superblock and by a product of the block size, a negative block and an extent
tree that is too deep.
-/
namespace Eokan.ReadFaults

open ByteMem CInt Programs Device Devread Layout BlockMap IndirectWalk Inodes ReadFile

section Reads
variable (part : PartDescr)

/-- Reads fail with a status, they do not fault. -/
theorem diskRead_avoids (bad : Fault → Prop) (disk : DiskDescr) (start num : ℤ) (buf : Bytes)
    (dst : ℕ) : Avoids bad (diskRead disk start num buf dst) := by
  intro log e h
  unfold diskRead at h
  dsimp only at h
  split at h
  · cases h
  · cases h

theorem readRest_avoids (bad : Fault → Prop) (sector byteLen : ℤ) (buf : Bytes) (dst : ℕ) :
    Avoids bad (readRest part sector byteLen buf dst) := by
  apply Avoids.ite
  · intro _
    exact Avoids.pure _
  · intro _
    apply Avoids.bind (diskRead_avoids bad _ _ _ _ _)
    intro r
    exact Avoids.ite (fun _ => Avoids.pure _) fun _ => Avoids.pure _

theorem readAligned_avoids (bad : Fault → Prop) (sector byteLen : ℤ) (buf : Bytes) (dst : ℕ) :
    Avoids bad (readAligned part sector byteLen buf dst) := by
  apply Avoids.ite
  · intro _
    exact Avoids.pure _
  · intro _
    apply Avoids.ite
    · intro _
      exact Avoids.bind (diskRead_avoids bad _ _ _ _ _) fun _ => Avoids.pure _
    · intro _
      apply Avoids.bind (diskRead_avoids bad _ _ _ _ _)
      intro r
      exact Avoids.ite (fun _ => Avoids.pure _) fun _ => readRest_avoids part bad _ _ _ _

theorem vfsDevread_avoids (bad : Fault → Prop) (sector byteOffset byteLen : ℤ) (buf : Bytes)
    (dst : ℕ) : Avoids bad (vfsDevread part sector byteOffset byteLen buf dst) := by
  apply Avoids.ite
  · intro _
    exact Avoids.pure _
  · intro _
    apply Avoids.ite
    · intro _
      apply Avoids.bind (diskRead_avoids bad _ _ _ _ _)
      intro r
      exact Avoids.ite (fun _ => Avoids.pure _) fun _ => readAligned_avoids part bad _ _ _ _
    · intro _
      exact readAligned_avoids part bad _ _ _ _

theorem vfsDevread_total (sector byteOffset byteLen : ℤ) (buf : Bytes) (dst : ℕ) (log : Log) :
    ∃ r log', vfsDevread part sector byteOffset byteLen buf dst log = .ok (r, log') := by
  cases hrun : vfsDevread part sector byteOffset byteLen buf dst log with
  | error e => exact absurd trivial (vfsDevread_avoids part (fun _ => True) _ _ _ _ _ log e hrun)
  | ok p => exact ⟨p.1, p.2, rfl⟩

end Reads

section Safe
variable (fs : ExtFilesystem) (bad : Fault → Prop)
  (hshift : bad .badShift → fs.sblock.log2BlockSize ≤ 20)
include hshift

theorem checkShifts_avoids : ∀ e, checkShifts fs = .error e → ¬ bad e := by
  intro e h hbad
  unfold checkShifts at h
  split at h
  · cases h
  · rename_i hlog
    cases h
    exact hlog (hshift hbad)

theorem ext4fsBlockgroup_avoids (group : ℤ) : Avoids bad (ext4fsBlockgroup fs group) := by
  apply Avoids.bind (Avoids.lift (checkShifts_avoids fs bad hshift))
  intro _
  exact Avoids.bind (vfsDevread_avoids _ _ _ _ _ _ _) fun _ => Avoids.pure _

/-- The divisors of an inode read are fields of the superblock and their quotients. -/
theorem ext4fsReadInode_avoids (hdiv : bad .divByZero → fs.sblock.inodesPerGroup ≠ 0 ∧
    fs.inodesz ≠ 0 ∧ fs.inodesz ≤ ext2BlockSize fs) (ino : ℤ) (inode : Ext2Inode) :
    Avoids bad (ext4fsReadInode fs ino inode) := by
  unfold ext4fsReadInode
  apply Avoids.ite
  · intro hzero
    exact Avoids.fault fun hbad => (hdiv hbad).1 hzero
  intro _
  apply Avoids.bind (ext4fsBlockgroup_avoids fs bad hshift _)
  intro r
  apply Avoids.ite
  · intro _
    exact Avoids.pure _
  intro _
  apply Avoids.ite
  · intro hzero
    exact Avoids.fault fun hbad => (hdiv hbad).2.1 hzero
  intro hsize
  apply Avoids.ite
  · intro hzero
    refine Avoids.fault fun hbad => ?_
    exact Nat.pos_iff_ne_zero.mp (Nat.div_pos (hdiv hbad).2.2 (Nat.pos_of_ne_zero hsize)) hzero
  · intro _
    apply Avoids.bind (vfsDevread_avoids _ _ _ _ _ _ _)
    intro r'
    exact Avoids.ite (fun _ => Avoids.pure _) fun _ => Avoids.pure _

omit hshift in
theorem refill_avoids (cache : IndirCache) (test load : ℕ) :
    Avoids bad (refill fs cache test load) := by
  apply Avoids.ite
  · intro _
    apply Avoids.bind (vfsDevread_avoids _ _ _ _ _ _ _)
    intro r
    exact Avoids.ite (fun _ => Avoids.pure _) fun _ => Avoids.pure _
  · intro _
    exact Avoids.pure _

omit hshift in
theorem getExtentBlock_avoids (hfuel : ¬ bad .outOfFuel) (f : ℤ) (fuel : ℕ) (node buf : Bytes) :
    Avoids bad (getExtentBlock fs f fuel node buf) := by
  induction fuel generalizing node buf with
  | zero => exact Avoids.fault hfuel
  | succ fuel ih =>
    unfold getExtentBlock
    apply Avoids.ite
    · intro _
      exact Avoids.pure _
    intro _
    apply Avoids.ite
    · intro _
      exact Avoids.pure _
    intro _
    apply Avoids.ite
    · intro _
      exact Avoids.pure _
    intro _
    apply Avoids.bind (vfsDevread_avoids _ _ _ _ _ _ _)
    intro r
    exact Avoids.ite (fun _ => ih _ _) fun _ => Avoids.pure _

omit hshift in
theorem readIndirect_avoids (node : Ext2fsNode) (f : ℕ) : Avoids bad (readIndirect fs node f) := by
  apply Avoids.bind (refill_avoids fs bad _ _ _)
  intro r
  exact Avoids.ite (fun _ => Avoids.pure _) fun _ => Avoids.pure _

omit hshift in
theorem readDoubleIndirect_avoids (node : Ext2fsNode) (f : ℕ) :
    Avoids bad (readDoubleIndirect fs node f) := by
  apply Avoids.bind (refill_avoids fs bad _ _ _)
  intro r
  apply Avoids.ite (fun _ => Avoids.pure _)
  intro _
  apply Avoids.bind (refill_avoids fs bad _ _ _)
  intro r'
  exact Avoids.ite (fun _ => Avoids.pure _) fun _ => Avoids.pure _

omit hshift in
/-- The divisor of the triple indirect case is a product, which may wrap to 0. -/
theorem readTripleIndirect_avoids (node : Ext2fsNode) (f : ℕ)
    (hparent : bad .divByZero → perblockParent fs ≠ 0) :
    Avoids bad (readTripleIndirect fs node f) := by
  apply Avoids.bind (refill_avoids fs bad _ _ _)
  intro r
  apply Avoids.ite (fun _ => Avoids.pure _)
  intro _
  apply Avoids.ite
  · intro hzero
    exact Avoids.fault fun hbad => hparent hbad hzero
  intro _
  apply Avoids.bind (refill_avoids fs bad _ _ _)
  intro r'
  apply Avoids.ite (fun _ => Avoids.pure _)
  intro _
  apply Avoids.bind (refill_avoids fs bad _ _ _)
  intro r''
  exact Avoids.ite (fun _ => Avoids.pure _) fun _ => Avoids.pure _

variable (hfuel : ¬ bad .outOfFuel) (hbounds : ¬ bad .outOfBounds)
include hfuel hbounds

/-- The entries of a table are never 0 in number. -/
theorem readAllocatedBlock1_avoids (fuel : ℕ) (node : Ext2fsNode) (f : ℤ)
    (hparent : bad .divByZero → perblockParent fs ≠ 0 ∨ f < 12 + ext2BlockSize fs / 4) :
    Avoids bad (readAllocatedBlock1 fs fuel node f) := by
  apply Avoids.bind (Avoids.lift (checkShifts_avoids fs bad hshift))
  intro _
  apply Avoids.ite
  · intro _
    refine Avoids.bind (Avoids.bind (getExtentBlock_avoids fs bad hfuel f fuel _ _) fun r => ?_)
      fun _ => Avoids.pure _
    cases r <;> exact Avoids.pure _
  intro _
  apply Avoids.ite
  · intro _
    exact Avoids.ite (fun _ => Avoids.fault hbounds) fun _ => Avoids.pure _
  intro _
  apply Avoids.ite (fun _ => readIndirect_avoids fs bad node f.toNat)
  intro hsingle
  apply Avoids.ite (fun _ => readDoubleIndirect_avoids fs bad node f.toNat)
  intro _
  exact readTripleIndirect_avoids fs bad node f.toNat fun hbad =>
    (hparent hbad).resolve_right hsingle

omit hshift hfuel hbounds in
theorem flush_avoids (delayed : Option Delayed) (buf : Bytes) :
    Avoids bad (flush fs delayed buf) := by
  cases delayed with
  | none => exact Avoids.pure _
  | some d => exact Avoids.bind (vfsDevread_avoids _ _ _ _ _ _ _) fun _ => Avoids.pure _

theorem readBlocks_avoids (fuel : ℕ) (pos len : ℤ) (n : ℕ) (i : ℤ) (node : Ext2fsNode)
    (delayed : Option Delayed) (buf : Bytes) (dst : ℕ)
    (hparent : bad .divByZero →
      perblockParent fs ≠ 0 ∨ n = 0 ∨ i + n ≤ 12 + ext2BlockSize fs / 4) :
    Avoids bad (readBlocks fs fuel pos len n i node delayed buf dst) := by
  induction n generalizing i node delayed buf dst with
  | zero =>
    apply Avoids.bind (flush_avoids fs bad _ _)
    intro r
    exact Avoids.ite (fun _ => Avoids.pure _) fun _ => Avoids.pure _
  | succ n ih =>
    have hhere : bad .divByZero → perblockParent fs ≠ 0 ∨ i < 12 + ext2BlockSize fs / 4 := by
      intro hbad
      have h := hparent hbad
      omega
    have hnext : bad .divByZero →
        perblockParent fs ≠ 0 ∨ n = 0 ∨ i + 1 + n ≤ 12 + ext2BlockSize fs / 4 := by
      intro hbad
      have h := hparent hbad
      omega
    apply Avoids.bind (readAllocatedBlock1_avoids fs bad hshift hfuel hbounds fuel node i hhere)
    intro r
    apply Avoids.ite (fun _ => Avoids.pure _)
    intro _
    apply Avoids.ite (fun _ => ih _ _ _ _ _ hnext)
    intro _
    apply Avoids.bind (flush_avoids fs bad _ _)
    intro r'
    apply Avoids.ite (fun _ => Avoids.pure _)
    intro _
    exact Avoids.ite (fun _ => ih _ _ _ _ _ hnext) fun _ => ih _ _ _ _ _ hnext

omit hshift hfuel hbounds in
/-- The blocks of a read are fewer than fit into 32 bits: where the square of a
table wraps to 0, they all lie below the double indirect range. -/
theorem blockCount_le (pos len : ℤ) (hzero : perblockParent fs = 0) :
    blockCount fs pos len ≤ 12 + ext2BlockSize fs / 4 := by
  have hlog : 8 ≤ fs.sblock.log2BlockSize := by
    by_contra hsmall
    have hpos := Nat.mul_pos (perblock_pos fs) (perblock_pos fs)
    rw [← perblockParent_eq fs (by omega), hzero] at hpos
    exact Nat.lt_irrefl 0 hpos
  have hlarge : 2 ^ 18 ≤ ext2BlockSize fs := Nat.pow_le_pow_right (by decide) (by omega)
  have hword : 0 ≤ uint32 (len + pos + ext2BlockSize fs - 1) ∧
      uint32 (len + pos + ext2BlockSize fs - 1) < 2 ^ 32 := by
    unfold uint32
    omega
  have hquot : uint32 (len + pos + ext2BlockSize fs - 1) / ext2BlockSize fs ≤ 2 ^ 14 :=
    Int.ediv_le_of_le_mul (by omega) (by omega)
  have hpos : 0 ≤ uint32 (len + pos + ext2BlockSize fs - 1) / ext2BlockSize fs :=
    Int.ediv_nonneg hword.1 (Int.natCast_nonneg _)
  unfold blockCount int32
  omega

/-- The block size that a file is divided by is a power of two. -/
theorem ext4fsReadFile_avoids (fuel : ℕ) (node : Ext2fsNode) (pos len : ℤ) (buf : Bytes) :
    Avoids bad (ext4fsReadFile fs fuel node pos len buf) := by
  apply Avoids.bind (Avoids.lift (checkShifts_avoids fs bad hshift))
  intro _
  apply readBlocks_avoids fs bad hshift hfuel hbounds
  intro _
  by_cases hzero : perblockParent fs = 0
  · have hcount := blockCount_le fs pos (clampLength node len) hzero
    omega
  · exact Or.inl hzero

end Safe

end Eokan.ReadFaults
