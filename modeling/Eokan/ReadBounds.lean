import Eokan.InodeReads
import Eokan.Mount
import Eokan.ReadPlan

/-!
Requests that stay inside the partition. A table is read from the start of a
block, a deferred read goes no further than the range it is a part of, and the
place of an inode keeps to one sector, also where it is computed as a negative
offset. So the checks of `vfs_devread` cover whatever the disk holds.
-/
namespace Eokan.ReadBounds

open ByteMem CInt Programs Device Devread Layout BlockMap Inodes InodeReads Mount ReadFile ReadPlan

/-- No request so far went outside of the partition. -/
def Confined (part : PartDescr) (log : Log) : Prop := ∀ q ∈ log, Inside part q

theorem Confined.issues {part : PartDescr} {log log' : Log} (h : Confined part log)
    (hissues : Issues part log log') : Confined part log' := by
  obtain ⟨issued, rfl, hissued⟩ := hissues
  intro q hq
  rcases List.mem_append.mp hq with hq | hq
  · exact hissued q hq
  · exact h q hq

/-- Nothing is asked of the disk that lies outside of the partition. -/
abbrev Confines {α : Type} (part : PartDescr) (x : DevM α) : Prop :=
  Keeps (Confined part) x fun _ => True

theorem confines_of_issues {α : Type} {part : PartDescr} {x : DevM α}
    (h : ∀ log, Yields x log fun _ log' => Issues part log log') : Confines part x :=
  fun log hlog _ _ hrun => ⟨hlog.issues ((h log).of_ok hrun), trivial⟩

section Devreads
variable {part : PartDescr} (hroom : part.off + part.length < 2 ^ 63)
include hroom

theorem vfsDevread_confined {sector : ℤ} (hsec : sector < 2 ^ 31) {byteOffset byteLen : ℤ}
    (hoff : 0 ≤ byteOffset) (hlen : 0 ≤ byteLen) (hint : byteLen < 2 ^ 31)
    (hmax : byteOffset + byteLen ≤ 2 ^ 31) (buf : Bytes) (dst : ℕ) :
    Confines part (vfsDevread part sector byteOffset byteLen buf dst) := by
  by_cases hone : 1 ≤ byteOffset + byteLen
  · refine confines_of_issues fun log => ?_
    exact (vfsDevread_runs part hroom sector byteOffset byteLen hsec hoff hlen hint hone hmax buf
      dst log).mono fun _ _ h => h.1
  · -- nothing is to be read, and nothing is
    have hzero : byteOffset = 0 := by omega
    have hnone : byteLen = 0 := by omega
    subst hzero hnone
    unfold vfsDevread readAligned
    simp only [Int.zero_emod, ne_eq, not_true_eq_false, if_false, if_true]
    exact Keeps.ite (fun _ => Keeps.pure trivial) fun _ => Keeps.pure trivial

/-- A record that does not cross a sector, at a place in front of the sector or behind it. -/
theorem vfsDevread_record {sector byteOffset : ℤ} (hplace : 128 ∣ byteOffset)
    (hlow : -2 ^ 31 ≤ byteOffset) (hhigh : byteOffset + 128 ≤ 2 ^ 31) (buf : Bytes) (dst : ℕ) :
    Confines part (vfsDevread part sector byteOffset 128 buf dst) := by
  obtain ⟨k, rfl⟩ := hplace
  unfold vfsDevread
  apply Keeps.ite (fun _ => Keeps.pure trivial)
  intro hout
  have hstart : 0 ≤ int32 (sector + 128 * k / 512) ∧
      int32 (sector + 128 * k / 512) + 1 ≤ part.length := by
    unfold outsidePartition uint64 at hout
    simp only [Bool.or_eq_true, decide_eq_true_eq, not_or] at hout
    have hlast : int32 (128 * k + 128 - 1) / 512 = 128 * k / 512 := by
      rw [int32_of_range _ (by omega) (by omega)]
      omega
    rw [hlast] at hout
    have hbounds := int32_bounds (sector + 128 * k / 512)
    omega
  have hsingle := fun buf dst log => (partRead_inside part hroom _ 1 hstart.1 (by omega) hstart.2
    buf dst log).mono fun _ _ h => h.1
  have haligned : ∀ sector' byteLen buf dst, byteLen = 0 ∨ byteLen = 128 ∧
      sector' = int32 (sector + 128 * k / 512) →
      Confines part (readAligned part sector' byteLen buf dst) := by
    intro sector' byteLen buf dst hcase
    unfold readAligned
    apply Keeps.ite (fun _ => Keeps.pure trivial)
    intro hne
    obtain ⟨rfl, rfl⟩ := hcase.resolve_left hne
    have hshort : uint32 ((128 : ℤ) - 128 % 512) = 0 := uint32_zero
    dsimp only
    rw [if_pos hshort]
    exact (confines_of_issues (hsingle _ _)).bind fun _ _ => Keeps.pure trivial
  apply Keeps.ite
  · intro _
    apply (confines_of_issues (hsingle _ _)).bind
    intro r _
    apply Keeps.ite (fun _ => Keeps.pure trivial)
    intro _
    exact haligned _ _ _ _ (Or.inl (by omega))
  · intro _
    exact haligned _ _ _ _ (Or.inr ⟨rfl, rfl⟩)

end Devreads

section Inodes
variable {fs : ExtFilesystem} (hroom : fs.devDesc.off + fs.devDesc.length < 2 ^ 63)
include hroom

/-- The descriptor of any group number. The block size is sound if it returns. -/
theorem ext4fsBlockgroup_confined (group : ℤ) :
    Keeps (Confined fs.devDesc) (ext4fsBlockgroup fs group) fun _ =>
      fs.sblock.log2BlockSize ≤ 20 := by
  apply Keeps.lift
  intro u hshifts
  have hlog := checkShifts_eq_ok fs u hshifts
  have hblock := ext2BlockSize_le fs hlog
  obtain ⟨g, hg⟩ := Int.eq_ofNat_of_zero_le (uint32_bounds group).1
  have hoff : g % (ext2BlockSize fs / 32) * 32 + 32 ≤ ext2BlockSize fs := by
    have hsize := ext2BlockSize_eq fs
    have htwo := two_le_blockSectors fs
    exact mod_mul_lt (by omega) (by omega)
  have hplace : int32 (uint32 (uint32 group % (ext2BlockSize fs / 32 : ℕ) * 32)) =
      (g % (ext2BlockSize fs / 32) * 32 : ℕ) := by
    rw [hg, ← Int.natCast_emod, int32_uint32]
    exact int32_of_nat _ (by omega) (by omega)
  dsimp only
  rw [hplace]
  refine Keeps.bind (vfsDevread_confined hroom (int32_bounds _).2 (by omega) (by omega) (by omega)
    (by omega) _ _) fun _ _ => Keeps.pure hlog

omit hroom in
/-- The place of an inode in its block, as an offset that may be negative. -/
theorem tmod_mul_bounds (x : ℤ) {size block : ℕ} (hper : block / size ≠ 0) :
    -(block : ℤ) ≤ x.tmod (block / size : ℕ) * size ∧
      x.tmod (block / size : ℕ) * size + size ≤ block := by
  have hlt : x.natAbs % (block / size) * size + size ≤ block :=
    mod_mul_lt (Nat.pos_of_ne_zero hper) (Nat.div_mul_le_self _ _)
  have habs : (x.tmod (block / size : ℕ) * size).natAbs = x.natAbs % (block / size) * size := by
    rw [Int.natAbs_mul, Int.natAbs_tmod, Int.natAbs_natCast, Int.natAbs_natCast]
  rw [← habs] at hlt
  omega

/-- An inode whose number is a sound one, or whose place keeps to one sector. -/
theorem ext4fsReadInode_confined (ino : ℤ) (hplace : 128 ∣ fs.inodesz ∨ 0 ≤ int32 (ino - 1))
    (inode : Ext2Inode) : Confines fs.devDesc (ext4fsReadInode fs ino inode) := by
  apply Keeps.ite (fun _ => Keeps.fault _)
  intro _
  apply (ext4fsBlockgroup_confined hroom _).bind
  intro r hlog
  have hblock := ext2BlockSize_le fs hlog
  apply Keeps.ite (fun _ => Keeps.pure trivial)
  intro _
  apply Keeps.ite (fun _ => Keeps.fault _)
  intro _
  apply Keeps.ite (fun _ => Keeps.fault _)
  intro hper
  obtain ⟨hlow, hhigh⟩ := tmod_mul_bounds (int32 (ino - 1)) hper
  have hoff : int32 (uint32 ((int32 (ino - 1)).tmod (ext2BlockSize fs / fs.inodesz : ℕ) *
      fs.inodesz)) = (int32 (ino - 1)).tmod (ext2BlockSize fs / fs.inodesz : ℕ) * fs.inodesz := by
    rw [int32_uint32]
    exact int32_of_range _ (by omega) (by omega)
  dsimp only
  rw [hoff]
  suffices hread : Confines fs.devDesc (vfsDevread fs.devDesc (int32 (int32 (r.2.inodeTableId +
      uint32 (int32 (ino - 1)) % fs.sblock.inodesPerGroup / (ext2BlockSize fs / fs.inodesz : ℕ)) *
      blockSectors fs)) ((int32 (ino - 1)).tmod (ext2BlockSize fs / fs.inodesz : ℕ) * fs.inodesz)
      128 inode.raw 0) from hread.bind fun _ _ =>
    Keeps.ite (fun _ => Keeps.pure trivial) fun _ => Keeps.pure trivial
  rcases hplace with hdvd | hpos
  · have hsingle : (128 : ℤ) ∣
        (int32 (ino - 1)).tmod (ext2BlockSize fs / fs.inodesz : ℕ) * fs.inodesz :=
      Dvd.dvd.mul_left (Int.natCast_dvd_natCast.mpr hdvd) _
    exact vfsDevread_record hroom hsingle (by omega) (by omega) _ _
  · have hnonneg := Int.mul_nonneg (Int.tmod_nonneg (ext2BlockSize fs / fs.inodesz : ℕ) hpos)
      (Int.natCast_nonneg fs.inodesz)
    exact vfsDevread_confined hroom (int32_bounds _).2 hnonneg (by omega) (by omega) (by omega) _ _

end Inodes

section Lookups
variable {fs : ExtFilesystem} (hroom : fs.devDesc.off + fs.devDesc.length < 2 ^ 63)
include hroom

theorem refill_confined (hlog : fs.sblock.log2BlockSize ≤ 20) (cache : IndirCache)
    (test load : ℕ) : Confines fs.devDesc (refill fs cache test load) := by
  have hblock := ext2BlockSize_le fs hlog
  have hlen : int32 (ext2BlockSize fs : ℤ) = ext2BlockSize fs :=
    int32_of_nat _ (by omega) (by omega)
  unfold refill
  rw [hlen]
  apply Keeps.ite
  · intro _
    apply (vfsDevread_confined hroom (int32_bounds _).2 (by omega) (by omega) (by omega)
      (by omega) _ _).bind
    intro r _
    exact Keeps.ite (fun _ => Keeps.pure trivial) fun _ => Keeps.pure trivial
  · intro _
    exact Keeps.pure trivial

theorem getExtentBlock_confined (hblksz : fs.blksz < 2 ^ 31) (f : ℤ) (fuel : ℕ)
    (node buf : Bytes) : Confines fs.devDesc (getExtentBlock fs f fuel node buf) := by
  have hlen : int32 (fs.blksz : ℤ) = fs.blksz := int32_of_nat _ (by omega) (by omega)
  induction fuel generalizing node buf with
  | zero => exact Keeps.fault _
  | succ fuel ih =>
    unfold getExtentBlock
    apply Keeps.ite (fun _ => Keeps.pure trivial)
    intro _
    apply Keeps.ite (fun _ => Keeps.pure trivial)
    intro _
    apply Keeps.ite (fun _ => Keeps.pure trivial)
    intro _
    dsimp only
    rw [hlen]
    apply (vfsDevread_confined hroom (int32_bounds _).2 (by omega) (by omega) (by omega)
      (by omega) _ _).bind
    intro r _
    exact Keeps.ite (fun _ => ih _ _) fun _ => Keeps.pure trivial

theorem readIndirect_confined (hlog : fs.sblock.log2BlockSize ≤ 20) (node : Ext2fsNode) (f : ℕ) :
    Confines fs.devDesc (readIndirect fs node f) := by
  apply (refill_confined hroom hlog _ _ _).bind
  intro r _
  exact Keeps.ite (fun _ => Keeps.pure trivial) fun _ => Keeps.pure trivial

theorem readDoubleIndirect_confined (hlog : fs.sblock.log2BlockSize ≤ 20) (node : Ext2fsNode)
    (f : ℕ) : Confines fs.devDesc (readDoubleIndirect fs node f) := by
  apply (refill_confined hroom hlog _ _ _).bind
  intro r _
  apply Keeps.ite (fun _ => Keeps.pure trivial)
  intro _
  apply (refill_confined hroom hlog _ _ _).bind
  intro r' _
  exact Keeps.ite (fun _ => Keeps.pure trivial) fun _ => Keeps.pure trivial

theorem readTripleIndirect_confined (hlog : fs.sblock.log2BlockSize ≤ 20) (node : Ext2fsNode)
    (f : ℕ) : Confines fs.devDesc (readTripleIndirect fs node f) := by
  apply (refill_confined hroom hlog _ _ _).bind
  intro r _
  apply Keeps.ite (fun _ => Keeps.pure trivial)
  intro _
  apply Keeps.ite (fun _ => Keeps.fault _)
  intro _
  apply (refill_confined hroom hlog _ _ _).bind
  intro r' _
  apply Keeps.ite (fun _ => Keeps.pure trivial)
  intro _
  apply (refill_confined hroom hlog _ _ _).bind
  intro r'' _
  exact Keeps.ite (fun _ => Keeps.pure trivial) fun _ => Keeps.pure trivial

/-- A lookup, and the inode it leaves in the node. -/
theorem readAllocatedBlock1_confined (hblksz : fs.blksz < 2 ^ 31) (fuel : ℕ) (node : Ext2fsNode)
    (f : ℤ) : Keeps (Confined fs.devDesc) (readAllocatedBlock1 fs fuel node f) fun r =>
      r.2.inode = node.inode := by
  have hlookup : Confines fs.devDesc (readAllocatedBlock1 fs fuel node f) := by
    apply Keeps.lift
    intro u hshifts
    have hlog := checkShifts_eq_ok fs u hshifts
    apply Keeps.ite
    · intro _
      have hextent : Confines fs.devDesc (readExtentBlock fs fuel node f) := by
        apply (getExtentBlock_confined hroom hblksz f fuel _ _).bind
        intro r _
        cases r <;> exact Keeps.pure trivial
      exact hextent.bind fun _ _ => Keeps.pure trivial
    intro _
    apply Keeps.ite
    · intro _
      exact Keeps.ite (fun _ => Keeps.fault _) fun _ => Keeps.pure trivial
    intro _
    apply Keeps.ite (fun _ => readIndirect_confined hroom hlog _ _)
    intro _
    exact Keeps.ite (fun _ => readDoubleIndirect_confined hroom hlog _ _) fun _ =>
      readTripleIndirect_confined hroom hlog _ _
  exact (hlookup.and fun _ _ _ => readAllocatedBlock1_inode).mono fun _ h => h.2

end Lookups

section Ranges
variable {fs : ExtFilesystem} (hroom : fs.devDesc.off + fs.devDesc.length < 2 ^ 63)
include hroom

theorem flush_confined {run : Option Run} {stop : ℕ} (hstop : stop < 2 ^ 31)
    (hfits : ∀ r, run = some r → r.Fits stop) (buf : Bytes) :
    Confines fs.devDesc (flush fs (run.map Run.toDelayed) buf) := by
  cases run with
  | none => exact Keeps.pure trivial
  | some r =>
    obtain ⟨hstart, hsome, hle⟩ := hfits r rfl
    have hextent : int32 (r.extent : ℤ) = r.extent := int32_of_nat _ (by omega) (by omega)
    have hspill : Confines fs.devDesc
        (vfsDevread fs.devDesc r.start r.skip (int32 r.extent) buf r.dst) :=
      vfsDevread_confined hroom hstart (by omega) (by omega) (by omega) (by omega) buf r.dst
    exact hspill.bind fun _ _ => Keeps.pure trivial

variable (hblksz : fs.blksz < 2 ^ 31) (hlog : fs.sblock.log2BlockSize ≤ 20) (fuel pos n : ℕ)
  (hmax : pos + n < 2 ^ 31)
include hblksz hlog hmax

/-- What the lookups answer is not known. A deferred read goes no further than
the blocks before. The induction is on the blocks left. -/
theorem readBlocks_confined (k i : ℕ) (hfirst : firstBlock fs pos ≤ i)
    (hk : i + k = endBlock fs pos n) (run : Option Run)
    (hfits : ∀ r, run = some r → r.Fits (min (pos + n) (i * ext2BlockSize fs)))
    (node : Ext2fsNode) (buf : Bytes) :
    Keeps (Confined fs.devDesc) (readBlocks fs fuel pos n k i node (run.map Run.toDelayed) buf
      (pieceStart fs pos i - pos)) fun r => r.2.1.inode = node.inode := by
  have hstop : min (pos + n) (i * ext2BlockSize fs) < 2 ^ 31 := by omega
  induction k generalizing i run node buf with
  | zero =>
    apply (flush_confined hroom hstop hfits buf).bind
    intro r _
    exact Keeps.ite (fun _ => Keeps.pure rfl) fun _ => Keeps.pure rfl
  | succ k ih =>
    have hi : i < endBlock fs pos n := by omega
    have hnext : min (pos + n) ((i + 1) * ext2BlockSize fs) < 2 ^ 31 := by omega
    rw [readBlocks_succ fs hlog fuel pos n (sums_fit fs pos n hlog (by omega)) k i hfirst hi]
    apply (readAllocatedBlock1_confined hroom hblksz fuel node i).bind
    rintro ⟨blknr, node'⟩ hinode
    dsimp only at hinode ⊢
    rw [← hinode]
    refine Keeps.ite (fun _ => Keeps.pure rfl) fun _ => ?_
    apply Keeps.ite
    · intro _
      refine ih (i + 1) (by omega) (by omega) _ ?_ node' buf hnext
      intro r hr
      obtain ⟨r', hrun, rfl⟩ := Option.map_eq_some_iff.mp hr
      exact extend_fits fs pos n r' i hfirst hi (hfits r' hrun)
    intro _
    apply (flush_confined hroom hstop hfits buf).bind
    intro (spilled, buf') _
    refine Keeps.ite (fun _ => Keeps.pure rfl) fun _ => ?_
    apply Keeps.ite
    · intro _
      refine ih (i + 1) (by omega) (by omega) _ ?_ node' buf' hnext
      intro r hr
      obtain rfl := Option.some.inj hr
      exact startRun_fits fs pos n _ i hfirst hi
    · intro _
      exact ih (i + 1) (by omega) (by omega) none (by simp) node' _ hnext

end Ranges

/-- A range in the first 2 GiB of a file, whatever its inode says. -/
theorem ext4fsReadFile_confined {fs : ExtFilesystem}
    (hroom : fs.devDesc.off + fs.devDesc.length < 2 ^ 63) (hblksz : fs.blksz < 2 ^ 31)
    (fuel pos len : ℕ) (hmax : pos + len < 2 ^ 31) (node : Ext2fsNode) (buf : Bytes) :
    Keeps (Confined fs.devDesc) (ext4fsReadFile fs fuel node pos len buf) fun r =>
      r.2.1.inode = node.inode := by
  intro log hconfined res log' hrun
  obtain ⟨u, log₁, hshifts, -⟩ := bind_eq_ok hrun
  have hlog : fs.sblock.log2BlockSize ≤ 20 := by
    by_contra hbig
    have hfault : checkShifts fs = .error .badShift := if_neg hbig
    rw [hfault] at hshifts
    cases hshifts
  have hle := firstBlock_le_endBlock fs pos (min len node.inode.size)
  have hless : pos + min len node.inode.size < 2 ^ 31 := by omega
  have hfit := sums_fit fs pos (min len node.inode.size) hlog (by omega)
  rw [ext4fsReadFile_eq fs hlog fuel pos _ hfit len node (clampLength_eq node len)] at hrun
  exact readBlocks_confined hroom hblksz hlog fuel pos _ hless _ _ (Nat.le_refl _) (by omega) none
    (by simp) node buf log hconfined res log' hrun

end Eokan.ReadBounds
