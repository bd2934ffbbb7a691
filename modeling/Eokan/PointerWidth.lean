import Eokan.PointerRuns
import Eokan.ReadFaults

/-!
Block pointers of 32 or 48 bits, for tables, extent nodes and data. The pointer
of a data block is cut to an `int` before it is shifted, so that a block outside
the partition can be taken for another block or for a hole.
-/
namespace Eokan.PointerWidth

open ByteMem CInt Programs Device Devread DevreadOutcome Layout BlockMap IndirectWalk
open SortedScan IndirectCache ExtentSearch Mount ExtentTree ReadFile ReadPlan TableDescent
open FailedLookups LookupErrors PointerSectors StoredPointers PointerRuns ReadFaults

section Data
variable (fs : ExtFilesystem) (hpart : fs.devDesc.off + fs.devDesc.length < 2 ^ 63)
  (hlength : fs.devDesc.length < 2 ^ 32) (hlog : fs.sblock.log2BlockSize ≤ 20)
  (hblksz : fs.blksz = 0)
include hlog

/-- What the access for the data in block b does: it fails, takes b for a hole,
or reads. -/
structure DataOutcome (fs : ExtFilesystem) (b skip n : ℕ) (r : ℤ) (log log' : Log) : Prop where
  refused : Refused fs b skip n → r = -1 ∧ log' = log
  hole : ¬ Refused fs b skip n → tableSector fs b = 0 → r = int32 n ∧ log' = log
  read : ¬ Refused fs b skip n → tableSector fs b ≠ 0 → ∃ issued num,
    log' = issued ++ ⟨tableSector fs b + (skip / 512 + fs.devDesc.off : ℕ), num⟩ :: log

include hlength in
theorem rightAccess_data_iff (b skip n : ℕ) (hb : b ≠ 0) (hn : 1 ≤ n)
    (hskip : skip + n ≤ ext2BlockSize fs) (r : ℤ) (log log' : Log)
    (hr : DataOutcome fs b skip n r log log') :
    RightAccess fs b skip False (r = -1) log log' ↔ DataFits fs b skip n := by
  have hbig := ext2BlockSize_le fs hlog
  have htwo := two_le_blockSectors fs
  have hsize := ext2BlockSize_eq fs
  unfold RightAccess DataFits
  rw [← refused_iff fs b skip n hn]
  by_cases hinside : BlockInside fs b
  · simp only [hinside, true_implies, not_true_eq_false, false_implies, and_true,
      not_false_eq_true]
    constructor
    · intro hfirst
      by_contra hlarge
      have hlt := inside_sector_lt fs hlength b hinside
      have hneg : tableSector fs b < 0 := by
        unfold tableSector
        rw [int32_neg_iff]
        omega
      have hrefused : Refused fs b skip n :=
        Or.inr ⟨Int.ne_of_lt hneg, fun h => Int.not_le.mpr hneg h.1⟩
      have hlog' := (hr.refused hrefused).2
      rw [hlog'] at hfirst
      exact not_firstReadAt_self fs _ log hfirst
    · intro hsmall
      have hin := (inReach_of_inside fs hlength hlog b hinside).mpr hsmall
      have hsector : tableSector fs b = (b * blockSectors fs : ℕ) :=
        int32_of_nat _ (by omega) (by omega)
      have hle : b * 1 ≤ b * blockSectors fs := Nat.mul_le_mul_left b (by omega)
      have hcut : int32 b = b := int32_of_nat b (by omega) (by omega)
      have hread : Readable fs.devDesc (tableSector fs b) skip n :=
        readable_part fs.devDesc _ skip n _ hskip hin
      have hnonzero : tableSector fs b ≠ 0 := by
        rw [hsector]
        omega
      have hnot : ¬ Refused fs b skip n := by
        rintro (hneg | ⟨-, hout⟩)
        · rw [hcut] at hneg
          omega
        · exact hout hread
      obtain ⟨issued, num, hissued⟩ := hr.read hnot hnonzero
      rw [hsector, ← Int.natCast_add, ← Nat.add_assoc] at hissued
      exact ⟨issued, num, hissued⟩
  · simp only [hinside, false_implies, true_and, not_false_eq_true, true_implies]
    constructor
    · intro ⟨hfailed, hlog'⟩
      by_contra hnot
      by_cases hzero : tableSector fs b = 0
      · have hres := (hr.hole hnot hzero).1
        rw [int32_of_nat _ (by omega) (by omega)] at hres
        omega
      · obtain ⟨issued, num, hissued⟩ := hr.read hnot hzero
        rw [hlog'] at hissued
        exact log_ne_issued issued _ log hissued
    · exact hr.refused

section OneBlock
variable (fuel pos n i : ℕ) (hmax : pos + n ≤ 2 ^ 31) (hn : 1 ≤ n) (hfirst : firstBlock fs pos = i)
  (hend : endBlock fs pos n = i + 1)
include hmax hn hfirst hend

omit hlog hmax hn in
theorem oneBlock_piece : pieceSkip fs pos i = pos - i * ext2BlockSize fs ∧
    pieceLength fs pos n i = n ∧ pos - i * ext2BlockSize fs + n ≤ ext2BlockSize fs := by
  have hstart := firstBlock_bounds fs pos
  have hlast := (endBlock_bounds fs pos n i (by omega)).2.1 hend.symm
  rw [hfirst] at hstart
  rw [Nat.succ_mul] at hlast hstart
  unfold pieceLength pieceSkip pieceStart pieceEnd
  rw [Nat.succ_mul]
  omega

/-- A range in one block is a lookup and at most one read. -/
theorem ext4fsReadFile_oneBlock (len : ℤ) (node node' : Ext2fsNode)
    (hlen : clampLength node len = n) (buf : Bytes) (log log₁ : Log) (v : ℤ)
    (hrun : readAllocatedBlock1 fs fuel node i log = .ok ((v, node'), log₁)) :
    ext4fsReadFile fs fuel node pos len buf log =
      if v < 0 then .ok ((-1, node', buf), log₁)
      else if int32 (v * blockSectors fs) ≠ 0 then (do
        let (status, buf) ← vfsDevread fs.devDesc (int32 (v * blockSectors fs))
          (pos - i * ext2BlockSize fs : ℕ) (int32 n) buf 0
        if status ≠ 0 then pure (int32 n, node', buf) else pure (-1, node', buf) :
          DevM (ℤ × Ext2fsNode × Bytes)) log₁
      else .ok ((int32 n, node', fill buf 0 (ext2BlockSize fs - (pos - i * ext2BlockSize fs)) 0),
        log₁) := by
  obtain ⟨hskip, hpiece, -⟩ := oneBlock_piece fs pos n i hfirst hend
  have hstart := firstBlock_bounds fs pos
  rw [hfirst] at hstart
  have hcount : endBlock fs pos n - firstBlock fs pos = 0 + 1 := by omega
  have hdst : pieceStart fs pos i - pos = 0 := by
    unfold pieceStart
    omega
  have hsize : (i + 1) * ext2BlockSize fs - pieceStart fs pos i =
      ext2BlockSize fs - (pos - i * ext2BlockSize fs) := by
    unfold pieceStart
    rw [Nat.succ_mul]
    omega
  rw [ext4fsReadFile_eq fs hlog fuel pos n (sums_fit fs pos n hlog hmax) len node hlen, hcount,
    readBlocks_succ fs hlog fuel pos n (sums_fit fs pos n hlog hmax) 0 _ (Nat.le_refl _) (by omega),
    hfirst, bind_ok hrun]
  dsimp only
  simp only [runContinues, and_false, if_false]
  split
  · exact pure_run _ _
  have hflush : flush fs ((none : Option Run).map Run.toDelayed) buf log₁ =
      .ok ((true, buf), log₁) := pure_run _ _
  rw [bind_ok hflush]
  simp only [Bool.not_true, Bool.false_eq_true, if_false]
  have hsector : sectorOf fs (fun _ => v) i = int32 (v * blockSectors fs) := rfl
  rw [hsector]
  split
  · unfold readBlocks flush spill
    simp only [Option.map_some, startRun, Run.toDelayed, hskip, hpiece, hdst, hsector]
    simp only [bind_assoc, pure_bind, decide_eq_true_eq]
  · unfold readBlocks flush
    simp only [Option.map_none, hdst, hsize, pure_bind, if_true]
    exact pure_run _ _

include hpart hblksz in
theorem data_run (len : ℤ) (node node' : Ext2fsNode) (hlen : clampLength node len = n) (b : ℕ)
    (buf : Bytes) (log log₁ : Log) (v : ℤ) (hstored : Stored fs node i b log)
    (hrun : readAllocatedBlock1 fs (fuel + 2) node i log = .ok ((v, node'), log₁)) :
    Yields (ext4fsReadFile fs (fuel + 2) node pos len buf) log fun r log' =>
      DataOutcome fs b (pos - i * ext2BlockSize fs) n r.1 log₁ log' := by
  obtain ⟨-, -, hskip⟩ := oneBlock_piece fs pos n i hfirst hend
  have hbig := ext2BlockSize_le fs hlog
  have hv := stored_answer fs hpart hlog hblksz fuel node node' i b log log₁ v hstored hrun
  have hmul := tableSector_eq fs b
  unfold Yields
  rw [ext4fsReadFile_oneBlock fs hlog (fuel + 2) pos n i hmax hn hfirst hend len node node' hlen
    buf log log₁ v hrun, hv, hmul]
  generalize pos - i * ext2BlockSize fs = skip at hskip ⊢
  by_cases hneg : int32 b < 0
  · rw [if_pos hneg]
    exact ⟨_, _, rfl, fun _ => ⟨rfl, rfl⟩, fun h => absurd (Or.inl hneg) h,
      fun h => absurd (Or.inl hneg) h⟩
  rw [if_neg hneg]
  by_cases hzero : tableSector fs b = 0
  · rw [if_neg (not_not_intro hzero)]
    refine ⟨_, _, rfl, fun h => ?_, fun _ _ => ⟨rfl, rfl⟩, fun _ h => absurd hzero h⟩
    rcases h with h | ⟨h, -⟩
    · exact absurd h hneg
    · exact absurd hzero h
  rw [if_pos hzero]
  by_cases hread : Readable fs.devDesc (tableSector fs b) skip n
  · have hnot : ¬ Refused fs b skip n := fun h => h.elim hneg fun h => h.2 hread
    have houtcome : ∀ r log', (∃ issued num, log' = issued ++
        ⟨tableSector fs b + (skip / 512 + fs.devDesc.off : ℕ), num⟩ :: log₁) →
        DataOutcome fs b skip n r log₁ log' :=
      fun r log' h => ⟨fun h => absurd h hnot, fun _ h => absurd h hzero, fun _ _ => h⟩
    obtain ⟨sector, hsector⟩ := Int.eq_ofNat_of_zero_le hread.1
    have hstart : (sector : ℤ) + ((skip / 512 + fs.devDesc.off : ℕ) : ℤ) =
        ((sector + skip / 512 + fs.devDesc.off : ℕ) : ℤ) := by omega
    simp only [hsector, hstart] at hread houtcome ⊢
    refine Yields.bind (vfsDevread_first fs.devDesc hpart sector skip n hn (by omega) hread buf 0
      log₁) ?_
    intro res log' hres
    split
    · exact Yields.pure (houtcome _ log' hres)
    · exact Yields.pure (houtcome _ log' hres)
  · have hrefused : Refused fs b skip n := Or.inr ⟨hzero, hread⟩
    have hsec : tableSector fs b < 2 ^ 31 := (int32_bounds _).2
    rw [bind_ok (vfsDevread_refused fs.devDesc _ skip n (by omega) hsec (by omega) (by omega) hread
      buf 0 log₁)]
    exact ⟨_, _, rfl, fun _ => ⟨rfl, rfl⟩, fun h => absurd hrefused h,
      fun h => absurd hrefused h⟩

include hpart hblksz hlength in
/-- The access for the data in block b. -/
theorem data_access_iff (len : ℤ) (node node' : Ext2fsNode) (hlen : clampLength node len = n)
    (b : ℕ) (hb : b ≠ 0) (buf : Bytes) (log log₁ : Log) (v : ℤ)
    (hstored : Stored fs node i b log)
    (hrun : readAllocatedBlock1 fs (fuel + 2) node i log = .ok ((v, node'), log₁)) :
    Yields (ext4fsReadFile fs (fuel + 2) node pos len buf) log fun r log' =>
      RightAccess fs b (pos - i * ext2BlockSize fs) False (r.1 = -1) log₁ log' ↔
        DataFits fs b (pos - i * ext2BlockSize fs) n := by
  obtain ⟨-, -, hskip⟩ := oneBlock_piece fs pos n i hfirst hend
  refine (data_run fs hpart hlog hblksz fuel pos n i hmax hn hfirst hend len node node' hlen b buf
    log log₁ v hstored hrun).mono ?_
  intro r log' hr
  exact rightAccess_data_iff fs hlength hlog b _ n hb hn hskip r.1 log₁ log' hr

end OneBlock

include hblksz in
/-- A node below the root is not read, wherever it is. -/
theorem index_access_iff (fuel : ℕ) (node : Ext2fsNode) (hflags : node.inode.extents = true)
    (hdepth : ehDepth node.inode.b ≠ 0) (i b : ℕ) (log : Log) :
    Yields (readAllocatedBlock1 fs (fuel + 2) node i) log fun r log' =>
      RightAccess fs b 0 False (r.1 < 0) log log' ↔ ¬ BlockInside fs b := by
  refine Yields.of_run (mounted_extent_run fs hlog hblksz node hflags i fuel log) ?_
  unfold RightAccess rootAnswer
  rw [if_neg fun h => hdepth h.2]
  constructor
  · intro hright hinside
    exact not_firstReadAt_self fs _ log (hright.1 hinside not_false)
  · intro hout
    exact ⟨fun h => absurd h hout, fun _ => ⟨show (-2 : ℤ) < 0 by decide, rfl⟩⟩

omit hlog in
theorem endBlock_of_le (pos n : ℕ) (hn : 1 ≤ n)
    (hend : pos + n ≤ (firstBlock fs pos + 1) * ext2BlockSize fs) :
    endBlock fs pos n = firstBlock fs pos + 1 := by
  have hsize := ext2BlockSize_pos fs
  have hstart := (firstBlock_bounds fs pos).1
  unfold endBlock
  generalize firstBlock fs pos = i at *
  rw [Nat.succ_mul] at hend
  refine Nat.div_eq_of_lt_le ?_ ?_
  · rw [Nat.succ_mul]
    omega
  · rw [Nat.succ_mul, Nat.succ_mul]
    omega

/-- The block of a position that fits an `int` ends below 2 ^ 31. -/
theorem oneBlock_max (pos n : ℕ) (hpos : pos < 2 ^ 31)
    (hend : pos + n ≤ (firstBlock fs pos + 1) * ext2BlockSize fs) : pos + n ≤ 2 ^ 31 := by
  have hstart := (firstBlock_bounds fs pos).1
  obtain ⟨k, hk⟩ : ext2BlockSize fs ∣ 2 ^ 31 := Nat.pow_dvd_pow 2 (by omega)
  generalize firstBlock fs pos = i at *
  have hik : i < k := by
    have hlt : i * ext2BlockSize fs < k * ext2BlockSize fs := by
      rw [Nat.mul_comm k, ← hk]
      omega
    exact Nat.lt_of_mul_lt_mul_right hlt
  have hmul := Nat.mul_le_mul_right (ext2BlockSize fs) hik
  rw [Nat.mul_comm k, ← hk] at hmul
  exact Nat.le_trans hend hmul

end Data

/-- The accesses for block pointers on a mounted file system: for tables, for
nodes of extent trees, for data in one block, and for data in the blocks of any
range, where one access may be for several pointers. -/
theorem pointer_access_iff (past : Bytes) (part : PartDescr) (log₀ log₁ : Log)
    (fs : ExtFilesystem) (root : Ext2fsNode)
    (hmount : ext4fsMount past part log₀ = .ok (some (fs, root), log₁))
    (hpart : part.off + part.length < 2 ^ 63) (hlength : part.length < 2 ^ 32) :
    (∀ cache test b log, Yields (refill fs (allocCache fs cache) test b) log fun r log' =>
      RightAccess fs b 0 (Hit fs (allocCache fs cache) test) (r.1 = false) log log' ↔
        TableFits fs (allocCache fs cache) test b) ∧
    (∀ node : Ext2fsNode, node.inode.extents = true → ehMagic node.inode.b = ext4ExtMagic →
      ehDepth node.inode.b ≠ 0 → ∀ i j : ℕ, LastUpTo node.inode.b i j → ∀ fuel log,
      Yields (readAllocatedBlock1 fs (fuel + 2) node i) log fun r log' =>
        RightAccess fs (indexAt node.inode.b j).leaf 0 False (r.1 < 0) log log' ↔
          ¬ BlockInside fs (indexAt node.inode.b j).leaf) ∧
    (∀ node node' : Ext2fsNode, ∀ pos n i b : ℕ, ∀ len : ℤ, pos < 2 ^ 31 → 1 ≤ n →
      firstBlock fs pos = i → pos + n ≤ (i + 1) * ext2BlockSize fs → clampLength node len = n →
      ∀ log, b ≠ 0 → Stored fs node i b log → ∀ fuel v log',
      readAllocatedBlock1 fs (fuel + 2) node i log = .ok ((v, node'), log') → ∀ buf,
      Yields (ext4fsReadFile fs (fuel + 2) node pos len buf) log fun r log'' =>
        RightAccess fs b (pos - i * ext2BlockSize fs) False (r.1 = -1) log' log'' ↔
          DataFits fs b (pos - i * ext2BlockSize fs) n) ∧
    ∀ node : Ext2fsNode, ∀ pos n : ℕ, ∀ len : ℤ, 1 ≤ n → pos + n + ext2BlockSize fs ≤ 2 ^ 32 →
      clampLength node len = n → ∀ fuel buf log s,
      Relation.ReflTransGen (Loop.Next fs (fuel + 2) pos n) (Loop.start fs pos node buf log) s →
      ext4fsReadFile fs (fuel + 2) node pos len buf log = s.rest fs (fuel + 2) pos n ∧
      (∀ v node' log', s.Looks fs (fuel + 2) pos n v node' log' → 0 < v →
        ∃ b, Stored fs s.node s.block b s.log) ∧
      ∀ a, Loop.Performs fs (fuel + 2) pos n s a →
        (a.Ends → ∃ node' buf' log', s.rest fs (fuel + 2) pos n = .ok ((-1, node', buf'), log')) ∧
        (a.IntSized → (a.Right fs ↔ a.Fits fs)) := by
  have hmounted := ext4fsMount_mounted past part log₀ log₁ fs root hmount
  have hdev := hmounted.devDesc
  subst hdev
  have hshifts := hmounted.shifts
  refine ⟨fun cache test b log => ?_, ?_, ?_, ?_⟩
  · exact table_access_iff fs hpart hlength hmounted.shifts cache test b log
  · intro node hflags _ hdepth i j _ fuel log
    exact index_access_iff fs hmounted.shifts hmounted.blksz fuel node hflags hdepth i _ log
  · intro node node' pos n i b len hpos hn hfirst hend hlen log hb hstored fuel v log' hrun buf
    subst hfirst
    exact data_access_iff fs hpart hlength hmounted.shifts hmounted.blksz fuel pos n _
      (oneBlock_max fs hmounted.shifts pos n hpos hend) hn rfl (endBlock_of_le fs pos n hn hend)
      len node node' hlen b hb buf log log' v hstored hrun
  · intro node pos n len hn hsums hlen fuel buf log s hreach
    obtain ⟨hinv, hrest⟩ := reached fs hpart hshifts hmounted.blksz fuel pos n hsums len node hlen
      buf log hreach
    refine ⟨hrest, fun v node' log' hlooks hv => ?_, fun a hperforms => ⟨?_, ?_⟩⟩
    · have hblock := (endBlock_bounds fs pos n s.block hlooks.more).1
      have hsize := ext2BlockSize_eq fs
      have htwo := two_le_blockSectors fs
      have hle := Nat.mul_le_mul_left s.block (show 2 ≤ ext2BlockSize fs by omega)
      exact stored_of_answer fs hpart hshifts hmounted.blksz fuel s.node node' s.block (by omega)
        s.log log' v hv hlooks.run
    · exact rest_of_ends fs hshifts (fuel + 2) pos n hsums hinv.first hperforms
    · exact right_iff_of_performs fs hpart hlength hshifts hmounted.blksz fuel pos n hn hinv
        hperforms

/-- A file system of 4096-byte blocks. The root directory has two blocks, block 3
and one whose sector is 2 ^ 32 + 8. -/
def wideImage : Bytes := fun b =>
  match b with
  | 1048 => 2
  | 1064 => 8
  | 1080 => 0x53
  | 1081 => 0xef
  | 4104 => 2
  | 8325 => 0x20
  | 8360 => 3
  | 8364 => 1
  | 8367 => 0x20
  | _ => 0

def widePart : PartDescr := ⟨DiskDescr.ofImage wideImage, 0, 32⟩

/-- A lookup in the first twelve blocks asks nothing of the disk. -/
theorem direct_stored (fs : ExtFilesystem)
    (hpart : fs.devDesc.off + fs.devDesc.length < 2 ^ 63) (hlog : fs.sblock.log2BlockSize ≤ 20)
    (fuel : ℕ) (node : Ext2fsNode) (hflags : node.inode.extents = false) (i b : ℕ) (hi : i < 12)
    (hb : node.inode.dirBlock i = b) (log : Log) :
    Stored fs node i b log ∧
      readAllocatedBlock1 fs fuel node i log = .ok ((int32 b, node), log) := by
  have hway : descentTo fs node i = ⟨[], b, [], 0⟩ := by
    unfold descentTo
    rw [if_pos hi, hb]
  have hdivides : ¬ DividesByZero fs i := fun h => by
    have hfar := h.2.1
    omega
  have hrun := readAllocatedBlock1_run fs hpart hlog fuel node hflags i hdivides log
  rw [hway] at hrun
  refine ⟨Stored.word hflags ?_ ?_, hrun⟩
  · rw [hway]
    exact trivial
  · rw [hway]
    rfl

theorem widePart_mounts :
    ∃ fs root log, ext4fsMount (fun _ => 0) widePart [] = .ok (some (fs, root), log) ∧
      root.inode.extents = false ∧ root.inode.size = 8192 ∧ root.inode.dirBlock 0 = 3 ∧
      ext2BlockSize fs = 4096 ∧ BlockInside fs 3 ∧ 3 * blockSectors fs < 2 ^ 31 := by
  apply mount_of_check
  decide +kernel

theorem treeRoot_leaf :
    ∃ fs root log, ext4fsMount (fun _ => 0) treePart [] = .ok (some (fs, root), log) ∧
      TreeRoot fs root ∧ LastUpTo root.inode.b 0 0 ∧ BlockInside fs 4 := by
  have hmount : ∃ fs root log, ext4fsMount (fun _ => 0) treePart [] =
      .ok (some (fs, root), log) ∧ TreeRoot fs root ∧ (extentAt root.inode.b 0).block = 0 ∧
        BlockInside fs 4 := by
    apply mount_of_check
    decide +kernel
  obtain ⟨fs, root, log, hmount, hroot, hblock, hinside⟩ := hmount
  have hone : ehEntries root.inode.b = 1 := hroot.2.1.2.2
  refine ⟨fs, root, log, hmount, hroot, ⟨by omega, fun j hj => ?_, fun h => by omega⟩, hinside⟩
  obtain rfl := Nat.le_zero.mp hj
  exact Nat.le_of_eq hblock

/-- The loop over one block of 4096 bytes that is a direct one. -/
theorem oneBlock_performs (fs : ExtFilesystem)
    (hpart : fs.devDesc.off + fs.devDesc.length < 2 ^ 63) (hlog : fs.sblock.log2BlockSize ≤ 20)
    (hsize : ext2BlockSize fs = 4096) (node : Ext2fsNode) (hflags : node.inode.extents = false)
    (b : ℕ) (hb : node.inode.dirBlock 0 = b) (hsmall : b * blockSectors fs < 2 ^ 31)
    (hnonzero : b ≠ 0) (buf : Bytes) (log : Log) :
    ∃ s done log', Relation.ReflTransGen (Loop.Next fs 2 0 4096) (Loop.start fs 0 node buf log) s ∧
      Loop.Performs fs 2 0 4096 s (.read [b] 0 4096 done log log') := by
  obtain ⟨hstored, hrun⟩ := direct_stored fs hpart hlog 2 node hflags 0 b (by decide) hb log
  have htwo := two_le_blockSectors fs
  have hle : b * 1 ≤ b * blockSectors fs := Nat.mul_le_mul_left b (by omega)
  have hstart : Loop.start fs 0 node buf log = ⟨0, node, none, [], buf, log⟩ := by
    unfold Loop.start firstBlock
    rw [Nat.zero_div]
  have hend : endBlock fs 0 4096 = 1 := by
    unfold endBlock
    rw [hsize]
  have hpointer : 0 ≤ int32 (b : ℤ) := by
    rw [int32_of_nat _ (by omega) (by omega)]
    omega
  have hsector : int32 (int32 (b : ℤ) * blockSectors fs) ≠ 0 := by
    rw [tableSector_eq, tableSector_of_small hsmall]
    omega
  have hpiece : pieceSkip fs 0 0 = 0 ∧ pieceLength fs 0 4096 0 = 4096 := by
    unfold pieceLength pieceSkip pieceStart pieceEnd
    rw [hsize]
    exact ⟨rfl, rfl⟩
  have hlooks : Loop.Looks fs 2 0 4096 ⟨0, node, none, [], buf, log⟩ (int32 b) node log :=
    ⟨by rw [hend]; exact Nat.one_pos, hrun⟩
  have hnext := Loop.Next.begin hlooks hstored hpointer hsector not_false
    (show Loop.Flushes fs _ log true buf log from pure_run _ _)
  generalize hr : startRun fs 0 4096 (fun _ => int32 (b : ℤ)) 0 = r at hnext
  obtain ⟨⟨status, buf'⟩, log', hread⟩ := vfsDevread_total fs.devDesc r.start r.skip
    (int32 r.extent) buf r.dst log
  have hflush : Loop.Flushes fs ⟨0 + 1, node, some r, [b], buf, log⟩ log (status ≠ 0) buf' log' :=
    bind_ok hread
  have hlast : Loop.Performs fs 2 0 4096 _ _ := Loop.Performs.last hend.symm rfl hflush
  have hskip : r.skip = 0 ∧ r.extent = 4096 := by
    rw [← hr]
    exact hpiece
  rw [hskip.1, hskip.2] at hlast
  rw [hstart]
  exact ⟨_, _, _, Relation.ReflTransGen.single hnext, hlast⟩

/-- Block 3 lies inside, and is read where it lies, by itself and by the loop. The
tree below an index root is not read, though its leaf lies inside. -/
theorem pointer_access_inside :
    (∃ fs root log, ext4fsMount (fun _ => 0) widePart [] = .ok (some (fs, root), log) ∧
      BlockInside fs 3 ∧ (∀ buf, Yields (ext4fsReadFile fs 2 root (0 : ℕ) 4096 buf) log
        fun r log' => RightAccess fs 3 0 False (r.1 = -1) log log') ∧
      ∀ buf, ∃ s done log', Loop.Performs fs 2 0 4096 s (.read [3] 0 4096 done log log') ∧
        Relation.ReflTransGen (Loop.Next fs 2 0 4096) (Loop.start fs 0 root buf log) s ∧
        (Access.read [3] 0 4096 done log log').Right fs) ∧
    ∃ fs root log, ext4fsMount (fun _ => 0) treePart [] = .ok (some (fs, root), log) ∧
      Yields (readAllocatedBlock1 fs 2 root (0 : ℕ)) log fun r log' =>
        ¬ RightAccess fs 4 0 False (r.1 < 0) log log' := by
  constructor
  · obtain ⟨fs, root, log, hmount, hflags, hbytes, hblock, hsize, hinside, hsmall⟩ :=
      widePart_mounts
    have hmounted := ext4fsMount_mounted _ _ _ _ fs root hmount
    have hdev := hmounted.devDesc
    have hpart : fs.devDesc.off + fs.devDesc.length < 2 ^ 63 := by
      rw [hdev]
      decide
    obtain ⟨hstored, hrun⟩ := direct_stored fs hpart hmounted.shifts 2 root hflags 0 3
      (by decide) hblock log
    have hfirst : firstBlock fs 0 = 0 := Nat.zero_div _
    have hskip : 0 - 0 * ext2BlockSize fs = 0 := Nat.zero_sub _
    have hend : 0 + 4096 ≤ (0 + 1) * ext2BlockSize fs := by
      rw [hsize]
    have hlen : clampLength root 4096 = (4096 : ℕ) := by
      rw [show (4096 : ℤ) = (4096 : ℕ) from rfl, clampLength_eq, hbytes]
      rfl
    refine ⟨fs, root, log, hmount, hinside, fun buf => ?_, fun buf => ?_⟩
    · refine ((pointer_access_iff _ widePart _ _ fs root hmount (by decide)
        (by decide)).2.2.1 root root 0 4096 0 3 4096 (by decide) (by decide) hfirst hend hlen log
        (by decide) hstored 0 _ log hrun buf).mono ?_
      intro r log' hr
      rw [hskip] at hr
      exact hr.mpr ⟨fun _ => hsmall, fun hout => absurd hinside hout⟩
    · obtain ⟨s, done, log', hreach, hperforms⟩ := oneBlock_performs fs hpart hmounted.shifts hsize
        root hflags 3 hblock hsmall (by decide) buf log
      have haccess := ((pointer_access_iff _ widePart _ _ fs root hmount (by decide)
        (by decide)).2.2.2 root 0 4096 4096 (by decide) (by omega) hlen 0 buf log s hreach).2.2 _
        hperforms
      refine ⟨s, done, log', hperforms, hreach, (haccess.2 (by simp [Access.IntSized])).mpr ?_⟩
      exact ⟨fun _ => ⟨by simpa using hsmall, Or.inl rfl⟩, fun hout => by simp [hinside] at hout⟩
  · obtain ⟨fs, root, log, hmount, hroot, hleaf, hinside⟩ := treeRoot_leaf
    obtain ⟨⟨-, hflags⟩, ⟨hmagic, hdepth, -⟩, hindex⟩ := hroot
    have hnode : ehDepth root.inode.b ≠ 0 := hdepth ▸ Nat.one_ne_zero
    refine ⟨fs, root, log, hmount, ?_⟩
    refine ((pointer_access_iff _ treePart _ _ fs root hmount (by decide) (by decide)).2.1 root
      hflags hmagic hnode 0 0 hleaf 0 log).mono ?_
    intro r log' hr hright
    rw [hindex] at hr
    exact hr.mp hright hinside

/-- The block at sector 2 ^ 32 + 8 is not inside, and block 1 is read for it. -/
theorem wide_pointer_reads_other_block :
    ∃ fs root log, ext4fsMount (fun _ => 0) widePart [] = .ok (some (fs, root), log) ∧
      root.inode.dirBlock 1 = 2 ^ 29 + 1 ∧ ¬ BlockInside fs (2 ^ 29 + 1) ∧
      ∃ res, ext4fsReadFile fs 2 root (4096 : ℕ) (4096 : ℕ) (fun _ => 0) log =
        .ok (res, ⟨8, 8⟩ :: log) ∧ res.1 = 4096 := by
  have hmount : ∃ fs root log, ext4fsMount (fun _ => 0) widePart [] =
      .ok (some (fs, root), log) ∧ root.inode.dirBlock 1 = 2 ^ 29 + 1 ∧
        ¬ BlockInside fs (2 ^ 29 + 1) ∧ (match ext4fsReadFile fs 2 root (4096 : ℕ) (4096 : ℕ)
            (fun _ => 0) log with
          | .ok (res, log') => decide (log' = ⟨8, 8⟩ :: log ∧ res.1 = 4096)
          | .error _ => false) = true := by
    apply mount_of_check
    decide +kernel
  obtain ⟨fs, root, log, hmount, hblock, hout, hread⟩ := hmount
  refine ⟨fs, root, log, hmount, hblock, hout, ?_⟩
  split at hread
  · rename_i res log' hrun
    obtain ⟨rfl, hres⟩ := of_decide_eq_true hread
    exact ⟨res, hrun, hres⟩
  · exact absurd hread Bool.false_ne_true

end Eokan.PointerWidth
