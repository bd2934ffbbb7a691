import Eokan.Inodes
import Eokan.ReadPlan
import Eokan.UnknownMemory

/-!
A range of a file, read into two buffers. If it lies in the file and its lookups stay
inside, the reads end alike, and they leave the same bytes or they fail.
-/
namespace Eokan.UnknownReads

open ByteMem CInt Programs TwoRuns Device Devread Layout Inodes BlockMap ReadFile ReadPlan
  UnknownMemory

/-- The lookups of a file range look at nothing that the code does not know. -/
structure StaysInside (fs : ExtFilesystem) (inode : Ext2Inode) (pos n : ℕ) : Prop where
  sum_lt : pos + n < 2 ^ 31
  inside : ∀ i < endBlock fs pos n, firstBlock fs pos ≤ i → Inside fs inode i

/-- A read of such a range fills the buffer if it succeeds, as the file is long enough. -/
structure Delivers (fs : ExtFilesystem) (inode : Ext2Inode) (pos len : ℕ) : Prop
    extends StaysInside fs inode pos len where
  len_le : len ≤ inode.size

instance (fs : ExtFilesystem) (inode : Ext2Inode) (pos n : ℕ) :
    Decidable (StaysInside fs inode pos n) :=
  decidable_of_iff (pos + n < 2 ^ 31 ∧
      ∀ i < endBlock fs pos n, firstBlock fs pos ≤ i → Inside fs inode i)
    ⟨fun h => ⟨h.1, h.2⟩, fun h => ⟨h.sum_lt, h.inside⟩⟩

instance (fs : ExtFilesystem) (inode : Ext2Inode) (pos len : ℕ) :
    Decidable (Delivers fs inode pos len) :=
  decidable_of_iff (StaysInside fs inode pos len ∧ len ≤ inode.size)
    ⟨fun h => ⟨h.1, h.2⟩, fun h => ⟨h.toStaysInside, h.len_le⟩⟩

theorem StaysInside.congr {fs : ExtFilesystem} {inode inode' : Ext2Inode} {pos n : ℕ}
    (h : StaysInside fs inode pos n) (hinode : SameInode inode inode') :
    StaysInside fs inode' pos n :=
  ⟨h.sum_lt, fun i hi hfirst => inside_congr hinode (h.inside i hi hfirst)⟩

section Geometry
variable (fs : ExtFilesystem) (memory : Bytes) (pos n : ℕ)

@[simp] theorem firstBlock_onMemory : firstBlock (onMemory fs memory) pos = firstBlock fs pos := by
  unfold firstBlock
  rw [ext2BlockSize_onMemory]

@[simp] theorem endBlock_onMemory : endBlock (onMemory fs memory) pos n = endBlock fs pos n := by
  unfold endBlock
  rw [ext2BlockSize_onMemory]

@[simp] theorem pieceStart_onMemory (i : ℕ) :
    pieceStart (onMemory fs memory) pos i = pieceStart fs pos i := by
  unfold pieceStart
  rw [ext2BlockSize_onMemory]

@[simp] theorem pieceLength_onMemory (i : ℕ) :
    pieceLength (onMemory fs memory) pos n i = pieceLength fs pos n i := by
  unfold pieceLength pieceEnd
  rw [ext2BlockSize_onMemory, pieceStart_onMemory]

@[simp] theorem sectorOf_onMemory (map : ℕ → ℤ) (i : ℕ) :
    sectorOf (onMemory fs memory) map i = sectorOf fs map i := by
  unfold sectorOf
  rw [blockSectors_onMemory]

@[simp] theorem startRun_onMemory (map : ℕ → ℤ) (i : ℕ) :
    startRun (onMemory fs memory) pos n map i = startRun fs pos n map i := by
  unfold startRun pieceSkip
  rw [sectorOf_onMemory, pieceStart_onMemory, pieceLength_onMemory, ext2BlockSize_onMemory]

theorem staysInside_onMemory (inode : Ext2Inode) :
    StaysInside (onMemory fs memory) inode pos n ↔ StaysInside fs inode pos n := by
  have hinside : ∀ i, Inside (onMemory fs memory) inode i ↔ Inside fs inode i :=
    inside_onMemory memory inode
  constructor
  · intro h
    refine ⟨h.sum_lt, fun i hi hfirst => (hinside i).mp (h.inside i ?_ ?_)⟩
    · rwa [endBlock_onMemory]
    · rwa [firstBlock_onMemory]
  · intro h
    refine ⟨h.sum_lt, fun i hi hfirst => (hinside i).mpr (h.inside i ?_ ?_)⟩
    · rwa [endBlock_onMemory] at hi
    · rwa [firstBlock_onMemory] at hfirst

/-- The bytes of the range that lie before block i. -/
def stopAt (i : ℕ) : ℕ := min (pos + n) (i * ext2BlockSize fs) - pos

theorem stopAt_endBlock : stopAt fs pos n (endBlock fs pos n) = n := by
  have hsize := ext2BlockSize_pos fs
  have hdiv := Nat.div_add_mod (pos + n + ext2BlockSize fs - 1) (ext2BlockSize fs)
  have hmod := Nat.mod_lt (pos + n + ext2BlockSize fs - 1) hsize
  have hend : pos + n ≤ endBlock fs pos n * ext2BlockSize fs := by
    unfold endBlock
    rw [Nat.mul_comm]
    omega
  unfold stopAt
  omega

/-- The piece in block i begins where the bytes before the block stop. -/
theorem stopAt_piece (i : ℕ) (hfirst : firstBlock fs pos ≤ i) (hi : i < endBlock fs pos n) :
    pieceStart fs pos i - pos = stopAt fs pos n i ∧
      stopAt fs pos n (i + 1) = stopAt fs pos n i + pieceLength fs pos n i ∧
      stopAt fs pos n (i + 1) ≤ stopAt fs pos n i +
        ((i + 1) * ext2BlockSize fs - pieceStart fs pos i) := by
  have hpiece : pieceLength fs pos n i = pieceEnd fs pos n i - pieceStart fs pos i := rfl
  obtain ⟨⟨hlo, hpos⟩, ⟨hle, hnext⟩, ⟨hlt, hhi, hend⟩, -⟩ := piece_bounds fs pos n i hfirst hi
  obtain ⟨hbelow, -, -⟩ := endBlock_bounds fs pos n i hi
  have hstart : pieceStart fs pos i = max pos (i * ext2BlockSize fs) := rfl
  have hstop : pieceEnd fs pos n i = min (pos + n) ((i + 1) * ext2BlockSize fs) := rfl
  unfold stopAt
  omega

end Geometry

section Deferred

/-- Two buffers while a range is read. They are the same up to a byte, except for what
a deferred read will fill. -/
structure SameBefore (stop : ℕ) (run : Option Run) (buf buf' : Bytes) : Prop where
  deferred : ∀ r, run = some r → r.dst + r.extent = stop
  bytes : ∀ j, j < (run.elim stop fun r => r.dst) → buf' j = buf j

variable {fs : ExtFilesystem} (memory : Bytes)

theorem flush_same {stop : ℕ} {run : Option Run} {buf buf' : Bytes}
    (h : SameBefore stop run buf buf') (hstop : stop < 2 ^ 31) (log : Log) :
    Alike (fun r s r' s' => (s' = s ∧ r'.1 = r.1) ∧ (∀ j, buf' j = buf j → r'.2 j = r.2 j) ∧
        (r.1 = true → ∀ j, j < stop → r'.2 j = r.2 j))
      (flush fs (run.map Run.toDelayed) buf log)
      (flush (onMemory fs memory) (run.map Run.toDelayed) buf' log) := by
  cases run with
  | none => exact Alike.pure ⟨⟨rfl, rfl⟩, fun _ hj => hj, fun _ => h.bytes⟩
  | some r =>
    have hend := h.deferred r rfl
    have hextent : int32 r.extent = r.extent := int32_of_nat _ (by omega) (by omega)
    simp only [Option.map_some, flush, spill, Run.toDelayed, hextent]
    apply Alike.bind (vfsDevread_same fs.devDesc r.start r.skip (by omega) buf buf' r.dst log)
    rintro ⟨status, data⟩ s ⟨status', data'⟩ s' ⟨⟨rfl, hstatus⟩, hkept, hread⟩
    dsimp only at hstatus hkept hread ⊢
    subst hstatus
    refine Alike.pure ⟨⟨rfl, rfl⟩, hkept, fun hok j hj => ?_⟩
    by_cases hbefore : j < r.dst
    · exact hkept j (h.bytes j hbefore)
    · exact hread (of_decide_eq_true hok) j (by omega) (by omega)

end Deferred

/-- Two reads that end alike. Where the buffers were the same they still are, and if the
reads do not fail the first n bytes are the same. -/
def SameRange (fs : ExtFilesystem) (n : ℕ) (buf buf' : Bytes) (r : ℤ × Ext2fsNode × Bytes)
    (log : Log) (r' : ℤ × Ext2fsNode × Bytes) (log' : Log) : Prop :=
  log' = log ∧ r'.1 = r.1 ∧ SameNode fs r.2.1 r'.2.1 ∧
    (∀ j, buf' j = buf j → r'.2.2 j = r.2.2 j) ∧ (r.1 ≠ -1 → ∀ j, j < n → r'.2.2 j = r.2.2 j)

theorem SameRange.of_kept {fs : ExtFilesystem} {n : ℕ} {buf buf' data data' : Bytes}
    {r r' : ℤ × Ext2fsNode × Bytes} {log log' : Log} (h : SameRange fs n data data' r log r' log')
    (hkept : ∀ j, buf' j = buf j → data' j = data j) : SameRange fs n buf buf' r log r' log' :=
  ⟨h.1, h.2.1, h.2.2.1, fun j hj => h.2.2.2.1 j (hkept j hj), h.2.2.2.2⟩

section Reads
variable {fs : ExtFilesystem} (memory : Bytes) (hlog : fs.sblock.log2BlockSize ≤ 20)
  (hblksz : fs.blksz = 0) (fuel : ℕ) {pos n : ℕ} (hsum : pos + n < 2 ^ 31)
include hlog hblksz hsum

/-- The loops over the blocks of the range. The induction is on the blocks left. -/
theorem readBlocks_same (k i : ℕ) (hfirst : firstBlock fs pos ≤ i)
    (hk : i + k = endBlock fs pos n) (run : Option Run) {node node' : Ext2fsNode}
    (h : SameNode fs node node')
    (hinside : ∀ f < endBlock fs pos n, i ≤ f → Inside fs node.inode f) {buf buf' : Bytes}
    (hbuf : SameBefore (stopAt fs pos n i) run buf buf') (log : Log) :
    Alike (SameRange fs n buf buf')
      (readBlocks fs (fuel + 2) pos n k i node (run.map Run.toDelayed) buf
        (pieceStart fs pos i - pos) log)
      (readBlocks (onMemory fs memory) (fuel + 2) pos n k i node' (run.map Run.toDelayed) buf'
        (pieceStart fs pos i - pos) log) := by
  induction k generalizing i run node node' buf buf' log with
  | zero =>
    obtain rfl : i = endBlock fs pos n := hk
    rw [stopAt_endBlock] at hbuf
    unfold readBlocks
    apply Alike.bind (flush_same memory hbuf (by omega) log)
    rintro ⟨spilled, data⟩ s ⟨spilled', data'⟩ s' ⟨⟨rfl, hspilled⟩, hkept, hbytes⟩
    dsimp only at hspilled hkept hbytes ⊢
    subst hspilled
    apply Alike.ite
    · intro hok
      exact Alike.pure ⟨rfl, rfl, h, hkept, fun _ => hbytes hok⟩
    · intro _
      exact Alike.pure ⟨rfl, rfl, h, hkept, fun hfailed => absurd rfl hfailed⟩
  | succ k ih =>
    have hi : i < endBlock fs pos n := by omega
    have hsums := sums_fit fs pos n hlog (by omega)
    have hsums' : pos + n + ext2BlockSize (onMemory fs memory) ≤ 2 ^ 32 := by
      rw [ext2BlockSize_onMemory]
      exact hsums
    have hstep := readBlocks_succ (onMemory fs memory) hlog (fuel + 2) pos n hsums' k i
      (by rw [firstBlock_onMemory]; exact hfirst) (by rw [endBlock_onMemory]; exact hi) run node'
      buf'
    simp only [pieceStart_onMemory, pieceLength_onMemory, sectorOf_onMemory, startRun_onMemory,
      ext2BlockSize_onMemory] at hstep
    obtain ⟨hstart, hpiece, hhole⟩ := stopAt_piece fs pos n i hfirst hi
    have hlimit : stopAt fs pos n i < 2 ^ 31 := by
      unfold stopAt
      omega
    rw [readBlocks_succ fs hlog (fuel + 2) pos n hsums k i hfirst hi, hstep]
    apply Alike.bind ((readAllocatedBlock1_same memory hlog hblksz h fuel (hinside i hi
      (Nat.le_refl i)) log).and_return (fun r s hrun => readAllocatedBlock1_inode hrun))
    rintro ⟨blknr, node₁⟩ s ⟨blknr', node₁'⟩ s' ⟨⟨rfl, hblknr, hnode⟩, hinode⟩
    dsimp only at hblknr hnode hinode ⊢
    subst hblknr
    have hrest : ∀ f < endBlock fs pos n, i + 1 ≤ f → Inside fs node₁.inode f := by
      rw [hinode]
      exact fun f hf hif => hinside f hf (by omega)
    apply Alike.ite
    · intro _
      exact Alike.pure ⟨rfl, rfl, hnode, fun _ hj => hj, fun hfailed => absurd rfl hfailed⟩
    intro _
    apply Alike.ite
    · intro hcont
      refine ih (i + 1) (by omega) (by omega) _ hnode hrest ⟨fun r hr => ?_, fun j hj => ?_⟩ s'
      · obtain ⟨r', hrun, rfl⟩ := Option.map_eq_some_iff.mp hr
        have hend := hbuf.deferred r' hrun
        change r'.dst + (r'.extent + pieceLength fs pos n i) = _
        omega
      · refine hbuf.bytes j ?_
        cases run with
        | none => exact hcont.2.elim
        | some r => exact hj
    intro _
    apply Alike.bind (flush_same memory hbuf hlimit s')
    rintro ⟨spilled, data⟩ t ⟨spilled', data'⟩ t' ⟨⟨rfl, hspilled⟩, hkept, hbytes⟩
    dsimp only at hspilled hkept hbytes ⊢
    subst hspilled
    apply Alike.ite
    · intro _
      exact Alike.pure ⟨rfl, rfl, hnode, hkept, fun hfailed => absurd rfl hfailed⟩
    intro hok
    have hsame := hbytes (by simpa using hok)
    apply Alike.ite
    · intro _
      refine (ih (i + 1) (by omega) (by omega) _ hnode hrest ⟨fun r hr => ?_, fun j hj => ?_⟩
        t').mono fun r u r' u' hrange => hrange.of_kept hkept
      · obtain rfl := Option.some.inj hr
        change pieceStart fs pos i - pos + pieceLength fs pos n i = _
        omega
      · exact hsame j (hstart ▸ hj)
    · intro _
      refine (ih (i + 1) (by omega) (by omega) none hnode hrest ⟨fun r hr => ?_, fun j hj => ?_⟩
        t').mono fun r u r' u' hrange =>
          hrange.of_kept fun j hj => write_same _ _ _ (hkept j hj)
      · cases hr
      · change j < stopAt fs pos n (i + 1) at hj
        by_cases hbefore : j < pieceStart fs pos i - pos
        · exact write_same _ _ _ (hsame j (by omega))
        · exact write_within _ _ _ (by omega) (by omega)

end Reads

/-- Two reads of one range of a file. -/
theorem ext4fsReadFile_same {fs : ExtFilesystem} (memory : Bytes)
    (hlog : fs.sblock.log2BlockSize ≤ 20) (hblksz : fs.blksz = 0) (fuel : ℕ)
    {node node' : Ext2fsNode} (h : SameNode fs node node') {pos len : ℕ}
    (hstays : StaysInside fs node.inode pos (min len node.inode.size)) (buf buf' : Bytes)
    (log : Log) :
    Alike (SameRange fs (min len node.inode.size) buf buf')
      (ext4fsReadFile fs (fuel + 2) node pos len buf log)
      (ext4fsReadFile (onMemory fs memory) (fuel + 2) node' pos len buf' log) := by
  have hclamp := clampLength_eq node len
  have hclamp' := clampLength_eq node' len
  rw [sameInode_size h.inode] at hclamp'
  generalize min len node.inode.size = n at hstays hclamp hclamp' ⊢
  have hsum := hstays.sum_lt
  have hsums := sums_fit fs pos n hlog (by omega)
  have hfirst := firstBlock_le_endBlock fs pos n
  have hstart := (firstBlock_bounds fs pos).1
  have hsums' : pos + n + ext2BlockSize (onMemory fs memory) ≤ 2 ^ 32 := by
    rw [ext2BlockSize_onMemory]
    exact hsums
  have hrun := ext4fsReadFile_eq (onMemory fs memory) hlog (fuel + 2) pos n hsums' len node'
    hclamp' buf' log
  simp only [endBlock_onMemory, firstBlock_onMemory, pieceStart_onMemory] at hrun
  rw [ext4fsReadFile_eq fs hlog (fuel + 2) pos n hsums len node hclamp, hrun]
  refine readBlocks_same memory hlog hblksz fuel hsum _ _ (Nat.le_refl _) (by omega) none h
    hstays.inside ⟨fun r hr => ?_, fun j hj => ?_⟩ log
  · cases hr
  · change j < stopAt fs pos n (firstBlock fs pos) at hj
    unfold stopAt at hj
    omega

/-- Two reads of a range that lies in the file. -/
theorem ext4fsReadFile_delivers {fs : ExtFilesystem} (memory : Bytes)
    (hlog : fs.sblock.log2BlockSize ≤ 20) (hblksz : fs.blksz = 0) (fuel : ℕ)
    {node node' : Ext2fsNode} (h : SameNode fs node node') {pos len : ℕ}
    (hread : Delivers fs node.inode pos len) (buf buf' : Bytes) (log : Log) :
    Alike (SameRange fs len buf buf')
      (ext4fsReadFile fs (fuel + 2) node (int32 pos) len buf log)
      (ext4fsReadFile (onMemory fs memory) (fuel + 2) node' (int32 pos) len buf' log) := by
  have hsum := hread.sum_lt
  have hmin : min len node.inode.size = len := Nat.min_eq_left hread.len_le
  have hstays := hread.toStaysInside
  have hpos : int32 pos = pos := int32_of_nat _ (by omega) (by omega)
  have hsame := ext4fsReadFile_same memory hlog hblksz fuel h (hmin.symm ▸ hstays) buf buf' log
  rw [hmin] at hsame
  rw [hpos]
  exact hsame

/-- Two reads of one inode, into memory that may hold another one. -/
theorem ext4fsReadInode_same (fs : ExtFilesystem) (memory : Bytes) (ino : ℤ)
    {inode inode' : Ext2Inode} (h : SameInode inode inode') (log : Log) :
    Alike (fun r s r' s' => s' = s ∧ r'.1 = r.1 ∧ SameInode r.2 r'.2)
      (ext4fsReadInode fs ino inode log) (ext4fsReadInode (onMemory fs memory) ino inode' log) := by
  have hmemory : ext4fsReadInode (onMemory fs memory) = ext4fsReadInode fs := by
    have hgroup : ext4fsBlockgroup (onMemory fs memory) = ext4fsBlockgroup fs := by
      unfold ext4fsBlockgroup
      simp only [ext2BlockSize_onMemory, blockSectors_onMemory]
      rfl
    unfold ext4fsReadInode
    simp only [hgroup, ext2BlockSize_onMemory, blockSectors_onMemory]
    rfl
  rw [hmemory]
  unfold ext4fsReadInode
  apply Alike.ite (fun _ => Alike.fault _)
  intro _
  apply Alike.bind (Alike.same _ log)
  rintro ⟨status, blkgrp⟩ s _ s' ⟨rfl, rfl⟩
  apply Alike.ite
  · intro _
    exact Alike.pure ⟨rfl, rfl, h⟩
  intro _
  apply Alike.ite (fun _ => Alike.fault _)
  intro _
  apply Alike.ite (fun _ => Alike.fault _)
  intro _
  apply Alike.bind (@vfsDevread_same fs.devDesc _ _ 128 (by decide) inode.raw inode'.raw 0 s')
  rintro ⟨status₁, raw⟩ t ⟨status₁', raw'⟩ t' ⟨⟨rfl, hstatus⟩, hkept, -⟩
  dsimp only at hstatus hkept ⊢
  subst hstatus
  have hraw : SameInode ⟨raw⟩ ⟨raw'⟩ := fun j hj => hkept j (h j hj)
  apply Alike.ite
  · intro _
    exact Alike.pure ⟨rfl, rfl, hraw⟩
  · intro _
    exact Alike.pure ⟨rfl, rfl, hraw⟩

end Eokan.UnknownReads
