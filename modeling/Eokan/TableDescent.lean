import Eokan.IndirectCache

/-!
The lookups below the inode in one form. A level looks for its table in a cache
and goes on with a word of it. What a lookup returns, what it leaves in the
caches and which reads it issues is a function of the node, of the content of
the partition and of the outcome of each read.
-/
namespace Eokan.TableDescent

open ByteMem CInt Programs Device Devread DevreadOutcome Layout BlockMap IndirectWalk
open IndirectCache

/-- The sector that the code computes for block t. -/
def tableSector (fs : ExtFilesystem) (t : ℕ) : ℤ := int32 (t * blockSectors fs : ℕ)

/-- The reader accepts the sector of block t. -/
def InReach (fs : ExtFilesystem) (t : ℕ) : Prop :=
  Readable fs.devDesc (tableSector fs t) 0 (ext2BlockSize fs)

instance (fs : ExtFilesystem) (t : ℕ) : Decidable (InReach fs t) := by
  unfold InReach
  infer_instance

/-- The one device read of a table. -/
def tableRequest (fs : ExtFilesystem) (t : ℕ) : Request :=
  ⟨tableSector fs t + fs.devDesc.off, blockSectors fs⟩

/-- The key of the cache passes the test for block t. -/
def Hit (fs : ExtFilesystem) (cache : IndirCache) (t : ℕ) : Prop :=
  uint32 (t * blockSectors fs : ℕ) = uint32 cache.blkno

instance (fs : ExtFilesystem) (cache : IndirCache) (t : ℕ) : Decidable (Hit fs cache t) := by
  unfold Hit
  infer_instance

/-- The cache after its table has been read. -/
def loaded (fs : ExtFilesystem) (cache : IndirCache) (t : ℕ) : IndirCache :=
  { cache with
    block := some (write (IndirCache.mem cache) 0 (ext2BlockSize fs)
      (slice fs.devDesc.bytes ((tableSector fs t).toNat * 512)))
    blkno := tableSector fs t }

/-- The cache after a failed read: new bytes under the old key. -/
def spoiled (fs : ExtFilesystem) (cache : IndirCache) (bytes : Bytes) : IndirCache :=
  { cache with block := some (write (IndirCache.mem cache) 0 (ext2BlockSize fs) bytes) }

/-- A refill, for every outcome of its read. -/
def refilled (fs : ExtFilesystem) (cache : IndirCache) (test load : ℕ) (log : Log) :
    (Bool × IndirCache) × Log :=
  if Hit fs cache test then ((true, cache), log)
  else if ¬ InReach fs load then ((false, cache), log)
  else
    let request := tableRequest fs load
    if fs.devDesc.disk.fails log request then
      ((false, spoiled fs cache (fs.devDesc.disk.leftover log request)), request :: log)
    else ((true, loaded fs cache load), request :: log)

theorem allocCache_isSome (fs : ExtFilesystem) (cache : IndirCache) :
    (allocCache fs cache).block.isSome := by
  unfold allocCache
  by_cases hnone : cache.block.isNone = true
  · simp only [hnone, if_true, ne_eq, not_true_eq_false, if_false, Option.isSome_some]
  · simp only [hnone, Bool.false_eq_true, if_false]
    by_cases hsize : (ext2BlockSize fs : ℤ) = cache.size
    · rw [if_neg (not_not_intro hsize)]
      exact Option.isSome_iff_ne_none.mpr (mt Option.isNone_iff_eq_none.mpr hnone)
    · rw [if_pos hsize]
      exact Option.isSome_some

section Refill
variable (fs : ExtFilesystem) (hpart : fs.devDesc.off + fs.devDesc.length < 2 ^ 63)
  (hlog : fs.sblock.log2BlockSize ≤ 20)
include hpart

theorem partRead_block (sector : ℤ) (hin : Readable fs.devDesc sector 0 (ext2BlockSize fs))
    (buf : Bytes) (log : Log) :
    partRead fs.devDesc sector (blockSectors fs) buf 0 log =
      let request : Request := ⟨sector + fs.devDesc.off, blockSectors fs⟩
      if fs.devDesc.disk.fails log request then
        .ok ((-1, write buf 0 (ext2BlockSize fs) (fs.devDesc.disk.leftover log request)),
          request :: log)
      else .ok ((0, write buf 0 (ext2BlockSize fs) (slice fs.devDesc.bytes (sector.toNat * 512))),
        request :: log) := by
  have hsize := ext2BlockSize_eq fs
  obtain ⟨hpos, hend, -⟩ := hin
  have hstart : int64 (sector + fs.devDesc.off) = sector + fs.devDesc.off :=
    int64_of_range _ (by omega) (by omega)
  have hlen : ((blockSectors fs : ℤ) * 512).toNat = ext2BlockSize fs := by omega
  have hsrc : slice fs.devDesc.disk.image ((sector + fs.devDesc.off) * 512).toNat =
      slice fs.devDesc.bytes (sector.toNat * 512) := by
    funext j
    exact congrArg fs.devDesc.disk.image (by omega)
  unfold partRead diskRead
  simp only [hstart, hlen, hsrc]

include hlog

/-- The reader asks for whole sectors at once. -/
theorem vfsDevread_block (sector : ℤ) (hin : Readable fs.devDesc sector 0 (ext2BlockSize fs))
    (buf : Bytes) (log : Log) :
    vfsDevread fs.devDesc sector (0 : ℕ) (int32 (ext2BlockSize fs)) buf 0 log =
      let request : Request := ⟨sector + fs.devDesc.off, blockSectors fs⟩
      if fs.devDesc.disk.fails log request then
        .ok ((0, write buf 0 (ext2BlockSize fs) (fs.devDesc.disk.leftover log request)),
          request :: log)
      else .ok ((1, write buf 0 (ext2BlockSize fs) (slice fs.devDesc.bytes (sector.toNat * 512))),
        request :: log) := by
  have hread := partRead_block fs hpart sector hin buf log
  have hle := ext2BlockSize_le fs hlog
  have hsize := ext2BlockSize_eq fs
  have htwo := two_le_blockSectors fs
  have hlimit := hin.2.2
  have hout := (outsidePartition_int32 fs.devDesc sector 0 (ext2BlockSize fs) (by omega)
    (by omega) (by omega) (by omega)).mpr hin
  have hint : int32 (ext2BlockSize fs) = ext2BlockSize fs :=
    int32_of_nat _ (by omega) (by omega)
  rw [hint] at hout ⊢
  have hsector : int32 (sector + ((0 : ℕ) : ℤ) / 512) = sector := by
    have hpos := hin.1
    rw [int32_of_nat _ (by omega) (by omega)]
    omega
  have hblock : uint32 ((ext2BlockSize fs : ℤ) - (ext2BlockSize fs : ℤ) % 512) =
      ext2BlockSize fs := by
    rw [uint32_of_range _ (by omega) (by omega)]
    omega
  have hnum : (ext2BlockSize fs : ℤ) / 512 = blockSectors fs := by omega
  unfold vfsDevread readAligned
  rw [hout, if_neg Bool.false_ne_true]
  simp only [hsector]
  rw [if_neg (by omega), if_neg (by omega)]
  simp only [hblock]
  rw [if_neg (by omega), hnum]
  by_cases hfails : fs.devDesc.disk.fails log ⟨sector + fs.devDesc.off, blockSectors fs⟩ = true
  · simp only [if_pos hfails] at hread ⊢
    rw [bind_ok hread]
    dsimp only
    rw [if_pos (by decide)]
    exact pure_run _ _
  · simp only [if_neg hfails] at hread ⊢
    rw [bind_ok hread]
    dsimp only
    rw [if_neg (by decide), Int.sub_self, int32_zero]
    unfold readRest
    rw [if_pos rfl]
    exact pure_run _ _

/-- The refill of the code is this function of the outcome. -/
theorem refill_run (cache : IndirCache) (hsome : cache.block.isSome) (test load : ℕ) (log : Log) :
    refill fs cache test load log = .ok (refilled fs cache test load log) := by
  have hle := ext2BlockSize_le fs hlog
  have hpos := ext2BlockSize_pos fs
  unfold refill refilled
  by_cases hhit : Hit fs cache test
  · have hkey : uint32 (test * blockSectors fs : ℕ) = uint32 cache.blkno := hhit
    rw [if_neg (not_not_intro hkey), if_pos hhit]
    exact pure_run _ _
  have hmiss : uint32 (test * blockSectors fs : ℕ) ≠ uint32 cache.blkno := hhit
  rw [if_pos hmiss, if_neg hhit]
  by_cases hin : InReach fs load
  · have hread :=
      vfsDevread_block fs hpart hlog (tableSector fs load) hin (IndirCache.mem cache) log
    rw [if_neg (not_not_intro hin)]
    by_cases hfails : fs.devDesc.disk.fails log (tableRequest fs load) = true
    · refine (bind_ok (hread.trans (if_pos hfails))).trans ?_
      rw [if_pos hfails]
      rfl
    · refine (bind_ok (hread.trans (if_neg hfails))).trans ?_
      rw [if_neg hfails]
      rfl
  · have hread := vfsDevread_refused fs.devDesc (tableSector fs load) 0 (ext2BlockSize fs)
      (by omega)
      (int32_bounds _).2 (by omega) (by omega) hin (IndirCache.mem cache) 0 log
    rw [if_pos hin]
    refine (bind_ok hread).trans ?_
    obtain ⟨block, hblock⟩ := Option.isSome_iff_exists.mp hsome
    have hmem : some (IndirCache.mem cache) = cache.block := by
      unfold IndirCache.mem
      rw [hblock, Option.getD_some]
    dsimp only
    rw [if_pos rfl, hmem]
    exact pure_run _ _

end Refill

/-- From a table pointer on. At each level the cache is tested for block `test`
and otherwise filled from block `load`. Words j and i of its table are the test
and the load of the next level. -/
def descend (fs : ExtFilesystem) (failed : ℤ) :
    List IndirCache → ℕ → ℕ → List (ℕ × ℕ) → Log → (ℤ × List IndirCache) × Log
  | cache :: rest, test, load, (j, i) :: is, log =>
    let level := refilled fs (allocCache fs cache) test load log
    let cache := level.1.2
    if level.1.1 then
      let below := descend fs failed rest (IndirCache.entry cache j) (IndirCache.entry cache i) is
        level.2
      ((below.1.1, cache :: below.1.2), below.2)
    else ((failed, cache :: rest), level.2)
  | caches, _, load, _, log => ((int32 load, caches), log)

/-- Put back the caches of the first levels. -/
def withCaches (node : Ext2fsNode) : List IndirCache → Ext2fsNode
  | [] => node
  | [indir1] => { node with indir1 }
  | [indir1, indir2] => { node with indir1, indir2 }
  | indir1 :: indir2 :: indir3 :: _ => { node with indir1, indir2, indir3 }

/-- The way from the inode to a file block. -/
structure Descent where
  caches : List IndirCache
  table : ℕ
  indices : List (ℕ × ℕ)
  failed : ℤ

/-- The second index of the triple case is not reduced where it is tested. -/
def descentTo (fs : ExtFilesystem) (node : Ext2fsNode) (f : ℕ) : Descent :=
  let p := perblock fs
  if f < 12 then ⟨[], node.inode.dirBlock f, [], 0⟩
  else if f < 12 + p then ⟨[node.indir1], node.inode.indirBlock, [(f - 12, f - 12)], 0⟩
  else if f < doubleEnd fs then
    let r := f - (12 + p)
    ⟨[node.indir1, node.indir2], node.inode.doubleIndirBlock, [(r / p, r / p), (r % p, r % p)], -1⟩
  else
    let r := f - tripleStart fs
    ⟨[node.indir1, node.indir2, node.indir3], node.inode.tripleIndirBlock,
      [(r / perblockParent fs, r / perblockParent fs), (r / p, r / p % p), (r % p, r % p)], -1⟩

/-- The descent divides by a product that is 0 in 32 bits. -/
def DividesByZero (fs : ExtFilesystem) (f : ℕ) : Prop :=
  perblockParent fs = 0 ∧ 12 + perblock fs ≤ f ∧ doubleEnd fs ≤ f

def Descent.run (fs : ExtFilesystem) (way : Descent) (log : Log) : (ℤ × List IndirCache) × Log :=
  descend fs way.failed way.caches way.table way.table way.indices log

section Lookup
variable (fs : ExtFilesystem) (hpart : fs.devDesc.off + fs.devDesc.length < 2 ^ 63)
  (hlog : fs.sblock.log2BlockSize ≤ 20)
include hpart hlog

theorem readIndirect_run (node : Ext2fsNode) (f : ℕ) (log : Log) :
    readIndirect fs node f log =
      let res := descend fs 0 [node.indir1] node.inode.indirBlock node.inode.indirBlock
        [(f - 12, f - 12)] log
      .ok ((res.1.1, withCaches node res.1.2), res.2) := by
  have hrun := refill_run fs hpart hlog _ (allocCache_isSome fs node.indir1) node.inode.indirBlock
    node.inode.indirBlock log
  unfold readIndirect descend
  generalize refilled fs (allocCache fs node.indir1) node.inode.indirBlock
    node.inode.indirBlock log = level at hrun ⊢
  obtain ⟨⟨filled, indir1⟩, log'⟩ := level
  rw [bind_ok hrun]
  cases filled with
  | false => rfl
  | true => rfl

theorem readDoubleIndirect_run (node : Ext2fsNode) (f : ℕ) (log : Log) :
    readDoubleIndirect fs node f log =
      let r := f - (12 + perblock fs)
      let res := descend fs (-1) [node.indir1, node.indir2] node.inode.doubleIndirBlock
        node.inode.doubleIndirBlock
        [(r / perblock fs, r / perblock fs), (r % perblock fs, r % perblock fs)] log
      .ok ((res.1.1, withCaches node res.1.2), res.2) := by
  have hper : ext2BlockSize fs / 4 = perblock fs := rfl
  have hrun := refill_run fs hpart hlog _ (allocCache_isSome fs node.indir1)
    node.inode.doubleIndirBlock node.inode.doubleIndirBlock log
  unfold readDoubleIndirect descend
  simp only [hper]
  generalize f - (12 + perblock fs) = r
  generalize refilled fs (allocCache fs node.indir1) node.inode.doubleIndirBlock
    node.inode.doubleIndirBlock log = level at hrun ⊢
  obtain ⟨⟨filled, indir1⟩, log'⟩ := level
  rw [bind_ok hrun]
  cases filled with
  | false => rfl
  | true =>
    have hrun' := refill_run fs hpart hlog _ (allocCache_isSome fs node.indir2)
      (IndirCache.entry indir1 (r / perblock fs)) (IndirCache.entry indir1 (r / perblock fs)) log'
    simp only [Bool.not_true, Bool.false_eq_true, if_false, if_true]
    unfold descend
    generalize refilled fs (allocCache fs node.indir2)
      (IndirCache.entry indir1 (r / perblock fs)) (IndirCache.entry indir1 (r / perblock fs))
      log' = level at hrun' ⊢
    obtain ⟨⟨filled, indir2⟩, log''⟩ := level
    rw [bind_ok hrun']
    cases filled with
    | false => rfl
    | true => rfl

theorem readTripleIndirect_run (hparent : perblockParent fs ≠ 0) (node : Ext2fsNode) (f : ℕ)
    (log : Log) :
    readTripleIndirect fs node f log =
      let p := perblock fs
      let parent := perblockParent fs
      let r := f - tripleStart fs
      let res := descend fs (-1) [node.indir1, node.indir2, node.indir3]
        node.inode.tripleIndirBlock node.inode.tripleIndirBlock
        [(r / parent, r / parent), (r / p, r / p % p), (r % p, r % p)] log
      .ok ((res.1.1, withCaches node res.1.2), res.2) := by
  have hper : ext2BlockSize fs / 4 = perblock fs := rfl
  have hrun := refill_run fs hpart hlog _ (allocCache_isSome fs node.indir1)
    node.inode.tripleIndirBlock node.inode.tripleIndirBlock log
  unfold readTripleIndirect descend
  simp only [hper, if_neg hparent]
  generalize f - tripleStart fs = r
  generalize perblock fs = p
  generalize perblockParent fs = parent
  generalize refilled fs (allocCache fs node.indir1) node.inode.tripleIndirBlock
    node.inode.tripleIndirBlock log = level at hrun ⊢
  obtain ⟨⟨filled, indir1⟩, log'⟩ := level
  rw [bind_ok hrun]
  cases filled with
  | false => rfl
  | true =>
    have hrun' := refill_run fs hpart hlog _ (allocCache_isSome fs node.indir2)
      (IndirCache.entry indir1 (r / parent)) (IndirCache.entry indir1 (r / parent)) log'
    simp only [Bool.not_true, Bool.false_eq_true, if_false, if_true]
    unfold descend
    generalize refilled fs (allocCache fs node.indir2)
      (IndirCache.entry indir1 (r / parent)) (IndirCache.entry indir1 (r / parent))
      log' = level at hrun' ⊢
    obtain ⟨⟨filled, indir2⟩, log₂⟩ := level
    rw [bind_ok hrun']
    cases filled with
    | false => rfl
    | true =>
      have hrun₃ := refill_run fs hpart hlog _ (allocCache_isSome fs node.indir3)
        (IndirCache.entry indir2 (r / p)) (IndirCache.entry indir2 (r / p % p)) log₂
      simp only [Bool.not_true, Bool.false_eq_true, if_false, if_true]
      unfold descend
      generalize refilled fs (allocCache fs node.indir3) (IndirCache.entry indir2 (r / p))
        (IndirCache.entry indir2 (r / p % p)) log₂ = level at hrun₃ ⊢
      obtain ⟨⟨filled, indir3⟩, log₃⟩ := level
      rw [bind_ok hrun₃]
      cases filled with
      | false => rfl
      | true => rfl

/-- With a product that is 0 the lookup ends at the first table, or crashes there. -/
theorem readTripleIndirect_divides (hparent : perblockParent fs = 0) (node : Ext2fsNode) (f : ℕ)
    (log : Log) :
    readTripleIndirect fs node f log =
      let table := node.inode.tripleIndirBlock
      let level := refilled fs (allocCache fs node.indir1) table table log
      if level.1.1 then .error .divByZero
      else .ok ((-1, { node with indir1 := level.1.2 }), level.2) := by
  have hrun := refill_run fs hpart hlog _ (allocCache_isSome fs node.indir1)
    node.inode.tripleIndirBlock node.inode.tripleIndirBlock log
  unfold readTripleIndirect
  simp only [if_pos hparent]
  generalize refilled fs (allocCache fs node.indir1) node.inode.tripleIndirBlock
    node.inode.tripleIndirBlock log = level at hrun ⊢
  obtain ⟨⟨filled, indir1⟩, log'⟩ := level
  rw [bind_ok hrun]
  cases filled with
  | false => rfl
  | true => rfl

/-- Every lookup of a file block without extents is a descent, unless it divides by 0. -/
theorem readAllocatedBlock1_run (fuel : ℕ) (node : Ext2fsNode)
    (hflags : node.inode.extents = false) (f : ℕ) (hdivides : ¬ DividesByZero fs f) (log : Log) :
    readAllocatedBlock1 fs fuel node f log =
      let res := (descentTo fs node f).run fs log
      .ok ((res.1.1, withCaches node res.1.2), res.2) := by
  unfold readAllocatedBlock1 descentTo
  have hshifts : checkShifts fs = .ok () := if_pos hlog
  rw [bind_ok (lift_ok hshifts log)]
  simp only [hflags, Bool.false_eq_true, if_false, perblock_int, Int.toNat_natCast]
  by_cases hdirect : f < 12
  · rw [if_pos (by omega), if_neg (by omega), if_pos hdirect]
    rfl
  rw [if_neg (by omega), if_neg hdirect]
  by_cases hsingle : f < 12 + perblock fs
  · rw [if_pos (by omega), if_pos hsingle]
    exact readIndirect_run fs hpart hlog node f log
  rw [if_neg (by omega), if_neg hsingle]
  by_cases hpair : (f : ℤ) < doubleEnd fs
  · rw [if_pos hpair, if_pos hpair]
    exact readDoubleIndirect_run fs hpart hlog node f log
  · rw [if_neg hpair, if_neg hpair]
    have hparent : perblockParent fs ≠ 0 := fun h => hdivides ⟨h, by omega, by omega⟩
    exact readTripleIndirect_run fs hpart hlog hparent node f log

/-- One that does returns an error or nothing. -/
theorem readAllocatedBlock1_divides (fuel : ℕ) (node : Ext2fsNode)
    (hflags : node.inode.extents = false) (f : ℕ) (hdivides : DividesByZero fs f) (log : Log) :
    readAllocatedBlock1 fs fuel node f log =
      let table := node.inode.tripleIndirBlock
      let level := refilled fs (allocCache fs node.indir1) table table log
      if level.1.1 then .error .divByZero
      else .ok ((-1, { node with indir1 := level.1.2 }), level.2) := by
  obtain ⟨hparent, hsingle, hpair⟩ := hdivides
  unfold readAllocatedBlock1
  have hshifts : checkShifts fs = .ok () := if_pos hlog
  rw [bind_ok (lift_ok hshifts log)]
  simp only [hflags, Bool.false_eq_true, if_false, perblock_int, Int.toNat_natCast]
  rw [if_neg (by omega), if_neg (by omega), if_neg (by omega)]
  exact readTripleIndirect_divides fs hpart hlog hparent node f log

end Lookup

end Eokan.TableDescent
