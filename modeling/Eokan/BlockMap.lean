import Eokan.Devread
import Eokan.Layout
import Eokan.SortedScan

/-!
From a file block to a block of the disk. An inode maps its blocks by an
extent tree or by direct, single, double and triple indirect tables. The tables
read last stay in the node, one cache for each level of pointers.
-/
namespace Eokan.BlockMap

open ByteMem CInt Programs Device Devread Layout SortedScan

/-- The descent through the index nodes. The node buffer is reused, and nothing
in the code bounds the number of levels. -/
def getExtentBlock (fs : ExtFilesystem) (fileblock : ℤ) :
    ℕ → Bytes → Bytes → DevM (Option Bytes)
  | 0, _, _ => fault .outOfFuel
  | fuel + 1, extBlock, buf =>
    if ehMagic extBlock ≠ ext4ExtMagic then pure none
    else if ehDepth extBlock = 0 then pure (some extBlock)
    else
      let i := scanEntries (fun i => (indexAt extBlock i).block < uint32 fileblock)
        (ehEntries extBlock) 0
      if i = 0 then pure none
      else do
        let block := (indexAt extBlock (i - 1)).leaf
        let (status, buf) ← vfsDevread fs.devDesc (int32 (block * blockSectors fs : ℕ)) 0
          (int32 fs.blksz) buf 0
        if status ≠ 0 then getExtentBlock fs fileblock fuel buf buf
        else pure none

/-- The search in a leaf. -/
def findExtent (extBlock : Bytes) (fileblock : ℤ) : ℤ :=
  let i := scanEntries (fun i => (extentAt extBlock i).block ≤ uint32 fileblock)
    (ehEntries extBlock) 0
  if i = 0 then -1
  else
    let extent := extentAt extBlock (i - 1)
    let fileblock := int32 (fileblock - extent.block)
    if extent.len ≤ fileblock then 0
    else int32 (fileblock + extent.start)

def readExtentBlock (fs : ExtFilesystem) (fuel : ℕ) (node : Ext2fsNode) (fileblock : ℤ) :
    DevM ℤ := do
  let buf := zalloc fs (ext2BlockSize fs)
  let extBlock ← getExtentBlock fs fileblock fuel node.inode.b buf
  match extBlock with
  | none => pure (-2)
  | some extBlock => pure (findExtent extBlock fileblock)

/-- A cache that was allocated for this block size. -/
def allocCache (fs : ExtFilesystem) (cache : IndirCache) : IndirCache :=
  let fresh : IndirCache := ⟨some (zalloc fs (ext2BlockSize fs)), ext2BlockSize fs, -1⟩
  let cache := if cache.block.isNone then fresh else cache
  if (ext2BlockSize fs : ℤ) ≠ cache.size then fresh else cache

def IndirCache.mem (cache : IndirCache) : Bytes := cache.block.getD fun _ => 0

def IndirCache.entry (cache : IndirCache) (i : ℕ) : ℕ := le32 (IndirCache.mem cache) (4 * i)

/-- Fill a cache with the table in block `load`, unless its key is the sector of
block `test`. A read that fails may leave the old key with new bytes. -/
def refill (fs : ExtFilesystem) (cache : IndirCache) (test load : ℕ) :
    DevM (Bool × IndirCache) := do
  if uint32 (test * blockSectors fs : ℕ) ≠ uint32 cache.blkno then do
    let (status, block) ← vfsDevread fs.devDesc (int32 (load * blockSectors fs : ℕ)) 0
      (int32 (ext2BlockSize fs)) (IndirCache.mem cache) 0
    if status = 0 then pure (false, { cache with block := some block })
    else
      pure (true, { cache with block := some block, blkno := int32 (load * blockSectors fs : ℕ) })
  else pure (true, cache)

def readIndirect (fs : ExtFilesystem) (node : Ext2fsNode) (fileblock : ℕ) :
    DevM (ℤ × Ext2fsNode) := do
  let table := node.inode.indirBlock
  let (filled, indir1) ← refill fs (allocCache fs node.indir1) table table
  let node := { node with indir1 }
  if !filled then pure (0, node)
  else pure (int32 (IndirCache.entry indir1 (fileblock - 12)), node)

def readDoubleIndirect (fs : ExtFilesystem) (node : Ext2fsNode) (fileblock : ℕ) :
    DevM (ℤ × Ext2fsNode) := do
  let perblock := ext2BlockSize fs / 4
  let rblock := fileblock - (12 + ext2BlockSize fs / 4)
  let table := node.inode.doubleIndirBlock
  let (filled, indir1) ← refill fs (allocCache fs node.indir1) table table
  let node := { node with indir1 }
  if !filled then pure (-1, node)
  else do
    let table := IndirCache.entry indir1 (rblock / perblock)
    let (filled, indir2) ← refill fs (allocCache fs node.indir2) table table
    let node := { node with indir2 }
    if !filled then pure (-1, node)
    else pure (int32 (IndirCache.entry indir2 (rblock % perblock)), node)

/-- The products of the double and triple indirect cases are `int`s. They fit for
every block size up to EXT2_MAX_BLOCK_SIZE, and wrap for larger ones. -/
def doubleEnd (fs : ExtFilesystem) : ℤ :=
  let blksz : ℤ := ext2BlockSize fs
  int32 (12 + int32 (blksz / 4 * (blksz / 4 + 1)))

/-- What is taken off a file block in the triple indirect case. -/
def tripleStart (fs : ExtFilesystem) : ℕ :=
  let blksz : ℤ := ext2BlockSize fs
  (int32 (12 + blksz / 4 + (int32 (blksz / 4 * blksz)).tdiv 4)).toNat

def perblockParent (fs : ExtFilesystem) : ℕ :=
  let blksz : ℤ := ext2BlockSize fs
  (int32 (blksz / 4 * (blksz / 4))).toNat

/-- The third cache is tested at an index that is not reduced to the table. -/
def readTripleIndirect (fs : ExtFilesystem) (node : Ext2fsNode) (fileblock : ℕ) :
    DevM (ℤ × Ext2fsNode) := do
  let blksz := ext2BlockSize fs
  let rblock := fileblock - tripleStart fs
  let perblockChild := blksz / 4
  let perblockParent := perblockParent fs
  let table := node.inode.tripleIndirBlock
  let (filled, indir1) ← refill fs (allocCache fs node.indir1) table table
  let node := { node with indir1 }
  if !filled then pure (-1, node)
  else if perblockParent = 0 then fault .divByZero
  else do
    let table := IndirCache.entry indir1 (rblock / perblockParent)
    let (filled, indir2) ← refill fs (allocCache fs node.indir2) table table
    let node := { node with indir2 }
    if !filled then pure (-1, node)
    else do
      let test := IndirCache.entry indir2 (rblock / perblockChild)
      let load := IndirCache.entry indir2 (rblock / perblockChild % (blksz / 4))
      let (filled, indir3) ← refill fs (allocCache fs node.indir3) test load
      let node := { node with indir3 }
      if !filled then pure (-1, node)
      else pure (int32 (IndirCache.entry indir3 (rblock % perblockChild)), node)

/-- Twelve direct blocks, then the tables in order of their depth. -/
def readAllocatedBlock1 (fs : ExtFilesystem) (fuel : ℕ) (node : Ext2fsNode) (fileblock : ℤ) :
    DevM (ℤ × Ext2fsNode) := do
  checkShifts fs
  let blksz := ext2BlockSize fs
  if node.inode.extents then do
    let blknr ← readExtentBlock fs fuel node fileblock
    pure (blknr, node)
  else if fileblock < 12 then
    if fileblock < 0 then fault .outOfBounds
    else pure (int32 (node.inode.dirBlock fileblock.toNat), node)
  else if fileblock < 12 + blksz / 4 then readIndirect fs node fileblock.toNat
  else if fileblock < doubleEnd fs then readDoubleIndirect fs node fileblock.toNat
  else readTripleIndirect fs node fileblock.toNat

section Inode
variable {fs : ExtFilesystem} {node : Ext2fsNode} {log log' : Log} {r : ℤ × Ext2fsNode}

theorem readIndirect_inode {i : ℕ} (h : readIndirect fs node i log = .ok (r, log')) :
    r.2.inode = node.inode := by
  obtain ⟨⟨filled, cache⟩, log₁, -, h⟩ := bind_eq_ok h
  cases filled <;> cases h <;> rfl

theorem readDoubleIndirect_inode {i : ℕ} (h : readDoubleIndirect fs node i log = .ok (r, log')) :
    r.2.inode = node.inode := by
  obtain ⟨⟨filled, cache⟩, log₁, -, h⟩ := bind_eq_ok h
  cases filled with
  | false =>
    cases h
    rfl
  | true =>
    obtain ⟨⟨filled, cache⟩, log₂, -, h⟩ := bind_eq_ok h
    cases filled <;> cases h <;> rfl

theorem readTripleIndirect_inode {i : ℕ} (h : readTripleIndirect fs node i log = .ok (r, log')) :
    r.2.inode = node.inode := by
  obtain ⟨⟨filled, cache⟩, log₁, -, h⟩ := bind_eq_ok h
  cases filled with
  | false =>
    cases h
    rfl
  | true =>
    dsimp only at h
    simp only [Bool.not_true, Bool.false_eq_true, if_false] at h
    split at h
    · cases h
    obtain ⟨⟨filled, cache⟩, log₂, -, h⟩ := bind_eq_ok h
    cases filled with
    | false =>
      cases h
      rfl
    | true =>
      obtain ⟨⟨filled, cache⟩, log₃, -, h⟩ := bind_eq_ok h
      cases filled <;> cases h <;> rfl

/-- A lookup changes the caches of a node, never its inode. -/
theorem readAllocatedBlock1_inode {fuel : ℕ} {i : ℤ}
    (h : readAllocatedBlock1 fs fuel node i log = .ok (r, log')) : r.2.inode = node.inode := by
  unfold readAllocatedBlock1 at h
  obtain ⟨u, log₁, -, h⟩ := bind_eq_ok h
  dsimp only at h
  split at h
  · obtain ⟨blknr, log₂, -, h⟩ := bind_eq_ok h
    cases h
    rfl
  split at h
  · split at h
    · cases h
    · cases h
      rfl
  split at h
  · exact readIndirect_inode h
  split at h
  · exact readDoubleIndirect_inode h
  · exact readTripleIndirect_inode h

end Inode

end Eokan.BlockMap
