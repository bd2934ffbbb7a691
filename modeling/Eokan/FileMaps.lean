import Eokan.ReadPlan
import Eokan.ExtentSearch
import Eokan.IndirectCache

/-!
Files whose lookups answer as a map from file blocks to disk blocks: direct
blocks, tables up to the double indirect ones, and an extent leaf in the inode.
-/
namespace Eokan.FileMaps

open ByteMem CInt Programs Device Devread Layout BlockMap ExtentSearch IndirectWalk IndirectCache
  ReadPlan

theorem realizes_mono {fs : ExtFilesystem} {fuel count count' : ℕ} {map : ℕ → ℤ}
    {valid : Ext2fsNode → Prop} (h : Realizes fs fuel map count valid) (hle : count' ≤ count) :
    Realizes fs fuel map count' valid :=
  fun node hvalid i hi => h node hvalid i (by omega)

/-- Twelve pointers are in the inode itself, and looking at them leaves a node as it is. -/
theorem realizes_direct_of (fs : ExtFilesystem) (hlog : fs.sblock.log2BlockSize ≤ 20) (fuel : ℕ)
    (inode : Ext2Inode) (hflags : inode.extents = false) {valid : Ext2fsNode → Prop}
    (hinode : ∀ node, valid node → node.inode = inode) :
    Realizes fs fuel (fun i => int32 (inode.dirBlock i)) 12 valid := by
  intro node hvalid i hi log
  obtain rfl := hinode node hvalid
  unfold readAllocatedBlock1
  refine Yields.lift (if_pos hlog) ?_
  simp only [hflags, Bool.false_eq_true, if_false, Int.toNat_natCast]
  rw [if_pos (by omega), if_neg (by omega)]
  exact Yields.pure ⟨rfl, hvalid⟩

theorem realizes_direct (fs : ExtFilesystem) (hlog : fs.sblock.log2BlockSize ≤ 20) (fuel : ℕ)
    (inode : Ext2Inode) (hflags : inode.extents = false) :
    Realizes fs fuel (fun i => int32 (inode.dirBlock i)) 12 fun node => node.inode = inode :=
  realizes_direct_of fs hlog fuel inode hflags fun _ hnode => hnode

/-- With a leaf as its root the inode alone answers, for every file block. -/
theorem realizes_leaf (fs : ExtFilesystem) (hlog : fs.sblock.log2BlockSize ≤ 20) (fuel : ℕ)
    (inode : Ext2Inode) (hflags : inode.extents = true) (hmagic : ehMagic inode.b = ext4ExtMagic)
    (hdepth : ehDepth inode.b = 0) (count : ℕ) :
    Realizes fs (fuel + 1) (fun i => findExtent inode.b i) count
      fun node => node.inode = inode := by
  intro node hnode i _ log
  subst hnode
  refine (readAllocatedBlock1_leaf fs hlog node hflags fuel hmagic hdepth i log).mono ?_
  rintro r log' ⟨hr, hnode⟩
  exact ⟨hr, by rw [hnode]⟩

/-- The tables of an inode, up to the double indirect ones. -/
theorem realizes_walk (fs : ExtFilesystem) (hgood : fs.devDesc.disk.NoErrors)
    (hpart : fs.devDesc.off + fs.devDesc.length < 2 ^ 63) (hlog : fs.sblock.log2BlockSize ≤ 6)
    (fuel : ℕ) (inode : Ext2Inode) (hflags : inode.extents = false)
    (hnarrow : ∀ f, f < 12 + perblock fs + perblock fs * perblock fs →
      Narrow fs (slotPointer fs inode f) (indices fs f)) :
    Realizes fs fuel (mappedBlock fs inode) (12 + perblock fs + perblock fs * perblock fs)
      fun node => NodeValid fs node ∧ node.inode = inode := by
  rintro node ⟨hvalid, hnode⟩ f hf log
  subst hnode
  refine (readAllocatedBlock1_walk fs hgood hpart hlog fuel node hvalid hflags f (by omega)
    (hnarrow f hf) (fun h => by omega) log).mono ?_
  rintro r log' ⟨hr, hvalid', hnode⟩
  exact ⟨hr, hvalid', hnode⟩

/-- A file system of 1024-byte blocks in 16 sectors without read errors. -/
def smallFs (image : Bytes) : ExtFilesystem where
  blksz := 0
  inodesz := 128
  devDesc := ⟨DiskDescr.ofImage image, 0, 16⟩
  sblock := ⟨fun _ => 0⟩
  past := fun _ => 0

/-- A file of this size without any block. -/
def holeInode (size : ℕ) : Ext2Inode :=
  ⟨fun j => if 4 ≤ j ∧ j < 8 then byteLe size (j - 4) else 0⟩

/-- A file of this size with block 3 of the disk as its first block, in an extent leaf. -/
def leafInode (size : ℕ) : Ext2Inode := ⟨fun j =>
  match j with
  | 34 => 8
  | 40 => 0x0a
  | 41 => 0xf3
  | 42 => 1
  | 56 => 1
  | 60 => 3
  | j => if 4 ≤ j ∧ j < 8 then byteLe size (j - 4) else 0⟩

end Eokan.FileMaps
