import Eokan.ExtentSearch
import Eokan.Mount

/-!
Extent trees of any depth on a mounted file system. The descent reads as many
bytes of a node as the block size field of the file system says, and mounting
leaves this field 0. So no node below the inode is ever read.
-/
namespace Eokan.ExtentTree

open ByteMem CInt Programs Device Devread Layout BlockMap SortedScan ExtentSearch Mount

/-- The content of block t of the partition. -/
def nodeAt (fs : ExtFilesystem) (t : ℕ) : Bytes :=
  slice fs.devDesc.bytes (t * ext2BlockSize fs)

/-- The first block behind those of index entry i, where the node ends at hi. -/
def coverEnd (node : Bytes) (i hi : ℕ) : ℕ :=
  if i + 1 < ehEntries node then (indexAt node (i + 1)).block else hi

/-- A well-formed tree of the given depth for file blocks from lo up to hi, in a
node of `cap` bytes: its entries are in order, and each child is a readable
block that holds the tree for the blocks up to the next entry. -/
def Tree (fs : ExtFilesystem) : ℕ → ℕ → Bytes → ℕ → ℕ → Prop
  | 0, cap, node, lo, hi =>
    Leaf cap node ∧ ∀ i, i < ehEntries node →
      lo ≤ (extentAt node i).block ∧ (extentAt node i).block + (extentAt node i).len ≤ hi
  | depth + 1, cap, node, lo, hi =>
    (ehMagic node = ext4ExtMagic ∧ ehDepth node = depth + 1 ∧ 12 + 12 * ehEntries node ≤ cap) ∧
    (∀ i j, i < j → j < ehEntries node → (indexAt node i).block < (indexAt node j).block) ∧
    ∀ i, i < ehEntries node →
      (lo ≤ (indexAt node i).block ∧ (indexAt node i).block < hi) ∧
      ((indexAt node i).leaf + 1) * ext2BlockSize fs ≤ fs.devDesc.length * 512 ∧
      Tree fs depth (ext2BlockSize fs) (nodeAt fs (indexAt node i).leaf)
        (indexAt node i).block (coverEnd node i hi)

/-- The extents in the leaves of a tree. -/
def InLeaf (fs : ExtFilesystem) : ℕ → Bytes → Ext4Extent → Prop
  | 0, node, e => ∃ i < ehEntries node, extentAt node i = e
  | depth + 1, node, e =>
    ∃ i < ehEntries node, InLeaf fs depth (nodeAt fs (indexAt node i).leaf) e

theorem Tree.magic {fs : ExtFilesystem} {depth cap lo hi : ℕ} {node : Bytes}
    (h : Tree fs depth cap node lo hi) : ehMagic node = ext4ExtMagic := by
  cases depth with
  | zero => exact h.1.magic
  | succ depth => exact h.1.1

theorem Tree.depth_eq {fs : ExtFilesystem} {depth cap lo hi : ℕ} {node : Bytes}
    (h : Tree fs depth cap node lo hi) : ehDepth node = depth := by
  cases depth with
  | zero => exact h.1.depth
  | succ depth => exact h.1.2.1

/-- A read of no bytes asks nothing of the disk and changes nothing. -/
theorem vfsDevread_empty (part : PartDescr) (sector : ℤ) (buf : Bytes) (log : Log) :
    Yields (vfsDevread part sector 0 0 buf 0) log fun r log' => r.2 = buf ∧ log' = log := by
  unfold vfsDevread
  split
  · exact Yields.pure ⟨rfl, rfl⟩
  · simp only [Int.zero_emod, ne_eq, not_true_eq_false, if_false]
    unfold readAligned
    rw [if_pos rfl]
    exact Yields.pure ⟨rfl, rfl⟩

/-- With the block size field 0 the descent ends at the node buffer, which is
still zero. -/
theorem getExtentBlock_blksz_zero (fs : ExtFilesystem) (hblksz : fs.blksz = 0) (f : ℤ) (fuel : ℕ)
    (node : Bytes) (hdepth : ehDepth node ≠ 0) (n : ℕ) (hn : 12 ≤ n) (log : Log) :
    Yields (getExtentBlock fs f (fuel + 2) node (zalloc fs n)) log fun r log' =>
      r = none ∧ log' = log := by
  have hzero : ehMagic (zalloc fs n) ≠ ext4ExtMagic := by
    have hmagic : ehMagic (zalloc fs n) = 0 := by
      unfold ehMagic le16 zalloc
      rw [if_pos (by omega), if_pos (by omega)]
      rfl
    rw [hmagic]
    decide
  unfold getExtentBlock
  by_cases hmagic : ehMagic node ≠ ext4ExtMagic
  · rw [if_pos hmagic]
    exact Yields.pure ⟨rfl, rfl⟩
  · rw [if_neg hmagic, if_neg hdepth]
    dsimp only
    split
    · exact Yields.pure ⟨rfl, rfl⟩
    · simp only [hblksz, Int.natCast_zero, int32_zero]
      refine Yields.bind (vfsDevread_empty _ _ _ log) ?_
      intro r log' hr
      rw [hr.1, hr.2]
      split
      · unfold getExtentBlock
        rw [if_pos hzero]
        exact Yields.pure ⟨rfl, rfl⟩
      · exact Yields.pure ⟨rfl, rfl⟩

/-- The answer that the root in the inode gives on a mounted file system. -/
def rootAnswer (root : Bytes) (f : ℤ) : ℤ :=
  if ehMagic root = ext4ExtMagic ∧ ehDepth root = 0 then findExtent root f else -2

theorem readExtentBlock_answer (fs : ExtFilesystem) (hblksz : fs.blksz = 0) (node : Ext2fsNode)
    (f : ℤ) (fuel : ℕ) (log : Log) :
    Yields (readExtentBlock fs (fuel + 2) node f) log fun r log' =>
      r = rootAnswer node.inode.b f ∧ log' = log := by
  have hbig : 12 ≤ ext2BlockSize fs := by
    have hsize := ext2BlockSize_eq fs
    have htwo := two_le_blockSectors fs
    omega
  unfold readExtentBlock rootAnswer
  by_cases hdepth : ehDepth node.inode.b = 0
  · unfold getExtentBlock
    by_cases hmagic : ehMagic node.inode.b = ext4ExtMagic
    · simp only [hmagic, hdepth, ne_eq, not_true_eq_false, if_false, if_true, and_self]
      exact Yields.pure ⟨rfl, rfl⟩
    · simp only [hmagic, ne_eq, not_false_eq_true, if_true, false_and, if_false]
      exact Yields.pure ⟨rfl, rfl⟩
  · rw [if_neg fun h => hdepth h.2]
    refine Yields.bind (getExtentBlock_blksz_zero fs hblksz f fuel node.inode.b hdepth
      _ hbig log) ?_
    intro r log' hr
    rw [hr.1, hr.2]
    exact Yields.pure ⟨rfl, rfl⟩

/-- The root alone answers every lookup, without a read. -/
theorem mounted_extent_run (fs : ExtFilesystem) (hlog : fs.sblock.log2BlockSize ≤ 20)
    (hblksz : fs.blksz = 0) (node : Ext2fsNode) (hflags : node.inode.extents = true) (f : ℤ)
    (fuel : ℕ) (log : Log) :
    readAllocatedBlock1 fs (fuel + 2) node f log =
      .ok ((rootAnswer node.inode.b f, node), log) := by
  obtain ⟨⟨r, node'⟩, log', hrun, ⟨hr, hlog'⟩, hnode⟩ :=
    @readAllocatedBlock1_extents fs hlog node hflags (fuel + 2) f log
      (fun r log' => r = rootAnswer node.inode.b f ∧ log' = log)
      (readExtentBlock_answer fs hblksz node f fuel log)
  dsimp only at hr hnode
  rw [hrun, hr, hlog', hnode]

/-- A root that is not a leaf is an error, whatever the device does. -/
theorem mounted_deep_lookup (fs : ExtFilesystem) (hlog : fs.sblock.log2BlockSize ≤ 20)
    (hblksz : fs.blksz = 0) (node : Ext2fsNode) (hflags : node.inode.extents = true)
    (hdepth : ehDepth node.inode.b ≠ 0) (f : ℤ) (fuel : ℕ) (log : Log) :
    Yields (readAllocatedBlock1 fs (fuel + 2) node f) log fun r _ => r.1 = -2 := by
  refine ⟨_, _, mounted_extent_run fs hlog hblksz node hflags f fuel log, ?_⟩
  exact if_neg fun h => hdepth h.2

/-- On every mounted file system a covered block of a well-formed tree is found
exactly if the tree has no level below the inode. -/
theorem mounted_extent_lookup_iff (past : Bytes) (part : PartDescr) (log log' : Log)
    (fs : ExtFilesystem) (root : Ext2fsNode)
    (hmount : ext4fsMount past part log = .ok (some (fs, root), log'))
    (node : Ext2fsNode) (hflags : node.inode.extents = true) (depth : ℕ)
    (htree : Tree fs depth 60 node.inode.b 0 (2 ^ 32)) (e : Ext4Extent)
    (hleaf : InLeaf fs depth node.inode.b e) (f : ℕ) (hf : f < 2 ^ 31) (hcovers : Covers e f)
    (hphys : e.start + (f - e.block) < 2 ^ 31) (fuel : ℕ) (log₁ : Log) :
    Yields (readAllocatedBlock1 fs (fuel + 2) node f) log₁
        (fun r _ => r.1 = e.start + (f - e.block : ℕ)) ↔
      ehDepth node.inode.b = 0 := by
  have hmounted := ext4fsMount_mounted past part log log' fs root hmount
  have hlog := hmounted.shifts
  constructor
  · intro hfound
    by_contra hdepth
    obtain ⟨r, log₂, -, hr, heq⟩ := hfound.and
      (mounted_deep_lookup fs hlog hmounted.blksz node hflags hdepth f fuel log₁)
    omega
  · intro hdepth
    obtain rfl : depth = 0 := htree.depth_eq.symm.trans hdepth
    obtain ⟨i, hi, rfl⟩ := hleaf
    refine (readAllocatedBlock1_leaf fs hlog node hflags (fuel + 1) htree.1.magic htree.1.depth f
      log₁).mono ?_
    intro r log₂ hr
    rw [hr.1]
    exact findExtent_covered htree.1 f i hf hi hcovers hphys

/-- A file system of 1024-byte blocks. Its root inode has one index entry, for
the leaf in block 4. -/
def treeImage : Bytes := fun b =>
  match b with
  | 1044 => 1
  | 1064 => 8
  | 1080 => 0x53
  | 1081 => 0xef
  | 2056 => 3
  | 3234 => 8
  | 3240 => 0x0a
  | 3241 => 0xf3
  | 3242 => 1
  | 3246 => 1
  | 3256 => 4
  | 4096 => 0x0a
  | 4097 => 0xf3
  | 4098 => 1
  | 4112 => 1
  | 4116 => 5
  | _ => 0

def treePart : PartDescr := ⟨DiskDescr.ofImage treeImage, 0, 16⟩

/-- What the image says about the mounted file system and its root. -/
def TreeRoot (fs : ExtFilesystem) (root : Ext2fsNode) : Prop :=
  (fs.sblock.log2BlockSize = 0 ∧ root.inode.extents = true) ∧
  (ehMagic root.inode.b = ext4ExtMagic ∧ ehDepth root.inode.b = 1 ∧
    ehEntries root.inode.b = 1) ∧
  indexAt root.inode.b 0 = ⟨0, 4⟩

instance (fs : ExtFilesystem) (root : Ext2fsNode) : Decidable (TreeRoot fs root) := by
  unfold TreeRoot
  infer_instance

theorem treePart_mounts :
    ∃ fs root log, ext4fsMount (fun _ => 0) treePart [] = .ok (some (fs, root), log) ∧
      TreeRoot fs root := by
  apply mount_of_check
  decide +kernel

theorem treeRoot_size {fs : ExtFilesystem} {root : Ext2fsNode} (h : TreeRoot fs root) :
    ext2BlockSize fs = 1024 := by
  unfold ext2BlockSize
  rw [h.1.1]
  rfl

/-- The leaf in block 4 of the image. -/
theorem treeLeaf (fs : ExtFilesystem) (cap : ℕ) (hcap : 24 ≤ cap) (hi : ℕ) (hhi : 1 ≤ hi) :
    Tree fs 0 cap (slice treePart.bytes 4096) 0 hi ∧
      InLeaf fs 0 (slice treePart.bytes 4096) ⟨0, 1, 5⟩ := by
  have hone : ehEntries (slice treePart.bytes 4096) = 1 := by decide +kernel
  have hentry : extentAt (slice treePart.bytes 4096) 0 = ⟨0, 1, 5⟩ := by decide +kernel
  refine ⟨⟨⟨by decide +kernel, by decide +kernel, by omega, ?_⟩, ?_⟩, 0, by omega, hentry⟩
  · intro i j hij hj
    omega
  · intro i hi
    obtain rfl : i = 0 := by omega
    rw [hentry]
    exact ⟨Nat.le_refl 0, hhi⟩

theorem treeRoot_tree (fs : ExtFilesystem) (root : Ext2fsNode) (hdev : fs.devDesc = treePart)
    (hroot : TreeRoot fs root) :
    Tree fs 1 60 root.inode.b 0 (2 ^ 32) ∧ InLeaf fs 1 root.inode.b ⟨0, 1, 5⟩ := by
  have hsize := treeRoot_size hroot
  obtain ⟨-, ⟨hmagic, hdepth, hone⟩, hindex⟩ := hroot
  have hnode : nodeAt fs 4 = slice treePart.bytes 4096 := by
    unfold nodeAt
    rw [hsize, hdev]
  refine ⟨⟨⟨hmagic, hdepth, by omega⟩, ?_, ?_⟩, 0, by omega, ?_⟩
  · intro i j hij hj
    omega
  · intro i hi
    obtain rfl : i = 0 := by omega
    have hend : coverEnd root.inode.b 0 (2 ^ 32) = 2 ^ 32 := if_neg (by omega)
    rw [hindex, hend]
    dsimp only
    rw [hnode, hsize, hdev]
    exact ⟨by decide, by decide, (treeLeaf fs 1024 (by decide) (2 ^ 32) (by decide)).1⟩
  · rw [hindex]
    dsimp only
    rw [hnode]
    exact (treeLeaf fs 1024 (by decide) 1 (by decide)).2

/-- An inode with the same leaf in place of a root. -/
def leafNode : Ext2fsNode :=
  ⟨⟨fun j => if j < 40 then (if j = 34 then 8 else 0) else treePart.bytes (4096 + (j - 40))⟩,
    ⟨none, 0, 0⟩, ⟨none, 0, 0⟩, ⟨none, 0, 0⟩, 0, true⟩

theorem leafNode_b : leafNode.inode.b = slice treePart.bytes 4096 := by
  funext j
  have hge : ¬ 40 + j < 40 := by omega
  have hsub : 40 + j - 40 = j := by omega
  unfold leafNode Ext2Inode.b slice
  dsimp only
  rw [if_neg hge, hsub]

/-- Block 0 is found in the leaf, and it is not found behind the root. -/
theorem mounted_extent_lookup_iff_depths :
    ∃ fs root,
      Yields (readAllocatedBlock1 fs 2 leafNode 0) [] (fun r _ => r.1 = 5) ∧
      ¬ Yields (readAllocatedBlock1 fs 2 root 0) [] (fun r _ => r.1 = 5) := by
  obtain ⟨fs, root, log, hmount, hroot⟩ := treePart_mounts
  have hdev := (ext4fsMount_mounted _ _ _ _ _ _ hmount).devDesc
  have htree := treeRoot_tree fs root hdev hroot
  have hleaf := treeLeaf fs 60 (by decide) (2 ^ 32) (by decide)
  rw [← leafNode_b] at hleaf
  have hfound := mounted_extent_lookup_iff _ _ _ _ fs root hmount leafNode (by decide +kernel) 0
    hleaf.1 ⟨0, 1, 5⟩ hleaf.2 0 (by decide) (by decide) (by decide) 0 []
  have hlost := mounted_extent_lookup_iff _ _ _ _ fs root hmount root hroot.1.2 1
    htree.1 ⟨0, 1, 5⟩ htree.2 0 (by decide) (by decide) (by decide) 0 []
  refine ⟨fs, root, hfound.mpr (by decide +kernel), fun h => ?_⟩
  have hdepth := hlost.mp h
  rw [hroot.2.1.2.1] at hdepth
  exact absurd hdepth (by decide)

/-- The root of the image is a well-formed tree of depth 1 whose leaf maps block 0
to block 5, and looking block 0 up is an error. -/
theorem treePart_root_lookup_fails :
    ∃ fs root log, ext4fsMount (fun _ => 0) treePart [] = .ok (some (fs, root), log) ∧
      root.inode.extents = true ∧ Tree fs 1 60 root.inode.b 0 (2 ^ 32) ∧
      InLeaf fs 1 root.inode.b ⟨0, 1, 5⟩ ∧ Covers ⟨0, 1, 5⟩ 0 ∧
      Yields (readAllocatedBlock1 fs 2 root 0) [] (fun r _ => r.1 = -2) := by
  obtain ⟨fs, root, log, hmount, hroot⟩ := treePart_mounts
  have hmounted := ext4fsMount_mounted _ _ _ _ _ _ hmount
  have htree := treeRoot_tree fs root hmounted.devDesc hroot
  have hdepth : ehDepth root.inode.b ≠ 0 := by
    rw [hroot.2.1.2.1]
    decide
  exact ⟨fs, root, log, hmount, hroot.1.2, htree.1, htree.2, by decide,
    mounted_deep_lookup fs hmounted.shifts hmounted.blksz root hroot.1.2 hdepth 0 0 []⟩

end Eokan.ExtentTree
