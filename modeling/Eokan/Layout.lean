import Eokan.Device
import Mathlib.Data.Nat.Bitwise

/-!
The on-disk structures and the mounted file system. A structure is the memory
it occupies and a field is read from its place there, so a structure that was
only partly overwritten by a failing read has a value as well.
-/
namespace Eokan.Layout

open ByteMem CInt Device

/-- The superblock, 204 bytes. -/
structure Ext2Sblock where
  raw : Bytes

/-- A block group descriptor, 32 bytes. -/
structure Ext2BlockGroup where
  raw : Bytes

/-- An inode, 128 bytes. -/
structure Ext2Inode where
  raw : Bytes

/-- The header of a directory entry, 8 bytes. -/
structure Ext2Dirent where
  raw : Bytes

namespace Ext2Sblock
variable (sb : Ext2Sblock)

def totalBlocks : ℕ := le32 sb.raw 4
def freeBlocks : ℕ := le32 sb.raw 12
def firstDataBlock : ℕ := le32 sb.raw 20
def log2BlockSize : ℕ := le32 sb.raw 24
def inodesPerGroup : ℕ := le32 sb.raw 40
def magic : ℕ := le16 sb.raw 56
def revisionLevel : ℕ := le32 sb.raw 76
def inodeSize : ℕ := le16 sb.raw 88

end Ext2Sblock

def Ext2BlockGroup.inodeTableId (group : Ext2BlockGroup) : ℕ := le32 group.raw 8

namespace Ext2Inode
variable (inode : Ext2Inode)

def mode : ℕ := le16 inode.raw 0
def size : ℕ := le32 inode.raw 4
def atime : ℕ := le32 inode.raw 8
def ctime : ℕ := le32 inode.raw 12
def mtime : ℕ := le32 inode.raw 16
def dtime : ℕ := le32 inode.raw 20
def flags : ℕ := le32 inode.raw 32
def dirAcl : ℕ := le32 inode.raw 108

/-- The union of block pointers, extent root and fast symlink, 60 bytes. -/
def b : Bytes := slice inode.raw 40

def dirBlock (i : ℕ) : ℕ := le32 inode.b (4 * i)
def indirBlock : ℕ := le32 inode.b 48
def doubleIndirBlock : ℕ := le32 inode.b 52
def tripleIndirBlock : ℕ := le32 inode.b 56

/-- EXT4_EXTENTS_FL is bit 19. -/
def extents : Bool := inode.flags.testBit 19

end Ext2Inode

namespace Ext2Dirent
variable (dirent : Ext2Dirent)

def inode : ℕ := le32 dirent.raw 0
def direntlen : ℕ := le16 dirent.raw 4
def namelen : ℕ := (dirent.raw 6).toNat
def filetype : ℕ := (dirent.raw 7).toNat

end Ext2Dirent

def ext4ExtMagic : ℕ := 0xf30a

def ehMagic (node : Bytes) : ℕ := le16 node 0
def ehEntries (node : Bytes) : ℕ := le16 node 2
def ehDepth (node : Bytes) : ℕ := le16 node 6

/-- Entry i of a leaf: the blocks it covers and where they start. -/
structure Ext4Extent where
  block : ℕ
  len : ℕ
  start : ℕ
  deriving DecidableEq

def extentAt (node : Bytes) (i : ℕ) : Ext4Extent where
  block := le32 node (12 + 12 * i)
  len := le16 node (12 + 12 * i + 4)
  start := le16 node (12 + 12 * i + 6) * 2 ^ 32 + le32 node (12 + 12 * i + 8)

/-- Entry i of an index: the first block below it and the node it leads to. -/
structure Ext4ExtentIdx where
  block : ℕ
  leaf : ℕ
  deriving DecidableEq

def indexAt (node : Bytes) (i : ℕ) : Ext4ExtentIdx where
  block := le32 node (12 + 12 * i)
  leaf := le16 node (12 + 12 * i + 8) * 2 ^ 32 + le32 node (12 + 12 * i + 4)

/-- One table cache of a node: the memory behind its pointer, if there is any,
the size it was allocated with and the sector it was filled from. -/
structure IndirCache where
  block : Option Bytes
  size : ℤ
  blkno : ℤ

structure Ext2fsNode where
  inode : Ext2Inode
  indir1 : IndirCache
  indir2 : IndirCache
  indir3 : IndirCache
  ino : ℤ
  inodeRead : Bool

/-- A mounted file system. `past` is the memory behind a block that the
allocator returns; no code may depend on it. -/
structure ExtFilesystem where
  blksz : ℕ
  inodesz : ℕ
  devDesc : PartDescr
  sblock : Ext2Sblock
  past : Bytes

def zalloc (fs : ExtFilesystem) (n : ℕ) : Bytes := fun j => if j < n then 0 else fs.past j

/-- The block size is a 1 shifted by its logarithm, which must be an `int`: a shift into the
sign bit is as bad as one that is too far. What is shifted of the data, a block number to
its sector, wraps as sums and products do. -/
def checkShifts (fs : ExtFilesystem) : Except Fault Unit :=
  if fs.sblock.log2BlockSize ≤ 20 then .ok () else .error .badShift

def ext2BlockSize (fs : ExtFilesystem) : ℕ := 2 ^ (fs.sblock.log2BlockSize + 10)

def log2Ext2BlockSize (fs : ExtFilesystem) : ℕ := fs.sblock.log2BlockSize + 1

/-- Sectors in a block. -/
def blockSectors (fs : ExtFilesystem) : ℕ := 2 ^ log2Ext2BlockSize fs

theorem ext2BlockSize_eq (fs : ExtFilesystem) : ext2BlockSize fs = 512 * blockSectors fs := by
  unfold ext2BlockSize blockSectors log2Ext2BlockSize
  rw [show fs.sblock.log2BlockSize + 10 = 9 + (fs.sblock.log2BlockSize + 1) by omega, Nat.pow_add]

theorem two_le_blockSectors (fs : ExtFilesystem) : 2 ≤ blockSectors fs := by
  unfold blockSectors log2Ext2BlockSize
  rw [Nat.pow_succ]
  have hpos := Nat.two_pow_pos fs.sblock.log2BlockSize
  omega

theorem blockSectors_le (fs : ExtFilesystem) (hlog : fs.sblock.log2BlockSize ≤ 6) :
    blockSectors fs ≤ 128 :=
  Nat.pow_le_pow_right (show 0 < 2 by decide) (Nat.succ_le_succ hlog)

theorem ext2BlockSize_pos (fs : ExtFilesystem) : 0 < ext2BlockSize fs := Nat.two_pow_pos _

theorem ext2BlockSize_le (fs : ExtFilesystem) (hlog : fs.sblock.log2BlockSize ≤ 20) :
    ext2BlockSize fs ≤ 2 ^ 30 :=
  Nat.pow_le_pow_right (show 0 < 2 by decide) (Nat.add_le_add_right hlog 10)

/-- A sector number is a multiple of an even number. -/
theorem even_blockSectors (fs : ExtFilesystem) (t : ℕ) : 2 ∣ t * blockSectors fs := by
  unfold blockSectors log2Ext2BlockSize
  rw [Nat.pow_succ, ← Nat.mul_assoc]
  exact Nat.dvd_mul_left 2 _

end Eokan.Layout
