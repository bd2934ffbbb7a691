import Eokan.Devread
import Eokan.Layout

/-!
Reading an inode: the descriptor of its block group leads to the inode table.
The arithmetic mixes signed and unsigned numbers of 32 bits, and a superblock
can make any of its divisors 0.
-/
namespace Eokan.Inodes

open ByteMem CInt Programs Device Devread Layout

/-- A descriptor on the stack, read only after it has been filled. -/
def blkgrpBuf : Bytes := fun _ => 0

/-- Descriptors follow the superblock, 32 bytes each. -/
def ext4fsBlockgroup (fs : ExtFilesystem) (group : ℤ) : DevM (ℤ × Ext2BlockGroup) := do
  checkShifts fs
  let descPerBlk : ℕ := ext2BlockSize fs / 32
  let blkno := int32 (fs.sblock.firstDataBlock + 1 + uint32 group / descPerBlk)
  let blkoff := uint32 (uint32 group % descPerBlk * 32)
  let (status, raw) ← vfsDevread fs.devDesc (int32 (blkno * blockSectors fs)) (int32 blkoff) 32
    blkgrpBuf 0
  pure (status, ⟨raw⟩)

/-- The inode is read into memory that a failing read may change as well. -/
def ext4fsReadInode (fs : ExtFilesystem) (ino : ℤ) (inode : Ext2Inode) :
    DevM (ℤ × Ext2Inode) := do
  let ino := int32 (ino - 1)
  let inodesPerGroup := fs.sblock.inodesPerGroup
  if inodesPerGroup = 0 then fault .divByZero
  else do
    let (status, blkgrp) ← ext4fsBlockgroup fs (int32 (uint32 ino / inodesPerGroup))
    if status = 0 then pure (0, inode)
    else if fs.inodesz = 0 then fault .divByZero
    else
      let inodesPerBlock := ext2BlockSize fs / fs.inodesz
      if inodesPerBlock = 0 then fault .divByZero
      else do
        let blkno :=
          int32 (blkgrp.inodeTableId + uint32 ino % inodesPerGroup / inodesPerBlock)
        let blkoff := uint32 (ino.tmod inodesPerBlock * fs.inodesz)
        let (status, raw) ← vfsDevread fs.devDesc (int32 (blkno * blockSectors fs))
          (int32 blkoff) 128 inode.raw 0
        if status = 0 then pure (0, ⟨raw⟩)
        else pure (1, ⟨raw⟩)

/-- Reading an inode succeeds or not. Whatever was in memory before, a success
leaves an inode with these 128 bytes. -/
def ReadsInode (fs : ExtFilesystem) (ino : ℤ) (bytes : Bytes) : Prop :=
  ∀ inode log, Yields (ext4fsReadInode fs ino inode) log fun r _ =>
    r.1 = 1 ∧ r.2.raw = write inode.raw 0 128 bytes

def InodeUnreadable (fs : ExtFilesystem) (ino : ℤ) : Prop :=
  ∀ inode log, Yields (ext4fsReadInode fs ino inode) log fun r _ => r.1 = 0

end Eokan.Inodes
