import Eokan.DokanRead
import Eokan.Mount
import Eokan.Simulations

/-!
Two partitions of the same length, on two disks. The code reaches the disk by
`part_read` and in no other way, so what it makes of the one partition follows
from what it makes of the other.
-/
namespace Eokan.PartPairs

open ByteMem CInt Programs Device Devread Layout BlockMap Inodes ReadFile DokanRead Mount
  Simulations

/-- Another partition of this length. -/
def PartDescr.on (part : PartDescr) (disk : DiskDescr) (off : ℕ) : PartDescr :=
  ⟨disk, off, part.length⟩

/-- The reads of the one partition follow those of the other. -/
def Reads (watch : Watch Log) (sim : Log → Log → Prop) (part part' : PartDescr) : Prop :=
  ∀ start num buf dst, Simulates watch sim (partRead part start num buf dst)
    (partRead part' start num buf dst)

section Devreads
variable {watch : Watch Log} {sim : Log → Log → Prop} {part : PartDescr} {disk : DiskDescr}
  {off : ℕ} (h : Reads watch sim part (PartDescr.on part disk off))
include h

theorem readRest_simulates (sector byteLen : ℤ) (buf : Bytes) (dst : ℕ) :
    Simulates watch sim (readRest part sector byteLen buf dst)
      (readRest (PartDescr.on part disk off) sector byteLen buf dst) := by
  apply Simulates.ite
  · intro _
    exact Simulates.pure _
  · intro _
    apply (h _ _ _ _).bind
    intro r
    exact Simulates.ite (fun _ => Simulates.pure _) fun _ => Simulates.pure _

theorem readAligned_simulates (sector byteLen : ℤ) (buf : Bytes) (dst : ℕ) :
    Simulates watch sim (readAligned part sector byteLen buf dst)
      (readAligned (PartDescr.on part disk off) sector byteLen buf dst) := by
  apply Simulates.ite
  · intro _
    exact Simulates.pure _
  · intro _
    apply Simulates.ite
    · intro _
      exact (h _ _ _ _).bind fun _ => Simulates.pure _
    · intro _
      apply (h _ _ _ _).bind
      intro r
      exact Simulates.ite (fun _ => Simulates.pure _) fun _ => readRest_simulates h _ _ _ _

theorem vfsDevread_simulates (sector byteOffset byteLen : ℤ) (buf : Bytes) (dst : ℕ) :
    Simulates watch sim (vfsDevread part sector byteOffset byteLen buf dst)
      (vfsDevread (PartDescr.on part disk off) sector byteOffset byteLen buf dst) := by
  apply Simulates.ite
  · intro _
    exact Simulates.pure _
  · intro _
    apply Simulates.ite
    · intro _
      apply (h _ _ _ _).bind
      intro r
      exact Simulates.ite (fun _ => Simulates.pure _) fun _ => readAligned_simulates h _ _ _ _
    · intro _
      exact readAligned_simulates h _ _ _ _

end Devreads

/-- The file system that lies in such a partition. -/
def ExtFilesystem.on (fs : ExtFilesystem) (disk : DiskDescr) (off : ℕ) : ExtFilesystem :=
  { fs with devDesc := PartDescr.on fs.devDesc disk off }

section FileSystem
variable {watch : Watch Log} {sim : Log → Log → Prop} {fs : ExtFilesystem} {disk : DiskDescr}
  {off : ℕ} (h : Reads watch sim fs.devDesc (PartDescr.on fs.devDesc disk off))
include h

theorem ext4fsBlockgroup_simulates (group : ℤ) :
    Simulates watch sim (ext4fsBlockgroup fs group)
      (ext4fsBlockgroup (ExtFilesystem.on fs disk off) group) := by
  apply (Simulates.lift (checkShifts fs)).bind
  intro _
  exact (vfsDevread_simulates h _ _ _ _ _).bind fun _ => Simulates.pure _

theorem ext4fsReadInode_simulates (ino : ℤ) (inode : Ext2Inode) :
    Simulates watch sim (ext4fsReadInode fs ino inode)
      (ext4fsReadInode (ExtFilesystem.on fs disk off) ino inode) := by
  apply Simulates.ite (fun _ => Simulates.fault _)
  intro _
  apply (ext4fsBlockgroup_simulates h _).bind
  intro r
  apply Simulates.ite (fun _ => Simulates.pure _)
  intro _
  apply Simulates.ite (fun _ => Simulates.fault _)
  intro _
  apply Simulates.ite (fun _ => Simulates.fault _)
  intro _
  apply (vfsDevread_simulates h _ _ _ _ _).bind
  intro r'
  exact Simulates.ite (fun _ => Simulates.pure _) fun _ => Simulates.pure _

theorem refill_simulates (cache : IndirCache) (test load : ℕ) :
    Simulates watch sim (refill fs cache test load)
      (refill (ExtFilesystem.on fs disk off) cache test load) := by
  apply Simulates.ite
  · intro _
    apply (vfsDevread_simulates h _ _ _ _ _).bind
    intro r
    exact Simulates.ite (fun _ => Simulates.pure _) fun _ => Simulates.pure _
  · intro _
    exact Simulates.pure _

theorem getExtentBlock_simulates (f : ℤ) (fuel : ℕ) (node buf : Bytes) :
    Simulates watch sim (getExtentBlock fs f fuel node buf)
      (getExtentBlock (ExtFilesystem.on fs disk off) f fuel node buf) := by
  induction fuel generalizing node buf with
  | zero => exact Simulates.fault _
  | succ fuel ih =>
    unfold getExtentBlock
    apply Simulates.ite (fun _ => Simulates.pure _)
    intro _
    apply Simulates.ite (fun _ => Simulates.pure _)
    intro _
    apply Simulates.ite (fun _ => Simulates.pure _)
    intro _
    apply (vfsDevread_simulates h _ _ _ _ _).bind
    intro r
    exact Simulates.ite (fun _ => ih _ _) fun _ => Simulates.pure _

theorem readIndirect_simulates (node : Ext2fsNode) (f : ℕ) :
    Simulates watch sim (readIndirect fs node f)
      (readIndirect (ExtFilesystem.on fs disk off) node f) := by
  apply (refill_simulates h _ _ _).bind
  intro r
  exact Simulates.ite (fun _ => Simulates.pure _) fun _ => Simulates.pure _

theorem readDoubleIndirect_simulates (node : Ext2fsNode) (f : ℕ) :
    Simulates watch sim (readDoubleIndirect fs node f)
      (readDoubleIndirect (ExtFilesystem.on fs disk off) node f) := by
  apply (refill_simulates h _ _ _).bind
  intro r
  apply Simulates.ite (fun _ => Simulates.pure _)
  intro _
  apply (refill_simulates h _ _ _).bind
  intro r'
  exact Simulates.ite (fun _ => Simulates.pure _) fun _ => Simulates.pure _

theorem readTripleIndirect_simulates (node : Ext2fsNode) (f : ℕ) :
    Simulates watch sim (readTripleIndirect fs node f)
      (readTripleIndirect (ExtFilesystem.on fs disk off) node f) := by
  apply (refill_simulates h _ _ _).bind
  intro r
  apply Simulates.ite (fun _ => Simulates.pure _)
  intro _
  apply Simulates.ite (fun _ => Simulates.fault _)
  intro _
  apply (refill_simulates h _ _ _).bind
  intro r'
  apply Simulates.ite (fun _ => Simulates.pure _)
  intro _
  apply (refill_simulates h _ _ _).bind
  intro r''
  exact Simulates.ite (fun _ => Simulates.pure _) fun _ => Simulates.pure _

theorem readAllocatedBlock1_simulates (fuel : ℕ) (node : Ext2fsNode) (f : ℤ) :
    Simulates watch sim (readAllocatedBlock1 fs fuel node f)
      (readAllocatedBlock1 (ExtFilesystem.on fs disk off) fuel node f) := by
  apply (Simulates.lift (checkShifts fs)).bind
  intro _
  apply Simulates.ite
  · intro _
    refine Simulates.bind ((getExtentBlock_simulates h f fuel _ _).bind fun r => ?_) fun _ =>
      Simulates.pure _
    cases r <;> exact Simulates.pure _
  intro _
  apply Simulates.ite
  · intro _
    exact Simulates.ite (fun _ => Simulates.fault _) fun _ => Simulates.pure _
  intro _
  apply Simulates.ite (fun _ => readIndirect_simulates h _ _)
  intro _
  exact Simulates.ite (fun _ => readDoubleIndirect_simulates h _ _) fun _ =>
    readTripleIndirect_simulates h _ _

theorem flush_simulates (delayed : Option Delayed) (buf : Bytes) :
    Simulates watch sim (flush fs delayed buf)
      (flush (ExtFilesystem.on fs disk off) delayed buf) := by
  cases delayed with
  | none => exact Simulates.pure _
  | some d => exact (vfsDevread_simulates h _ _ _ _ _).bind fun _ => Simulates.pure _

theorem readBlocks_simulates (fuel : ℕ) (pos len : ℤ) (n : ℕ) (i : ℤ) (node : Ext2fsNode)
    (delayed : Option Delayed) (buf : Bytes) (dst : ℕ) :
    Simulates watch sim (readBlocks fs fuel pos len n i node delayed buf dst)
      (readBlocks (ExtFilesystem.on fs disk off) fuel pos len n i node delayed buf dst) := by
  induction n generalizing i node delayed buf dst with
  | zero =>
    apply (flush_simulates h _ _).bind
    intro r
    exact Simulates.ite (fun _ => Simulates.pure _) fun _ => Simulates.pure _
  | succ n ih =>
    apply (readAllocatedBlock1_simulates h fuel node i).bind
    intro r
    apply Simulates.ite (fun _ => Simulates.pure _)
    intro _
    apply Simulates.ite (fun _ => ih _ _ _ _ _)
    intro _
    apply (flush_simulates h _ _).bind
    intro r'
    apply Simulates.ite (fun _ => Simulates.pure _)
    intro _
    exact Simulates.ite (fun _ => ih _ _ _ _ _) fun _ => ih _ _ _ _ _

theorem ext4fsReadFile_simulates (fuel : ℕ) (node : Ext2fsNode) (pos len : ℤ) (buf : Bytes) :
    Simulates watch sim (ext4fsReadFile fs fuel node pos len buf)
      (ext4fsReadFile (ExtFilesystem.on fs disk off) fuel node pos len buf) := by
  apply (Simulates.lift (checkShifts fs)).bind
  intro _
  exact readBlocks_simulates h fuel _ _ _ _ _ _ _ _

theorem readFile_simulates (fuel : ℕ) (filp : Option Ext2fsNode) (buffer : Bytes)
    (bufferLength : ℕ) (offset : ℤ) :
    Simulates watch sim (readFile fs fuel filp buffer bufferLength offset)
      (readFile (ExtFilesystem.on fs disk off) fuel filp buffer bufferLength offset) := by
  cases filp with
  | none => exact Simulates.pure _
  | some filp => exact (ext4fsReadFile_simulates h fuel filp _ _ _).bind fun _ => Simulates.pure _

end FileSystem

end Eokan.PartPairs
