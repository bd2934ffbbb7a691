import Eokan.FileMaps
import Eokan.InodeReads
import Eokan.Mount
import Eokan.Trees

/-!
Trees on a disk without read errors. If the inodes lie inside the partition and
the blocks of every directory are direct ones there, the tree can be read.
-/
namespace Eokan.TreesOnDisk

open ByteMem CInt Device Layout Inodes InodeReads Mount ReadPlan FileContent FileMaps NodeHeap
  NodeRuns Directory Entries DirectoryReads Trees

/-- The state of a node that does not change once its inode is read. -/
def NodeOf (t : Tree) (ino : ℤ) (n : Ext2fsNode) : Prop := n.ino = ino ∧ n.inode = t.inode ino

def blockMap (t : Tree) (ino : ℤ) (i : ℕ) : ℤ := int32 ((t.inode ino).dirBlock i)

/-- The data of a directory is in direct blocks, and it is these entries. -/
structure DirectEntries (fs : ExtFilesystem) (t : Tree) (steps : ℕ) (ino : ℤ) : Prop where
  extents : (t.inode ino).extents = false
  size : (t.inode ino).size < 2 ^ 31
  blocks : ∃ count ≤ 12, (t.inode ino).size ≤ count * ext2BlockSize fs ∧
    InPartition fs (blockMap t ino) count ∧ NoRepeat (blockMap t ino) count
  entries : EntriesAt (fileByte fs (blockMap t ino)) (t.inode ino).size 0 (t.entries ino)
  steps : (t.entries ino).length < steps

section Readable
variable {fs : ExtFilesystem} (hgood : fs.devDesc.disk.NoErrors)
  (hpart : fs.devDesc.off + fs.devDesc.length < 2 ^ 63) (hlog : fs.sblock.log2BlockSize ≤ 20)
  (hgroup : fs.sblock.inodesPerGroup ≠ 0) (hsize : fs.inodesz ≠ 0)
  (hfits : fs.inodesz ≤ ext2BlockSize fs) {t : Tree}
include hgood hpart hlog hgroup hsize hfits

theorem readable_of_direct (fuel steps : ℕ)
    (hinodes : ∀ ino ∈ t.nodes, ∃ k : ℕ, ino = k ∧ 1 ≤ k ∧ k < 2 ^ 31 ∧ InodeReadable fs k ∧
      t.content ino = inodeBytes fs k)
    (hdirs : ∀ ino ∈ t.nodes, t.type ino = .directory → DirectEntries fs t steps ino) :
    t.Readable fs fuel steps (NodeOf t) := by
  refine ⟨fun ino hino => ?_, fun _ _ h => h, fun _ _ _ => ⟨rfl, rfl⟩, fun ino hino hdir => ?_⟩
  · obtain ⟨k, rfl, hone, hmax, hreadable, hcontent⟩ := hinodes ino hino
    have hread := readsInode_of_readable fs hgood hpart hlog hgroup k hone (by omega) hsize hfits
      hreadable
    rwa [int32_of_nat k (by omega) (by omega), ← hcontent] at hread
  · obtain ⟨hflags, hsmall, hblocks, hentries, hsteps⟩ := hdirs ino hino hdir
    obtain ⟨count, hcount, hend, hin, hrep⟩ := hblocks
    have hinode : ∀ n, NodeOf t ino n → n.inode = t.inode ino := fun n hn => hn.2
    have hreal := realizes_direct_of fs hlog fuel (t.inode ino) hflags hinode
    refine ⟨fileByte fs (blockMap t ino), ?_, hentries, hsteps⟩
    exact readableFile_of_map fs hgood hpart hlog fuel count (blockMap t ino) (NodeOf t ino)
      (realizes_mono hreal hcount) hin hrep _ hsmall hend fun n hn => by rw [hn.2]

end Readable

/-- A node that can be read into gets the inode of its number. -/
theorem stands_of_inode {t : Tree} {fs : ExtFilesystem} {fuel steps : ℕ}
    (hread : t.Readable fs fuel steps (NodeOf t)) {w : World} {ref : NodeRef} {n : Ext2fsNode}
    (hn : w.get ref = some n) (hnode : n.ino ∈ t.nodes) (hinode : n.inode = t.inode n.ino) :
    t.Stands fs (NodeOf t) ref n.ino w :=
  ⟨n, hn, Tree.belongs_of_state hread hnode ⟨rfl, hinode⟩, rfl⟩

/-- After a mount the root stands for its inode. -/
theorem stands_mounted {t : Tree} {fs : ExtFilesystem} {fuel steps : ℕ}
    (hread : t.Readable fs fuel steps (NodeOf t)) (hroot : t.root = ext2RootIno)
    (hnode : t.root ∈ t.nodes) {past : Bytes} {part : PartDescr} {log log' : Log}
    {root : Ext2fsNode} (hmount : ext4fsMount past part log = .ok (some (fs, root), log')) :
    t.Stands fs (NodeOf t) .diropen t.root (World.mounted root log') := by
  have hinodes := hread.inodes t.root hnode
  rw [hroot] at hinodes hnode ⊢
  have hmounted := ext4fsMount_root past part log log' fs root hmount hinodes
  have hino : root.ino = ext2RootIno := by rw [hmounted]; rfl
  rw [← hino] at hnode ⊢
  refine stands_of_inode hread rfl hnode ?_
  rw [hino, hmounted]
  rfl

/-- A root with these entries, none of which is a directory. -/
def flatTree (fs : ExtFilesystem) (es : List Entry) : Tree where
  root := 2
  nodes := {ino | ino = 2 ∨ ∃ e ∈ es, ino = e.inode}
  content ino := inodeBytes fs ino.toNat
  entries _ := es

/-- An entry with a name, and the inode that it leads to. -/
def FlatEntry (fs : ExtFilesystem) (t : Tree) (e : Entry) : Prop :=
  (1 ≤ e.inode ∧ e.inode < 2 ^ 31 ∧ 0 ∉ e.name ∧ InodeReadable fs e.inode) ∧
  (e.filetype = 0 ∨ FileType.ofEntry e.filetype = t.type e.inode) ∧
  t.type e.inode ≠ .directory ∧
  (t.type e.inode = .symlink → (t.inode e.inode).size ≤ 59 ∧ t.target e.inode ≠ [])

/-- The root has one block of 1024 bytes. -/
def FlatRoot (fs : ExtFilesystem) (t : Tree) (es : List Entry) : Prop :=
  (fs.sblock.inodesPerGroup ≠ 0 ∧ fs.inodesz ≠ 0 ∧ fs.inodesz ≤ ext2BlockSize fs) ∧
  (InodeReadable fs 2 ∧ t.type 2 = .directory) ∧
  ((t.inode 2).extents = false ∧ (t.inode 2).size = 1024 ∧ 1024 ≤ ext2BlockSize fs) ∧
  (∀ i, i < 1 → 0 ≤ blockMap t 2 i ∧ (blockMap t 2 i + 1) * blockSectors fs ≤ fs.devDesc.length ∧
    (blockMap t 2 i + 1) * blockSectors fs ≤ 2 ^ 31) ∧
  EntriesAt (fileByte fs (blockMap t 2)) 1024 0 es ∧ ∀ e ∈ es, FlatEntry fs t e

instance (fs : ExtFilesystem) (t : Tree) (e : Entry) : Decidable (FlatEntry fs t e) := by
  unfold FlatEntry
  infer_instance

instance (fs : ExtFilesystem) (t : Tree) (es : List Entry) : Decidable (FlatRoot fs t es) := by
  unfold FlatRoot
  infer_instance

section FlatTrees
variable {fs : ExtFilesystem} {es : List Entry} (hflat : FlatRoot fs (flatTree fs es) es)
include hflat

theorem flatTree_wellFormed : (flatTree fs es).WellFormed := by
  obtain ⟨-, ⟨-, hdir⟩, -, -, -, hes⟩ := hflat
  refine ⟨⟨Or.inl rfl, hdir⟩, fun ino _ _ e he _ => ?_, fun ino hino htype => ?_⟩
  · obtain ⟨⟨hone, hmax, hname, -⟩, hfiletype, -⟩ := hes e he
    have hint : int32 e.inode = e.inode := int32_of_nat _ (by omega) (by omega)
    refine ⟨Nat.pos_iff_ne_zero.mp hone, hname, ?_, ?_⟩
    · rw [hint]
      exact Or.inr ⟨e, he, rfl⟩
    · rw [hint]
      exact hfiletype
  · rcases hino with rfl | ⟨e, he, rfl⟩
    · rw [hdir] at htype
      cases htype
    · exact (hes e he).2.2.2 htype

theorem flatTree_readable {image : Bytes} {root : Ext2fsNode}
    (hmounted : Mounted ⟨DiskDescr.ofImage image, 0, 16⟩ fs root) (fuel : ℕ) {steps : ℕ}
    (hsteps : es.length < steps) :
    (flatTree fs es).Readable fs fuel steps (NodeOf (flatTree fs es)) := by
  obtain ⟨⟨hgroup, hsize, hfits⟩, ⟨htwo, -⟩, ⟨hflags, hlength, hblock⟩, hin, hentries, hes⟩ := hflat
  have hgood : fs.devDesc.disk.NoErrors := hmounted.devDesc ▸ noErrors_ofImage _
  have hpart : fs.devDesc.off + fs.devDesc.length < 2 ^ 63 := by
    rw [hmounted.devDesc]
    exact (by decide : 0 + 16 < 2 ^ 63)
  apply readable_of_direct hgood hpart hmounted.shifts hgroup hsize hfits
  · rintro ino (rfl | ⟨e, he, rfl⟩)
    · exact ⟨2, rfl, by decide, by decide, htwo, rfl⟩
    · obtain ⟨⟨hone, hmax, -, hreadable⟩, -⟩ := hes e he
      exact ⟨e.inode, rfl, hone, hmax, hreadable, rfl⟩
  · rintro ino (rfl | ⟨e, he, rfl⟩) htype
    · refine ⟨hflags, by omega, ⟨1, by decide, by omega, hin, fun i hi => ?_⟩, ?_, hsteps⟩
      · omega
      · rw [hlength]
        exact hentries
    · exact absurd htype (hes e he).2.2.1

end FlatTrees

end Eokan.TreesOnDisk
