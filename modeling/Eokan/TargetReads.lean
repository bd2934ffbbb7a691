import Eokan.EnoughFuel
import Eokan.ReadFaults
import Eokan.SortedScan

/-!
The read of the target of a link always comes to an end. It starts at the first
block of a file, and the search in an index node passes over no entry for that
block. So the read fails at once if the tree has a level of index nodes, and
otherwise no block of the file is behind one.
-/
namespace Eokan.TargetReads

open ByteMem CInt Programs Device Layout SortedScan BlockMap Inodes ReadFile DokanRead NodeHeap
  Directory Resolve ReadFaults

abbrev Fueled {σ α : Type} (x : Prog σ Fault α) : Prop := Avoids (· = Fault.outOfFuel) x

/-- No index node is between the inode and its extents. -/
def Flat (inode : Ext2Inode) : Prop :=
  inode.extents = false ∨ ehMagic inode.b ≠ ext4ExtMagic ∨ ehDepth inode.b = 0

section Blocks
variable (fs : ExtFilesystem) (fuel : ℕ)

theorem getExtentBlock_flat (node buf : Bytes) (h : ehMagic node ≠ ext4ExtMagic ∨ ehDepth node = 0)
    (f : ℤ) : Fueled (getExtentBlock fs f (fuel + 1) node buf) := by
  apply Avoids.ite (fun _ => Avoids.pure _)
  intro hmagic
  apply Avoids.ite (fun _ => Avoids.pure _)
  intro hdepth
  rcases h with h | h
  · exact absurd h hmagic
  · exact absurd h hdepth

/-- No entry of an index node is in front of block 0. -/
theorem getExtentBlock_first (node buf : Bytes) (hmagic : ehMagic node = ext4ExtMagic)
    (hdepth : ehDepth node ≠ 0) : getExtentBlock fs 0 (fuel + 1) node buf = pure none := by
  have hscan : scanEntries (fun i => (indexAt node i).block < uint32 0) (ehEntries node) 0 = 0 := by
    by_contra hne
    have hgo := go_of_lt_scanEntries _ _ 0 0 (Nat.le_refl 0) (Nat.pos_of_ne_zero hne)
    have hzero : uint32 0 = 0 := by decide +kernel
    rw [hzero] at hgo
    have hlt := of_decide_eq_true hgo
    omega
  rw [getExtentBlock, if_neg (not_not_intro hmagic), if_neg hdepth]
  dsimp only
  rw [hscan]
  exact if_pos rfl

theorem checkShifts_fueled : Fueled (liftM (checkShifts fs) : DevM Unit) :=
  Avoids.lift (checkShifts_avoids fs _ fun h => nomatch h)

theorem readAllocatedBlock1_flat (node : Ext2fsNode) (h : Flat node.inode) (f : ℤ) :
    Fueled (readAllocatedBlock1 fs (fuel + 1) node f) := by
  apply Avoids.bind (checkShifts_fueled fs)
  intro _
  apply Avoids.ite
  · intro hextents
    have hroot : ehMagic node.inode.b ≠ ext4ExtMagic ∨ ehDepth node.inode.b = 0 := by
      rcases h with h | h
      · simp [h] at hextents
      · exact h
    refine Avoids.bind (Avoids.bind (getExtentBlock_flat fs fuel _ _ hroot f) fun r => ?_)
      fun _ => Avoids.pure _
    cases r <;> exact Avoids.pure _
  intro _
  apply Avoids.ite
  · intro _
    exact Avoids.ite (fun _ => Avoids.fault nofun) fun _ => Avoids.pure _
  intro _
  apply Avoids.ite (fun _ => readIndirect_avoids fs _ node f.toNat)
  intro _
  exact Avoids.ite (fun _ => readDoubleIndirect_avoids fs _ node f.toNat) fun _ =>
    readTripleIndirect_avoids fs _ node f.toNat fun hbad => by simp at hbad

theorem readAllocatedBlock1_first (node : Ext2fsNode) (h : ¬ Flat node.inode) (log : Log) :
    Safely (· = .outOfFuel) (readAllocatedBlock1 fs (fuel + 1) node 0) log fun r _ => r.1 < 0 := by
  unfold Flat at h
  push Not at h
  obtain ⟨hextents, hmagic, hdepth⟩ := h
  have hshifts : Safely (· = Fault.outOfFuel) (liftM (checkShifts fs) : DevM Unit) log
      fun _ _ => True := ⟨checkShifts_fueled fs log, fun _ _ _ => trivial⟩
  apply Safely.bind hshifts
  intro _ log _
  dsimp only
  rw [if_pos (by simpa using hextents), readExtentBlock, getExtentBlock_first fs fuel _ _ hmagic
    hdepth]
  exact Safely.pure (show (-2 : ℤ) < 0 by decide)

theorem readBlocks_flat (pos len : ℤ) (n : ℕ) (i : ℤ) (node : Ext2fsNode) (h : Flat node.inode)
    (delayed : Option Delayed) (buf : Bytes) (dst : ℕ) :
    Fueled (readBlocks fs (fuel + 1) pos len n i node delayed buf dst) := by
  induction n generalizing i node delayed buf dst with
  | zero =>
    apply Avoids.bind (flush_avoids fs _ _ _)
    intro r
    exact Avoids.ite (fun _ => Avoids.pure _) fun _ => Avoids.pure _
  | succ n ih =>
    apply Avoids.bind_of_returns (readAllocatedBlock1_flat fs fuel node h i)
      fun log r log' hrun => readAllocatedBlock1_inode hrun
    intro r hinode
    have hnext := fun i => ih i r.2 (hinode ▸ h)
    apply Avoids.ite (fun _ => Avoids.pure _)
    intro _
    apply Avoids.ite (fun _ => hnext _ _ _ _)
    intro _
    apply Avoids.bind (flush_avoids fs _ _ _)
    intro r'
    apply Avoids.ite (fun _ => Avoids.pure _)
    intro _
    exact Avoids.ite (fun _ => hnext _ _ _ _) fun _ => hnext _ _ _ _

/-- From block 0 on. The induction above takes over if the tree is flat. -/
theorem readBlocks_first (pos len : ℤ) (n : ℕ) (node : Ext2fsNode) (delayed : Option Delayed)
    (buf : Bytes) (dst : ℕ) :
    Fueled (readBlocks fs (fuel + 1) pos len n 0 node delayed buf dst) := by
  by_cases h : Flat node.inode
  · exact readBlocks_flat fs fuel pos len n 0 node h delayed buf dst
  cases n with
  | zero =>
    apply Avoids.bind (flush_avoids fs _ _ _)
    intro r
    exact Avoids.ite (fun _ => Avoids.pure _) fun _ => Avoids.pure _
  | succ n =>
    have hblock := readAllocatedBlock1_first fs fuel node h
    apply Avoids.bind_of_returns (fun log => (hblock log).1) fun log r log' => (hblock log).2 r log'
    intro r hneg
    dsimp only
    rw [if_pos hneg]
    exact Avoids.pure _

theorem ext4fsReadFile_first (node : Ext2fsNode) (len : ℤ) (buf : Bytes) :
    Fueled (ext4fsReadFile fs (fuel + 1) node 0 len buf) := by
  apply Avoids.bind (checkShifts_fueled fs)
  intro _
  rw [Int.zero_tdiv]
  exact readBlocks_first fs fuel 0 _ _ node none buf 0

end Blocks

section Nodes
variable (fs : ExtFilesystem)

theorem deref_fueled (ref : NodeRef) : Fueled (deref ref) := by
  intro w e h
  unfold deref at h
  split at h
  · cases h
  · cases h
    exact nofun

theorem store_fueled (ref : NodeRef) (node : Ext2fsNode) : Fueled (store ref node) := by
  intro w e h
  unfold store at h
  split at h
  · cases h
  · cases h
    exact nofun

theorem device_fueled {α : Type} {x : DevM α} (h : Fueled x) : Fueled (device x) := by
  intro w e hrun
  unfold device at hrun
  split at hrun
  · cases hrun
  · rename_i hx
    cases hrun
    exact h _ _ hx

theorem needInode_fueled (ref : NodeRef) : Fueled (needInode fs ref) := by
  apply Avoids.bind (deref_fueled ref)
  intro node
  apply Avoids.ite (fun _ => Avoids.pure _)
  intro _
  refine Avoids.bind ?_ fun _ => Avoids.pure _
  apply Avoids.bind (deref_fueled ref)
  intro node
  apply Avoids.bind (device_fueled (ext4fsReadInode_avoids fs _ (fun h => nomatch h)
    (fun h => nomatch h) node.ino node.inode))
  intro r
  exact Avoids.bind (store_fueled ref _) fun _ => Avoids.pure _

/-- One level is enough for any target. -/
theorem ext4fsReadSymlink_fueled (fuel : ℕ) (ref : NodeRef) :
    Fueled (ext4fsReadSymlink fs (fuel + 1) ref) := by
  apply Avoids.bind (needInode_fueled fs ref)
  intro read
  apply Avoids.ite (fun _ => Avoids.pure _)
  intro _
  apply Avoids.bind (deref_fueled ref)
  intro diro
  apply Avoids.ite (fun _ => Avoids.fault nofun)
  intro _
  apply Avoids.ite (fun _ => Avoids.pure _)
  intro _
  refine Avoids.bind ?_ fun _ => Avoids.ite (fun _ => Avoids.pure _) fun _ => Avoids.pure _
  apply Avoids.bind (deref_fueled ref)
  intro node
  apply Avoids.bind (device_fueled (ext4fsReadFile_first fs fuel node _ _))
  intro r
  exact Avoids.bind (store_fueled ref _) fun _ => Avoids.pure _

end Nodes

end Eokan.TargetReads
