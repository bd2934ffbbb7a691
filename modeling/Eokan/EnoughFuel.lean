import Eokan.Fuel
import Eokan.Resolve

/-!
More fuel for the descents into extent trees, and more steps for the loop over a
directory, change nothing about a run that has enough of both.
-/
namespace Eokan.EnoughFuel

open ByteMem CInt Programs Fuel Device Devread Layout BlockMap Inodes ReadFile DokanRead NodeHeap
  Directory Resolve

abbrev More {σ α : Type} : Prog σ Fault α → Prog σ Fault α → Prop := Extends .outOfFuel

section Blocks
variable (fs : ExtFilesystem) {n m : ℕ} (hle : n ≤ m)
include hle

theorem getExtentBlock_more (f : ℤ) (node buf : Bytes) :
    More (getExtentBlock fs f n node buf) (getExtentBlock fs f m node buf) := by
  induction n generalizing m node buf with
  | zero => exact Extends.of_out _
  | succ n ih =>
    obtain ⟨m, rfl⟩ : ∃ k, m = k + 1 := ⟨m - 1, by omega⟩
    unfold getExtentBlock
    refine Extends.ite (Extends.refl _) (Extends.ite (Extends.refl _) (Extends.ite (Extends.refl _)
      (Extends.bind (Extends.refl _) fun r => ?_)))
    exact Extends.ite (ih (by omega) _ _) (Extends.refl _)

theorem readAllocatedBlock1_more (node : Ext2fsNode) (f : ℤ) :
    More (readAllocatedBlock1 fs n node f) (readAllocatedBlock1 fs m node f) := by
  refine Extends.bind (Extends.refl _) fun _ => Extends.ite ?_ (Extends.refl _)
  refine Extends.bind (Extends.bind (getExtentBlock_more fs hle f _ _) fun r => ?_) fun _ =>
    Extends.refl _
  exact Extends.refl _

theorem readBlocks_more (pos len : ℤ) (k : ℕ) (i : ℤ) (node : Ext2fsNode)
    (delayed : Option Delayed) (buf : Bytes) (dst : ℕ) :
    More (readBlocks fs n pos len k i node delayed buf dst)
      (readBlocks fs m pos len k i node delayed buf dst) := by
  induction k generalizing i node delayed buf dst with
  | zero => exact Extends.refl _
  | succ k ih =>
    refine Extends.bind (readAllocatedBlock1_more fs hle node i) fun r => ?_
    refine Extends.ite (Extends.refl _) (Extends.ite (ih _ _ _ _ _) ?_)
    refine Extends.bind (Extends.refl _) fun r' => Extends.ite (Extends.refl _) ?_
    exact Extends.ite (ih _ _ _ _ _) (ih _ _ _ _ _)

theorem ext4fsReadFile_more (node : Ext2fsNode) (pos len : ℤ) (buf : Bytes) :
    More (ext4fsReadFile fs n node pos len buf) (ext4fsReadFile fs m node pos len buf) :=
  Extends.bind (Extends.refl _) fun _ => readBlocks_more fs hle _ _ _ _ _ _ _ _

end Blocks

theorem device_more {α : Type} {x y : DevM α} (h : More x y) : More (device x) (device y) := by
  intro w hne
  unfold device at hne ⊢
  rw [h w.log]
  intro hout
  rw [hout] at hne
  exact hne rfl

section Nodes
variable (fs : ExtFilesystem) {n m : ℕ} (hle : n ≤ m)
include hle

theorem readFileAt_more (ref : NodeRef) (pos len : ℤ) (buf : Bytes) :
    More (readFileAt fs n ref pos len buf) (readFileAt fs m ref pos len buf) := by
  refine Extends.bind (Extends.refl _) fun node => ?_
  exact Extends.bind (device_more (ext4fsReadFile_more fs hle node pos len buf)) fun _ =>
    Extends.refl _

/-- The steps of the loop grow as well. The induction is on the smaller number. -/
theorem iterateFrom_more {α : Type} {k l : ℕ} (hsteps : k ≤ l) (dir : NodeRef) (mode : DirMode α)
    (fpos : ℕ) (data : α) :
    More (iterateFrom fs n dir mode k fpos data) (iterateFrom fs m dir mode l fpos data) := by
  induction k generalizing l fpos data with
  | zero => exact Extends.of_out _
  | succ k ih =>
    obtain ⟨l, rfl⟩ : ∃ j, l = j + 1 := ⟨l - 1, by omega⟩
    have hnext := fun fpos data => ih (show k ≤ l by omega) fpos data
    unfold iterateFrom
    refine Extends.bind (Extends.refl _) fun diro => Extends.ite ?_ (Extends.refl _)
    refine Extends.bind (readFileAt_more fs hle _ _ _ _) fun r => ?_
    refine Extends.ite (Extends.refl _) (Extends.ite (hnext _ _) ?_)
    refine Extends.bind (readFileAt_more fs hle _ _ _ _) fun r' => ?_
    refine Extends.ite (Extends.refl _) (Extends.bind (Extends.refl _) fun visit => ?_)
    cases visit with
    | done found data => exact Extends.refl _
    | next got data => exact Extends.ite (Extends.refl _) (hnext _ _)

theorem lookupIn_more (dir : NodeRef) (name : List UInt8) :
    More (lookupIn fs n n dir name) (lookupIn fs m m dir name) := by
  refine Extends.bind (Extends.bind (Extends.refl _) fun read => ?_) fun _ => Extends.refl _
  exact Extends.ite (Extends.refl _) (iterateFrom_more fs hle hle dir _ _ _)

theorem ext4fsReadSymlink_more (ref : NodeRef) :
    More (ext4fsReadSymlink fs n ref) (ext4fsReadSymlink fs m ref) := by
  refine Extends.bind (Extends.refl _) fun read => Extends.ite (Extends.refl _) ?_
  refine Extends.bind (Extends.refl _) fun diro => ?_
  refine Extends.ite (Extends.refl _) (Extends.ite (Extends.refl _) ?_)
  exact Extends.bind (readFileAt_more fs hle _ _ _ _) fun _ => Extends.refl _

end Nodes

end Eokan.EnoughFuel
