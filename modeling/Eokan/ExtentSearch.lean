import Eokan.BlockMap

/-!
The search in a leaf of an extent tree. The extents of a leaf are in order and
do not overlap, so the last one that starts at or below a block is the only
one that can cover it.
-/
namespace Eokan.ExtentSearch

open ByteMem CInt Programs Device Devread Layout BlockMap SortedScan

/-- Extent e covers file block f. -/
def Covers (e : Ext4Extent) (f : ℕ) : Prop := e.block ≤ f ∧ f < e.block + e.len

instance (e : Ext4Extent) (f : ℕ) : Decidable (Covers e f) := by
  unfold Covers
  infer_instance

/-- A valid leaf whose entries fit into `cap` bytes. -/
structure Leaf (cap : ℕ) (node : Bytes) : Prop where
  magic : ehMagic node = ext4ExtMagic
  depth : ehDepth node = 0
  fits : 12 + 12 * ehEntries node ≤ cap
  ordered : ∀ i j, i < j → j < ehEntries node →
    (extentAt node i).block + (extentAt node i).len ≤ (extentAt node j).block

theorem Leaf.block_le {cap : ℕ} {node : Bytes} (h : Leaf cap node) (i j : ℕ) (hij : i ≤ j)
    (hj : j < ehEntries node) : (extentAt node i).block ≤ (extentAt node j).block := by
  rcases Nat.eq_or_lt_of_le hij with heq | hlt
  · rw [heq]
  · have hord := h.ordered i j hlt hj
    omega

/-- The entries that start at or below f, counted as the code does. -/
def countUpTo (node : Bytes) (f : ℕ) : ℕ :=
  scanEntries (fun i => (extentAt node i).block ≤ f) (ehEntries node) 0

theorem countUpTo_le (node : Bytes) (f : ℕ) : countUpTo node f ≤ ehEntries node := by
  have hbounds := scanEntries_bounds (fun i => (extentAt node i).block ≤ f) (ehEntries node) 0
  unfold countUpTo
  omega

theorem Leaf.lt_countUpTo {cap : ℕ} {node : Bytes} (h : Leaf cap node) (f i : ℕ)
    (hi : i < ehEntries node) : (extentAt node i).block ≤ f ↔ i < countUpTo node f :=
  scanEntries_le_iff (fun i => (extentAt node i).block) _ h.block_le f i hi

/-- The search looks only at the last of these entries. -/
theorem findExtent_eq (node : Bytes) (f : ℕ) (hf : f < 2 ^ 31) :
    findExtent node f =
      if countUpTo node f = 0 then -1
      else
        let e := extentAt node (countUpTo node f - 1)
        if e.len ≤ int32 (f - e.block) then 0 else int32 (int32 (f - e.block) + e.start) := by
  have hscan : scanEntries (fun i => ((extentAt node i).block : ℤ) ≤ uint32 f)
      (ehEntries node) 0 = countUpTo node f := by
    unfold countUpTo
    rw [uint32_of_range f (by omega) (by omega)]
    simp only [Int.ofNat_le]
  unfold findExtent
  simp only [hscan]

/-- A covered block is found. -/
theorem findExtent_covered {cap : ℕ} {node : Bytes} (h : Leaf cap node) (f i : ℕ)
    (hf : f < 2 ^ 31) (hi : i < ehEntries node) (hcovers : Covers (extentAt node i) f)
    (hphys : (extentAt node i).start + (f - (extentAt node i).block) < 2 ^ 31) :
    findExtent node f = (extentAt node i).start + (f - (extentAt node i).block : ℕ) := by
  have hle := countUpTo_le node f
  have hcount : countUpTo node f = i + 1 := by
    have hlt := (h.lt_countUpTo f i hi).mp hcovers.1
    rcases Nat.lt_or_ge (i + 1) (countUpTo node f) with hmore | hless
    · have hnext := (h.lt_countUpTo f (i + 1) (by omega)).mpr hmore
      have hord := h.ordered i (i + 1) (by omega) (by omega)
      have hend := hcovers.2
      omega
    · omega
  obtain ⟨hlo, hhi⟩ := hcovers
  have hrel : int32 ((f : ℤ) - (extentAt node i).block) = (f - (extentAt node i).block : ℕ) := by
    rw [int32_of_nat _ (by omega) (by omega)]
    omega
  rw [findExtent_eq node f hf, hcount, if_neg (Nat.succ_ne_zero i)]
  simp only [Nat.add_sub_cancel, hrel]
  rw [if_neg (by omega), int32_of_nat _ (by omega) (by omega)]
  omega

/-- A block that no extent covers is a hole behind the extent before it. In
front of all extents there is no such extent. -/
theorem findExtent_uncovered {cap : ℕ} {node : Bytes} (h : Leaf cap node) (f : ℕ)
    (hf : f < 2 ^ 31) (hfree : ∀ i, i < ehEntries node → ¬ Covers (extentAt node i) f) :
    findExtent node f =
      if ∃ i < ehEntries node, (extentAt node i).block ≤ f then 0 else -1 := by
  have hle := countUpTo_le node f
  rw [findExtent_eq node f hf]
  by_cases hzero : countUpTo node f = 0
  · rw [if_pos hzero, if_neg]
    intro ⟨i, hi, hblock⟩
    have hlt := (h.lt_countUpTo f i hi).mp hblock
    omega
  · obtain ⟨i, hcount⟩ : ∃ i, countUpTo node f = i + 1 := ⟨countUpTo node f - 1, by omega⟩
    have hblock : (extentAt node i).block ≤ f := (h.lt_countUpTo f i (by omega)).mpr (by omega)
    have hend : (extentAt node i).block + (extentAt node i).len ≤ f := by
      rcases Nat.lt_or_ge f ((extentAt node i).block + (extentAt node i).len) with hlt | hge
      · exact absurd ⟨hblock, hlt⟩ (hfree i (by omega))
      · exact hge
    have hsome : ∃ i < ehEntries node, (extentAt node i).block ≤ f := ⟨i, by omega, hblock⟩
    have hrel : int32 ((f : ℤ) - (extentAt node i).block) = f - (extentAt node i).block :=
      int32_of_nat _ (by omega) (by omega)
    rw [hcount, if_neg (Nat.succ_ne_zero i)]
    simp only [Nat.add_sub_cancel, hrel]
    rw [if_pos (by omega), if_pos hsome]

section Lookup
variable (fs : ExtFilesystem) (hlog : fs.sblock.log2BlockSize ≤ 20) (node : Ext2fsNode)
  (hflags : node.inode.extents = true)
include hlog hflags

theorem readAllocatedBlock1_extents (fuel : ℕ) (f : ℤ) (log : Log) {post : ℤ → Log → Prop}
    (h : Yields (readExtentBlock fs fuel node f) log post) :
    Yields (readAllocatedBlock1 fs fuel node f) log fun r log' =>
      post r.1 log' ∧ r.2 = node := by
  unfold readAllocatedBlock1
  refine Yields.lift (if_pos hlog) ?_
  simp only [hflags, if_true]
  refine Yields.bind h ?_
  intro blknr log' hpost
  exact Yields.pure ⟨hpost, rfl⟩

/-- With a leaf as its root the inode alone answers the lookup. -/
theorem readAllocatedBlock1_leaf (fuel : ℕ) (hmagic : ehMagic node.inode.b = ext4ExtMagic)
    (hdepth : ehDepth node.inode.b = 0) (f : ℤ) (log : Log) :
    Yields (readAllocatedBlock1 fs (fuel + 1) node f) log fun r _ =>
      r.1 = findExtent node.inode.b f ∧ r.2 = node := by
  have hroot : Yields (readExtentBlock fs (fuel + 1) node f) log fun r _ =>
      r = findExtent node.inode.b f := by
    unfold readExtentBlock getExtentBlock
    simp only [hmagic, hdepth, ne_eq, not_true_eq_false, if_false, if_true]
    exact Yields.pure rfl
  exact readAllocatedBlock1_extents fs hlog node hflags (fuel + 1) f log hroot

end Lookup

end Eokan.ExtentSearch
