import Eokan.FileContent

/-!
What a read counts. The length is cut to the size of the file and not to what
is left behind the position, so a read that starts behind the beginning can
count bytes past the end, and reading on never comes to an end.
-/
namespace Eokan.ChunkedReads

open ByteMem CInt Programs Device Devread Layout BlockMap ExtentSearch IndirectCache ReadFile
  ReadPlan DeferredReads FileMaps FileContent

/-- Reading a file chunk after chunk: k reads, the node after them and the sum
of what they counted. -/
inductive Delivered (fs : ExtFilesystem) (fuel : ℕ) (chunks : ℕ → ℕ) (node : Ext2fsNode) :
    ℕ → Ext2fsNode → ℕ → Prop
  | start : Delivered fs fuel chunks node 0 node 0
  | read (k : ℕ) (node' : Ext2fsNode) (total : ℕ) (buf : Bytes) (log log' : Log)
      (res : ℤ × Ext2fsNode × Bytes) (hdone : Delivered fs fuel chunks node k node' total)
      (hrun : ext4fsReadFile fs fuel node' total (chunks k) buf log = .ok (res, log'))
      (hpos : 0 < res.1) :
      Delivered fs fuel chunks node (k + 1) res.2.1 (total + res.1.toNat)

/-- The chunks deliver `size` bytes, the read behind them counts 0, and no more
is ever delivered. -/
def ReachesEnd (fs : ExtFilesystem) (fuel : ℕ) (chunks : ℕ → ℕ) (node : Ext2fsNode)
    (size : ℕ) : Prop :=
  (∃ k node', Delivered fs fuel chunks node k node' size ∧ ∃ buf log,
    Yields (ext4fsReadFile fs fuel node' size (chunks k) buf) log fun r _ => r.1 = 0) ∧
  ∀ k node' total, Delivered fs fuel chunks node k node' total → total ≤ size

section Files
variable (fs : ExtFilesystem) (hgood : fs.devDesc.disk.NoErrors)
  (hpart : fs.devDesc.off + fs.devDesc.length < 2 ^ 63)
  (hlog : fs.sblock.log2BlockSize ≤ 20) (fuel count : ℕ) (map : ℕ → ℤ)
  (valid : Ext2fsNode → Prop) (hreal : Realizes fs fuel map count valid)
  (hin : InPartition fs map count) (size : ℕ)
  (hsizes : ∀ node, valid node → node.inode.size = size)
include hgood hpart hlog hreal hin hsizes

/-- A read counts the cut length, unless it runs on over repeated blocks to
where nothing can be read. -/
theorem ext4fsReadFile_count (node : Ext2fsNode) (hvalid : valid node) (pos len : ℕ)
    (hmax : pos + len ≤ 2 ^ 31) (hend : endBlock fs pos (min len size) ≤ count) (buf : Bytes)
    (log : Log) :
    Yields (ext4fsReadFile fs fuel node pos len buf) log fun r _ =>
      valid r.2.1 ∧
        (ShiftOk fs pos (min len size) map (endBlock fs pos (min len size)) →
          r.1 = int32 (min len size : ℕ)) ∧
        (¬ ShiftOk fs pos (min len size) map (endBlock fs pos (min len size)) → r.1 = -1) := by
  have hclamp : clampLength node len = (min len size : ℕ) := by
    rw [clampLength_eq, hsizes node hvalid]
  have hok : StepsOk fs.devDesc (rangePlan fs pos (min len size) map) ↔ _ :=
    rangePlan_ok_iff fs pos (min len size) map hlog _ (Nat.le_refl _)
      (firstBlock_le_endBlock fs pos _)
  have hreads : ∀ j, firstBlock fs pos ≤ j → j < endBlock fs pos (min len size) →
      Reads fs pos (min len size) map j := fun j hlo hhi =>
    reads_of_inPartition fs map hin pos (min len size) j hlo hhi (by omega)
  refine (ext4fsReadFile_plan fs hgood hpart hlog fuel pos (min len size) (by omega) map valid
    (realizes_mono hreal hend) len node hclamp hvalid buf log).mono ?_
  rintro r log' ⟨hvalid', hr⟩
  have hres : r.1 = (outcome (min len size)
    (runSteps fs.devDesc (rangePlan fs pos (min len size) map) buf)).1 := congrArg Prod.fst hr
  refine ⟨hvalid', fun hshift => ?_, fun hshift => ?_⟩
  · rw [hres, outcome, if_pos ((runSteps_ok_iff _ _ _).mpr (hok.mpr ⟨hreads, hshift⟩))]
  · rw [hres, outcome, if_neg fun h => hshift (hok.mp ((runSteps_ok_iff _ _ _).mp h)).2]

variable (hcount : 2 ^ 31 ≤ count * ext2BlockSize fs)
include hcount

theorem delivered_valid (chunks : ℕ → ℕ) (hchunks : ∀ k, 0 < chunks k ∧ size + chunks k ≤ 2 ^ 31)
    (node : Ext2fsNode) (hvalid : valid node) (k : ℕ) (node' : Ext2fsNode) (total : ℕ)
    (h : Delivered fs fuel chunks node k node' total) (hle : total ≤ size) : valid node' := by
  induction h with
  | start => exact hvalid
  | read k node' total buf log log' res _ hrun _ ih =>
    have hchunk := (hchunks k).2
    have hread := ext4fsReadFile_count fs hgood hpart hlog fuel count map valid hreal hin size
      hsizes node' (ih (by omega)) total (chunks k) (by omega)
      (endBlock_le fs count total _ (by omega)) buf log
    exact (hread.of_ok hrun).1

/-- Only an empty file is ever read to its end. -/
theorem reachesEnd_iff (chunks : ℕ → ℕ) (hchunks : ∀ k, 0 < chunks k ∧ size + chunks k ≤ 2 ^ 31)
    (node : Ext2fsNode) (hvalid : valid node) :
    ReachesEnd fs fuel chunks node size ↔ size = 0 := by
  have hcounts := fun node' hvalid' pos len (hmax : pos + len ≤ 2 ^ 31) =>
    ext4fsReadFile_count fs hgood hpart hlog fuel count map valid hreal hin size hsizes node'
      hvalid' pos len hmax (endBlock_le fs count pos (min len size) (by omega))
  constructor
  · rintro ⟨⟨k, node', hdone, buf, log, hread⟩, -⟩
    have hchunk := hchunks k
    have hvalid' := delivered_valid fs hgood hpart hlog fuel count map valid hreal hin size hsizes
      hcount chunks hchunks node hvalid k node' size hdone (Nat.le_refl size)
    obtain ⟨res, log', -, ⟨-, hcounted, hfailed⟩, hzero⟩ :=
      (hcounts node' hvalid' size (chunks k) (by omega) buf log).and hread
    by_cases hshift : ShiftOk fs size (min (chunks k) size) map
        (endBlock fs size (min (chunks k) size))
    · have hcut := hcounted hshift
      rw [int32_of_nat _ (by omega) (by omega)] at hcut
      omega
    · have hfail := hfailed hshift
      omega
  · rintro rfl
    have hnone : ∀ k node', valid node' → ∀ buf log,
        Yields (ext4fsReadFile fs fuel node' (0 : ℕ) (chunks k) buf) log fun r _ => r.1 = 0 := by
      intro k node' hvalid' buf log
      refine (hcounts node' hvalid' 0 (chunks k) (by have := hchunks k; omega) buf log).mono ?_
      rintro r log' ⟨-, hcounted, -⟩
      have hend : endBlock fs 0 (min (chunks k) 0) = 0 := by
        have hpos := ext2BlockSize_pos fs
        rw [Nat.min_zero]
        exact Nat.div_eq_of_lt (by omega)
      rw [hend] at hcounted
      rw [hcounted fun _ _ u _ hlt => by omega, Nat.min_zero]
      exact int32_zero
    refine ⟨⟨0, node, .start, fun _ => 0, [], hnone 0 node hvalid _ _⟩, fun k node' total h => ?_⟩
    induction h with
    | start => exact Nat.le_refl 0
    | read k node' total buf log log' res hdone hrun hpos ih =>
      obtain rfl : total = 0 := by omega
      have hvalid' := delivered_valid fs hgood hpart hlog fuel count map valid hreal hin 0 hsizes
        hcount chunks hchunks node hvalid k node' 0 hdone (Nat.le_refl 0)
      have hzero := (hnone k node' hvalid' buf log).of_ok hrun
      omega

end Files

/-- When a read counts what is left of the file, for a map of the blocks of its
range, and when a file read in chunks comes to its end. -/
theorem ext4fsReadFile_counts_rest_iff (fs : ExtFilesystem) (hgood : fs.devDesc.disk.NoErrors)
    (hpart : fs.devDesc.off + fs.devDesc.length < 2 ^ 63)
    (hlog : fs.sblock.log2BlockSize ≤ 20) (fuel count : ℕ) (map : ℕ → ℤ)
    (valid : Ext2fsNode → Prop) (hreal : Realizes fs fuel map count valid)
    (hin : InPartition fs map count) (size : ℕ)
    (hsizes : ∀ node, valid node → node.inode.size = size) (node : Ext2fsNode)
    (hvalid : valid node) :
    (∀ pos len, pos + len < 2 ^ 31 → endBlock fs pos (min len size) ≤ count →
      ((∀ buf log, Yields (ext4fsReadFile fs fuel node (pos : ℕ) (len : ℕ) buf) log fun r _ =>
          r.1 = (min len (size - pos) : ℕ)) ↔
        (pos = 0 ∨ pos + len ≤ size ∨ len = 0 ∨ size = 0) ∧
          ShiftOk fs pos (min len size) map (endBlock fs pos (min len size)))) ∧
    (2 ^ 31 ≤ count * ext2BlockSize fs → ∀ chunks : ℕ → ℕ,
      (∀ k, 0 < chunks k ∧ size + chunks k ≤ 2 ^ 31) →
      (ReachesEnd fs fuel chunks node size ↔ size = 0)) := by
  refine ⟨fun pos len hmax hend => ?_, fun hcount chunks hchunks => reachesEnd_iff fs hgood hpart
    hlog fuel count map valid hreal hin size hsizes hcount chunks hchunks node hvalid⟩
  have hread := ext4fsReadFile_count fs hgood hpart hlog fuel count map valid hreal hin size hsizes
    node hvalid pos len (by omega) hend
  constructor
  · intro h
    obtain ⟨res, log, -, ⟨-, hcounted, hfailed⟩, hres⟩ :=
      (hread (fun _ => 0) []).and (h (fun _ => 0) [])
    by_cases hshift : ShiftOk fs pos (min len size) map (endBlock fs pos (min len size))
    · refine ⟨?_, hshift⟩
      have hcut := hcounted hshift
      rw [int32_of_nat _ (by omega) (by omega)] at hcut
      omega
    · have hfail := hfailed hshift
      omega
  · rintro ⟨hrange, hshift⟩ buf log
    refine (hread buf log).mono ?_
    rintro r log' ⟨-, hcounted, -⟩
    rw [hcounted hshift, int32_of_nat _ (by omega) (by omega)]
    omega

theorem leafInode_map (f : ℕ) (hf : f < 2 ^ 31) :
    findExtent (leafInode 1500).b f = if f = 0 then 3 else 0 := by
  have hone : ehEntries (leafInode 1500).b = 1 := by decide +kernel
  have hentry : extentAt (leafInode 1500).b 0 = ⟨0, 1, 3⟩ := by decide +kernel
  have hleaf : Leaf 60 (leafInode 1500).b :=
    ⟨by decide +kernel, by decide +kernel, by omega, fun i j hij hj => by omega⟩
  by_cases hzero : f = 0
  · subst hzero
    rw [findExtent_covered hleaf 0 0 (by decide) (by omega) (by rw [hentry]; decide)
      (by rw [hentry]; decide), hentry]
    rfl
  · rw [if_neg hzero, findExtent_uncovered hleaf f hf, if_pos]
    · exact ⟨0, by omega, by rw [hentry]; exact Nat.zero_le f⟩
    · intro i hi
      obtain rfl : i = 0 := by omega
      rw [hentry]
      unfold Covers
      dsimp only
      omega

/-- A read over the end of a file of 1500 bytes counts too much, a read up to it
does not, and in chunks of 1000 bytes the file has no end. -/
theorem ext4fsReadFile_counts_rest_iff_leaf :
    (¬ ∀ buf log, Yields (ext4fsReadFile (smallFs pairImage) 1 (freshNode (leafInode 1500))
      (1000 : ℕ) (1000 : ℕ) buf) log fun r _ => r.1 = (500 : ℕ)) ∧
    (∀ buf log, Yields (ext4fsReadFile (smallFs pairImage) 1 (freshNode (leafInode 1500))
      (1000 : ℕ) (500 : ℕ) buf) log fun r _ => r.1 = (500 : ℕ)) ∧
    ¬ ReachesEnd (smallFs pairImage) 1 (fun _ => 1000) (freshNode (leafInode 1500)) 1500 := by
  have hmap : ∀ f : ℕ, f < 2 ^ 21 →
      findExtent (leafInode 1500).b f = 3 ∨ findExtent (leafInode 1500).b f = 0 := by
    intro f hf
    rw [leafInode_map f (by omega)]
    split
    · exact Or.inl rfl
    · exact Or.inr rfl
  have hsectors : (blockSectors (smallFs pairImage) : ℤ) = 2 ∧
      (smallFs pairImage).devDesc.length = 16 := by decide
  have hread := ext4fsReadFile_counts_rest_iff (smallFs pairImage) (noErrors_ofImage _) (by decide)
    (by decide) 1 (2 ^ 21) _ _ (realizes_leaf (smallFs pairImage) (by decide) 0 (leafInode 1500)
      (by decide +kernel) (by decide +kernel) (by decide +kernel) (2 ^ 21))
    (fun f hf => by
      have hcases := hmap f hf
      rw [hsectors.1, hsectors.2]
      dsimp only
      omega) 1500
    (fun node hnode => by
      rw [hnode]
      decide +kernel) (freshNode (leafInode 1500)) rfl
  refine ⟨fun h => ?_, ?_, fun h => ?_⟩
  · have hrange := ((hread.1 1000 1000 (by decide) (by decide)).mp h).1
    omega
  · refine (hread.1 1000 500 (by decide) (by decide)).mpr
      ⟨Or.inr (Or.inl (by decide)), fun hshift => ?_⟩
    intro _ u hu _ hrepeats
    exact absurd (hrepeats 0 hu).1 (by decide +kernel)
  · have hnone := (hread.2 (by decide) (fun _ => 1000) fun k => ⟨by decide, by decide⟩).mp h
    omega

/-- 1000 bytes are counted from byte 1000 of 1500 on, the last 500 of them zeros. -/
theorem ext4fsReadFile_counts_past_end :
    Yields (ext4fsReadFile (smallFs pairImage) 1 (freshNode (leafInode 1500)) 1000 1000 fun _ => 9)
      [] fun r _ => (leafInode 1500).size = 1500 ∧ r.1 = 1000 ∧ r.2.2 999 = 0 := by
  have hrun : (match ext4fsReadFile (smallFs pairImage) 1 (freshNode (leafInode 1500)) 1000 1000
      (fun _ => 9) [] with
      | .ok (r, _) => decide ((leafInode 1500).size = 1500 ∧ r.1 = 1000 ∧ r.2.2 999 = 0)
      | .error _ => false) = true := by decide +kernel
  split at hrun
  · rename_i r log heq
    exact ⟨r, log, heq, of_decide_eq_true hrun⟩
  · exact absurd hrun Bool.false_ne_true

end Eokan.ChunkedReads
