import Eokan.LookupErrors
import Eokan.PointerSectors

/-!
The block pointer that a lookup comes to. It is a direct one, the word of a last
table or the block of an extent, and the lookup cuts it to an `int`.
-/
namespace Eokan.StoredPointers

open ByteMem CInt Programs Device Devread Layout BlockMap IndirectWalk SortedScan ExtentSearch
open ExtentTree TableDescent FailedLookups LookupErrors PointerSectors

/-- Every table on the way is in its cache, or is read. -/
def Filled (fs : ExtFilesystem) : List IndirCache → ℕ → ℕ → List (ℕ × ℕ) → Log → Prop
  | cache :: rest, test, load, (j, i) :: is, log =>
    let cache := allocCache fs cache
    if Hit fs cache test then
      Filled fs rest (IndirCache.entry cache j) (IndirCache.entry cache i) is log
    else
      (InReach fs load ∧ fs.devDesc.disk.fails log (tableRequest fs load) = false) ∧
        let cache := loaded fs cache load
        Filled fs rest (IndirCache.entry cache j) (IndirCache.entry cache i) is
          (tableRequest fs load :: log)
  | _, _, _, _, _ => True

/-- The pointer that the lookup of file block i comes to: a direct one, the word
of a last table, or the block of an extent in the root. -/
inductive Stored (fs : ExtFilesystem) (node : Ext2fsNode) (i b : ℕ) (log : Log) : Prop
  | word (hflags : node.inode.extents = false)
      (hfilled : Filled fs (descentTo fs node i).caches (descentTo fs node i).table
        (descentTo fs node i).table (descentTo fs node i).indices log)
      (hword : lastWord fs (descentTo fs node i).caches (descentTo fs node i).table
        (descentTo fs node i).table (descentTo fs node i).indices = b)
  | extent (hflags : node.inode.extents = true)
      (hroot : ehMagic node.inode.b = ext4ExtMagic ∧ ehDepth node.inode.b = 0)
      (hi : i < 2 ^ 31) (hmaps : LeafMaps node.inode.b i b)

theorem descend_of_filled (fs : ExtFilesystem) (failed : ℤ) (caches : List IndirCache)
    (test load : ℕ) (is : List (ℕ × ℕ)) (log : Log) (h : Filled fs caches test load is log) :
    (descend fs failed caches test load is log).1.1 = int32 (lastWord fs caches test load is) := by
  induction caches generalizing test load is log with
  | nil => rfl
  | cons cache rest ih =>
    rcases is with _ | ⟨⟨j, i⟩, is⟩
    · rfl
    unfold Filled at h
    unfold descend refilled lastWord
    by_cases hhit : Hit fs (allocCache fs cache) test
    · simp only [if_pos hhit] at h ⊢
      exact ih _ _ is log h
    · simp only [if_neg hhit] at h ⊢
      obtain ⟨⟨hin, hfails⟩, hbelow⟩ := h
      rw [if_neg (not_not_intro hin)]
      simp only [hfails, Bool.false_eq_true, if_false]
      exact ih _ _ is _ hbelow

theorem filled_of_descend (fs : ExtFilesystem) (failed : ℤ) (caches : List IndirCache)
    (test load : ℕ) (is : List (ℕ × ℕ)) (log : Log)
    (h : (descend fs failed caches test load is log).1.1 ≠ failed) :
    Filled fs caches test load is log := by
  induction caches generalizing test load is log with
  | nil => exact trivial
  | cons cache rest ih =>
    rcases is with _ | ⟨⟨j, i⟩, is⟩
    · exact trivial
    unfold Filled
    unfold descend refilled at h
    by_cases hhit : Hit fs (allocCache fs cache) test
    · simp only [if_pos hhit] at h ⊢
      exact ih _ _ is log h
    simp only [if_neg hhit] at h ⊢
    by_cases hin : InReach fs load
    · rw [if_neg (not_not_intro hin)] at h
      cases hfails : fs.devDesc.disk.fails log (tableRequest fs load) with
      | true => simp [hfails] at h
      | false =>
        simp only [hfails, Bool.false_eq_true, if_false] at h
        exact ⟨⟨hin, rfl⟩, ih _ _ is _ h⟩
    · simp [hin] at h

/-- The answer of a leaf is cut to 32 bits. -/
theorem findExtent_maps (leaf : Bytes) (f b : ℕ) (hf : f < 2 ^ 31) (h : LeafMaps leaf f b) :
    findExtent leaf f = int32 b := by
  obtain ⟨i, hlast, hcovers, rfl⟩ := h
  have hcount := (lastUpTo_iff leaf f i).mp hlast
  obtain ⟨hlo, hhi⟩ := hcovers
  have hrel : int32 ((f : ℤ) - (extentAt leaf i).block) = (f - (extentAt leaf i).block : ℕ) := by
    rw [int32_of_nat _ (by omega) (by omega)]
    omega
  rw [findExtent_eq leaf f hf, ← hcount, if_neg (Nat.succ_ne_zero i)]
  simp only [Nat.add_sub_cancel, hrel]
  rw [if_neg (by omega), Int.natCast_add, Int.add_comm]

/-- A leaf that answers with a block maps one. -/
theorem maps_of_findExtent (leaf : Bytes) (f : ℕ) (hf : f < 2 ^ 31) (h : 0 < findExtent leaf f) :
    ∃ b, LeafMaps leaf f b := by
  rw [findExtent_eq leaf f hf] at h
  by_cases hnone : countUpTo leaf f = 0
  · simp [hnone] at h
  obtain ⟨i, hi⟩ := Nat.exists_eq_succ_of_ne_zero hnone
  have hlast : LastUpTo leaf f i := (lastUpTo_iff leaf f i).mpr hi.symm
  have hblock : (extentAt leaf i).block ≤ f := hlast.2.1 i (Nat.le_refl i)
  rw [if_neg hnone, hi] at h
  dsimp only [Nat.succ_sub_one] at h
  have hrel : int32 ((f : ℤ) - (extentAt leaf i).block) = (f - (extentAt leaf i).block : ℕ) := by
    rw [int32_of_nat _ (by omega) (by omega)]
    omega
  rw [hrel] at h
  by_cases hlen : ((extentAt leaf i).len : ℤ) ≤ (f - (extentAt leaf i).block : ℕ)
  · simp [hlen] at h
  · exact ⟨_, i, hlast, ⟨hblock, by omega⟩, rfl⟩

section Answers
variable (fs : ExtFilesystem) (hpart : fs.devDesc.off + fs.devDesc.length < 2 ^ 63)
  (hlog : fs.sblock.log2BlockSize ≤ 20) (hblksz : fs.blksz = 0)
include hlog

include hpart in
/-- A lookup that divides by 0 does not return a word of a table. -/
theorem not_divides_of_filled (fuel : ℕ) (node node' : Ext2fsNode)
    (hflags : node.inode.extents = false) (i : ℕ) (log log₁ : Log) (v : ℤ)
    (hfilled : Filled fs (descentTo fs node i).caches (descentTo fs node i).table
      (descentTo fs node i).table (descentTo fs node i).indices log)
    (hrun : readAllocatedBlock1 fs fuel node i log = .ok ((v, node'), log₁)) :
    ¬ DividesByZero fs i := by
  intro hdivides
  rw [readAllocatedBlock1_divides fs hpart hlog fuel node hflags i hdivides log] at hrun
  obtain ⟨-, hsingle, hpair⟩ := hdivides
  unfold descentTo at hfilled
  dsimp only at hfilled
  rw [if_neg (by omega), if_neg (by omega), if_neg (by omega)] at hfilled
  unfold Filled at hfilled
  dsimp only at hfilled hrun
  unfold refilled at hrun
  by_cases hhit : Hit fs (allocCache fs node.indir1) node.inode.tripleIndirBlock
  · simp only [if_pos hhit, if_true] at hrun
    cases hrun
  · simp only [if_neg hhit] at hfilled hrun
    obtain ⟨⟨hin, hfails⟩, -⟩ := hfilled
    simp only [hin, hfails, not_true_eq_false, if_false, Bool.false_eq_true, if_true] at hrun
    cases hrun

include hpart hblksz in
/-- A pointer is cut to an `int` wherever it is found. -/
theorem stored_answer (fuel : ℕ) (node node' : Ext2fsNode) (i b : ℕ) (log log₁ : Log) (v : ℤ)
    (hstored : Stored fs node i b log)
    (hrun : readAllocatedBlock1 fs (fuel + 2) node i log = .ok ((v, node'), log₁)) :
    v = int32 b := by
  rcases hstored with ⟨hflags, hfilled, hword⟩ | ⟨hflags, hroot, hi, hmaps⟩
  · have hdivides := not_divides_of_filled fs hpart hlog (fuel + 2) node node' hflags i log log₁ v
      hfilled hrun
    rw [readAllocatedBlock1_run fs hpart hlog (fuel + 2) node hflags i hdivides log] at hrun
    cases hrun
    rw [← hword]
    exact descend_of_filled fs _ _ _ _ _ log hfilled
  · rw [mounted_extent_run fs hlog hblksz node hflags i fuel log] at hrun
    cases hrun
    unfold rootAnswer
    rw [if_pos hroot]
    exact findExtent_maps _ i b hi hmaps

include hpart hblksz in
/-- No block is taken from anywhere else. -/
theorem stored_of_answer (fuel : ℕ) (node node' : Ext2fsNode) (i : ℕ) (hi : i < 2 ^ 31)
    (log log₁ : Log) (v : ℤ) (hv : 0 < v)
    (hrun : readAllocatedBlock1 fs (fuel + 2) node i log = .ok ((v, node'), log₁)) :
    ∃ b, Stored fs node i b log := by
  cases hflags : node.inode.extents with
  | true =>
    rw [mounted_extent_run fs hlog hblksz node hflags i fuel log] at hrun
    cases hrun
    unfold rootAnswer at hv
    by_cases hroot : ehMagic node.inode.b = ext4ExtMagic ∧ ehDepth node.inode.b = 0
    · rw [if_pos hroot] at hv
      obtain ⟨b, hmaps⟩ := maps_of_findExtent node.inode.b i hi hv
      exact ⟨b, Stored.extent hflags hroot hi hmaps⟩
    · rw [if_neg hroot] at hv
      omega
  | false =>
    have hfailed : (descentTo fs node i).failed ≤ 0 := by
      unfold descentTo
      dsimp only
      split
      · simp
      split
      · simp
      split
      · simp
      · simp
    by_cases hdivides : DividesByZero fs i
    · rw [readAllocatedBlock1_divides fs hpart hlog _ node hflags i hdivides log] at hrun
      dsimp only at hrun
      split at hrun
      · cases hrun
      · cases hrun
        omega
    · rw [readAllocatedBlock1_run fs hpart hlog _ node hflags i hdivides log] at hrun
      cases hrun
      have hanswer : ((descentTo fs node i).run fs log).1.1 ≠ (descentTo fs node i).failed := by
        omega
      exact ⟨_, Stored.word hflags (filled_of_descend fs _ _ _ _ _ log hanswer) rfl⟩

omit hlog in
/-- Cut to 32 bits before or after it is shifted, the sector is the same. -/
theorem tableSector_eq (b : ℕ) : int32 (int32 b * blockSectors fs) = tableSector fs b := by
  have hmul : int32 (b : ℤ) * blockSectors fs =
      ((b * blockSectors fs : ℕ) : ℤ) + 2 ^ 32 * ((int32 b - b) / 2 ^ 32 * blockSectors fs) := by
    have hdiv : int32 (b : ℤ) = b + 2 ^ 32 * ((int32 b - b) / 2 ^ 32) := by
      unfold int32
      omega
    conv_lhs => rw [hdiv]
    rw [Int.add_mul, Int.mul_assoc, Int.natCast_mul]
  rw [hmul]
  unfold tableSector int32
  omega

end Answers

end Eokan.StoredPointers
