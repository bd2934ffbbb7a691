import Eokan.ExtentSearch
import Eokan.IndirectCache

/-!
Unallocated file blocks. A pointer 0 stands for a hole at every level, but the
lookup does not look for it before it reads a table: behind a table pointer 0
it takes the content of block 0 of the partition for a table. In an extent
list a hole in front of the first extent is taken for an error.
-/
namespace Eokan.Holes

open ByteMem CInt Programs Device Devread Layout BlockMap ExtentSearch
open IndirectWalk IndirectCache

/-- The same file system with other content in block 0 of its partition. -/
def withBlock0 (fs : ExtFilesystem) (content : Bytes) : ExtFilesystem :=
  { fs with
    devDesc :=
      { fs.devDesc with
        disk :=
          { fs.devDesc.disk with
            image := write fs.devDesc.disk.image (fs.devDesc.off * 512) (ext2BlockSize fs)
              content } } }

/-- Some pointer on the path is 0, where the tables before it lie in the partition. -/
def Hole (fs : ExtFilesystem) : ℕ → List ℕ → Prop
  | t, [] => t = 0
  | t, i :: is =>
    t = 0 ∨ ((t + 1) * ext2BlockSize fs ≤ fs.devDesc.length * 512 ∧ Hole fs (tableEntry fs t i) is)

/-- No table pointer on the path of file block f is 0. Below the first level the
tables have sectors that an `int` holds, and at the third level the second
table is indexed within its end. -/
def EndsInHole (fs : ExtFilesystem) (inode : Ext2Inode) (f : ℕ) : Prop :=
  (∀ t ∈ (pointers fs (slotPointer fs inode f) (indices fs f)).dropLast,
    t ≠ 0 ∧ ((path (perblock fs) f).1 = 12 ∨ TableReadable fs t)) ∧
  (12 + perblock fs + perblock fs * perblock fs ≤ f →
    (f - (12 + perblock fs + perblock fs * perblock fs)) / perblock fs < perblock fs)

/-- Every lookup answers a hole, whatever is in block 0 and in valid caches. -/
def AlwaysHole (fs : ExtFilesystem) (fuel : ℕ) (inode : Ext2Inode) (f : ℕ) : Prop :=
  ∀ content node, node.inode = inode → NodeValid (withBlock0 fs content) node → ∀ log,
    Yields (readAllocatedBlock1 (withBlock0 fs content) fuel node f) log fun r _ => r.1 = 0

section Content
variable (fs : ExtFilesystem) (content : Bytes)

/-- The other blocks keep their content. -/
theorem tableEntry_withBlock0 (t i : ℕ) (ht : t ≠ 0) :
    tableEntry (withBlock0 fs content) t i = tableEntry fs t i := by
  have hblock : ext2BlockSize fs ≤ t * ext2BlockSize fs :=
    Nat.le_mul_of_pos_left _ (Nat.pos_of_ne_zero ht)
  refine le32_congr fun j _ => ?_
  refine write_of_ge _ _ _ _ ?_
  change _ ≤ fs.devDesc.off * 512 + (t * ext2BlockSize fs + 4 * i + j)
  omega

theorem tableEntry_block0 (i : ℕ) (hi : i < perblock fs) :
    tableEntry (withBlock0 fs content) 0 i = le32 content (4 * i) := by
  have hper := ext2BlockSize_perblock fs
  refine le32_congr fun j hj => ?_
  change write fs.devDesc.disk.image (fs.devDesc.off * 512) (ext2BlockSize fs) content
    (fs.devDesc.off * 512 + (0 * ext2BlockSize fs + 4 * i + j)) = content (4 * i + j)
  rw [write_at _ _ _ _ (by omega)]
  exact congrArg content (by omega)

end Content

/-- A block of words that are all v. -/
def wordsOf (v : ℕ) : Bytes := fun j => byteLe v (j % 4)

theorem le32_wordsOf (v i : ℕ) (hv : v < 2 ^ 32) : le32 (wordsOf v) (4 * i) = v := by
  refine le32_byteLe hv fun j hj => ?_
  unfold wordsOf
  rw [show (4 * i + j) % 4 = j by omega]

section Walks
variable (fs : ExtFilesystem) (hlength : fs.devDesc.length < 2 ^ 32)

include hlength in
theorem hole_table_narrow (t : ℕ)
    (ht : (t + 1) * ext2BlockSize fs ≤ fs.devDesc.length * 512) :
    t * blockSectors fs < 2 ^ 32 := by
  have htwo := two_le_blockSectors fs
  rw [ext2BlockSize_eq fs, Nat.add_mul, ← Nat.mul_assoc, Nat.mul_right_comm] at ht
  omega

include hlength in
/-- Without table pointers 0, block 0 plays no role. -/
theorem narrow_of_clean (content : Bytes) (t : ℕ) (is : List ℕ) (hhole : Hole fs t is)
    (hclean : ∀ u ∈ (pointers fs t is).dropLast, u ≠ 0) :
    Narrow (withBlock0 fs content) t is := by
  induction is generalizing t with
  | nil => trivial
  | cons i is ih =>
    rw [dropLast_pointers] at hclean
    have hne := hclean t List.mem_cons_self
    obtain ⟨hinside, hrest⟩ := hhole.resolve_left hne
    refine ⟨hole_table_narrow fs hlength t hinside, fun _ => ?_⟩
    rw [tableEntry_withBlock0 fs content t i hne]
    exact ih _ hrest fun u hu => hclean u (List.mem_cons_of_mem _ hu)

theorem walkResult_of_clean (content : Bytes) (failed : ℤ) (t : ℕ) (is : List ℕ)
    (hhole : Hole fs t is)
    (hclean : ∀ u ∈ (pointers fs t is).dropLast, u ≠ 0 ∧ (failed = 0 ∨ TableReadable fs u)) :
    walkResult (withBlock0 fs content) failed t is = 0 := by
  induction is generalizing t with
  | nil =>
    obtain rfl : t = 0 := hhole
    exact int32_zero
  | cons i is ih =>
    rw [dropLast_pointers] at hclean
    obtain ⟨hne, hread⟩ := hclean t List.mem_cons_self
    obtain ⟨-, hrest⟩ := hhole.resolve_left hne
    unfold walkResult
    by_cases htable : TableReadable (withBlock0 fs content) t
    · rw [if_pos htable, tableEntry_withBlock0 fs content t i hne]
      exact ih _ hrest fun u hu => hclean u (List.mem_cons_of_mem _ hu)
    · rw [if_neg htable]
      exact hread.resolve_right htable

/-- A pointer whose table would start at sector 2 ^ 31. -/
def farPointer : ℕ := 2 ^ 31 / blockSectors fs

variable (hlog : fs.sblock.log2BlockSize ≤ 6)

include hlog in
theorem farPointer_sector : farPointer fs * blockSectors fs = 2 ^ 31 := by
  refine Nat.div_mul_cancel (Nat.pow_dvd_pow 2 ?_)
  unfold log2Ext2BlockSize
  omega

include hlog in
theorem farPointer_bounds : 0 < farPointer fs ∧ farPointer fs < 2 ^ 31 := by
  have hsector := farPointer_sector fs hlog
  have htwo := two_le_blockSectors fs
  constructor
  · rcases Nat.eq_zero_or_pos (farPointer fs) with hzero | hpos
    · rw [hzero] at hsector
      omega
    · exact hpos
  · exact Nat.div_lt_self (by decide) htwo

include hlog in
theorem farPointer_unreadable (content : Bytes) :
    ¬ TableReadable (withBlock0 fs content) (farPointer fs) := by
  intro h
  have hsector := farPointer_sector fs hlog
  have hpos := Nat.two_pow_pos (fs.sblock.log2BlockSize + 10)
  have hlimit := h.2.2
  change ((farPointer fs * blockSectors fs : ℕ) : ℤ) * 512 + (0 : ℕ) +
    (2 ^ (fs.sblock.log2BlockSize + 10) : ℕ) ≤ 2 ^ 31 * 512 at hlimit
  omega

include hlog in
theorem far_entry (i : ℕ) (hi : i < perblock fs) :
    tableEntry (withBlock0 fs (wordsOf (farPointer fs))) 0 i = farPointer fs := by
  have hbounds := farPointer_bounds fs hlog
  rw [tableEntry_block0 fs _ i hi, le32_wordsOf _ _ (by omega)]

include hlength hlog in
/-- With such words in block 0 the walk ends behind it. -/
theorem narrow_of_far (t : ℕ) (is : List ℕ) (hhole : Hole fs t is)
    (his : ∀ i ∈ is, i < perblock fs) :
    Narrow (withBlock0 fs (wordsOf (farPointer fs))) t is := by
  induction is generalizing t with
  | nil => trivial
  | cons i is ih =>
    by_cases hzero : t = 0
    · subst hzero
      refine ⟨by omega, fun _ => ?_⟩
      rw [far_entry fs hlog i (his i List.mem_cons_self)]
      cases is with
      | nil => trivial
      | cons j js =>
        refine ⟨?_, fun hread => absurd hread (farPointer_unreadable fs hlog _)⟩
        change farPointer fs * blockSectors fs < 2 ^ 32
        rw [farPointer_sector fs hlog]
        decide
    · obtain ⟨hinside, hrest⟩ := hhole.resolve_left hzero
      refine ⟨hole_table_narrow fs hlength t hinside, fun _ => ?_⟩
      rw [tableEntry_withBlock0 fs _ t i hzero]
      exact ih _ hrest fun j hj => his j (List.mem_cons_of_mem _ hj)

include hlog in
/-- A table pointer 0 then leads to another pointer or to an error, and so does a
table that cannot be read. -/
theorem walkResult_of_bad (hzero : TableReadable fs 0) (failed : ℤ) (t : ℕ) (is : List ℕ)
    (hhole : Hole fs t is) (his : ∀ i ∈ is, i < perblock fs)
    (hfailed : failed = -1 ∨ is.length ≤ 1)
    (hbad : ∃ u ∈ (pointers fs t is).dropLast,
      u = 0 ∨ (failed = -1 ∧ ¬ TableReadable fs u)) :
    walkResult (withBlock0 fs (wordsOf (farPointer fs))) failed t is ≠ 0 := by
  have hbounds := farPointer_bounds fs hlog
  induction is generalizing t with
  | nil =>
    obtain ⟨u, hu, -⟩ := hbad
    exact absurd hu List.not_mem_nil
  | cons i is ih =>
    by_cases hnull : t = 0
    · subst hnull
      have hread : TableReadable (withBlock0 fs (wordsOf (farPointer fs))) 0 := hzero
      unfold walkResult
      rw [if_pos hread, far_entry fs hlog i (his i List.mem_cons_self)]
      cases is with
      | nil =>
        change int32 (farPointer fs) ≠ 0
        rw [int32_of_nat _ (by omega) (by omega)]
        omega
      | cons j js =>
        unfold walkResult
        rw [if_neg (farPointer_unreadable fs hlog _)]
        simp only [List.length_cons] at hfailed
        omega
    · obtain ⟨-, hrest⟩ := hhole.resolve_left hnull
      rw [dropLast_pointers] at hbad
      obtain ⟨u, hu, hcase⟩ := hbad
      unfold walkResult
      by_cases htable : TableReadable (withBlock0 fs (wordsOf (farPointer fs))) t
      · rw [if_pos htable, tableEntry_withBlock0 fs _ t i hnull]
        refine ih _ hrest (fun j hj => his j (List.mem_cons_of_mem _ hj))
          (hfailed.imp_right fun h => by simp only [List.length_cons] at h; omega) ?_
        rcases List.mem_cons.mp hu with heq | hmem
        · subst heq
          rcases hcase with h | h
          · exact absurd h hnull
          · exact absurd htable h.2
        · exact ⟨u, hmem, hcase⟩
      · rw [if_neg htable]
        rcases hfailed with h | h
        · omega
        · have hnil : is = [] := List.eq_nil_of_length_eq_zero (by
            simp only [List.length_cons] at h
            omega)
          subst hnil
          obtain rfl := List.mem_singleton.mp hu
          have hminus := (hcase.resolve_left hnull).1
          omega

end Walks

/-- A node whose third cache holds block 0 and whose second cache, still empty,
lies in front of zeros. -/
def strayNode (fs : ExtFilesystem) (inode : Ext2Inode) : Ext2fsNode :=
  ⟨inode, ⟨none, 0, 0⟩, ⟨some fun _ => 0, ext2BlockSize fs, -1⟩,
    ⟨some (wordsOf (farPointer fs)), ext2BlockSize fs, 0⟩, 0, true⟩

theorem strayNode_valid (fs : ExtFilesystem) (hzero : TableReadable fs 0) (inode : Ext2Inode) :
    NodeValid (withBlock0 fs (wordsOf (farPointer fs))) (strayNode fs inode) := by
  constructor
  · intro hsome
    simp [strayNode] at hsome
  · intro _ _
    exact Or.inl rfl
  · intro _ _
    refine Or.inr ⟨?_, fun j hj => ?_⟩
    · unfold TableReadable at hzero
      rw [Nat.zero_mul] at hzero
      exact hzero
    · change wordsOf (farPointer fs) j = write fs.devDesc.disk.image (fs.devDesc.off * 512)
        (ext2BlockSize fs) (wordsOf (farPointer fs)) (fs.devDesc.off * 512 + (0 * 512 + j))
      rw [Nat.zero_mul, Nat.zero_add]
      exact (write_at _ _ _ _ hj).symm

section NoErrors
variable (fs : ExtFilesystem) (hgood : fs.devDesc.disk.NoErrors)
  (hpart : fs.devDesc.off + fs.devDesc.length < 2 ^ 63)
  (hlog : fs.sblock.log2BlockSize ≤ 6) (hlength : fs.devDesc.length < 2 ^ 32)
  (hblock : ext2BlockSize fs ≤ fs.devDesc.length * 512) (fuel : ℕ) (inode : Ext2Inode)
  (hflags : inode.extents = false) (f : ℕ)
  (hf : f < 12 + perblock fs + perblock fs * perblock fs +
    perblock fs * perblock fs * perblock fs)
  (hhole : Hole fs (slotPointer fs inode f) (indices fs f))
include hgood hpart hlog hlength hflags hf hhole

theorem alwaysHole_of_endsInHole (hends : EndsInHole fs inode f) :
    AlwaysHole fs fuel inode f := by
  intro content node hinode hvalid log
  subst hinode
  obtain ⟨hclean, hindex⟩ := hends
  have hnarrow : Narrow (withBlock0 fs content) (slotPointer fs node.inode f) (indices fs f) :=
    narrow_of_clean fs hlength content _ _ hhole fun u hu => (hclean u hu).1
  have hsafe : LookupSafe (withBlock0 fs content) node f := fun htriple =>
    Or.inl (hindex htriple)
  refine (readAllocatedBlock1_walk (withBlock0 fs content) hgood hpart hlog fuel node hvalid
    hflags f hf hnarrow hsafe log).mono ?_
  intro r log' hr
  rw [hr.1]
  refine walkResult_of_clean fs content _ _ _ hhole fun u hu => ⟨(hclean u hu).1, ?_⟩
  rcases (hclean u hu).2 with hslot | hread
  · exact Or.inl (if_pos hslot)
  · exact Or.inr hread

include hblock in
theorem endsInHole_of_alwaysHole (halways : AlwaysHole fs fuel inode f) :
    EndsInHole fs inode f := by
  have hzero : TableReadable fs 0 := by
    have hsize := ext2BlockSize_eq fs
    have hmax := blockSectors_le fs hlog
    unfold TableReadable Readable
    omega
  have hclean : ∀ t ∈ (pointers fs (slotPointer fs inode f) (indices fs f)).dropLast,
      t ≠ 0 ∧ ((path (perblock fs) f).1 = 12 ∨ TableReadable fs t) := by
    intro t ht
    by_contra hbad
    have hnarrow := narrow_of_far fs hlength hlog _ _ hhole (indices_lt fs f hf)
    have hwalk := readAllocatedBlock1_walk (withBlock0 fs (wordsOf (farPointer fs))) hgood hpart
      hlog fuel (freshNode inode) (freshNode_fresh inode).valid hflags f hf hnarrow
      ((freshNode_fresh inode).lookupSafe f) []
    have hboth := (halways (wordsOf (farPointer fs)) (freshNode inode) rfl
      (freshNode_fresh inode).valid []).and hwalk
    obtain ⟨r, log', -, hr, hmapped, -⟩ := hboth
    refine walkResult_of_bad fs hlog hzero _ _ _ hhole (indices_lt fs f hf) ?_ ⟨t, ht, ?_⟩
      (hmapped.symm.trans hr)
    · by_cases hslot : (path (perblock fs) f).1 = 12
      · exact Or.inr (path_single_length _ f hslot)
      · exact Or.inl (if_neg hslot)
    · by_cases hnull : t = 0
      · exact Or.inl hnull
      · right
        have hslot : (path (perblock fs) f).1 ≠ 12 := fun h => hbad ⟨hnull, Or.inl h⟩
        exact ⟨if_neg hslot, fun h => hbad ⟨hnull, Or.inr h⟩⟩
  refine ⟨hclean, fun htriple => ?_⟩
  by_contra hout
  -- at the third level with an index past the second table: the stray word is 0
  have hslot : slotPointer fs inode f = inode.tripleIndirBlock := by
    unfold slotPointer
    rw [path_triple _ _ htriple]
    rfl
  have hnarrow := narrow_of_clean fs hlength (wordsOf (farPointer fs)) _ _ hhole
    fun u hu => (hclean u hu).1
  unfold indices at hclean hnarrow
  rw [hslot, path_triple _ _ htriple] at hnarrow
  rw [hslot, path_triple _ _ htriple, dropLast_pointers, dropLast_pointers] at hclean
  obtain ⟨hne, hread⟩ := hclean _ List.mem_cons_self
  obtain ⟨-, hread'⟩ := hclean _ (List.mem_cons_of_mem _ List.mem_cons_self)
  have htable := hread.resolve_left (by simp)
  have htable' : TableReadable (withBlock0 fs (wordsOf (farPointer fs)))
      (tableEntry (withBlock0 fs (wordsOf (farPointer fs))) inode.tripleIndirBlock
        ((f - (12 + perblock fs + perblock fs * perblock fs)) /
          (perblock fs * perblock fs))) := by
    rw [tableEntry_withBlock0 fs _ _ _ hne]
    exact hread'.resolve_left (by simp)
  have hsecond : allocCache (withBlock0 fs (wordsOf (farPointer fs))) (strayNode fs inode).indir2 =
      (strayNode fs inode).indir2 := allocCache_same (withBlock0 fs _) _ _
  have hthird : allocCache (withBlock0 fs (wordsOf (farPointer fs))) (strayNode fs inode).indir3 =
      (strayNode fs inode).indir3 := allocCache_same (withBlock0 fs _) _ _
  have hword : IndirCache.entry (strayNode fs inode).indir2
      ((f - (12 + perblock fs + perblock fs * perblock fs)) / perblock fs) = 0 := rfl
  have hstray := readTripleIndirect_stray (withBlock0 fs (wordsOf (farPointer fs))) hgood hpart hlog
    (strayNode fs inode) (strayNode_valid fs hzero inode) f
    (f - (12 + perblock fs + perblock fs * perblock fs)) rfl (Nat.sub_lt_left_of_lt_add htriple hf)
    ⟨hnarrow.1, fun h => ⟨(hnarrow.2 h).1, fun _ => trivial⟩⟩ htable htable'
    (Nat.le_of_not_lt hout) (by
      rw [hsecond, hthird]
      change uint32 (IndirCache.entry (strayNode fs inode).indir2
        ((f - (12 + perblock fs + perblock fs * perblock fs)) / perblock fs) *
          blockSectors fs : ℕ) = uint32 0
      rw [hword, Nat.zero_mul]
      rfl) []
  have hboth := (halways (wordsOf (farPointer fs)) (strayNode fs inode) rfl
    (strayNode_valid fs hzero inode) []).and
    (readAllocatedBlock1_triple (withBlock0 fs (wordsOf (farPointer fs))) hlog fuel
      (strayNode fs inode) hflags f htriple [] hstray)
  obtain ⟨r, log', -, hr, hentry⟩ := hboth
  have hbounds := farPointer_bounds fs hlog
  have hfar : IndirCache.entry (strayNode fs inode).indir3
      ((f - (12 + perblock fs + perblock fs * perblock fs)) % perblock fs) = farPointer fs :=
    le32_wordsOf _ _ (by omega)
  rw [hr, hthird] at hentry
  change 0 = int32 (IndirCache.entry (strayNode fs inode).indir3
    ((f - (12 + perblock fs + perblock fs * perblock fs)) % perblock fs)) at hentry
  rw [hfar, int32_of_nat _ (by omega) (by omega)] at hentry
  omega

end NoErrors

/-- The exact conditions under which an unallocated block is answered by 0: for
indirect tables, over all contents of block 0 and all valid caches, and for a
leaf in the inode. -/
theorem unallocated_zero_iff (fuel : ℕ) :
    (∀ fs : ExtFilesystem, fs.devDesc.disk.NoErrors →
      fs.devDesc.off + fs.devDesc.length < 2 ^ 63 → fs.sblock.log2BlockSize ≤ 6 →
      fs.devDesc.length < 2 ^ 32 → ext2BlockSize fs ≤ fs.devDesc.length * 512 →
      ∀ inode : Ext2Inode, inode.extents = false →
      ∀ f : ℕ, f < 12 + perblock fs + perblock fs * perblock fs +
        perblock fs * perblock fs * perblock fs →
      Hole fs (slotPointer fs inode f) (indices fs f) →
      (AlwaysHole fs fuel inode f ↔ EndsInHole fs inode f)) ∧
    (∀ fs : ExtFilesystem, fs.sblock.log2BlockSize ≤ 20 →
      ∀ node : Ext2fsNode, node.inode.extents = true → Leaf 60 node.inode.b →
      ∀ f : ℕ, f < 2 ^ 31 →
      (∀ i, i < ehEntries node.inode.b → ¬ Covers (extentAt node.inode.b i) f) → ∀ log,
      (Yields (readAllocatedBlock1 fs (fuel + 1) node f) log (fun r _ => r.1 = 0) ↔
        ∃ i < ehEntries node.inode.b, (extentAt node.inode.b i).block ≤ f)) := by
  constructor
  · intro fs hgood hpart hlog hlength hblock inode hflags f hf hhole
    constructor
    · exact endsInHole_of_alwaysHole fs hgood hpart hlog hlength hblock fuel inode hflags f hf
        hhole
    · exact alwaysHole_of_endsInHole fs hgood hpart hlog hlength fuel inode hflags f hf hhole
  · intro fs hlog node hflags hleaf f hf hfree log
    have hrun := readAllocatedBlock1_leaf fs hlog node hflags fuel hleaf.magic hleaf.depth f log
    rw [findExtent_uncovered hleaf f hf hfree] at hrun
    constructor
    · intro hzero
      by_contra hnone
      obtain ⟨r, log', -, hr, heq, -⟩ := hzero.and hrun
      rw [if_neg hnone, hr] at heq
      omega
    · intro hsome
      refine hrun.mono ?_
      intro r log' hr
      rw [hr.1, if_pos hsome]

/-- A small file system: block 0 starts with the word 5, all else is 0. -/
def sparseFs : ExtFilesystem where
  blksz := 0
  inodesz := 128
  devDesc := ⟨DiskDescr.ofImage fun b => if b = 0 then 5 else 0, 0, 16⟩
  sblock := ⟨fun _ => 0⟩
  past := fun _ => 0

/-- No block is allocated, and there is no indirect table either. -/
def emptyInode : Ext2Inode := ⟨fun _ => 0⟩

/-- No block is allocated, but there is an indirect table in block 1. -/
def tableInode : Ext2Inode := ⟨fun b => if b = 88 then 1 else 0⟩

/-- One extent: blocks 5 and 6. -/
def extentInode : Ext2Inode := ⟨fun b =>
  match b with
  | 34 => 8
  | 40 => 0x0a
  | 41 => 0xf3
  | 42 => 1
  | 52 => 5
  | 56 => 2
  | 60 => 9
  | _ => 0⟩

theorem extentInode_leaf : Leaf 60 extentInode.b where
  magic := by decide +kernel
  depth := by decide +kernel
  fits := by decide +kernel
  ordered := by
    intro i j hij hj
    have hone : ehEntries extentInode.b = 1 := by decide +kernel
    omega

theorem sparse_holes :
    Hole sparseFs (slotPointer sparseFs emptyInode 12) (indices sparseFs 12) ∧
    Hole sparseFs (slotPointer sparseFs tableInode 12) (indices sparseFs 12) := by
  have hindices : indices sparseFs 12 = [0] := by decide +kernel
  have hempty : slotPointer sparseFs emptyInode 12 = 0 := by decide +kernel
  have htable : slotPointer sparseFs tableInode 12 = 1 := by decide +kernel
  rw [hindices, hempty, htable]
  refine ⟨Or.inl rfl, Or.inr ⟨by decide +kernel, ?_⟩⟩
  change tableEntry sparseFs 1 0 = 0
  decide +kernel

theorem unallocated_zero_iff_sparse :
    AlwaysHole sparseFs 0 tableInode 12 ∧ ¬ AlwaysHole sparseFs 0 emptyInode 12 ∧
    Yields (readAllocatedBlock1 sparseFs 1 (freshNode extentInode) 8) []
      (fun r _ => r.1 = 0) ∧
    ¬ Yields (readAllocatedBlock1 sparseFs 1 (freshNode extentInode) 2) []
      (fun r _ => r.1 = 0) := by
  obtain ⟨htables, hleaves⟩ := unallocated_zero_iff 0
  have hiff := fun inode hflags hhole => htables sparseFs (noErrors_ofImage _) (by decide)
    (by decide) (by decide) (by decide) inode hflags 12 (by decide) hhole
  have hentry : ∀ i, i < ehEntries (freshNode extentInode).inode.b →
      extentAt (freshNode extentInode).inode.b i = ⟨5, 2, 9⟩ := by
    intro i hi
    have hone : ehEntries (freshNode extentInode).inode.b = 1 := by decide +kernel
    obtain rfl : i = 0 := by omega
    decide +kernel
  have hleaf := fun f hf hfree => hleaves sparseFs (by decide) (freshNode extentInode)
    (by decide +kernel) extentInode_leaf f hf hfree []
  refine ⟨(hiff tableInode (by decide +kernel) sparse_holes.2).mpr ?_,
    fun h => ?_, (hleaf 8 (by decide) ?_).mpr ?_, fun h => ?_⟩
  · exact ⟨by decide +kernel, by decide +kernel⟩
  · have hends := (hiff emptyInode (by decide +kernel) sparse_holes.1).mp h
    exact absurd hends.1 (by decide +kernel)
  · intro i hi
    rw [hentry i hi]
    decide
  · refine ⟨0, by decide +kernel, ?_⟩
    rw [hentry 0 (by decide +kernel)]
    decide
  · obtain ⟨i, hi, hle⟩ := (hleaf 2 (by decide) (fun i hi => by rw [hentry i hi]; decide)).mp h
    rw [hentry i hi] at hle
    exact absurd hle (by decide)

/-- Block 12 of an inode without pointers reads the word 5 of block 0, and block 2
of an inode whose first extent starts at block 5 is an error. -/
theorem unallocated_not_zero :
    (Hole sparseFs (slotPointer sparseFs emptyInode 12) (indices sparseFs 12) ∧
      Yields (readAllocatedBlock1 sparseFs 0 (freshNode emptyInode) 12) []
        (fun r _ => r.1 = 5)) ∧
    (Leaf 60 extentInode.b ∧
      (∀ i, i < ehEntries extentInode.b → ¬ Covers (extentAt extentInode.b i) 2) ∧
      Yields (readAllocatedBlock1 sparseFs 1 (freshNode extentInode) 2) []
        (fun r _ => r.1 = -1)) := by
  have hentry : ∀ i, i < ehEntries extentInode.b → ¬ Covers (extentAt extentInode.b i) 2 := by
    intro i hi
    have hone : ehEntries extentInode.b = 1 := by decide +kernel
    obtain rfl : i = 0 := by omega
    decide +kernel
  refine ⟨⟨sparse_holes.1, ?_⟩, extentInode_leaf, hentry, ?_⟩
  · refine (readAllocatedBlock1_walk sparseFs (noErrors_ofImage _) (by decide) (by decide) 0
      (freshNode emptyInode) (freshNode_fresh _).valid (by decide +kernel) 12 (by decide)
      ?_ ((freshNode_fresh _).lookupSafe 12) []).mono ?_
    · have hindices : indices sparseFs 12 = [0] := by decide +kernel
      rw [hindices]
      exact ⟨by decide +kernel, fun _ => trivial⟩
    · intro r log' hr
      rw [hr.1]
      decide +kernel
  · refine (readAllocatedBlock1_leaf sparseFs (by decide) (freshNode extentInode)
      (by decide +kernel) 0 extentInode_leaf.magic extentInode_leaf.depth 2 []).mono ?_
    intro r log' hr
    rw [hr.1]
    decide +kernel

end Eokan.Holes
