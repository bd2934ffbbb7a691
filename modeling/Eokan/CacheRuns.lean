import Eokan.IndirectCache

/-!
Sequences of lookups on one node. Between two lookups the memory behind the
cached tables may change in any way. The caches stay valid in every run, and
each lookup answers as the walk does, as long as no test of the third cache at
an index past the end of the second table happens to hit a wrong table.
-/
namespace Eokan.CacheRuns

open ByteMem CInt Programs Device Devread Layout BlockMap IndirectWalk IndirectCache

/-- File block f has non-zero pointers to readable blocks all along its path. -/
def Mapped (fs : ExtFilesystem) (inode : Ext2Inode) (f : ℕ) : Prop :=
  (f < 2 ^ 31 ∧ f < 12 + perblock fs + perblock fs * perblock fs +
    perblock fs * perblock fs * perblock fs) ∧
  ∀ t ∈ pointers fs (slotPointer fs inode f) (indices fs f), t ≠ 0 ∧ TableReadable fs t

instance (fs : ExtFilesystem) (inode : Ext2Inode) (f : ℕ) : Decidable (Mapped fs inode f) := by
  unfold Mapped
  infer_instance

/-- The pointer that the tables of the image give for file block f. -/
def imagePointer (fs : ExtFilesystem) (inode : Ext2Inode) (f : ℕ) : ℕ :=
  walk fs (slotPointer fs inode f) (indices fs f)

structure SameTable (fs : ExtFilesystem) (cache cache' : IndirCache) : Prop where
  allocated : cache'.block.isSome = cache.block.isSome
  size : cache'.size = cache.size
  blkno : cache'.blkno = cache.blkno
  bytes : ∀ j, j < ext2BlockSize fs → IndirCache.mem cache' j = IndirCache.mem cache j

/-- Two nodes that differ only in memory past the tables of their caches. -/
structure SameTables (fs : ExtFilesystem) (node node' : Ext2fsNode) : Prop where
  inode : node'.inode = node.inode
  indir1 : SameTable fs node.indir1 node'.indir1
  indir2 : SameTable fs node.indir2 node'.indir2
  indir3 : SameTable fs node.indir3 node'.indir3

/-- The nodes that runs of lookups reach, in any order of file blocks. -/
inductive Reached (fs : ExtFilesystem) (fuel : ℕ) (inode : Ext2Inode) : Ext2fsNode → Prop
  | start (node : Ext2fsNode) (hinode : node.inode = inode) (hfresh : Fresh node) :
      Reached fs fuel inode node
  | lookup (node node' : Ext2fsNode) (f : ℕ) (r : ℤ) (log log' : Log)
      (hnode : Reached fs fuel inode node) (hmapped : Mapped fs inode f)
      (hsafe : LookupSafe fs node f)
      (hrun : readAllocatedBlock1 fs fuel node f log = .ok ((r, node'), log')) :
      Reached fs fuel inode node'
  | memory (node node' : Ext2fsNode) (hnode : Reached fs fuel inode node)
      (hsame : SameTables fs node node') : Reached fs fuel inode node'

theorem SameTable.valid {fs : ExtFilesystem} {cache cache' : IndirCache}
    (hsame : SameTable fs cache cache') (h : CacheValid fs cache) : CacheValid fs cache' := by
  intro hsome hsize
  rw [hsame.allocated] at hsome
  rw [hsame.size] at hsize
  unfold Holds
  rw [hsame.blkno]
  rcases h hsome hsize with hempty | ⟨hread, hbytes⟩
  · exact Or.inl hempty
  · refine Or.inr ⟨hread, fun j hj => ?_⟩
    rw [hsame.bytes j hj]
    exact hbytes j hj

/-- The tables on the path of a mapped block have sectors of 31 bits. -/
theorem narrow_of_readable (fs : ExtFilesystem) (t : ℕ) (is : List ℕ)
    (h : ∀ u ∈ pointers fs t is, TableReadable fs u) : Narrow fs t is := by
  induction is generalizing t with
  | nil => trivial
  | cons i is ih =>
    unfold pointers at h
    have hhead := h t List.mem_cons_self
    refine ⟨?_, fun _ => ih _ fun u hu => h u (List.mem_cons_of_mem _ hu)⟩
    have hlimit := hhead.2.2
    omega

theorem walk_mem_pointers (fs : ExtFilesystem) (t : ℕ) (is : List ℕ) :
    walk fs t is ∈ pointers fs t is := by
  induction is generalizing t with
  | nil => exact List.mem_singleton.mpr rfl
  | cons i is ih => exact List.mem_cons_of_mem _ (ih _)

/-- For a mapped block the walk of the code meets no obstacle. -/
theorem mappedBlock_eq (fs : ExtFilesystem) (inode : Ext2Inode) (f : ℕ)
    (h : Mapped fs inode f) : mappedBlock fs inode f = imagePointer fs inode f := by
  have hread := fun t ht => (h.2 t ht).2
  have hlast := (hread _ (walk_mem_pointers fs (slotPointer fs inode f) (indices fs f))).2.2
  have htwo := two_le_blockSectors fs
  have hsize := ext2BlockSize_eq fs
  have hle : imagePointer fs inode f ≤ imagePointer fs inode f * blockSectors fs :=
    Nat.le_mul_of_pos_right _ (by omega)
  unfold mappedBlock
  rw [walkResult_eq_walk _ _ _ _ fun u hu => hread u (List.dropLast_subset _ hu)]
  unfold imagePointer at hle ⊢
  exact int32_of_nat _ (by omega) (by omega)

section NoErrors
variable (fs : ExtFilesystem) (hgood : fs.devDesc.disk.NoErrors)
  (hpart : fs.devDesc.off + fs.devDesc.length < 2 ^ 63)
  (hlog : fs.sblock.log2BlockSize ≤ 6) (fuel : ℕ) (inode : Ext2Inode)
  (hflags : inode.extents = false)
include hgood hpart hlog hflags

theorem lookup_mapped (node : Ext2fsNode) (hinode : node.inode = inode)
    (hvalid : NodeValid fs node) (f : ℕ) (hmapped : Mapped fs inode f)
    (hsafe : LookupSafe fs node f) (log : Log) :
    Yields (readAllocatedBlock1 fs fuel node f) log fun r _ =>
      r.1 = imagePointer fs inode f ∧ NodeValid fs r.2 ∧ r.2.inode = inode := by
  subst hinode
  rw [← mappedBlock_eq fs node.inode f hmapped]
  exact readAllocatedBlock1_walk fs hgood hpart hlog fuel node hvalid hflags f hmapped.1.2
    (narrow_of_readable fs _ _ fun t ht => (hmapped.2 t ht).2) hsafe log

/-- The invariant of the runs. -/
theorem reached_valid (node : Ext2fsNode) (h : Reached fs fuel inode node) :
    node.inode = inode ∧ NodeValid fs node := by
  induction h with
  | start node hinode hfresh => exact ⟨hinode, hfresh.valid⟩
  | lookup node node' f r log log' _ hmapped hsafe hrun ih =>
    obtain ⟨a, log'', hrun', -, hvalid, hinode⟩ := lookup_mapped fs hgood hpart hlog fuel inode
      hflags node ih.1 ih.2 f hmapped hsafe log
    rw [hrun] at hrun'
    cases hrun'
    exact ⟨hinode, hvalid⟩
  | memory node node' _ hsame ih =>
    exact ⟨hsame.inode.trans ih.1, hsame.indir1.valid ih.2.indir1,
      hsame.indir2.valid ih.2.indir2, hsame.indir3.valid ih.2.indir3⟩

/-- After any run, a lookup answers the pointer of the image, and the run goes on. -/
theorem reached_lookup_eq_walk (node : Ext2fsNode) (hreached : Reached fs fuel inode node)
    (f : ℕ) (hmapped : Mapped fs inode f) (hsafe : LookupSafe fs node f) (log : Log) :
    Yields (readAllocatedBlock1 fs fuel node f) log fun r _ =>
      r.1 = imagePointer fs inode f ∧ Reached fs fuel inode r.2 := by
  obtain ⟨hinode, hvalid⟩ := reached_valid fs hgood hpart hlog fuel inode hflags node hreached
  obtain ⟨⟨r, node'⟩, log', hrun, hr, -⟩ := lookup_mapped fs hgood hpart hlog fuel inode hflags
    node hinode hvalid f hmapped hsafe log
  exact ⟨_, log', hrun, hr, Reached.lookup node node' f r log log' hreached hmapped hsafe hrun⟩

end NoErrors

/-- Six blocks of 1024 bytes below a triple indirect pointer to block 1. -/
def tripleImage : Bytes := fun b =>
  match b with
  | 1024 => 2
  | 1028 => 3
  | 2048 => 4
  | 3072 => 5
  | 4096 => 6
  | 5120 => 7
  | _ => 0

/-- The word behind a fresh table is 4. -/
def tripleFs : ExtFilesystem where
  blksz := 0
  inodesz := 128
  devDesc := ⟨DiskDescr.ofImage tripleImage, 0, 16⟩
  sblock := ⟨fun _ => 0⟩
  past := fun b => if b = 1024 then 4 else 0

def tripleInode : Ext2Inode := ⟨fun b => if b = 96 then 1 else 0⟩

theorem tripleFs_mapped :
    Mapped tripleFs tripleInode 65804 ∧ Mapped tripleFs tripleInode 131340 ∧
      imagePointer tripleFs tripleInode 65804 = 6 ∧
      imagePointer tripleFs tripleInode 131340 = 7 := by
  decide +kernel

theorem reached_lookup_eq_walk_first :
    Yields (readAllocatedBlock1 tripleFs 0 (freshNode tripleInode) 65804) [] fun r _ =>
      r.1 = 6 := by
  refine (reached_lookup_eq_walk tripleFs (noErrors_ofImage _) (by decide) (by decide) 0
    tripleInode (by decide) (freshNode tripleInode)
    (Reached.start _ rfl (freshNode_fresh _)) 65804 tripleFs_mapped.1 ?_ []).mono ?_
  · intro _
    exact Or.inl (by decide +kernel)
  · intro r log' h
    rw [h.1, tripleFs_mapped.2.2.1]
    rfl

/-- The answer to the second of two lookups. -/
def secondLookup (fs : ExtFilesystem) (node : Ext2fsNode) (f f' : ℕ) : Option ℤ :=
  match readAllocatedBlock1 fs 0 node f [] with
  | .ok ((_, node'), log) =>
    match readAllocatedBlock1 fs 0 node' f' log with
    | .ok ((r, _), _) => some r
    | .error _ => none
  | .error _ => none

/-- After block 65804, block 131340 is looked up in the table of the former:
the word past the second table is tested, and it is the number of that table. -/
theorem second_lookup_wrong :
    ∃ node, Reached tripleFs 0 tripleInode node ∧ Mapped tripleFs tripleInode 131340 ∧
      ∃ log, Yields (readAllocatedBlock1 tripleFs 0 node 131340) log fun r _ =>
        r.1 = 6 ∧ imagePointer tripleFs tripleInode 131340 = 7 := by
  have hsecond : secondLookup tripleFs (freshNode tripleInode) 65804 131340 = some 6 := by
    decide +kernel
  unfold secondLookup at hsecond
  cases hrun : readAllocatedBlock1 tripleFs 0 (freshNode tripleInode) (65804 : ℕ) [] with
  | error e => simp only [hrun, reduceCtorEq] at hsecond
  | ok first =>
    obtain ⟨⟨r, node⟩, log⟩ := first
    simp only [hrun] at hsecond
    refine ⟨node, ?_, tripleFs_mapped.2.1, log, ?_⟩
    · refine Reached.lookup _ node 65804 r [] log (Reached.start _ rfl (freshNode_fresh _))
        tripleFs_mapped.1 ?_ hrun
      intro _
      exact Or.inl (by decide +kernel)
    · cases hrun' : readAllocatedBlock1 tripleFs 0 node (131340 : ℕ) log with
      | error e => simp only [hrun', reduceCtorEq] at hsecond
      | ok second =>
        simp only [hrun', Option.some.injEq] at hsecond
        exact ⟨_, _, hrun', hsecond, tripleFs_mapped.2.2.2⟩

end Eokan.CacheRuns
