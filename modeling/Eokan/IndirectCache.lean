import Eokan.DevreadOutcome
import Eokan.IndirectWalk

/-!
The lookup with its three table caches. A cache is keyed by the sector of its
table. It is valid as long as it holds the bytes of the sector that its key
names, whatever was looked up before, and a lookup on valid caches is the walk
over the tables of the partition.
-/
namespace Eokan.IndirectCache

open ByteMem CInt Programs Device Devread DevreadOutcome Layout BlockMap IndirectWalk

/-- What a cache says about the disk. The key -1 is that of an empty table. -/
def Holds (fs : ExtFilesystem) (cache : IndirCache) : Prop :=
  cache.blkno = -1 ∨
    (Readable fs.devDesc cache.blkno 0 (ext2BlockSize fs) ∧
      ∀ j, j < ext2BlockSize fs →
        IndirCache.mem cache j = fs.devDesc.bytes (cache.blkno.toNat * 512 + j))

/-- A cache between two lookups. -/
def CacheValid (fs : ExtFilesystem) (cache : IndirCache) : Prop :=
  cache.block.isSome → cache.size = ext2BlockSize fs → Holds fs cache

/-- A cache that can be refilled. -/
structure Ready (fs : ExtFilesystem) (cache : IndirCache) : Prop where
  allocated : cache.block.isSome
  size_eq : cache.size = ext2BlockSize fs
  holds : Holds fs cache

structure NodeValid (fs : ExtFilesystem) (node : Ext2fsNode) : Prop where
  indir1 : CacheValid fs node.indir1
  indir2 : CacheValid fs node.indir2
  indir3 : CacheValid fs node.indir3

/-- Where the third cache is tested at index i, past the end of the second
table if i is large, the test does no harm: it reads a table entry, or misses,
or hits the table that is asked for. -/
def TestSafe (fs : ExtFilesystem) (node : Ext2fsNode) (i load : ℕ) : Prop :=
  i < perblock fs ∨
    uint32 (IndirCache.entry (allocCache fs node.indir2) i * blockSectors fs : ℕ) ≠
      uint32 (allocCache fs node.indir3).blkno ∨
    (allocCache fs node.indir3).blkno = (load * blockSectors fs : ℕ)

/-- The lookup of file block f makes a safe test of the third cache, if any. -/
def LookupSafe (fs : ExtFilesystem) (node : Ext2fsNode) (f : ℕ) : Prop :=
  12 + perblock fs + perblock fs * perblock fs ≤ f →
    let r := f - (12 + perblock fs + perblock fs * perblock fs)
    TestSafe fs node (r / perblock fs) (walk fs node.inode.tripleIndirBlock
      [r / (perblock fs * perblock fs), r / perblock fs % perblock fs])

theorem Ready.valid {fs : ExtFilesystem} {cache : IndirCache} (h : Ready fs cache) :
    CacheValid fs cache := fun _ _ => h.holds

theorem allocCache_ready (fs : ExtFilesystem) (cache : IndirCache) (h : CacheValid fs cache) :
    Ready fs (allocCache fs cache) := by
  unfold allocCache
  by_cases hnone : cache.block.isNone = true
  · simp only [hnone, if_true, ne_eq, not_true_eq_false, if_false]
    exact ⟨rfl, rfl, Or.inl rfl⟩
  · have hsome : cache.block.isSome := by
      cases hblock : cache.block with
      | none => simp [hblock] at hnone
      | some block => rfl
    by_cases hsize : (ext2BlockSize fs : ℤ) = cache.size
    · simp only [hnone, hsize, Bool.false_eq_true, if_false, ne_eq, not_true_eq_false]
      exact ⟨hsome, hsize.symm, h hsome hsize.symm⟩
    · simp only [hnone, hsize, Bool.false_eq_true, if_false, ne_eq, not_false_eq_true, if_true]
      exact ⟨rfl, rfl, Or.inl rfl⟩

@[simp] theorem mem_some (block : Bytes) (size blkno : ℤ) :
    IndirCache.mem ⟨some block, size, blkno⟩ = block := rfl

/-- A table read whole from a readable sector. -/
theorem ready_of_bytes (fs : ExtFilesystem) (block : Bytes) (sector : ℤ)
    (hread : Readable fs.devDesc sector 0 (ext2BlockSize fs))
    (hbytes : ∀ j, j < ext2BlockSize fs →
      block j = fs.devDesc.bytes (sector.toNat * 512 + j)) :
    Ready fs ⟨some block, ext2BlockSize fs, sector⟩ := by
  refine ⟨Option.isSome_some, rfl, Or.inr ⟨hread, ?_⟩⟩
  intro j hj
  exact hbytes j hj

/-- A node as it is allocated: no table has been read. -/
structure Fresh (node : Ext2fsNode) : Prop where
  indir1 : node.indir1.block = none
  indir2 : node.indir2.block = none
  indir3 : node.indir3.block = none

/-- The node that is allocated for an inode. -/
def freshNode (inode : Ext2Inode) : Ext2fsNode :=
  ⟨inode, ⟨none, 0, 0⟩, ⟨none, 0, 0⟩, ⟨none, 0, 0⟩, 0, true⟩

theorem freshNode_fresh (inode : Ext2Inode) : Fresh (freshNode inode) := ⟨rfl, rfl, rfl⟩

theorem Fresh.valid {fs : ExtFilesystem} {node : Ext2fsNode} (h : Fresh node) :
    NodeValid fs node := by
  constructor
  · intro hsome
    simp [h.indir1] at hsome
  · intro hsome
    simp [h.indir2] at hsome
  · intro hsome
    simp [h.indir3] at hsome

theorem allocCache_same (fs : ExtFilesystem) (block : Bytes) (blkno : ℤ) :
    allocCache fs ⟨some block, ext2BlockSize fs, blkno⟩ =
      ⟨some block, ext2BlockSize fs, blkno⟩ := by
  unfold allocCache
  simp only [Option.isNone_some, Bool.false_eq_true, if_false, ne_eq, not_true_eq_false]

/-- A fresh third cache is never hit: its key is odd. -/
theorem Fresh.lookupSafe {fs : ExtFilesystem} {node : Ext2fsNode} (h : Fresh node) (f : ℕ) :
    LookupSafe fs node f := by
  intro _
  refine Or.inr (Or.inl ?_)
  have hkey : (allocCache fs node.indir3).blkno = -1 := by
    unfold allocCache
    simp only [h.indir3, Option.isNone_none, if_true, ne_eq, not_true_eq_false, if_false]
  have heven := even_blockSectors fs (IndirCache.entry (allocCache fs node.indir2)
    ((f - (12 + perblock fs + perblock fs * perblock fs)) / perblock fs))
  rw [hkey]
  unfold uint32
  omega

theorem refill_hit (fs : ExtFilesystem) (cache : IndirCache) (test load : ℕ)
    (hkey : uint32 (test * blockSectors fs : ℕ) = uint32 cache.blkno) (log : Log) :
    Yields (refill fs cache test load) log fun r _ => r = (true, cache) := by
  unfold refill
  rw [if_neg (not_not_intro hkey)]
  exact Yields.pure rfl

/-- A sector that does not fit an `int` is as unreadable as one outside. -/
theorem readable_int32_iff (fs : ExtFilesystem) (t : ℕ) (ht : t * blockSectors fs < 2 ^ 32) :
    Readable fs.devDesc (int32 (t * blockSectors fs : ℕ)) 0 (ext2BlockSize fs) ↔
      TableReadable fs t := by
  have hsize := ext2BlockSize_eq fs
  have htwo := two_le_blockSectors fs
  unfold TableReadable Readable int32
  omega

/-- The key of a cache that is hit is the sector of the table asked for. -/
theorem Ready.hit {fs : ExtFilesystem} {cache : IndirCache} (h : Ready fs cache) (t : ℕ)
    (ht : t * blockSectors fs < 2 ^ 32)
    (hkey : uint32 (t * blockSectors fs : ℕ) = uint32 cache.blkno) :
    TableReadable fs t ∧ cache.blkno = (t * blockSectors fs : ℕ) := by
  have heven := even_blockSectors fs t
  have htwo := two_le_blockSectors fs
  have hsize := ext2BlockSize_eq fs
  rcases h.holds with hempty | ⟨hread, -⟩
  · rw [hempty] at hkey
    unfold uint32 at hkey
    omega
  · have hblkno : cache.blkno = (t * blockSectors fs : ℕ) := by
      obtain ⟨hpos, -, hmax⟩ := hread
      unfold uint32 at hkey
      omega
    refine ⟨?_, hblkno⟩
    unfold TableReadable
    rw [← hblkno]
    exact hread

theorem Ready.entry_eq {fs : ExtFilesystem} {cache : IndirCache} (h : Ready fs cache) (t : ℕ)
    (hblkno : cache.blkno = (t * blockSectors fs : ℕ)) (i : ℕ) (hi : i < perblock fs) :
    IndirCache.entry cache i = tableEntry fs t i := by
  have hsize := ext2BlockSize_eq fs
  have hper := ext2BlockSize_perblock fs
  have hstart : t * ext2BlockSize fs = t * blockSectors fs * 512 := by
    rw [hsize, Nat.mul_comm 512, Nat.mul_assoc]
  rcases h.holds with hempty | ⟨-, hbytes⟩
  · omega
  · refine le32_congr fun j hj => ?_
    rw [hbytes _ (by omega), hblkno, hstart]
    exact congrArg fs.devDesc.bytes (by omega)

section NoErrors
variable (fs : ExtFilesystem) (hgood : fs.devDesc.disk.NoErrors)
  (hpart : fs.devDesc.off + fs.devDesc.length < 2 ^ 63)
  (hlog : fs.sblock.log2BlockSize ≤ 6)
include hgood hpart hlog

/-- A read fills the cache with its table, or leaves it as it was. -/
theorem refill_miss (cache : IndirCache) (hready : Ready fs cache) (test load : ℕ)
    (hkey : uint32 (test * blockSectors fs : ℕ) ≠ uint32 cache.blkno)
    (hload : load * blockSectors fs < 2 ^ 32) (log : Log) :
    Yields (refill fs cache test load) log fun r _ =>
      Ready fs r.2 ∧ Frame (IndirCache.mem cache) (IndirCache.mem r.2) 0 (ext2BlockSize fs) ∧
        ((TableReadable fs load ∧ r.1 = true ∧ r.2.blkno = (load * blockSectors fs : ℕ)) ∨
          (¬ TableReadable fs load ∧ r.1 = false)) := by
  have hsize := ext2BlockSize_eq fs
  have htwo := two_le_blockSectors fs
  have hmax := blockSectors_le fs hlog
  obtain ⟨block, hblock⟩ := Option.isSome_iff_exists.mp hready.allocated
  have hmem : IndirCache.mem cache = block := by
    unfold IndirCache.mem
    rw [hblock, Option.getD_some]
  unfold refill
  rw [if_pos hkey]
  refine Yields.bind (vfsDevread_spec fs.devDesc hgood hpart (int32 (load * blockSectors fs : ℕ)) 0
    (ext2BlockSize fs) (int32_bounds _).2 (by omega) (by omega) (IndirCache.mem cache) 0 log) ?_
  rintro ⟨status, block'⟩ log' (⟨hread, heq⟩ | ⟨hread, heq⟩)
  · obtain ⟨rfl, rfl⟩ := Prod.mk.inj heq
    have htable := (readable_int32_iff fs load hload).mp hread
    have hsector : int32 (load * blockSectors fs : ℕ) = (load * blockSectors fs : ℕ) := by
      have hle := htable.2.2
      exact int32_of_nat _ (by omega) (by omega)
    dsimp only
    rw [if_neg (by decide)]
    have hbytes : ∀ j, j < ext2BlockSize fs →
        write (IndirCache.mem cache) 0 (ext2BlockSize fs) (slice fs.devDesc.bytes
          ((int32 (load * blockSectors fs : ℕ)).toNat * 512 + 0)) j =
        fs.devDesc.bytes ((int32 (load * blockSectors fs : ℕ)).toNat * 512 + j) := by
      intro j hj
      rw [write_of_mem _ _ _ _ (Nat.zero_le j) (by omega)]
      exact congrArg fs.devDesc.bytes (by omega)
    rw [hready.size_eq]
    refine Yields.pure ⟨ready_of_bytes fs _ _ hread hbytes, ?_, Or.inl ⟨htable, rfl, hsector⟩⟩
    simp only [mem_some]
    exact frame_write _ _ _ _
  · obtain ⟨rfl, rfl⟩ := Prod.mk.inj heq
    dsimp only
    rw [if_pos rfl]
    have hsame : (⟨some (IndirCache.mem cache), cache.size, cache.blkno⟩ : IndirCache) = cache := by
      rw [hmem, ← hblock]
    rw [hsame]
    exact Yields.pure ⟨hready, frame_refl _ _ _,
      Or.inr ⟨mt (readable_int32_iff fs load hload).mpr hread, rfl⟩⟩

/-- One level of the walk: the cache ends up with the table in block `load`.
It is enough that the test asks for this table, misses, or hits this table. -/
theorem refill_spec (cache : IndirCache) (hready : Ready fs cache) (test load : ℕ)
    (hsafe : test = load ∨ uint32 (test * blockSectors fs : ℕ) ≠ uint32 cache.blkno ∨
      cache.blkno = (load * blockSectors fs : ℕ))
    (hload : load * blockSectors fs < 2 ^ 32) (log : Log) :
    Yields (refill fs cache test load) log fun r _ =>
      Ready fs r.2 ∧ Frame (IndirCache.mem cache) (IndirCache.mem r.2) 0 (ext2BlockSize fs) ∧
        ((TableReadable fs load ∧ r.1 = true ∧ r.2.blkno = (load * blockSectors fs : ℕ)) ∨
          (¬ TableReadable fs load ∧ r.1 = false)) := by
  by_cases hkey : uint32 (test * blockSectors fs : ℕ) = uint32 cache.blkno
  · have hhit : TableReadable fs load ∧ cache.blkno = (load * blockSectors fs : ℕ) := by
      rcases hsafe with heq | hmiss | hblkno
      · rw [heq] at hkey
        exact hready.hit load hload hkey
      · exact absurd hkey hmiss
      · exact hready.hit load hload (congrArg uint32 hblkno.symm)
    refine (refill_hit fs cache test load hkey log).mono ?_
    intro r log' hr
    rw [hr]
    exact ⟨hready, frame_refl _ _ _, Or.inl ⟨hhit.1, rfl, hhit.2⟩⟩
  · exact refill_miss fs hgood hpart hlog cache hready test load hkey hload log

/-- The two ways a lookup goes on after a level. -/
theorem refill_cases {α : Type} {next : Bool × IndirCache → DevM α} {post : α → Log → Prop}
    (cache : IndirCache) (hvalid : CacheValid fs cache) (test load : ℕ)
    (hsafe : test = load ∨
      uint32 (test * blockSectors fs : ℕ) ≠ uint32 (allocCache fs cache).blkno ∨
      (allocCache fs cache).blkno = (load * blockSectors fs : ℕ))
    (hload : load * blockSectors fs < 2 ^ 32) (log : Log)
    (hfilled : ∀ filled log', Ready fs filled →
      Frame (IndirCache.mem (allocCache fs cache)) (IndirCache.mem filled) 0 (ext2BlockSize fs) →
      TableReadable fs load → filled.blkno = (load * blockSectors fs : ℕ) →
      Yields (next (true, filled)) log' post)
    (hfailed : ∀ left log', Ready fs left → ¬ TableReadable fs load →
      Yields (next (false, left)) log' post) :
    Yields (refill fs (allocCache fs cache) test load >>= next) log post := by
  refine Yields.bind (refill_spec fs hgood hpart hlog _ (allocCache_ready fs _ hvalid) _ _ hsafe
    hload log) ?_
  rintro ⟨status, indir⟩ log' ⟨hready, hframe, ⟨hread, hstatus, hblkno⟩ | ⟨hread, hstatus⟩⟩
  · dsimp only at hready hframe hstatus hblkno
    rw [hstatus]
    exact hfilled indir log' hready hframe hread hblkno
  · dsimp only at hready hstatus
    rw [hstatus]
    exact hfailed indir log' hready hread

theorem readIndirect_spec (node : Ext2fsNode) (hnode : NodeValid fs node) (f : ℕ)
    (hf : f - 12 < perblock fs) (hnarrow : Narrow fs node.inode.indirBlock [f - 12])
    (log : Log) :
    Yields (readIndirect fs node f) log fun r _ =>
      r.1 = walkResult fs 0 node.inode.indirBlock [f - 12] ∧ NodeValid fs r.2 ∧
        r.2.inode = node.inode := by
  unfold readIndirect walkResult
  apply refill_cases fs hgood hpart hlog _ hnode.indir1 _ _ (Or.inl rfl) hnarrow.1
  · intro indir1 log' hready _ hread hblkno
    dsimp only
    rw [if_pos hread, hready.entry_eq _ hblkno _ hf]
    exact Yields.pure ⟨rfl, ⟨hready.valid, hnode.indir2, hnode.indir3⟩, rfl⟩
  · intro indir1 log' hready hread
    rw [if_neg hread]
    exact Yields.pure ⟨rfl, ⟨hready.valid, hnode.indir2, hnode.indir3⟩, rfl⟩

theorem readDoubleIndirect_spec (node : Ext2fsNode) (hnode : NodeValid fs node) (f r : ℕ)
    (hr : f - (12 + perblock fs) = r) (hlt : r < perblock fs * perblock fs)
    (hnarrow : Narrow fs node.inode.doubleIndirBlock [r / perblock fs, r % perblock fs])
    (log : Log) :
    Yields (readDoubleIndirect fs node f) log fun res _ =>
      res.1 = walkResult fs (-1) node.inode.doubleIndirBlock
        [r / perblock fs, r % perblock fs] ∧
      NodeValid fs res.2 ∧ res.2.inode = node.inode := by
  have hdiv : r / perblock fs < perblock fs := Nat.div_lt_of_lt_mul hlt
  have hmod : r % perblock fs < perblock fs := Nat.mod_lt _ (perblock_pos fs)
  have hper : ext2BlockSize fs / 4 = perblock fs := rfl
  unfold readDoubleIndirect walkResult
  simp only [hper, hr]
  apply refill_cases fs hgood hpart hlog _ hnode.indir1 _ _ (Or.inl rfl) hnarrow.1
  · intro indir1 log' hready _ hread hblkno
    dsimp only
    rw [if_pos hread, hready.entry_eq _ hblkno _ hdiv, walkResult]
    apply refill_cases fs hgood hpart hlog _ hnode.indir2 _ _ (Or.inl rfl) (hnarrow.2 hread).1
    · intro indir2 log'' hready' _ hread' hblkno'
      dsimp only
      rw [if_pos hread', hready'.entry_eq _ hblkno' _ hmod]
      exact Yields.pure ⟨rfl, ⟨hready.valid, hready'.valid, hnode.indir3⟩, rfl⟩
    · intro indir2 log'' hready' hread'
      rw [if_neg hread']
      exact Yields.pure ⟨rfl, ⟨hready.valid, hready'.valid, hnode.indir3⟩, rfl⟩
  · intro indir1 log' hready hread
    rw [if_neg hread]
    exact Yields.pure ⟨rfl, ⟨hready.valid, hnode.indir2, hnode.indir3⟩, rfl⟩

theorem readTripleIndirect_spec (node : Ext2fsNode) (hnode : NodeValid fs node) (f r : ℕ)
    (hr : f - (12 + perblock fs + perblock fs * perblock fs) = r)
    (hlt : r < perblock fs * perblock fs * perblock fs)
    (hnarrow : Narrow fs node.inode.tripleIndirBlock
      [r / (perblock fs * perblock fs), r / perblock fs % perblock fs, r % perblock fs])
    (hsafe : TestSafe fs node (r / perblock fs)
      (walk fs node.inode.tripleIndirBlock
        [r / (perblock fs * perblock fs), r / perblock fs % perblock fs]))
    (log : Log) :
    Yields (readTripleIndirect fs node f) log fun res _ =>
      res.1 = walkResult fs (-1) node.inode.tripleIndirBlock
        [r / (perblock fs * perblock fs), r / perblock fs % perblock fs, r % perblock fs] ∧
      NodeValid fs res.2 ∧ res.2.inode = node.inode := by
  have hdiv : r / (perblock fs * perblock fs) < perblock fs := Nat.div_lt_of_lt_mul hlt
  have hmid : r / perblock fs % perblock fs < perblock fs := Nat.mod_lt _ (perblock_pos fs)
  have hmod : r % perblock fs < perblock fs := Nat.mod_lt _ (perblock_pos fs)
  have hper : ext2BlockSize fs / 4 = perblock fs := rfl
  have hparent := perblockParent_eq fs (by omega)
  have hsquare : perblock fs * perblock fs ≠ 0 :=
    Nat.ne_of_gt (Nat.mul_pos (perblock_pos fs) (perblock_pos fs))
  unfold readTripleIndirect walkResult
  simp only [hper, tripleStart_eq fs hlog, hparent, hr, if_neg hsquare]
  apply refill_cases fs hgood hpart hlog _ hnode.indir1 _ _ (Or.inl rfl) hnarrow.1
  · intro indir1 log' hready _ hread hblkno
    dsimp only
    rw [if_pos hread, hready.entry_eq _ hblkno _ hdiv, walkResult]
    apply refill_cases fs hgood hpart hlog _ hnode.indir2 _ _ (Or.inl rfl) (hnarrow.2 hread).1
    · intro indir2 log'' hready' hframe hread' hblkno'
      dsimp only
      rw [if_pos hread', hready'.entry_eq _ hblkno' _ hmid, walkResult]
      apply refill_cases fs hgood hpart hlog _ hnode.indir3 _ _ ?_
        ((hnarrow.2 hread).2 hread').1
      · intro indir3 log₃ hready'' _ hread'' hblkno''
        dsimp only
        rw [if_pos hread'', hready''.entry_eq _ hblkno'' _ hmod]
        exact Yields.pure ⟨rfl, ⟨hready.valid, hready'.valid, hready''.valid⟩, rfl⟩
      · intro indir3 log₃ hready'' hread''
        rw [if_neg hread'']
        exact Yields.pure ⟨rfl, ⟨hready.valid, hready'.valid, hready''.valid⟩, rfl⟩
      · -- within the table test and load are one entry, past it the word is the old one
        rcases Nat.lt_or_ge (r / perblock fs) (perblock fs) with hin | hout
        · left
          rw [Nat.mod_eq_of_lt hin]
          exact hready'.entry_eq _ hblkno' _ hin
        · right
          have hbeyond : IndirCache.entry indir2 (r / perblock fs) =
              IndirCache.entry (allocCache fs node.indir2) (r / perblock fs) := by
            have hbytes := ext2BlockSize_perblock fs
            exact le32_congr fun j hj => hframe _ (Or.inr (by omega))
          rw [hbeyond]
          exact hsafe.resolve_left (by omega)
    · intro indir2 log'' hready' hread'
      rw [if_neg hread']
      exact Yields.pure ⟨rfl, ⟨hready.valid, hready'.valid, hnode.indir3⟩, rfl⟩
  · intro indir1 log' hready hread
    rw [if_neg hread]
    exact Yields.pure ⟨rfl, ⟨hready.valid, hnode.indir2, hnode.indir3⟩, rfl⟩

/-- Past the end of the second table a hit on the third cache is taken as it is. -/
theorem readTripleIndirect_stray (node : Ext2fsNode) (hnode : NodeValid fs node) (f r : ℕ)
    (hr : f - (12 + perblock fs + perblock fs * perblock fs) = r)
    (hlt : r < perblock fs * perblock fs * perblock fs)
    (hnarrow : Narrow fs node.inode.tripleIndirBlock
      [r / (perblock fs * perblock fs), r / perblock fs % perblock fs])
    (hread : TableReadable fs node.inode.tripleIndirBlock)
    (hread' : TableReadable fs (tableEntry fs node.inode.tripleIndirBlock
      (r / (perblock fs * perblock fs))))
    (hout : perblock fs ≤ r / perblock fs)
    (hkey : uint32 (IndirCache.entry (allocCache fs node.indir2) (r / perblock fs) *
      blockSectors fs : ℕ) = uint32 (allocCache fs node.indir3).blkno) (log : Log) :
    Yields (readTripleIndirect fs node f) log fun res _ =>
      res.1 = int32 (IndirCache.entry (allocCache fs node.indir3) (r % perblock fs)) := by
  have hdiv : r / (perblock fs * perblock fs) < perblock fs := Nat.div_lt_of_lt_mul hlt
  have hper : ext2BlockSize fs / 4 = perblock fs := rfl
  have hparent := perblockParent_eq fs (by omega)
  have hsquare : perblock fs * perblock fs ≠ 0 :=
    Nat.ne_of_gt (Nat.mul_pos (perblock_pos fs) (perblock_pos fs))
  unfold readTripleIndirect
  simp only [hper, tripleStart_eq fs hlog, hparent, hr, if_neg hsquare]
  apply refill_cases fs hgood hpart hlog _ hnode.indir1 _ _ (Or.inl rfl) hnarrow.1
  · intro indir1 log' hready _ _ hblkno
    dsimp only
    rw [hready.entry_eq _ hblkno _ hdiv]
    apply refill_cases fs hgood hpart hlog _ hnode.indir2 _ _ (Or.inl rfl) (hnarrow.2 hread).1
    · intro indir2 log'' hready' hframe _ _
      have hbeyond : IndirCache.entry indir2 (r / perblock fs) =
          IndirCache.entry (allocCache fs node.indir2) (r / perblock fs) := by
        have hbytes := ext2BlockSize_perblock fs
        exact le32_congr fun j hj => hframe _ (Or.inr (by omega))
      dsimp only
      rw [hbeyond]
      refine Yields.bind (refill_hit fs _ _ _ hkey log'') ?_
      intro res log₃ hres
      rw [hres]
      exact Yields.pure rfl
    · intro _ _ _ hunread
      exact absurd hread' hunread
  · intro _ _ _ hunread
    exact absurd hread hunread

omit hgood hpart in
/-- The code goes to the triple indirect table from this block on. -/
theorem readAllocatedBlock1_triple (fuel : ℕ) (node : Ext2fsNode)
    (hflags : node.inode.extents = false) (f : ℕ)
    (hf : 12 + perblock fs + perblock fs * perblock fs ≤ f) (log : Log)
    {post : ℤ × Ext2fsNode → Log → Prop} (h : Yields (readTripleIndirect fs node f) log post) :
    Yields (readAllocatedBlock1 fs fuel node f) log post := by
  unfold readAllocatedBlock1
  refine Yields.lift (if_pos (by omega)) ?_
  simp only [hflags, Bool.false_eq_true, if_false, perblock_int, doubleEnd_eq fs (by omega),
    Int.toNat_natCast]
  rw [if_neg (by omega), if_neg (by omega), if_neg (by omega)]
  exact h

/-- Every lookup below the triple indirect limit is the walk, and it leaves the
caches valid. -/
theorem readAllocatedBlock1_walk (fuel : ℕ) (node : Ext2fsNode) (hnode : NodeValid fs node)
    (hflags : node.inode.extents = false) (f : ℕ)
    (hf : f < 12 + perblock fs + perblock fs * perblock fs +
      perblock fs * perblock fs * perblock fs)
    (hnarrow : Narrow fs (slotPointer fs node.inode f) (indices fs f))
    (hsafe : LookupSafe fs node f) (log : Log) :
    Yields (readAllocatedBlock1 fs fuel node f) log fun r _ =>
      r.1 = mappedBlock fs node.inode f ∧ NodeValid fs r.2 ∧ r.2.inode = node.inode := by
  unfold readAllocatedBlock1
  refine Yields.lift (if_pos (by omega)) ?_
  simp only [hflags, Bool.false_eq_true, if_false, perblock_int, doubleEnd_eq fs (by omega),
    Int.toNat_natCast]
  unfold mappedBlock slotPointer indices path at *
  by_cases hdirect : f < 12
  · rw [if_pos (by omega), if_neg (by omega)]
    rw [if_pos hdirect]
    exact Yields.pure ⟨rfl, hnode, rfl⟩
  rw [if_neg (by omega)]
  by_cases hsingle : f < 12 + perblock fs
  · simp only [if_neg hdirect, if_pos hsingle] at hnarrow ⊢
    rw [if_pos (by omega)]
    exact readIndirect_spec fs hgood hpart hlog node hnode f (by omega) hnarrow log
  rw [if_neg (by omega)]
  by_cases hpair : f < 12 + perblock fs + perblock fs * perblock fs
  · simp only [if_neg hdirect, if_neg hsingle, if_pos hpair] at hnarrow ⊢
    rw [if_pos (by omega)]
    exact readDoubleIndirect_spec fs hgood hpart hlog node hnode f _ rfl (by omega) hnarrow log
  · simp only [if_neg hdirect, if_neg hsingle, if_neg hpair] at hnarrow ⊢
    rw [if_neg (by omega)]
    exact readTripleIndirect_spec fs hgood hpart hlog node hnode f _ rfl (by omega) hnarrow
      (hsafe (by omega)) log

end NoErrors

end Eokan.IndirectCache
