import Eokan.ExtentTree
import Eokan.IndirectWalk
import Eokan.TwoRuns

/-!
What the code finds in memory that it never wrote is unknown: behind a table, behind an
inode, and in a buffer that a read does not fill. Two runs in which it differs are next to
each other. A lookup that stays inside its tables is the same in both, and so is what a
read that succeeds puts into its buffer.
-/
namespace Eokan.UnknownMemory

open ByteMem CInt Programs TwoRuns Device Devread Layout SortedScan BlockMap IndirectWalk ExtentTree

/-- The same file system, with something else in memory. -/
def onMemory (fs : ExtFilesystem) (memory : Bytes) : ExtFilesystem := { fs with past := memory }

section Buffers
variable (part : PartDescr)

/-- Two reads into different memory. Where it was the same it still is, and if they succeed
it is the same in the range that was read. -/
def SameRead (buf buf' : Bytes) (dst n : ℕ) (r : ℤ × Bytes) (log : Log) (r' : ℤ × Bytes)
    (log' : Log) : Prop :=
  (log' = log ∧ r'.1 = r.1) ∧ (∀ j, buf' j = buf j → r'.2 j = r.2 j) ∧
    (r.1 ≠ 0 → ∀ j, dst ≤ j → j < dst + n → r'.2 j = r.2 j)

theorem write_same {buf buf' : Bytes} (dst n : ℕ) (src : Bytes) {j : ℕ}
    (h : buf' j = buf j) : write buf' dst n src j = write buf dst n src j := by
  unfold write
  split
  · rfl
  · exact h

theorem write_within (buf buf' : Bytes) {dst n : ℕ} (src : Bytes) {j : ℕ} (hlo : dst ≤ j)
    (hhi : j < dst + n) : write buf' dst n src j = write buf dst n src j := by
  rw [write_of_mem buf' dst n src hlo hhi, write_of_mem buf dst n src hlo hhi]

theorem sameRead_written (buf buf' : Bytes) (dst n : ℕ) (status : ℤ) (src : Bytes) (log : Log) :
    SameRead buf buf' dst n (status, write buf dst n src) log
      (status, write buf' dst n src) log :=
  ⟨⟨rfl, rfl⟩, fun _ h => write_same dst n src h, fun _ _ hlo hhi =>
    write_within buf buf' src hlo hhi⟩

theorem sameRead_untouched (buf buf' : Bytes) (dst n : ℕ) {status : ℤ} (log : Log)
    (h : status = 0 ∨ n = 0) :
    SameRead buf buf' dst n (status, buf) log (status, buf') log := by
  refine ⟨⟨rfl, rfl⟩, fun _ h => h, fun hstatus j hlo hhi => ?_⟩
  rcases h with hzero | hnone
  · exact absurd hzero hstatus
  · omega

/-- A read behind another one. -/
theorem sameRead_behind {buf buf' : Bytes} {dst n k : ℕ} {src : Bytes} {r r' : ℤ × Bytes}
    {log log' : Log}
    (h : SameRead (write buf dst n src) (write buf' dst n src) (dst + n) k r log r' log') :
    SameRead buf buf' dst (n + k) r log r' log' := by
  obtain ⟨hrun, hkept, hread⟩ := h
  refine ⟨hrun, fun j hj => hkept j (write_same dst n src hj), fun hstatus j hlo hhi => ?_⟩
  by_cases hhead : j < dst + n
  · exact hkept j (write_within buf buf' src hlo hhead)
  · exact hread hstatus j (by omega) (by omega)

theorem partRead_same (start num : ℤ) (buf buf' : Bytes) (dst : ℕ) (log : Log) :
    ∃ status src log₁,
      partRead part start num buf dst log =
        .ok ((status, write buf dst (num * 512).toNat src), log₁) ∧
      partRead part start num buf' dst log =
        .ok ((status, write buf' dst (num * 512).toNat src), log₁) := by
  unfold partRead diskRead
  by_cases hfails : part.disk.fails log ⟨int64 (start + part.off), num⟩ = true
  · exact ⟨_, _, _, if_pos hfails, if_pos hfails⟩
  · exact ⟨_, _, _, if_neg hfails, if_neg hfails⟩

theorem readRest_same (sector byteLen : ℤ) (buf buf' : Bytes) (dst : ℕ) (log : Log) :
    Alike (SameRead buf buf' dst byteLen.toNat) (readRest part sector byteLen buf dst log)
      (readRest part sector byteLen buf' dst log) := by
  unfold readRest
  apply Alike.ite
  · intro hzero
    exact Alike.pure (sameRead_untouched buf buf' dst _ log (Or.inr (by rw [hzero]; rfl)))
  intro _
  obtain ⟨status, src, log₁, hread, -⟩ := partRead_same part sector 1 secBuf secBuf 0 log
  rw [bind_ok hread, bind_ok hread]
  apply Alike.ite
  · intro _
    exact Alike.pure (sameRead_untouched buf buf' dst _ log₁ (Or.inl rfl))
  · intro _
    exact Alike.pure (sameRead_written buf buf' dst _ 1 _ log₁)

theorem readAligned_same (sector : ℤ) {n : ℕ} (hn : n < 2 ^ 31) (buf buf' : Bytes) (dst : ℕ)
    (log : Log) :
    Alike (SameRead buf buf' dst n) (readAligned part sector n buf dst log)
      (readAligned part sector n buf' dst log) := by
  have hblock : uint32 ((n : ℤ) - (n : ℤ) % 512) = (n - n % 512 : ℕ) := by
    rw [uint32_of_range _ (by omega) (by omega)]
    omega
  unfold readAligned
  apply Alike.ite
  · intro hzero
    exact Alike.pure (sameRead_untouched buf buf' dst _ log (Or.inr (by omega)))
  intro _
  simp only [hblock]
  apply Alike.ite
  · intro _
    obtain ⟨status, src, log₁, hread, -⟩ := partRead_same part sector 1 secBuf secBuf 0 log
    rw [bind_ok hread, bind_ok hread]
    exact Alike.pure (sameRead_written buf buf' dst n 1 _ log₁)
  · intro _
    obtain ⟨status, src, log₁, hread, hread'⟩ :=
      partRead_same part sector (((n - n % 512 : ℕ) : ℤ) / 512) buf buf' dst log
    rw [bind_ok hread, bind_ok hread']
    have hwhole : (((n - n % 512 : ℕ) : ℤ) / 512 * 512).toNat = n - n % 512 := by omega
    have hrest : int32 ((n : ℤ) - (n - n % 512 : ℕ)) = (n % 512 : ℕ) := by
      have heq : (n : ℤ) - (n - n % 512 : ℕ) = (n % 512 : ℕ) := by omega
      rw [heq, int32_of_nat _ (by omega) (by omega)]
    have hsum : n - n % 512 + n % 512 = n := Nat.sub_add_cancel (Nat.mod_le n 512)
    apply Alike.ite
    · intro _
      exact Alike.pure ⟨⟨rfl, rfl⟩, fun _ h => write_same dst _ src h, fun h => absurd rfl h⟩
    · intro _
      rw [hrest, Int.toNat_natCast, hwhole]
      refine (readRest_same part _ _ _ _ _ log₁).mono fun r log₂ r' log₂' h => ?_
      rw [Int.toNat_natCast] at h
      exact hsum ▸ sameRead_behind h

theorem vfsDevread_same (sector byteOffset : ℤ) {n : ℕ} (hn : n < 2 ^ 31) (buf buf' : Bytes)
    (dst : ℕ) (log : Log) :
    Alike (SameRead buf buf' dst n) (vfsDevread part sector byteOffset n buf dst log)
      (vfsDevread part sector byteOffset n buf' dst log) := by
  unfold vfsDevread
  apply Alike.ite
  · intro _
    exact Alike.pure (sameRead_untouched buf buf' dst _ log (Or.inl rfl))
  intro _
  apply Alike.ite
  · intro _
    obtain ⟨status, src, log₁, hread, -⟩ :=
      partRead_same part (int32 (sector + byteOffset / 512)) 1 secBuf secBuf 0 log
    rw [bind_ok hread, bind_ok hread]
    apply Alike.ite
    · intro _
      exact Alike.pure (sameRead_untouched buf buf' dst _ log₁ (Or.inl rfl))
    · intro _
      obtain ⟨skip, hskip⟩ : ∃ skip : ℕ, byteOffset % 512 = skip :=
        ⟨(byteOffset % 512).toNat, by omega⟩
      have hhead : min (512 - (skip : ℤ)) n = (min (512 - skip) n : ℕ) := by omega
      have hrest : (n : ℤ) - (min (512 - skip) n : ℕ) = (n - min (512 - skip) n : ℕ) := by omega
      have hsum : min (512 - skip) n + (n - min (512 - skip) n) = n := by omega
      simp only [hskip, hhead, hrest, Int.toNat_natCast]
      refine (readAligned_same part _ (by omega) _ _ _ log₁).mono fun r log₂ r' log₂' h => ?_
      exact hsum ▸ sameRead_behind h
  · intro _
    exact readAligned_same part _ hn buf buf' dst log

end Buffers

section Inodes

/-- Two inodes with the same 128 bytes. -/
def SameInode (inode inode' : Ext2Inode) : Prop := ∀ j, j < 128 → inode'.raw j = inode.raw j

variable {inode inode' : Ext2Inode} (h : SameInode inode inode')
include h

theorem sameInode_le16 {o : ℕ} (ho : o + 2 ≤ 128) : le16 inode'.raw o = le16 inode.raw o :=
  le16_congr fun j hj => h (o + j) (by omega)

theorem sameInode_le32 {o : ℕ} (ho : o + 4 ≤ 128) : le32 inode'.raw o = le32 inode.raw o :=
  le32_congr fun j hj => h (o + j) (by omega)

theorem sameInode_mode : inode'.mode = inode.mode := sameInode_le16 h (by decide)

theorem sameInode_size : inode'.size = inode.size := sameInode_le32 h (by decide)

theorem sameInode_extents : inode'.extents = inode.extents := by
  have hflags : inode'.flags = inode.flags := sameInode_le32 h (by decide)
  unfold Ext2Inode.extents
  rw [hflags]

/-- The root of a tree is followed by the other fields of its inode. -/
theorem sameInode_b {j : ℕ} (hj : j < 88) : inode'.b j = inode.b j := h (40 + j) (by omega)

theorem sameInode_dirBlock {i : ℕ} (hi : i < 15) : inode'.dirBlock i = inode.dirBlock i :=
  le32_congr fun j hj => sameInode_b h (by omega)

end Inodes

section Roots
variable (root : Bytes) (f : ℤ)

/-- A search in the root of an inode looks at entries that lie in the inode. -/
def RootInside : Prop :=
  ehMagic root = ext4ExtMagic ∧ ehDepth root = 0 →
    ∀ i ∈ examined (fun i => (extentAt root i).block ≤ uint32 f) (ehEntries root) 0, i < 6

instance : Decidable (RootInside root f) := by
  unfold RootInside
  infer_instance

variable {root f} {root' : Bytes} (h : ∀ j, j < 88 → root' j = root j)
include h

theorem extentAt_congr {i : ℕ} (hi : i < 6) : extentAt root' i = extentAt root i := by
  have hblock : le32 root' (12 + 12 * i) = le32 root (12 + 12 * i) :=
    le32_congr fun j hj => h _ (by omega)
  have hlen : le16 root' (12 + 12 * i + 4) = le16 root (12 + 12 * i + 4) :=
    le16_congr fun j hj => h _ (by omega)
  have hhigh : le16 root' (12 + 12 * i + 6) = le16 root (12 + 12 * i + 6) :=
    le16_congr fun j hj => h _ (by omega)
  have hlow : le32 root' (12 + 12 * i + 8) = le32 root (12 + 12 * i + 8) :=
    le32_congr fun j hj => h _ (by omega)
  simp only [extentAt, hblock, hlen, hhigh, hlow]

/-- The searches look at the same entries, and these are the same. -/
theorem passed_congr (hinside : ∀ i ∈ examined (fun i => (extentAt root i).block ≤ uint32 f)
      (ehEntries root) 0, i < 6) :
    ∀ i ∈ examined (fun i => (extentAt root i).block ≤ uint32 f) (ehEntries root) 0,
      decide ((extentAt root' i).block ≤ uint32 f) =
        decide ((extentAt root i).block ≤ uint32 f) := by
  intro i hi
  rw [extentAt_congr h (hinside i hi)]

theorem findExtent_congr (hentries : ehEntries root' = ehEntries root)
    (hinside : ∀ i ∈ examined (fun i => (extentAt root i).block ≤ uint32 f) (ehEntries root) 0,
      i < 6) : findExtent root' f = findExtent root f := by
  unfold findExtent
  rw [hentries, scanEntries_congr (passed_congr h hinside)]
  generalize hstop : scanEntries (fun i => (extentAt root i).block ≤ uint32 f) (ehEntries root) 0 =
    stop
  by_cases hzero : stop = 0
  · simp only [hzero, if_true]
  · have hlast := hinside (stop - 1) (mem_examined_of_lt _ (by omega))
    simp only [hzero, if_false, extentAt_congr h hlast]

theorem root_congr : ehMagic root' = ehMagic root ∧ ehDepth root' = ehDepth root ∧
    ehEntries root' = ehEntries root := by
  have hhead : ∀ o, o + 2 ≤ 12 → le16 root' o = le16 root o :=
    fun o ho => le16_congr fun j hj => h _ (by omega)
  exact ⟨hhead 0 (by decide), hhead 6 (by decide), hhead 2 (by decide)⟩

theorem rootInside_congr (hinside : RootInside root f) : RootInside root' f := by
  obtain ⟨hmagic, hdepth, hentries⟩ := root_congr h
  unfold RootInside
  rw [hmagic, hdepth, hentries]
  intro hleaf
  rw [examined_congr (passed_congr h (hinside hleaf))]
  exact hinside hleaf

theorem rootAnswer_congr (hinside : RootInside root f) :
    rootAnswer root' f = rootAnswer root f := by
  obtain ⟨hmagic, hdepth, hentries⟩ := root_congr h
  unfold rootAnswer
  rw [hmagic, hdepth]
  split
  · rename_i hleaf
    exact findExtent_congr h hentries (hinside hleaf)
  · rfl

end Roots

section Tables

/-- Two caches whose tables, of this size, are the same. -/
structure SameCache (size : ℕ) (c c' : IndirCache) : Prop where
  isNone : c'.block.isNone = c.block.isNone
  size_eq : c'.size = c.size
  blkno : c'.blkno = c.blkno
  bytes : ∀ j, j < size → IndirCache.mem c' j = IndirCache.mem c j

theorem SameCache.refl (size : ℕ) (c : IndirCache) : SameCache size c c :=
  ⟨rfl, rfl, rfl, fun _ _ => rfl⟩

/-- Memory that was allocated for a table. -/
theorem sameCache_some {n : ℕ} {block block' : Bytes} (size blkno : ℤ)
    (h : ∀ j, j < n → block' j = block j) :
    SameCache n ⟨some block, size, blkno⟩ ⟨some block', size, blkno⟩ := ⟨rfl, rfl, rfl, h⟩

/-- Two nodes of one inode, with the same tables. -/
structure SameNode (fs : ExtFilesystem) (n n' : Ext2fsNode) : Prop where
  inode : SameInode n.inode n'.inode
  ino : n'.ino = n.ino
  inodeRead : n'.inodeRead = n.inodeRead
  indir1 : SameCache (ext2BlockSize fs) n.indir1 n'.indir1
  indir2 : SameCache (ext2BlockSize fs) n.indir2 n'.indir2
  indir3 : SameCache (ext2BlockSize fs) n.indir3 n'.indir3

theorem SameNode.refl (fs : ExtFilesystem) (n : Ext2fsNode) : SameNode fs n n :=
  ⟨fun _ _ => rfl, rfl, rfl, .refl _ _, .refl _ _, .refl _ _⟩

theorem SameCache.symm {size : ℕ} {c c' : IndirCache} (h : SameCache size c c') :
    SameCache size c' c :=
  ⟨h.isNone.symm, h.size_eq.symm, h.blkno.symm, fun j hj => (h.bytes j hj).symm⟩

theorem SameCache.trans {size : ℕ} {c c' c'' : IndirCache} (h : SameCache size c c')
    (h' : SameCache size c' c'') : SameCache size c c'' :=
  ⟨h'.isNone.trans h.isNone, h'.size_eq.trans h.size_eq, h'.blkno.trans h.blkno,
    fun j hj => (h'.bytes j hj).trans (h.bytes j hj)⟩

theorem SameNode.symm {fs : ExtFilesystem} {n n' : Ext2fsNode} (h : SameNode fs n n') :
    SameNode fs n' n :=
  ⟨fun j hj => (h.inode j hj).symm, h.ino.symm, h.inodeRead.symm, h.indir1.symm, h.indir2.symm,
    h.indir3.symm⟩

theorem SameNode.trans {fs : ExtFilesystem} {n n' n'' : Ext2fsNode} (h : SameNode fs n n')
    (h' : SameNode fs n' n'') : SameNode fs n n'' :=
  ⟨fun j hj => (h'.inode j hj).trans (h.inode j hj), h'.ino.trans h.ino,
    h'.inodeRead.trans h.inodeRead, h.indir1.trans h'.indir1, h.indir2.trans h'.indir2,
    h.indir3.trans h'.indir3⟩

variable {fs : ExtFilesystem} (memory : Bytes)

@[simp] theorem ext2BlockSize_onMemory : ext2BlockSize (onMemory fs memory) = ext2BlockSize fs := by
  unfold ext2BlockSize
  rfl

theorem sameNode_onMemory {n n' : Ext2fsNode} :
    SameNode (onMemory fs memory) n n' ↔ SameNode fs n n' := by
  constructor
  · intro h
    have hsize := @ext2BlockSize_onMemory fs memory
    exact ⟨h.inode, h.ino, h.inodeRead, hsize ▸ h.indir1, hsize ▸ h.indir2, hsize ▸ h.indir3⟩
  · intro h
    have hsize := (@ext2BlockSize_onMemory fs memory).symm
    exact ⟨h.inode, h.ino, h.inodeRead, hsize ▸ h.indir1, hsize ▸ h.indir2, hsize ▸ h.indir3⟩

@[simp] theorem blockSectors_onMemory : blockSectors (onMemory fs memory) = blockSectors fs := by
  unfold blockSectors log2Ext2BlockSize
  rfl

theorem zalloc_zero (fs : ExtFilesystem) {n j : ℕ} (hj : j < n) : zalloc fs n j = 0 := if_pos hj

theorem allocCache_same {c c' : IndirCache} (h : SameCache (ext2BlockSize fs) c c') :
    SameCache (ext2BlockSize fs) (allocCache fs c) (allocCache (onMemory fs memory) c') := by
  unfold allocCache
  rw [ext2BlockSize_onMemory, h.isNone]
  have hfresh := @sameCache_some (ext2BlockSize fs) (zalloc fs (ext2BlockSize fs))
    (zalloc (onMemory fs memory) (ext2BlockSize fs)) (ext2BlockSize fs) (-1) fun j hj => by
      rw [zalloc_zero _ hj, zalloc_zero _ hj]
  generalize ext2BlockSize fs = n at h hfresh ⊢
  dsimp only
  by_cases hnone : c.block.isNone = true
  · rw [if_pos hnone, if_pos hnone, if_neg (not_not_intro rfl), if_neg (not_not_intro rfl)]
    exact hfresh
  · rw [if_neg hnone, if_neg hnone, h.size_eq]
    split
    · exact hfresh
    · exact h

/-- What the bound of the double indirect case leaves fits one table of tables. -/
theorem double_inside (hlog : fs.sblock.log2BlockSize ≤ 20) {f : ℕ} (hf : (f : ℤ) < doubleEnd fs)
    (hsingle : 12 + perblock fs ≤ f) : (f - (12 + perblock fs)) / perblock fs < perblock fs := by
  by_cases hsmall : fs.sblock.log2BlockSize ≤ 7
  · rw [doubleEnd_eq fs hsmall] at hf
    exact Nat.div_lt_of_lt_mul (by omega)
  · rw [doubleEnd_wraps fs (by omega) hlog] at hf
    omega

/-- Below such a word lies a word of the first table, the first one. -/
theorem parent_inside {r : ℕ} (hr : r / perblock fs < perblock fs) :
    r / perblockParent fs < perblock fs := by
  have hpos := perblock_pos fs
  by_cases hsmall : fs.sblock.log2BlockSize ≤ 7
  · rw [perblockParent_eq fs hsmall, Nat.div_eq_of_lt ((Nat.div_lt_iff_lt_mul hpos).mp hr)]
    exact hpos
  · rw [perblockParent_wraps fs (by omega), Nat.div_zero]
    exact hpos

section Code
variable (hlog : fs.sblock.log2BlockSize ≤ 20)
include hlog

/-- A refill looks at the key, and fills the whole table if it does not fail. -/
theorem refill_same {c c' : IndirCache} (h : SameCache (ext2BlockSize fs) c c') (test load : ℕ)
    (log : Log) :
    Alike (fun r s r' s' => s' = s ∧ r'.1 = r.1 ∧ SameCache (ext2BlockSize fs) r.2 r'.2)
      (refill fs c test load log) (refill (onMemory fs memory) c' test load log) := by
  have hbig := ext2BlockSize_le fs hlog
  unfold refill
  simp only [ext2BlockSize_onMemory, blockSectors_onMemory, h.blkno]
  apply Alike.ite
  swap
  · intro _
    exact Alike.pure ⟨rfl, rfl, h⟩
  intro _
  have hint : int32 (ext2BlockSize fs) = ext2BlockSize fs := int32_of_nat _ (by omega) (by omega)
  rw [hint]
  apply Alike.bind (vfsDevread_same fs.devDesc _ 0 (by omega) (IndirCache.mem c)
    (IndirCache.mem c') 0 log)
  rintro ⟨status, block⟩ s ⟨status', block'⟩ s' ⟨⟨rfl, hstatus⟩, hkept, -⟩
  have hblock : ∀ j, j < ext2BlockSize fs → block' j = block j :=
    fun j hj => hkept j (h.bytes j hj)
  dsimp only at hstatus ⊢
  subst hstatus
  apply Alike.ite
  · intro _
    rw [h.size_eq]
    exact Alike.pure ⟨rfl, rfl, sameCache_some _ _ hblock⟩
  · intro _
    rw [h.size_eq]
    exact Alike.pure ⟨rfl, rfl, sameCache_some _ _ hblock⟩

omit hlog in
theorem entry_same {c c' : IndirCache} (h : SameCache (ext2BlockSize fs) c c') {i : ℕ}
    (hi : i < perblock fs) : IndirCache.entry c' i = IndirCache.entry c i := by
  have hsize := ext2BlockSize_perblock fs
  exact le32_congr fun j hj => h.bytes _ (by omega)

/-- Two lookups that give the same answer, and nodes with the same tables. -/
def SameLookup (fs : ExtFilesystem) (r : ℤ × Ext2fsNode) (log : Log) (r' : ℤ × Ext2fsNode)
    (log' : Log) : Prop := log' = log ∧ r'.1 = r.1 ∧ SameNode fs r.2 r'.2

variable {n n' : Ext2fsNode} (h : SameNode fs n n') (log : Log)
include h

theorem readIndirect_same {f : ℕ} (hf : f < 12 + perblock fs) :
    Alike (SameLookup fs) (readIndirect fs n f log)
      (readIndirect (onMemory fs memory) n' f log) := by
  have htable : n'.inode.indirBlock = n.inode.indirBlock :=
    sameInode_dirBlock h.inode (i := 12) (by decide)
  have hpos := perblock_pos fs
  unfold readIndirect
  rw [htable]
  apply Alike.bind (refill_same memory hlog (allocCache_same memory h.indir1) _ _ log)
  rintro ⟨filled, indir1⟩ s ⟨filled', indir1'⟩ s' ⟨rfl, hfilled, hcache⟩
  dsimp only at hfilled hcache ⊢
  subst hfilled
  have hnode : SameNode fs { n with indir1 } { n' with indir1 := indir1' } :=
    { h with indir1 := hcache }
  apply Alike.ite
  · intro _
    exact Alike.pure ⟨rfl, rfl, hnode⟩
  · intro _
    rw [entry_same hcache (by omega)]
    exact Alike.pure ⟨rfl, rfl, hnode⟩

theorem readDoubleIndirect_same {f : ℕ}
    (hf : (f - (12 + perblock fs)) / perblock fs < perblock fs) :
    Alike (SameLookup fs) (readDoubleIndirect fs n f log)
      (readDoubleIndirect (onMemory fs memory) n' f log) := by
  have htable : n'.inode.doubleIndirBlock = n.inode.doubleIndirBlock :=
    sameInode_dirBlock h.inode (i := 13) (by decide)
  have hper : ext2BlockSize fs / 4 = perblock fs := rfl
  unfold readDoubleIndirect
  simp only [ext2BlockSize_onMemory, hper, htable]
  apply Alike.bind (refill_same memory hlog (allocCache_same memory h.indir1) _ _ log)
  rintro ⟨filled, indir1⟩ s ⟨filled', indir1'⟩ s' ⟨rfl, hfilled, hcache⟩
  dsimp only at hfilled hcache ⊢
  subst hfilled
  have hnode : SameNode fs { n with indir1 } { n' with indir1 := indir1' } :=
    { h with indir1 := hcache }
  apply Alike.ite
  · intro _
    exact Alike.pure ⟨rfl, rfl, hnode⟩
  intro _
  rw [entry_same hcache hf]
  apply Alike.bind (refill_same memory hlog (allocCache_same memory h.indir2) _ _ _)
  rintro ⟨filled, indir2⟩ t ⟨filled', indir2'⟩ t' ⟨rfl, hfilled, hcache₂⟩
  dsimp only at hfilled hcache₂ ⊢
  subst hfilled
  have hnode₂ : SameNode fs { n with indir1, indir2 }
      { n' with indir1 := indir1', indir2 := indir2' } := { hnode with indir2 := hcache₂ }
  apply Alike.ite
  · intro _
    exact Alike.pure ⟨rfl, rfl, hnode₂⟩
  · intro _
    rw [entry_same hcache₂ (Nat.mod_lt _ (perblock_pos fs))]
    exact Alike.pure ⟨rfl, rfl, hnode₂⟩

/-- The index that is tested in the second table is one of its words. -/
theorem readTripleIndirect_same {f : ℕ} (hf : (f - tripleStart fs) / perblock fs < perblock fs) :
    Alike (SameLookup fs) (readTripleIndirect fs n f log)
      (readTripleIndirect (onMemory fs memory) n' f log) := by
  have htable : n'.inode.tripleIndirBlock = n.inode.tripleIndirBlock :=
    sameInode_dirBlock h.inode (i := 14) (by decide)
  have hper : ext2BlockSize fs / 4 = perblock fs := rfl
  have hstart : tripleStart (onMemory fs memory) = tripleStart fs := by
    unfold tripleStart
    rw [ext2BlockSize_onMemory]
  have hproduct : perblockParent (onMemory fs memory) = perblockParent fs := by
    unfold perblockParent
    rw [ext2BlockSize_onMemory]
  unfold readTripleIndirect
  simp only [ext2BlockSize_onMemory, hper, htable, hstart, hproduct]
  apply Alike.bind (refill_same memory hlog (allocCache_same memory h.indir1) _ _ log)
  rintro ⟨filled, indir1⟩ s ⟨filled', indir1'⟩ s' ⟨rfl, hfilled, hcache⟩
  dsimp only at hfilled hcache ⊢
  subst hfilled
  have hnode : SameNode fs { n with indir1 } { n' with indir1 := indir1' } :=
    { h with indir1 := hcache }
  apply Alike.ite
  · intro _
    exact Alike.pure ⟨rfl, rfl, hnode⟩
  intro _
  apply Alike.ite (fun _ => Alike.fault _)
  intro _
  rw [entry_same hcache (parent_inside hf)]
  apply Alike.bind (refill_same memory hlog (allocCache_same memory h.indir2) _ _ _)
  rintro ⟨filled, indir2⟩ t ⟨filled', indir2'⟩ t' ⟨rfl, hfilled, hcache₂⟩
  dsimp only at hfilled hcache₂ ⊢
  subst hfilled
  have hnode₂ : SameNode fs { n with indir1, indir2 }
      { n' with indir1 := indir1', indir2 := indir2' } := { hnode with indir2 := hcache₂ }
  apply Alike.ite
  · intro _
    exact Alike.pure ⟨rfl, rfl, hnode₂⟩
  intro _
  rw [entry_same hcache₂ hf, entry_same hcache₂ (Nat.mod_lt _ (perblock_pos fs))]
  apply Alike.bind (refill_same memory hlog (allocCache_same memory h.indir3) _ _ _)
  rintro ⟨filled, indir3⟩ u ⟨filled', indir3'⟩ u' ⟨rfl, hfilled, hcache₃⟩
  dsimp only at hfilled hcache₃ ⊢
  subst hfilled
  have hnode₃ : SameNode fs { n with indir1, indir2, indir3 }
      { n' with indir1 := indir1', indir2 := indir2', indir3 := indir3' } :=
    { hnode₂ with indir3 := hcache₃ }
  apply Alike.ite
  · intro _
    exact Alike.pure ⟨rfl, rfl, hnode₃⟩
  · intro _
    rw [entry_same hcache₃ (Nat.mod_lt _ (perblock_pos fs))]
    exact Alike.pure ⟨rfl, rfl, hnode₃⟩

end Code

/-- A lookup of file block f looks at nothing behind its inode and its tables. The
word that is tested in the second table of the triple indirect case is one of that table. -/
def Inside (fs : ExtFilesystem) (inode : Ext2Inode) (f : ℕ) : Prop :=
  if inode.extents then RootInside inode.b f
  else 12 + perblock fs ≤ f ∧ doubleEnd fs ≤ f →
    (f - tripleStart fs) / perblock fs < perblock fs

instance (fs : ExtFilesystem) (inode : Ext2Inode) (f : ℕ) : Decidable (Inside fs inode f) := by
  unfold Inside
  infer_instance

/-- It depends on the 128 bytes of the inode. -/
theorem inside_congr {inode inode' : Ext2Inode} (h : SameInode inode inode') {f : ℕ}
    (hinside : Inside fs inode f) : Inside fs inode' f := by
  unfold Inside at hinside ⊢
  rw [sameInode_extents h]
  split
  · rename_i hflags
    rw [if_pos hflags] at hinside
    exact rootInside_congr (fun j hj => sameInode_b h hj) hinside
  · rename_i hflags
    rwa [if_neg hflags] at hinside

theorem inside_onMemory (inode : Ext2Inode) (f : ℕ) :
    Inside (onMemory fs memory) inode f ↔ Inside fs inode f := by
  unfold Inside perblock doubleEnd tripleStart
  simp only [ext2BlockSize_onMemory]

/-- Lookups that stay inside answer alike, whatever is outside. -/
theorem readAllocatedBlock1_same (hlog : fs.sblock.log2BlockSize ≤ 20) (hblksz : fs.blksz = 0)
    {n n' : Ext2fsNode} (h : SameNode fs n n') (fuel : ℕ) {f : ℕ} (hinside : Inside fs n.inode f)
    (log : Log) :
    Alike (SameLookup fs) (readAllocatedBlock1 fs (fuel + 2) n f log)
      (readAllocatedBlock1 (onMemory fs memory) (fuel + 2) n' f log) := by
  have hextents := sameInode_extents h.inode
  unfold Inside at hinside
  cases hflags : n.inode.extents with
  | true =>
    rw [if_pos hflags] at hinside
    rw [mounted_extent_run fs hlog hblksz n hflags, mounted_extent_run (onMemory fs memory) hlog
      hblksz n' (hextents.trans hflags), rootAnswer_congr (fun j hj => sameInode_b h.inode hj)
      hinside]
    exact ⟨rfl, rfl, h⟩
  | false =>
    rw [if_neg (by simp [hflags])] at hinside
    have hend : doubleEnd (onMemory fs memory) = doubleEnd fs := by
      unfold doubleEnd
      rw [ext2BlockSize_onMemory]
    have hshifts : checkShifts fs = .ok () := if_pos hlog
    have hshifts' : checkShifts (onMemory fs memory) = .ok () := if_pos hlog
    unfold readAllocatedBlock1
    rw [bind_ok (lift_ok hshifts log), bind_ok (lift_ok hshifts' log)]
    simp only [hextents, hflags, Bool.false_eq_true, if_false, ext2BlockSize_onMemory, hend,
      perblock_int, Int.toNat_natCast]
    apply Alike.ite
    · intro hdirect
      rw [if_neg (by omega), if_neg (by omega), sameInode_dirBlock h.inode (by omega)]
      exact Alike.pure ⟨rfl, rfl, h⟩
    intro hdirect
    apply Alike.ite
    · intro hsingle
      exact readIndirect_same memory hlog h log (by omega)
    intro hsingle
    apply Alike.ite
    · intro hdouble
      exact readDoubleIndirect_same memory hlog h log (double_inside hlog hdouble (by omega))
    · intro hdouble
      exact readTripleIndirect_same memory hlog h log (hinside ⟨by omega, by omega⟩)

end Tables

end Eokan.UnknownMemory
