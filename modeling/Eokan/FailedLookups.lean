import Eokan.ExtentTree
import Eokan.TableDescent

/-!
Lookups on one node while device reads fail. A refill overwrites its cache
before it sets the key, so a failed read leaves other bytes under the key of
the table that was there. The caches stay sound in every run in which no read
fails over a cache that holds a table, and a lookup on sound caches whose own
reads succeed answers as on a fresh node.
-/
namespace Eokan.FailedLookups

open ByteMem CInt Programs Device Devread DevreadOutcome Layout BlockMap IndirectWalk
open IndirectCache ExtentSearch Mount ExtentTree TableDescent

/-- The key of an allocated cache, unless it is -1, names the sector of its bytes. -/
def KeyHolds (fs : ExtFilesystem) (cache : IndirCache) : Prop :=
  cache.block.isSome → cache.blkno ≠ -1 → ∀ j, j < ext2BlockSize fs →
    IndirCache.mem cache j = fs.devDesc.bytes (cache.blkno.toNat * 512 + j)

/-- An allocated cache has the size of a block, and its key holds. -/
def Sound (fs : ExtFilesystem) (cache : IndirCache) : Prop :=
  cache.block.isSome → Ready fs cache

structure NodeSound (fs : ExtFilesystem) (node : Ext2fsNode) : Prop where
  indir1 : Sound fs node.indir1
  indir2 : Sound fs node.indir2
  indir3 : Sound fs node.indir3

/-- On the way from a table no read fails over a cache that holds a table. -/
def Harmless (fs : ExtFilesystem) : List IndirCache → ℕ → ℕ → List (ℕ × ℕ) → Log → Prop
  | cache :: rest, test, load, (j, i) :: is, log =>
    let cache := allocCache fs cache
    if Hit fs cache test then
      Harmless fs rest (IndirCache.entry cache j) (IndirCache.entry cache i) is log
    else
      InReach fs load →
        if fs.devDesc.disk.fails log (tableRequest fs load) then cache.blkno = -1
        else
          let cache := loaded fs cache load
          Harmless fs rest (IndirCache.entry cache j) (IndirCache.entry cache i) is
            (tableRequest fs load :: log)
  | _, _, _, _, _ => True

/-- The lookup of file block f, issued after the reads in log, harms no cache. -/
def LookupHarmless (fs : ExtFilesystem) (node : Ext2fsNode) (f : ℕ) (log : Log) : Prop :=
  node.inode.extents = false →
    let way := descentTo fs node f
    Harmless fs way.caches way.table way.table way.indices log

/-- No test of a cache passes for another table than the one that is needed. -/
def Matched (fs : ExtFilesystem) : List IndirCache → ℕ → ℕ → List (ℕ × ℕ) → Prop
  | cache :: rest, test, load, (j, i) :: is =>
    let cache := allocCache fs cache
    if Hit fs cache test then
      cache.blkno = tableSector fs load ∧
        Matched fs rest (IndirCache.entry cache j) (IndirCache.entry cache i) is
    else
      let cache := loaded fs cache load
      Matched fs rest (IndirCache.entry cache j) (IndirCache.entry cache i) is
  | _, _, _, _ => True

def LookupMatched (fs : ExtFilesystem) (node : Ext2fsNode) (f : ℕ) : Prop :=
  let way := descentTo fs node f
  Matched fs way.caches way.table way.table way.indices

/-- Word i of the table that the code reads for block t. -/
def storedEntry (fs : ExtFilesystem) (t i : ℕ) : ℕ :=
  le32 fs.devDesc.bytes ((tableSector fs t).toNat * 512 + 4 * i)

/-- The answer that the tables of the image give, where all reads succeed. -/
def storedResult (fs : ExtFilesystem) (failed : ℤ) : ℕ → List ℕ → ℤ
  | t, [] => int32 t
  | t, i :: is =>
    if InReach fs t then storedResult fs failed (storedEntry fs t i) is else failed

/-- The reads that were issued after the ones in log have all succeeded. -/
inductive Succeeded (disk : DiskDescr) (log : Log) : Log → Prop
  | none : Succeeded disk log log
  | read (q : Request) (rest : Log) (hrest : Succeeded disk log rest)
      (hread : disk.fails rest q = false) : Succeeded disk log (q :: rest)

theorem Sound.valid {fs : ExtFilesystem} {cache : IndirCache} (h : Sound fs cache) :
    CacheValid fs cache := fun hsome _ => (h hsome).holds

theorem Sound.ready {fs : ExtFilesystem} {cache : IndirCache} (h : Sound fs cache) :
    Ready fs (allocCache fs cache) := allocCache_ready fs cache h.valid

theorem Sound.keyHolds {fs : ExtFilesystem} {cache : IndirCache} (h : Sound fs cache) :
    KeyHolds fs cache := by
  intro hsome hkey j hj
  rcases (h hsome).holds with hempty | ⟨-, hbytes⟩
  · exact absurd hempty hkey
  · exact hbytes j hj

section Levels
variable (fs : ExtFilesystem)

theorem mem_loaded (cache : IndirCache) (t j : ℕ) (hj : j < ext2BlockSize fs) :
    IndirCache.mem (loaded fs cache t) j =
      fs.devDesc.bytes ((tableSector fs t).toNat * 512 + j) := by
  unfold loaded
  rw [mem_some, write_of_mem _ _ _ _ (Nat.zero_le j) (by omega)]
  rfl

theorem loaded_ready (cache : IndirCache) (h : Ready fs cache) (t : ℕ) (hin : InReach fs t) :
    Ready fs (loaded fs cache t) :=
  ⟨Option.isSome_some, h.size_eq, Or.inr ⟨hin, mem_loaded fs cache t⟩⟩

/-- An empty cache stays empty whatever the read has left in it. -/
theorem spoiled_ready (cache : IndirCache) (h : Ready fs cache) (hempty : cache.blkno = -1)
    (bytes : Bytes) : Ready fs (spoiled fs cache bytes) :=
  ⟨Option.isSome_some, h.size_eq, Or.inl hempty⟩

/-- A cache with the key of a table has the words of this table. -/
theorem ready_entry (cache : IndirCache) (h : Ready fs cache) (t : ℕ)
    (hkey : cache.blkno = tableSector fs t) (i : ℕ) (hi : i < perblock fs) :
    InReach fs t ∧ IndirCache.entry cache i = storedEntry fs t i := by
  have hper := ext2BlockSize_perblock fs
  rcases h.holds with hempty | ⟨hread, hbytes⟩
  · -- the key -1 is odd
    have heven := even_blockSectors fs t
    rw [hempty] at hkey
    unfold tableSector int32 at hkey
    omega
  · rw [hkey] at hread hbytes
    refine ⟨hread, le32_congr fun j hj => ?_⟩
    rw [hbytes _ (by omega)]
    exact congrArg fs.devDesc.bytes (by omega)

theorem loaded_entry (cache : IndirCache) (t i : ℕ) (hi : i < perblock fs) :
    IndirCache.entry (loaded fs cache t) i = storedEntry fs t i := by
  have hper := ext2BlockSize_perblock fs
  refine le32_congr fun j hj => ?_
  rw [mem_loaded fs cache t _ (by omega)]
  exact congrArg fs.devDesc.bytes (by omega)

theorem refilled_ready (cache : IndirCache) (h : Ready fs cache) (test load : ℕ) (log : Log)
    (hharmless : ¬ Hit fs cache test → InReach fs load →
      fs.devDesc.disk.fails log (tableRequest fs load) = true → cache.blkno = -1) :
    Ready fs (refilled fs cache test load log).1.2 := by
  unfold refilled
  split
  · exact h
  rename_i hmiss
  split
  · exact h
  rename_i hin
  dsimp only
  split
  · rename_i hfails
    exact spoiled_ready fs cache h (hharmless hmiss (not_not.mp hin) hfails) _
  · exact loaded_ready fs cache h load (not_not.mp hin)

/-- One lookup keeps the caches sound. -/
theorem descend_sound (failed : ℤ) (caches : List IndirCache) (test load : ℕ)
    (is : List (ℕ × ℕ)) (log : Log) (hsound : ∀ c ∈ caches, Sound fs c)
    (hharmless : Harmless fs caches test load is log) :
    ∀ c ∈ (descend fs failed caches test load is log).1.2, Sound fs c := by
  induction caches generalizing test load is log with
  | nil => exact hsound
  | cons cache rest ih =>
    rcases is with _ | ⟨⟨j, i⟩, is⟩
    · exact hsound
    have hready := Sound.ready (hsound cache List.mem_cons_self)
    have hrest : ∀ c ∈ rest, Sound fs c := fun c hc => hsound c (List.mem_cons_of_mem _ hc)
    have hcons : ∀ (c : IndirCache) (cs : List IndirCache), Ready fs c →
        (∀ c ∈ cs, Sound fs c) → ∀ d ∈ c :: cs, Sound fs d := by
      intro c cs hc hcs d hd
      rcases List.mem_cons.mp hd with rfl | hd
      · exact fun _ => hc
      · exact hcs d hd
    unfold Harmless at hharmless
    unfold descend refilled
    by_cases hhit : Hit fs (allocCache fs cache) test
    · simp only [if_pos hhit] at hharmless ⊢
      exact hcons _ _ hready (ih _ _ is log hrest hharmless)
    simp only [if_neg hhit] at hharmless ⊢
    by_cases hin : InReach fs load
    · have hharmless := hharmless hin
      rw [if_neg (not_not_intro hin)]
      by_cases hfails : fs.devDesc.disk.fails log (tableRequest fs load) = true
      · simp only [if_pos hfails] at hharmless ⊢
        exact hcons _ _ (spoiled_ready fs _ hready hharmless _) hrest
      · simp only [if_neg hfails] at hharmless ⊢
        exact hcons _ _ (loaded_ready fs _ hready load hin)
          (ih _ _ is _ hrest hharmless)
    · rw [if_pos hin]
      exact hcons _ _ hready hrest

theorem withCaches_sound (node : Ext2fsNode) (hnode : NodeSound fs node)
    (caches : List IndirCache) (hsound : ∀ c ∈ caches, Sound fs c) :
    NodeSound fs (withCaches node caches) := by
  rcases caches with _ | ⟨a, _ | ⟨b, _ | ⟨c, rest⟩⟩⟩
  · exact hnode
  · exact ⟨hsound a (by simp), hnode.indir2, hnode.indir3⟩
  · exact ⟨hsound a (by simp), hsound b (by simp), hnode.indir3⟩
  · exact ⟨hsound a (by simp), hsound b (by simp), hsound c (by simp)⟩

theorem withCaches_inode (node : Ext2fsNode) (caches : List IndirCache) :
    (withCaches node caches).inode = node.inode := by
  rcases caches with _ | ⟨a, _ | ⟨b, _ | ⟨c, rest⟩⟩⟩ <;> rfl

theorem descentTo_caches (node : Ext2fsNode) (f : ℕ) (c : IndirCache)
    (hc : c ∈ (descentTo fs node f).caches) :
    c = node.indir1 ∨ c = node.indir2 ∨ c = node.indir3 := by
  unfold descentTo at hc
  dsimp only at hc
  split at hc
  · exact absurd hc List.not_mem_nil
  split at hc
  · exact Or.inl (List.mem_singleton.mp hc)
  split at hc
  · simp only [List.mem_cons, List.not_mem_nil, or_false] at hc
    exact hc.imp_right Or.inl
  · simpa only [List.mem_cons, List.not_mem_nil, or_false] using hc

/-- The list of reads only grows. -/
theorem descend_log (failed : ℤ) (caches : List IndirCache) (test load : ℕ)
    (is : List (ℕ × ℕ)) (log : Log) :
    ∃ issued, (descend fs failed caches test load is log).2 = issued ++ log := by
  induction caches generalizing test load is log with
  | nil => exact ⟨[], rfl⟩
  | cons cache rest ih =>
    rcases is with _ | ⟨⟨j, i⟩, is⟩
    · exact ⟨[], rfl⟩
    unfold descend refilled
    by_cases hhit : Hit fs (allocCache fs cache) test
    · simp only [if_pos hhit]
      exact ih _ _ is log
    simp only [if_neg hhit]
    by_cases hin : InReach fs load
    · rw [if_neg (not_not_intro hin)]
      by_cases hfails : fs.devDesc.disk.fails log (tableRequest fs load) = true
      · simp only [if_pos hfails]
        exact ⟨[tableRequest fs load], rfl⟩
      · simp only [if_neg hfails]
        obtain ⟨issued, hissued⟩ := ih (IndirCache.entry (loaded fs (allocCache fs cache) load) j)
          (IndirCache.entry (loaded fs (allocCache fs cache) load) i) is
          (tableRequest fs load :: log)
        exact ⟨issued ++ [tableRequest fs load], by simpa using hissued⟩
    · rw [if_pos hin]
      exact ⟨[], rfl⟩

theorem NodeSound.caches {fs : ExtFilesystem} {node : Ext2fsNode} (h : NodeSound fs node) (f : ℕ) :
    ∀ c ∈ (descentTo fs node f).caches, Sound fs c := by
  intro c hc
  rcases descentTo_caches fs node f c hc with rfl | rfl | rfl
  · exact h.indir1
  · exact h.indir2
  · exact h.indir3

end Levels

theorem succeeded_append (disk : DiskDescr) (log : Log) (q : Request) (issued : List Request)
    (h : Succeeded disk log (issued ++ q :: log)) :
    Succeeded disk (q :: log) (issued ++ q :: log) ∧ disk.fails log q = false := by
  induction issued with
  | nil =>
    refine ⟨Succeeded.none, ?_⟩
    generalize hlog : ([] ++ q :: log : Log) = log' at h
    cases h with
    | none => exact absurd (congrArg List.length hlog) (by simp)
    | read q' rest _ hread =>
      cases hlog
      exact hread
  | cons q' issued ih =>
    generalize hlog : (q' :: issued ++ q :: log : Log) = log' at h
    cases h with
    | none => exact absurd (congrArg List.length hlog) (by simp; omega)
    | read q'' rest hrest hread =>
      cases hlog
      obtain ⟨hissued, hq⟩ := ih hrest
      exact ⟨Succeeded.read q' _ hissued hread, hq⟩

/-- On sound caches, where its own reads succeed, a descent has the answer that
the tables of the image give. -/
theorem descend_value (fs : ExtFilesystem) (failed : ℤ) (caches : List IndirCache)
    (test load : ℕ) (is : List (ℕ × ℕ)) (log : Log) (hsound : ∀ c ∈ caches, Sound fs c)
    (hmatched : Matched fs caches test load is) (hlen : is.length ≤ caches.length)
    (his : ∀ ji ∈ is, ji.2 < perblock fs)
    (hreads : Succeeded fs.devDesc.disk log (descend fs failed caches test load is log).2) :
    (descend fs failed caches test load is log).1.1 =
      storedResult fs failed load (is.map Prod.snd) := by
  induction caches generalizing test load is log with
  | nil =>
    obtain rfl := List.length_eq_zero_iff.mp (Nat.le_zero.mp hlen)
    rfl
  | cons cache rest ih =>
    rcases is with _ | ⟨⟨j, i⟩, is⟩
    · rfl
    have hready := Sound.ready (hsound cache List.mem_cons_self)
    have hrest : ∀ c ∈ rest, Sound fs c := fun c hc => hsound c (List.mem_cons_of_mem _ hc)
    have hi : i < perblock fs := his (j, i) List.mem_cons_self
    have his' : ∀ ji ∈ is, ji.2 < perblock fs := fun ji h => his ji (List.mem_cons_of_mem _ h)
    have hlen' : is.length ≤ rest.length := Nat.le_of_succ_le_succ hlen
    unfold Matched at hmatched
    unfold descend refilled at hreads ⊢
    simp only [List.map_cons, storedResult]
    by_cases hhit : Hit fs (allocCache fs cache) test
    · simp only [if_pos hhit] at hmatched hreads ⊢
      obtain ⟨hkey, hmatched⟩ := hmatched
      obtain ⟨hin, hentry⟩ := ready_entry fs _ hready load hkey i hi
      rw [if_pos hin, ← hentry]
      exact ih _ _ is log hrest hmatched hlen' his' hreads
    simp only [if_neg hhit] at hmatched hreads ⊢
    by_cases hin : InReach fs load
    · rw [if_neg (not_not_intro hin)] at hreads ⊢
      rw [if_pos hin, ← loaded_entry fs (allocCache fs cache) load i hi]
      by_cases hfails : fs.devDesc.disk.fails log (tableRequest fs load) = true
      · simp only [if_pos hfails] at hreads
        have hread := (succeeded_append fs.devDesc.disk log _ [] hreads).2
        exact absurd hfails (Bool.eq_false_iff.mp hread)
      · simp only [if_neg hfails] at hreads ⊢
        refine ih _ _ is _ hrest hmatched hlen' his' ?_
        obtain ⟨issued, hissued⟩ := descend_log fs failed rest
          (IndirCache.entry (loaded fs (allocCache fs cache) load) j)
          (IndirCache.entry (loaded fs (allocCache fs cache) load) i) is
          (tableRequest fs load :: log)
        simp only [if_true] at hreads
        rw [hissued] at hreads ⊢
        exact (succeeded_append fs.devDesc.disk log _ issued hreads).1
    · rw [if_pos hin, if_neg hin]
      rfl

/-- The key of a sound cache that is hit is the sector of the table asked for. -/
theorem key_of_hit (fs : ExtFilesystem) (cache : IndirCache) (h : Ready fs cache) (t : ℕ)
    (hhit : Hit fs cache t) : cache.blkno = tableSector fs t := by
  unfold Hit at hhit
  unfold tableSector
  rcases h.holds with hempty | ⟨⟨hpos, -, hmax⟩, -⟩
  · have heven := even_blockSectors fs t
    rw [hempty] at hhit
    unfold uint32 at hhit
    omega
  · have hpositive := ext2BlockSize_pos fs
    unfold uint32 at hhit
    unfold int32
    omega

/-- Where each table is tested for as it is loaded, nothing else can be hit. -/
theorem matched_of_same (fs : ExtFilesystem) (caches : List IndirCache) (load : ℕ)
    (is : List (ℕ × ℕ)) (hsame : ∀ ji ∈ is, ji.1 = ji.2) (hsound : ∀ c ∈ caches, Sound fs c) :
    Matched fs caches load load is := by
  induction caches generalizing load is with
  | nil => trivial
  | cons cache rest ih =>
    rcases is with _ | ⟨⟨j, i⟩, is⟩
    · trivial
    obtain rfl : j = i := hsame (j, i) List.mem_cons_self
    have hrest : ∀ c ∈ rest, Sound fs c := fun c hc => hsound c (List.mem_cons_of_mem _ hc)
    have his : ∀ ji ∈ is, ji.1 = ji.2 := fun ji h => hsame ji (List.mem_cons_of_mem _ h)
    unfold Matched
    dsimp only
    split
    · rename_i hhit
      exact ⟨key_of_hit fs _ (hsound cache List.mem_cons_self).ready load hhit,
        ih _ is his hrest⟩
    · exact ih _ is his hrest

/-- A cache that was not allocated gets the key -1, which no test passes: it is odd. -/
theorem allocCache_unallocated (fs : ExtFilesystem) (cache : IndirCache)
    (hnone : cache.block = none) (test : ℕ) :
    (allocCache fs cache).blkno = -1 ∧ ¬ Hit fs (allocCache fs cache) test := by
  have hkey : (allocCache fs cache).blkno = -1 := by
    unfold allocCache
    simp only [hnone, Option.isNone_none, if_true, ne_eq, not_true_eq_false, if_false]
  have heven := even_blockSectors fs test
  refine ⟨hkey, ?_⟩
  unfold Hit
  rw [hkey]
  unfold uint32
  omega

theorem matched_of_unallocated (fs : ExtFilesystem) (caches : List IndirCache) (test load : ℕ)
    (is : List (ℕ × ℕ)) (h : ∀ c ∈ caches, c.block = none) : Matched fs caches test load is := by
  induction caches generalizing test load is with
  | nil => trivial
  | cons cache rest ih =>
    rcases is with _ | ⟨⟨j, i⟩, is⟩
    · trivial
    have hmiss := (allocCache_unallocated fs cache (h cache List.mem_cons_self) test).2
    unfold Matched
    simp only [if_neg hmiss]
    exact ih _ _ is fun c hc => h c (List.mem_cons_of_mem _ hc)

theorem harmless_of_unallocated (fs : ExtFilesystem) (caches : List IndirCache) (test load : ℕ)
    (is : List (ℕ × ℕ)) (log : Log) (h : ∀ c ∈ caches, c.block = none) :
    Harmless fs caches test load is log := by
  induction caches generalizing test load is log with
  | nil => trivial
  | cons cache rest ih =>
    rcases is with _ | ⟨⟨j, i⟩, is⟩
    · trivial
    obtain ⟨hkey, hmiss⟩ := allocCache_unallocated fs cache (h cache List.mem_cons_self) test
    unfold Harmless
    simp only [if_neg hmiss]
    intro _
    split
    · exact hkey
    · exact ih _ _ is _ fun c hc => h c (List.mem_cons_of_mem _ hc)

/-- Only the third level can be hit by the test for another table. -/
theorem lookupMatched_of_lt (fs : ExtFilesystem) (node : Ext2fsNode) (f : ℕ)
    (h : ∀ c ∈ (descentTo fs node f).caches, Sound fs c)
    (hf : f < 12 + perblock fs ∨ f < doubleEnd fs) : LookupMatched fs node f := by
  refine matched_of_same fs _ _ _ ?_ h
  unfold descentTo
  dsimp only
  split
  · simp
  split
  · simp
  · rw [if_pos (by omega)]
    simp

theorem fresh_unallocated (fs : ExtFilesystem) (node : Ext2fsNode) (h : Fresh node) (f : ℕ) :
    ∀ c ∈ (descentTo fs node f).caches, c.block = none := by
  intro c hc
  rcases descentTo_caches fs node f c hc with rfl | rfl | rfl
  · exact h.indir1
  · exact h.indir2
  · exact h.indir3

theorem fresh_matched (fs : ExtFilesystem) (node : Ext2fsNode) (h : Fresh node) (f : ℕ) :
    LookupMatched fs node f := matched_of_unallocated fs _ _ _ _ (fresh_unallocated fs node h f)

/-- The first lookup on a node does no harm. -/
theorem fresh_harmless (fs : ExtFilesystem) (node : Ext2fsNode) (h : Fresh node) (f : ℕ)
    (log : Log) : LookupHarmless fs node f log :=
  fun _ => harmless_of_unallocated fs _ _ _ _ log (fresh_unallocated fs node h f)

theorem fresh_sound (fs : ExtFilesystem) (node : Ext2fsNode) (h : Fresh node) :
    NodeSound fs node := by
  refine ⟨fun hsome => ?_, fun hsome => ?_, fun hsome => ?_⟩
  · simp [h.indir1] at hsome
  · simp [h.indir2] at hsome
  · simp [h.indir3] at hsome

/-- The way to a file block depends on the inode, the caches apart. -/
theorem descentTo_inode (fs : ExtFilesystem) (node node' : Ext2fsNode)
    (h : node.inode = node'.inode) (f : ℕ) :
    (descentTo fs node f).table = (descentTo fs node' f).table ∧
      (descentTo fs node f).indices = (descentTo fs node' f).indices ∧
      (descentTo fs node f).failed = (descentTo fs node' f).failed := by
  unfold descentTo
  rw [h]
  dsimp only
  split
  · exact ⟨rfl, rfl, rfl⟩
  split
  · exact ⟨rfl, rfl, rfl⟩
  split
  · exact ⟨rfl, rfl, rfl⟩
  · exact ⟨rfl, rfl, rfl⟩

theorem descentTo_length (fs : ExtFilesystem) (node : Ext2fsNode) (f : ℕ) :
    (descentTo fs node f).indices.length = (descentTo fs node f).caches.length := by
  unfold descentTo
  dsimp only
  split
  · rfl
  split
  · rfl
  split
  · rfl
  · rfl

/-- Word r of a table over tables of s words each. -/
theorem div_lt_of_le {r s p : ℕ} (hp : 0 < p) (h : s ≠ 0 → r < s * p) : r / s < p := by
  rcases Nat.eq_zero_or_pos s with hzero | hpos
  · rw [hzero, Nat.div_zero]
    exact hp
  · exact Nat.div_lt_of_lt_mul (h (Nat.ne_of_gt hpos))

/-- The words looked at lie within their tables, also where the products wrap. -/
theorem descentTo_lt (fs : ExtFilesystem) (hlog : fs.sblock.log2BlockSize ≤ 20)
    (node : Ext2fsNode) (f : ℕ) (hint : f < 2 ^ 31)
    (hf : f < 12 + perblock fs + perblock fs * perblock fs +
      perblock fs * perblock fs * perblock fs) :
    ∀ ji ∈ (descentTo fs node f).indices, ji.2 < perblock fs := by
  have hpos := perblock_pos fs
  have hmod := fun r => Nat.mod_lt r hpos
  unfold descentTo
  dsimp only
  split
  · simp
  split
  · simp only [List.mem_singleton, forall_eq]
    omega
  split
  · rename_i hdouble
    have hlt : f - (12 + perblock fs) < perblock fs * perblock fs := by
      rcases Nat.lt_or_ge fs.sblock.log2BlockSize 8 with hsmall | hlarge
      · rw [doubleEnd_eq fs (by omega)] at hdouble
        omega
      · rw [doubleEnd_wraps fs hlarge hlog] at hdouble
        omega
    simp only [List.mem_cons, List.not_mem_nil, or_false, forall_eq_or_imp, forall_eq]
    exact ⟨Nat.div_lt_of_lt_mul hlt, hmod _⟩
  · have hfirst : (f - tripleStart fs) / perblockParent fs < perblock fs := by
      apply div_lt_of_le hpos
      intro hparent
      rcases Nat.lt_or_ge fs.sblock.log2BlockSize 7 with hsmall | hlarge
      · have hcube := Nat.mul_pos (Nat.mul_pos hpos hpos) hpos
        rw [perblockParent_eq fs (by omega), tripleStart_eq fs (by omega)]
        omega
      · have hseven : fs.sblock.log2BlockSize = 7 := by
          by_contra hne
          exact hparent (perblockParent_wraps fs (by omega))
        rw [perblockParent_eq fs (by omega), perblock_pow, hseven]
        omega
    simp only [List.mem_cons, List.not_mem_nil, or_false, forall_eq_or_imp, forall_eq]
    exact ⟨hfirst, hmod _, hmod _⟩

/-- The answer of the image for a file block without extents. -/
def storedBlock (fs : ExtFilesystem) (inode : Ext2Inode) (f : ℕ) : ℤ :=
  let way := descentTo fs (freshNode inode) f
  storedResult fs way.failed way.table (way.indices.map Prod.snd)

/-- The nodes that runs of lookups reach. A step may fail, but no read of it
fails over a cache that holds a table. -/
inductive Visited (fs : ExtFilesystem) (fuel : ℕ) (inode : Ext2Inode) : Ext2fsNode → Prop
  | start (node : Ext2fsNode) (hinode : node.inode = inode) (hfresh : Fresh node) :
      Visited fs fuel inode node
  | lookup (node node' : Ext2fsNode) (f : ℕ) (r : ℤ) (log log' : Log)
      (hnode : Visited fs fuel inode node) (hharmless : LookupHarmless fs node f log)
      (hrun : readAllocatedBlock1 fs fuel node f log = .ok ((r, node'), log')) :
      Visited fs fuel inode node'

section Mounted
variable (fs : ExtFilesystem) (hpart : fs.devDesc.off + fs.devDesc.length < 2 ^ 63)
  (hlog : fs.sblock.log2BlockSize ≤ 20) (hblksz : fs.blksz = 0) (fuel : ℕ)
include hpart hlog hblksz

theorem lookup_sound (node : Ext2fsNode) (hnode : NodeSound fs node) (f : ℕ) (log : Log)
    (hharmless : LookupHarmless fs node f log) :
    OnReturn (readAllocatedBlock1 fs (fuel + 2) node f) log fun r _ =>
      NodeSound fs r.2 ∧ r.2.inode = node.inode := by
  intro r log' hrun
  cases hflags : node.inode.extents with
  | true =>
    rw [mounted_extent_run fs hlog hblksz node hflags f fuel log] at hrun
    cases hrun
    exact ⟨hnode, rfl⟩
  | false =>
    by_cases hdivides : DividesByZero fs f
    · rw [readAllocatedBlock1_divides fs hpart hlog (fuel + 2) node hflags f hdivides log] at hrun
      dsimp only at hrun
      split at hrun
      · cases hrun
      · cases hrun
        have hready := refilled_ready fs _ hnode.indir1.ready node.inode.tripleIndirBlock
          node.inode.tripleIndirBlock log ?_
        · exact ⟨⟨fun _ => hready, hnode.indir2, hnode.indir3⟩, rfl⟩
        intro hmiss hin hfails
        have hway := hharmless hflags
        have hsingle := hdivides.2.1
        have htriple := hdivides.2.2
        rw [descentTo, if_neg (by omega), if_neg (by omega), if_neg (by omega)] at hway
        unfold Harmless at hway
        simp only [if_neg hmiss, if_pos hfails] at hway
        exact hway hin
    · rw [readAllocatedBlock1_run fs hpart hlog (fuel + 2) node hflags f hdivides log] at hrun
      cases hrun
      refine ⟨withCaches_sound fs node hnode _ ?_, withCaches_inode node _⟩
      exact descend_sound fs _ _ _ _ _ log (hnode.caches f) (hharmless hflags)

theorem visited_sound (inode : Ext2Inode) (node : Ext2fsNode)
    (h : Visited fs (fuel + 2) inode node) : node.inode = inode ∧ NodeSound fs node := by
  induction h with
  | start node hinode hfresh => exact ⟨hinode, fresh_sound fs node hfresh⟩
  | lookup node node' f r log log' _ hharmless hrun ih =>
    obtain ⟨hsound, hinode⟩ :=
      lookup_sound fs hpart hlog hblksz fuel node ih.2 f log hharmless _ _ hrun
    exact ⟨hinode.trans ih.1, hsound⟩

omit hblksz in
/-- A lookup that divides by 0 returns only where the first table is out of reach. -/
theorem divides_value (node : Ext2fsNode) (hflags : node.inode.extents = false) (f : ℕ)
    (hdivides : DividesByZero fs f) (log log' : Log) (r : ℤ) (node' : Ext2fsNode)
    (hrun : readAllocatedBlock1 fs fuel node f log = .ok ((r, node'), log'))
    (hreads : Succeeded fs.devDesc.disk log log') : r = storedBlock fs node.inode f := by
  have hway : descentTo fs (freshNode node.inode) f = _ := if_neg (by have := hdivides.2.1; omega)
  rw [if_neg (by have := hdivides.2.1; omega), if_neg (by have := hdivides.2.2; omega)] at hway
  rw [readAllocatedBlock1_divides fs hpart hlog fuel node hflags f hdivides log] at hrun
  unfold storedBlock
  rw [hway]
  dsimp only at hrun ⊢
  simp only [List.map_cons, storedResult]
  unfold refilled at hrun
  by_cases hhit : Hit fs (allocCache fs node.indir1) node.inode.tripleIndirBlock
  · simp only [if_pos hhit, if_true] at hrun
    cases hrun
  simp only [if_neg hhit] at hrun
  by_cases hin : InReach fs node.inode.tripleIndirBlock
  · rw [if_neg (not_not_intro hin)] at hrun
    by_cases hfails : fs.devDesc.disk.fails log (tableRequest fs node.inode.tripleIndirBlock) = true
    · simp only [if_pos hfails, Bool.false_eq_true, if_false] at hrun
      cases hrun
      have hread := (succeeded_append fs.devDesc.disk log _ [] hreads).2
      exact absurd hfails (Bool.eq_false_iff.mp hread)
    · simp only [if_neg hfails, if_true] at hrun
      cases hrun
  · simp only [if_pos hin, Bool.false_eq_true, if_false] at hrun
    cases hrun
    exact (if_neg hin).symm

/-- A lookup on sound caches whose own reads succeed answers what the image says. -/
theorem lookup_value (node : Ext2fsNode) (hnode : NodeSound fs node) (f : ℕ)
    (hf : node.inode.extents = false → LookupMatched fs node f ∧ f < 2 ^ 31 ∧
      f < 12 + perblock fs + perblock fs * perblock fs +
        perblock fs * perblock fs * perblock fs)
    (log log' : Log) (r : ℤ) (node' : Ext2fsNode)
    (hrun : readAllocatedBlock1 fs (fuel + 2) node f log = .ok ((r, node'), log'))
    (hreads : Succeeded fs.devDesc.disk log log') :
    r = if node.inode.extents then rootAnswer node.inode.b f
      else storedBlock fs node.inode f := by
  cases hflags : node.inode.extents with
  | true =>
    rw [mounted_extent_run fs hlog hblksz node hflags f fuel log] at hrun
    cases hrun
    rfl
  | false =>
    obtain ⟨hmatched, hint, hlimit⟩ := hf hflags
    simp only [Bool.false_eq_true, if_false]
    by_cases hdivides : DividesByZero fs f
    · exact divides_value fs hpart hlog _ node hflags f hdivides log log' r node' hrun hreads
    rw [readAllocatedBlock1_run fs hpart hlog (fuel + 2) node hflags f hdivides log] at hrun
    cases hrun
    have hlen := descentTo_length fs node f
    obtain ⟨htable, hpairs, hfailed⟩ := descentTo_inode fs (freshNode node.inode) node rfl f
    simp only [storedBlock, htable, hpairs, hfailed]
    exact descend_value fs _ _ _ _ _ log (hnode.caches f) hmatched (Nat.le_of_eq hlen)
      (descentTo_lt fs hlog node f hint hlimit) hreads

end Mounted

/-- In every run whose failing reads meet empty caches, the keys of the caches
hold, and a lookup whose own reads succeed answers as on a fresh node. -/
theorem visited_keys_hold (past : Bytes) (part : PartDescr) (log₀ log₁ : Log)
    (fs : ExtFilesystem) (root : Ext2fsNode)
    (hmount : ext4fsMount past part log₀ = .ok (some (fs, root), log₁))
    (hpart : part.off + part.length < 2 ^ 63) (fuel : ℕ) (inode : Ext2Inode) (node : Ext2fsNode)
    (h : Visited fs (fuel + 2) inode node) :
    (KeyHolds fs node.indir1 ∧ KeyHolds fs node.indir2 ∧ KeyHolds fs node.indir3) ∧
      ∀ f : ℕ, (inode.extents = false → LookupMatched fs node f ∧ f < 2 ^ 31 ∧
          f < 12 + perblock fs + perblock fs * perblock fs +
            perblock fs * perblock fs * perblock fs) →
        ∀ log log' r node', readAllocatedBlock1 fs (fuel + 2) node f log = .ok ((r, node'), log') →
          Succeeded part.disk log log' →
        ∀ fresh log₂ log₂' r' fresh', Fresh fresh → fresh.inode = inode →
          readAllocatedBlock1 fs (fuel + 2) fresh f log₂ = .ok ((r', fresh'), log₂') →
          Succeeded part.disk log₂ log₂' → r = r' := by
  have hmounted := ext4fsMount_mounted past part log₀ log₁ fs root hmount
  have hlog := hmounted.shifts
  have hblksz := hmounted.blksz
  have hdev := hmounted.devDesc
  subst hdev
  obtain ⟨rfl, hsound⟩ := visited_sound fs hpart hlog hblksz fuel inode node h
  refine ⟨⟨hsound.indir1.keyHolds, hsound.indir2.keyHolds, hsound.indir3.keyHolds⟩, ?_⟩
  intro f hf log log' r node' hrun hreads fresh log₂ log₂' r' fresh' hfresh hinode hrun' hreads'
  have hwarm := lookup_value fs hpart hlog hblksz fuel node hsound f hf log log' r node' hrun hreads
  have hcold := lookup_value fs hpart hlog hblksz fuel fresh (fresh_sound fs fresh hfresh) f
    (fun hflags => ⟨fresh_matched fs fresh hfresh f, (hf (by rw [← hinode]; exact hflags)).2⟩)
    log₂ log₂' r' fresh' hrun' hreads'
  rw [hwarm, hcold, hinode]

/-- Block 5 is the table behind the single indirect pointer of the root, block 6
the one behind its double indirect pointer. Block 6 cannot be read. -/
def brokenImage : Bytes := fun b =>
  match b with
  | 1044 => 1
  | 1064 => 8
  | 1080 => 0x53
  | 1081 => 0xef
  | 2056 => 3
  | 3288 => 5
  | 3292 => 6
  | 5120 => 7
  | _ => 0

def brokenPart : PartDescr := ⟨oneBadSector brokenImage 12, 0, 16⟩

/-- The answers to a sequence of lookups, and the node and the reads after them. -/
def lookups (fs : ExtFilesystem) : Ext2fsNode → Log → List ℕ → Option (List ℤ × Ext2fsNode × Log)
  | node, log, [] => some ([], node, log)
  | node, log, f :: rest =>
    match readAllocatedBlock1 fs 2 node f log with
    | .ok ((r, node'), log') =>
      (lookups fs node' log' rest).map fun (rs, last) => (r :: rs, last)
    | .error _ => none

theorem lookups_cons (fs : ExtFilesystem) (node : Ext2fsNode) (log : Log) (f : ℕ)
    (rest : List ℕ) (r : ℤ) (rs : List ℤ) (last : Ext2fsNode × Log)
    (h : lookups fs node log (f :: rest) = some (r :: rs, last)) :
    ∃ node' log', readAllocatedBlock1 fs 2 node f log = .ok ((r, node'), log') ∧
      lookups fs node' log' rest = some (rs, last) := by
  unfold lookups at h
  split at h
  · rename_i r' node' log' hrun
    cases hrest : lookups fs node' log' rest with
    | none => simp [hrest] at h
    | some res =>
      simp only [hrest, Option.map_some, Option.some.injEq, Prod.mk.injEq, List.cons.injEq] at h
      obtain ⟨⟨rfl, rfl⟩, rfl⟩ := h
      exact ⟨node', log', hrun, hrest⟩
  · exact absurd h (by simp)

/-- The facts about the mounted file system that the two examples rest on. -/
def BrokenMount (fs : ExtFilesystem) (root : Ext2fsNode) (log : Log) : Prop :=
  perblock fs = 256 ∧
  (lookups fs root log [268]).map (fun r => (r.1, r.2.2)) = some ([-1], ⟨12, 2⟩ :: log) ∧
  (lookups fs root log [12]).map (fun r => (r.1, r.2.2)) = some ([7], ⟨10, 2⟩ :: log) ∧
  (lookups fs root log [268, 12]).map (fun r => (r.1, r.2.2)) =
    some ([-1, 7], ⟨10, 2⟩ :: ⟨12, 2⟩ :: log) ∧
  (lookups fs root log [12, 268, 12]).map Prod.fst = some [7, -1, 0] ∧
  (lookups fs root log [12, 268]).map (fun r =>
    (r.1, r.2.1.indir1.block.isSome, r.2.1.indir1.blkno, IndirCache.mem r.2.1.indir1 0)) =
    some ([7, -1], true, 10, 0)

instance (fs : ExtFilesystem) (root : Ext2fsNode) (log : Log) :
    Decidable (BrokenMount fs root log) := by
  unfold BrokenMount
  infer_instance

theorem brokenPart_mounts :
    ∃ fs root log, ext4fsMount (fun _ => 0) brokenPart [] = .ok (some (fs, root), log) ∧
      BrokenMount fs root log := by
  apply mount_of_check
  decide +kernel

/-- The root as it is mounted is a node without tables. -/
theorem mounted_fresh {part : PartDescr} {fs : ExtFilesystem} {root : Ext2fsNode}
    (h : Mounted part fs root) : Fresh root := ⟨h.indir1, h.indir2, h.indir3⟩

/-- A lookup in the double indirect range fails first. Then file block 12 is
looked up with a read that succeeds, and the answer is that of the root itself. -/
theorem visited_keys_hold_after_failure :
    ∃ fs root log node log' r, ext4fsMount (fun _ => 0) brokenPart [] = .ok (some (fs, root), log) ∧
      readAllocatedBlock1 fs 2 root (268 : ℕ) log = .ok ((-1, node), log') ∧
      KeyHolds fs node.indir1 ∧
      Yields (readAllocatedBlock1 fs 2 node (12 : ℕ)) log' (fun a _ => a.1 = r) ∧
      Yields (readAllocatedBlock1 fs 2 root (12 : ℕ)) log (fun a _ => a.1 = r) := by
  obtain ⟨fs, root, log, hmount, hper, hone, hcold, hwarm, -, -⟩ := brokenPart_mounts
  have hmounted := ext4fsMount_mounted _ _ _ _ _ _ hmount
  have hpart : fs.devDesc.off + fs.devDesc.length < 2 ^ 63 := by
    rw [hmounted.devDesc]
    decide
  simp only [Option.map_eq_some_iff, Prod.mk.injEq] at hone hcold hwarm
  obtain ⟨⟨rs₁, last₁⟩, hone, rfl, hlast₁⟩ := hone
  obtain ⟨⟨rs, last⟩, hcold, rfl, hlast⟩ := hcold
  obtain ⟨⟨rs', last'⟩, hwarm, rfl, hlast'⟩ := hwarm
  obtain ⟨fresh', log₂, hcoldRun, hcoldEnd⟩ := lookups_cons fs root log 12 [] 7 [] last hcold
  obtain ⟨node, log', hfail, hnext⟩ := lookups_cons fs root log 268 [12] (-1) [7] last' hwarm
  obtain ⟨node₁, log₁, hfail₁, hend₁⟩ := lookups_cons fs root log 268 [] (-1) [] last₁ hone
  obtain ⟨node', log'', hrun, hend⟩ := lookups_cons fs node log' 12 [] 7 [] last' hnext
  cases hfail.symm.trans hfail₁
  cases hcoldEnd
  cases hend
  cases hend₁
  dsimp only at hlast hlast' hlast₁
  subst hlast hlast' hlast₁
  have hvisited := Visited.lookup root node 268 (-1) log _
    (Visited.start root rfl (mounted_fresh hmounted))
    (fresh_harmless fs root (mounted_fresh hmounted) 268 log) hfail
  obtain ⟨hinode, hsound⟩ :=
    visited_sound fs hpart hmounted.shifts hmounted.blksz 0 root.inode node hvisited
  obtain ⟨⟨hkey, -⟩, hsame⟩ := visited_keys_hold _ brokenPart _ _ fs root hmount (by decide) 0
    root.inode node hvisited
  have hvalue := hsame 12
    (fun _ => ⟨lookupMatched_of_lt fs node 12 (hsound.caches 12) (by omega), by omega, by omega⟩)
    _ _ 7 node' hrun (Succeeded.read _ _ Succeeded.none rfl) root _ _ 7 fresh'
    (mounted_fresh hmounted) rfl hcoldRun (Succeeded.read _ _ Succeeded.none rfl)
  exact ⟨fs, root, log, node, _, 7, hmount, hfail, hkey, ⟨_, _, hrun, hvalue⟩,
    ⟨_, _, hcoldRun, rfl⟩⟩

/-- A lookup in the double indirect range fails after one in the single indirect
range. The key of the first table then stands for zeros, and the next lookup of
file block 12 answers 0 instead of 7. -/
theorem failed_lookup_spoils_cache :
    ∃ fs root log node log', ext4fsMount (fun _ => 0) brokenPart [] = .ok (some (fs, root), log) ∧
      lookups fs root log [12, 268] = some ([7, -1], node, log') ∧ ¬ KeyHolds fs node.indir1 ∧
      (lookups fs root log [12, 268, 12]).map Prod.fst = some [7, -1, 0] ∧
      (lookups fs root log [12]).map Prod.fst = some [7] := by
  obtain ⟨fs, root, log, hmount, -, -, hcold, -, hthree, htwo⟩ := brokenPart_mounts
  have hdev := (ext4fsMount_mounted _ _ _ _ _ _ hmount).devDesc
  simp only [Option.map_eq_some_iff, Prod.mk.injEq] at hcold htwo
  obtain ⟨first, hcold, hfirst, -⟩ := hcold
  obtain ⟨⟨rs, node, log'⟩, htwo, rfl, hsome, hkey, hmem⟩ := htwo
  refine ⟨fs, root, log, node, log', hmount, htwo, ?_, hthree, ?_⟩
  · intro hholds
    have hbyte := hholds hsome (by rw [hkey]; decide) 0 (ext2BlockSize_pos fs)
    rw [hmem, hkey, hdev] at hbyte
    exact absurd hbyte (by decide +kernel)
  · rw [hcold, Option.map_some, hfirst]

end Eokan.FailedLookups
