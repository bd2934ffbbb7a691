import Eokan.FailedLookups

/-!
What a lookup answers when a read fails. The answer 0 stands for a hole, and
every read on the way to a block has its own exit for a failure. One of these
exits, that of the single indirect table, is the answer 0.
-/
namespace Eokan.LookupErrors

open ByteMem CInt Programs Device Devread DevreadOutcome Layout BlockMap SortedScan IndirectWalk
open IndirectCache ExtentSearch Mount ExtentTree TableDescent FailedLookups

/-- A table that is needed on the way from pointer `load` on cannot be read. No
table is needed behind a pointer 0, nor where its cache is hit. -/
def ReadFails (fs : ExtFilesystem) : List IndirCache → ℕ → ℕ → List (ℕ × ℕ) → Log → Prop
  | cache :: rest, test, load, (j, i) :: is, log =>
    let cache := allocCache fs cache
    load ≠ 0 ∧
      if Hit fs cache test then
        ReadFails fs rest (IndirCache.entry cache j) (IndirCache.entry cache i) is log
      else
        ¬ InReach fs load ∨ fs.devDesc.disk.fails log (tableRequest fs load) = true ∨
          let cache := loaded fs cache load
          ReadFails fs rest (IndirCache.entry cache j) (IndirCache.entry cache i) is
            (tableRequest fs load :: log)
  | _, _, _, _, _ => False

/-- The pointers on the way, each from the table that the code reads for the last. -/
def storedPointers (fs : ExtFilesystem) : ℕ → List ℕ → List ℕ
  | t, [] => [t]
  | t, i :: is => t :: storedPointers fs (storedEntry fs t i) is

/-- The word at the end of the way, where all reads succeed. -/
def lastWord (fs : ExtFilesystem) : List IndirCache → ℕ → ℕ → List (ℕ × ℕ) → ℕ
  | cache :: rest, test, load, (j, i) :: is =>
    let cache := allocCache fs cache
    let cache := if Hit fs cache test then cache else loaded fs cache load
    lastWord fs rest (IndirCache.entry cache j) (IndirCache.entry cache i) is
  | _, _, load, _ => load

/-- Entry i of a leaf is the one that the search for f ends at. -/
def LastUpTo (leaf : Bytes) (f i : ℕ) : Prop :=
  i < ehEntries leaf ∧ (∀ j, j ≤ i → (extentAt leaf j).block ≤ f) ∧
    (i + 1 < ehEntries leaf → f < (extentAt leaf (i + 1)).block)

/-- The leaf maps file block f to block b. -/
def LeafMaps (leaf : Bytes) (f b : ℕ) : Prop :=
  ∃ i, LastUpTo leaf f i ∧ Covers (extentAt leaf i) f ∧
    b = (extentAt leaf i).start + (f - (extentAt leaf i).block)

/-- The products on the way to file block f fit an `int`. For blocks of at most
EXT2_MAX_BLOCK_SIZE they always do. -/
def ProductsFit (fs : ExtFilesystem) (f : ℕ) : Prop :=
  12 + perblock fs ≤ f → perblock fs * (perblock fs + 1) < 2 ^ 31 ∧
    (12 + perblock fs + perblock fs * perblock fs ≤ f → perblock fs * ext2BlockSize fs < 2 ^ 31)

/-- The caches that are looked into hold the tables that their keys name. -/
def WaySound (fs : ExtFilesystem) (node : Ext2fsNode) (f : ℕ) : Prop :=
  ∀ c ∈ (descentTo fs node f).caches, Sound fs c

/-- A failed read is a negative answer, and the answer 0 is a hole. A node below
the root of an extent tree is never read, which has to be an error as well. -/
def Reported (fs : ExtFilesystem) (node : Ext2fsNode) (f : ℕ) (log : Log) (r : ℤ) : Prop :=
  if node.inode.extents then
    (ehDepth node.inode.b ≠ 0 → r < 0) ∧ (r = 0 → ∀ b, LeafMaps node.inode.b f b → b = 0)
  else
    let way := descentTo fs node f
    (ReadFails fs way.caches way.table way.table way.indices log → r < 0) ∧
      (r = 0 → 0 ∈ storedPointers fs way.table (indices fs f))

/-- The single indirect table is needed and cannot be read. -/
def SingleFails (fs : ExtFilesystem) (node : Ext2fsNode) (f : ℕ) (log : Log) : Prop :=
  let table := node.inode.indirBlock
  node.inode.extents = false ∧ (12 ≤ f ∧ f < 12 + perblock fs) ∧ table ≠ 0 ∧
    ¬ Hit fs (allocCache fs node.indir1) table ∧
    (¬ InReach fs table ∨ fs.devDesc.disk.fails log (tableRequest fs table) = true)

/-- No pointer on the way is 0. But behind the second cache lies the number of a
table that the third one holds, and the word of this table is 0. -/
def StrayZero (fs : ExtFilesystem) (node : Ext2fsNode) (f : ℕ) (log : Log) : Prop :=
  let way := descentTo fs node f
  let r := f - (12 + perblock fs + perblock fs * perblock fs)
  let held := allocCache fs node.indir3
  node.inode.extents = false ∧ 12 + perblock fs + perblock fs * perblock fs ≤ f ∧
    perblock fs ≤ r / perblock fs ∧
    ¬ ReadFails fs way.caches way.table way.table way.indices log ∧
    0 ∉ storedPointers fs way.table (indices fs f) ∧
    Hit fs held (IndirCache.entry (allocCache fs node.indir2) (r / perblock fs)) ∧
    IndirCache.entry held (r % perblock fs) = 0

/-- The root maps the file block to a block whose number has 32 zeros at the end. -/
def WrapsToZero (node : Ext2fsNode) (f : ℕ) : Prop :=
  node.inode.extents = true ∧ (ehMagic node.inode.b = ext4ExtMagic ∧ ehDepth node.inode.b = 0) ∧
    ∃ b, LeafMaps node.inode.b f b ∧ b ≠ 0 ∧ 2 ^ 32 ∣ b

section Descents
variable (fs : ExtFilesystem) (failed : ℤ)

/-- A failed read ends the lookup. -/
theorem descend_of_readFails (caches : List IndirCache) (test load : ℕ) (is : List (ℕ × ℕ))
    (log : Log) (h : ReadFails fs caches test load is log) :
    (descend fs failed caches test load is log).1.1 = failed := by
  induction caches generalizing test load is log with
  | nil => exact h.elim
  | cons cache rest ih =>
    rcases is with _ | ⟨⟨j, i⟩, is⟩
    · exact h.elim
    unfold ReadFails at h
    unfold descend refilled
    obtain ⟨-, h⟩ := h
    by_cases hhit : Hit fs (allocCache fs cache) test
    · simp only [if_pos hhit] at h ⊢
      exact ih _ _ is log h
    simp only [if_neg hhit] at h ⊢
    by_cases hin : InReach fs load
    · rw [if_neg (not_not_intro hin)]
      by_cases hfails : fs.devDesc.disk.fails log (tableRequest fs load) = true
      · simp only [if_pos hfails]
        rfl
      · simp only [if_neg hfails]
        rcases h with hout | hread | hbelow
        · exact absurd hin hout
        · exact absurd hread hfails
        · exact ih _ _ is _ hbelow
    · rw [if_pos hin]
      rfl

theorem mem_storedPointers_head (t : ℕ) (is : List ℕ) : t ∈ storedPointers fs t is := by
  cases is with
  | nil => exact List.mem_singleton.mpr rfl
  | cons i is => exact List.mem_cons_self

/-- Where nothing fails and no pointer is 0, the answer is the last word. Tests
and loads may differ at the last level only. -/
theorem descend_of_readable (caches : List IndirCache) (test load : ℕ) (is : List (ℕ × ℕ))
    (log : Log) (hsound : ∀ c ∈ caches, Sound fs c)
    (hsame : test = load ∨ is.length ≤ 1) (haligned : ∀ ji ∈ is.dropLast.dropLast, ji.1 = ji.2)
    (his : ∀ ji ∈ is, ji.2 < perblock fs)
    (hread : ¬ ReadFails fs caches test load is log)
    (hnull : 0 ∉ storedPointers fs load (is.map Prod.snd)) :
    (descend fs failed caches test load is log).1.1 = int32 (lastWord fs caches test load is) := by
  induction caches generalizing test load is log with
  | nil => rfl
  | cons cache rest ih =>
    rcases is with _ | ⟨⟨j, i⟩, is⟩
    · rfl
    have hready := Sound.ready (hsound cache List.mem_cons_self)
    have hrest : ∀ c ∈ rest, Sound fs c := fun c hc => hsound c (List.mem_cons_of_mem _ hc)
    have hi : i < perblock fs := his (j, i) List.mem_cons_self
    have his' : ∀ ji ∈ is, ji.2 < perblock fs := fun ji h => his ji (List.mem_cons_of_mem _ h)
    have hload : load ≠ 0 := by
      rintro rfl
      exact hnull (mem_storedPointers_head fs 0 _)
    -- the next level is the last one, or its test is its load
    have hnext : j = i ∨ is.length ≤ 1 := by
      rcases is with _ | ⟨ji₂, _ | ⟨ji₃, is⟩⟩
      · exact Or.inr (Nat.zero_le 1)
      · exact Or.inr (Nat.le_refl 1)
      · exact Or.inl (haligned (j, i) (by simp [List.dropLast]))
    have haligned' : ∀ ji ∈ is.dropLast.dropLast, ji.1 = ji.2 := by
      intro ji hji
      refine haligned ji ?_
      rcases is with _ | ⟨ji₂, _ | ⟨ji₃, is⟩⟩
      · exact absurd hji List.not_mem_nil
      · exact absurd hji List.not_mem_nil
      · exact List.mem_cons_of_mem _ hji
    simp only [List.map_cons, storedPointers, List.mem_cons, not_or] at hnull
    unfold ReadFails at hread
    unfold descend refilled lastWord
    by_cases hhit : Hit fs (allocCache fs cache) test
    · simp only [if_pos hhit] at hread ⊢
      have hbelow : ¬ ReadFails fs rest (IndirCache.entry (allocCache fs cache) j)
          (IndirCache.entry (allocCache fs cache) i) is log := fun h => hread ⟨hload, h⟩
      rcases hsame with rfl | hlast
      · have hkey := key_of_hit fs _ hready test hhit
        have hentry := (ready_entry fs _ hready test hkey i hi).2
        rw [← hentry] at hnull
        exact ih _ _ is log hrest (hnext.imp_left fun h => by rw [h]) haligned' his' hbelow hnull.2
      · obtain rfl : is = [] := List.length_eq_zero_iff.mp (Nat.le_zero.mp
          (Nat.le_of_succ_le_succ hlast))
        rcases rest with _ | ⟨c, rest⟩ <;> rfl
    simp only [if_neg hhit] at hread ⊢
    have hin : InReach fs load := by
      by_contra hout
      exact hread ⟨hload, Or.inl hout⟩
    have hfails : ¬ fs.devDesc.disk.fails log (tableRequest fs load) = true :=
      fun h => hread ⟨hload, Or.inr (Or.inl h)⟩
    rw [if_neg (not_not_intro hin)]
    simp only [if_neg hfails]
    rw [← loaded_entry fs (allocCache fs cache) load i hi] at hnull
    exact ih _ _ is _ hrest (hnext.imp_left fun h => by rw [h]) haligned' his'
      (fun h => hread ⟨hload, Or.inr (Or.inr h)⟩) hnull.2

/-- Where no test passes for another table, the last word is the last pointer. -/
theorem lastWord_mem (caches : List IndirCache) (test load : ℕ) (is : List (ℕ × ℕ))
    (hsound : ∀ c ∈ caches, Sound fs c) (hmatched : Matched fs caches test load is)
    (his : ∀ ji ∈ is, ji.2 < perblock fs) :
    lastWord fs caches test load is ∈ storedPointers fs load (is.map Prod.snd) := by
  induction caches generalizing test load is with
  | nil => exact mem_storedPointers_head fs load _
  | cons cache rest ih =>
    rcases is with _ | ⟨⟨j, i⟩, is⟩
    · exact mem_storedPointers_head fs load _
    have hready := Sound.ready (hsound cache List.mem_cons_self)
    have hrest : ∀ c ∈ rest, Sound fs c := fun c hc => hsound c (List.mem_cons_of_mem _ hc)
    have hi : i < perblock fs := his (j, i) List.mem_cons_self
    have his' : ∀ ji ∈ is, ji.2 < perblock fs := fun ji h => his ji (List.mem_cons_of_mem _ h)
    unfold Matched at hmatched
    unfold lastWord
    refine List.mem_cons_of_mem _ ?_
    by_cases hhit : Hit fs (allocCache fs cache) test
    · simp only [if_pos hhit] at hmatched ⊢
      obtain ⟨hkey, hmatched⟩ := hmatched
      rw [← (ready_entry fs _ hready load hkey i hi).2]
      exact ih _ _ is hrest hmatched his'
    · simp only [if_neg hhit] at hmatched ⊢
      rw [← loaded_entry fs (allocCache fs cache) load i hi]
      exact ih _ _ is hrest hmatched his'

theorem lastWord_lt (caches : List IndirCache) (test load : ℕ) (is : List (ℕ × ℕ))
    (hload : load < 2 ^ 32) : lastWord fs caches test load is < 2 ^ 32 := by
  induction caches generalizing test load is with
  | nil => exact hload
  | cons cache rest ih =>
    rcases is with _ | ⟨⟨j, i⟩, is⟩
    · exact hload
    · exact ih _ _ is (le32_lt _ _)

end Descents

theorem int32_eq_zero_iff (n : ℕ) (hn : n < 2 ^ 32) : int32 n = 0 ↔ n = 0 := by
  unfold int32
  omega

theorem descentTo_table_lt (fs : ExtFilesystem) (node : Ext2fsNode) (f : ℕ) :
    (descentTo fs node f).table < 2 ^ 32 := by
  unfold descentTo
  dsimp only
  split
  · exact le32_lt _ _
  split
  · exact le32_lt _ _
  split
  · exact le32_lt _ _
  · exact le32_lt _ _

theorem descentTo_aligned (fs : ExtFilesystem) (node : Ext2fsNode) (f : ℕ) :
    ∀ ji ∈ (descentTo fs node f).indices.dropLast.dropLast, ji.1 = ji.2 := by
  unfold descentTo
  dsimp only
  split
  · simp
  split
  · simp
  split
  · simp
  · simp

section Fitting
variable {fs : ExtFilesystem} {node : Ext2fsNode} {f : ℕ} (hfit : ProductsFit fs f)
include hfit

theorem ProductsFit.double (h : 12 + perblock fs ≤ f) : fs.sblock.log2BlockSize ≤ 7 := by
  have hprod := (hfit h).1
  by_contra hlarge
  obtain ⟨k, hk⟩ := perblock_square_wraps fs (by omega)
  have hpos := Nat.mul_pos (perblock_pos fs) (perblock_pos fs)
  rw [Nat.mul_succ] at hprod
  omega

theorem ProductsFit.triple (h : 12 + perblock fs + perblock fs * perblock fs ≤ f) :
    fs.sblock.log2BlockSize ≤ 6 := by
  have hprod := (hfit (by omega)).2 h
  by_contra hlarge
  have hle : 2 ^ (7 + 8) ≤ perblock fs := by
    rw [perblock_pow]
    exact Nat.pow_le_pow_right (by decide) (by omega)
  have hsquare := Nat.mul_le_mul hle hle
  rw [ext2BlockSize_perblock, Nat.mul_left_comm] at hprod
  omega

/-- Where the products fit, the lookup goes the way that the tables are made for. -/
theorem descentTo_triple (h : 12 + perblock fs + perblock fs * perblock fs ≤ f) :
    let p := perblock fs
    let r := f - (12 + p + p * p)
    descentTo fs node f = ⟨[node.indir1, node.indir2, node.indir3], node.inode.tripleIndirBlock,
      [(r / (p * p), r / (p * p)), (r / p, r / p % p), (r % p, r % p)], -1⟩ := by
  have hlog := hfit.triple h
  have hend := doubleEnd_eq fs (by omega)
  unfold descentTo
  dsimp only
  rw [if_neg (by omega), if_neg (by omega), if_neg (by omega), tripleStart_eq fs hlog,
    perblockParent_eq fs (by omega)]

theorem below_triple (h : f < 12 + perblock fs + perblock fs * perblock fs) :
    f < 12 + perblock fs ∨ (f : ℤ) < doubleEnd fs := by
  rcases Nat.lt_or_ge f (12 + perblock fs) with hsingle | hdouble
  · exact Or.inl hsingle
  · have hend := doubleEnd_eq fs (hfit.double hdouble)
    exact Or.inr (by omega)

theorem descentTo_indices : (descentTo fs node f).indices.map Prod.snd = indices fs f := by
  rcases Nat.lt_or_ge f (12 + perblock fs + perblock fs * perblock fs) with hlt | hge
  · have hbelow := below_triple hfit hlt
    unfold descentTo indices path
    dsimp only
    split
    · rfl
    split
    · rfl
    rw [if_pos (hbelow.resolve_left (by omega))]
    rfl
  · rw [descentTo_triple hfit hge, indices, path_triple _ _ hge]
    rfl

theorem not_dividesByZero : ¬ DividesByZero fs f := by
  rintro ⟨hparent, hsingle, -⟩
  rw [perblockParent_eq fs (hfit.double hsingle)] at hparent
  have hpos := Nat.mul_pos (perblock_pos fs) (perblock_pos fs)
  omega

end Fitting

section Words
variable (fs : ExtFilesystem)

/-- A sound cache that is tested for the table it is filled from ends up with its words. -/
theorem passed_entry (cache : IndirCache) (h : Ready fs cache) (t i : ℕ) (hi : i < perblock fs) :
    IndirCache.entry (if Hit fs cache t then cache else loaded fs cache t) i =
      storedEntry fs t i := by
  split
  · rename_i hhit
    exact (ready_entry fs cache h t (key_of_hit fs cache h t hhit) i hi).2
  · exact loaded_entry fs cache t i hi

/-- What lies behind a table is not read from the disk. -/
theorem passed_behind (cache : IndirCache) (t i : ℕ) (hi : perblock fs ≤ i) :
    IndirCache.entry (if Hit fs cache t then cache else loaded fs cache t) i =
      IndirCache.entry cache i := by
  have hper := ext2BlockSize_perblock fs
  split
  · rfl
  · refine le32_congr fun j hj => ?_
    unfold loaded
    rw [mem_some]
    exact write_of_ge _ _ _ _ (by omega)

/-- The last word behind three tables, tested for past the end of the second one. -/
theorem lastWord_stray (a b c : IndirCache) (ha : Sound fs a) (hb : Sound fs b) (t i j k : ℕ)
    (hi : i < perblock fs) (hj : perblock fs ≤ j) (hk : k < perblock fs) :
    lastWord fs [a, b, c] t t [(i, i), (j, j % perblock fs), (k, k)] =
      if Hit fs (allocCache fs c) (IndirCache.entry (allocCache fs b) j) then
        IndirCache.entry (allocCache fs c) k
      else storedEntry fs (storedEntry fs (storedEntry fs t i) (j % perblock fs)) k := by
  have hmod : j % perblock fs < perblock fs := Nat.mod_lt _ (perblock_pos fs)
  simp only [lastWord]
  rw [passed_entry fs _ ha.ready t i hi, passed_entry fs _ hb.ready _ _ hmod,
    passed_behind fs _ _ j hj]
  split
  · rfl
  · exact loaded_entry fs _ _ k hk

end Words

/-- The exit of a failed read is 0 for the single indirect table only. -/
theorem failed_cases (fs : ExtFilesystem) (node : Ext2fsNode) (hflags : node.inode.extents = false)
    (f : ℕ) (log : Log) :
    let way := descentTo fs node f
    ReadFails fs way.caches way.table way.table way.indices log →
      way.failed = 0 ∧ SingleFails fs node f log ∨
        way.failed = -1 ∧ ¬ SingleFails fs node f log := by
  intro way hfails
  unfold SingleFails
  by_cases hdirect : f < 12
  · have hway : way = ⟨[], node.inode.dirBlock f, [], 0⟩ := if_pos hdirect
    rw [hway] at hfails
    exact hfails.elim
  by_cases hsingle : f < 12 + perblock fs
  · have hway : way = ⟨[node.indir1], node.inode.indirBlock, [(f - 12, f - 12)], 0⟩ :=
      (if_neg hdirect).trans (if_pos hsingle)
    rw [hway] at hfails ⊢
    obtain ⟨hnull, hfails⟩ := hfails
    by_cases hhit : Hit fs (allocCache fs node.indir1) node.inode.indirBlock
    · rw [if_pos hhit] at hfails
      exact hfails.elim
    · rw [if_neg hhit] at hfails
      refine Or.inl ⟨rfl, hflags, ⟨by omega, hsingle⟩, hnull, hhit, ?_⟩
      exact hfails.imp_right fun h => h.resolve_right id
  · refine Or.inr ⟨?_, fun h => hsingle h.2.1.2⟩
    change (descentTo fs node f).failed = -1
    unfold descentTo
    dsimp only
    rw [if_neg hdirect, if_neg hsingle]
    split
    · rfl
    · rfl

theorem readFails_of_single (fs : ExtFilesystem) (node : Ext2fsNode) (f : ℕ) (log : Log)
    (h : SingleFails fs node f log) :
    let way := descentTo fs node f
    ReadFails fs way.caches way.table way.table way.indices log := by
  obtain ⟨-, ⟨hlo, hhi⟩, hnull, hmiss, hfails⟩ := h
  intro way
  have hway : way = ⟨[node.indir1], node.inode.indirBlock, [(f - 12, f - 12)], 0⟩ :=
    (if_neg (by omega)).trans (if_pos hhi)
  rw [hway]
  refine ⟨hnull, ?_⟩
  rw [if_neg hmiss]
  exact hfails.imp_right Or.inl

section Leaves
variable (leaf : Bytes) (f : ℕ)

/-- The search ends at the last extent up to f, if there is one. -/
theorem lastUpTo_iff (i : ℕ) : LastUpTo leaf f i ↔ i + 1 = countUpTo leaf f := by
  have hgo := go_of_lt_scanEntries (fun i => (extentAt leaf i).block ≤ f) (ehEntries leaf) 0
  have hstop := not_go_scanEntries (fun i => (extentAt leaf i).block ≤ f) (ehEntries leaf) 0
  have hle := countUpTo_le leaf f
  change ∀ j, 0 ≤ j → j < countUpTo leaf f → _ at hgo
  change countUpTo leaf f < _ → decide ((extentAt leaf (countUpTo leaf f)).block ≤ f) = false
    at hstop
  constructor
  · intro ⟨hi, hall, hnext⟩
    rcases Nat.lt_trichotomy (i + 1) (countUpTo leaf f) with hlt | heq | hgt
    · have hblock := of_decide_eq_true (hgo (i + 1) (Nat.zero_le _) hlt)
      have hbeyond := hnext (by omega)
      omega
    · exact heq
    · have hfalse := of_decide_eq_false (hstop (by omega))
      exact absurd (hall _ (by omega)) hfalse
  · intro hi
    refine ⟨by omega, fun j hj => ?_, fun hlt => ?_⟩
    · exact of_decide_eq_true (hgo j (Nat.zero_le j) (by omega))
    · have hfalse := of_decide_eq_false (hstop (by omega))
      rw [hi]
      omega

/-- The answer of a leaf is 0 where it maps no block, or a block of 32 zeros. -/
theorem findExtent_eq_zero_iff (hf : f < 2 ^ 31) :
    findExtent leaf f = 0 ↔ (∃ i, LastUpTo leaf f i) ∧ ∀ b, LeafMaps leaf f b → 2 ^ 32 ∣ b := by
  rw [findExtent_eq leaf f hf]
  by_cases hnone : countUpTo leaf f = 0
  · rw [if_pos hnone]
    refine iff_of_false (by decide) fun h => ?_
    obtain ⟨⟨i, hi⟩, -⟩ := h
    have hcount := (lastUpTo_iff leaf f i).mp hi
    omega
  obtain ⟨i, hcount⟩ : ∃ i, countUpTo leaf f = i + 1 := ⟨countUpTo leaf f - 1, by omega⟩
  have hlast : LastUpTo leaf f i := (lastUpTo_iff leaf f i).mpr hcount.symm
  have honly : ∀ j, LastUpTo leaf f j → j = i := by
    intro j hj
    have hj := (lastUpTo_iff leaf f j).mp hj
    omega
  have hblock := hlast.2.1 i (Nat.le_refl i)
  have hrel : int32 ((f : ℤ) - (extentAt leaf i).block) = (f - (extentAt leaf i).block : ℕ) := by
    rw [int32_of_nat _ (by omega) (by omega)]
    omega
  rw [hcount, if_neg (Nat.succ_ne_zero i)]
  simp only [Nat.add_sub_cancel, hrel]
  by_cases hcovers : Covers (extentAt leaf i) f
  · have hend := hcovers.2
    rw [if_neg (by omega)]
    have hmaps : ∀ b, LeafMaps leaf f b ↔
        b = (extentAt leaf i).start + (f - (extentAt leaf i).block) := by
      intro b
      constructor
      · intro ⟨j, hj, _, hb⟩
        obtain rfl := honly j hj
        exact hb
      · intro hb
        exact ⟨i, hlast, hcovers, hb⟩
    simp only [hmaps, forall_eq]
    refine Iff.trans ?_ (and_iff_right ⟨i, hlast⟩).symm
    unfold int32
    omega
  · have hfree : ∀ b, ¬ LeafMaps leaf f b := by
      intro b ⟨j, hj, hcov, _⟩
      obtain rfl := honly j hj
      exact hcovers hcov
    have hend : (extentAt leaf i).len ≤ f - (extentAt leaf i).block := by
      unfold Covers at hcovers
      omega
    rw [if_pos (by omega)]
    exact iff_of_true rfl ⟨⟨i, hlast⟩, fun b hb => absurd hb (hfree b)⟩

end Leaves

section Mounted
variable (fs : ExtFilesystem) (hpart : fs.devDesc.off + fs.devDesc.length < 2 ^ 63)
  (hlog : fs.sblock.log2BlockSize ≤ 20) (hblksz : fs.blksz = 0) (fuel : ℕ) (node : Ext2fsNode)
  (f : ℕ)
include hlog

include hblksz in
theorem extents_reported_iff (hflags : node.inode.extents = true) (hf : f < 2 ^ 31)
    (log : Log) :
    Yields (readAllocatedBlock1 fs (fuel + 2) node f) log fun r _ =>
      (Reported fs node f log r.1 ↔ ¬ WrapsToZero node f) := by
  refine Yields.of_run (mounted_extent_run fs hlog hblksz node hflags f fuel log) ?_
  unfold Reported WrapsToZero
  rw [if_pos hflags]
  unfold rootAnswer
  by_cases hroot : ehMagic node.inode.b = ext4ExtMagic ∧ ehDepth node.inode.b = 0
  · rw [if_pos hroot, findExtent_eq_zero_iff _ f hf]
    simp only [hroot, ne_eq, not_true_eq_false, false_implies, true_and, hflags, and_self]
    constructor
    · intro hzero ⟨b, hb, hne, hdvd⟩
      obtain ⟨i, hi, hcovers, heq⟩ := hb
      refine hne (hzero ⟨⟨i, hi⟩, fun b' hb' => ?_⟩ b ⟨i, hi, hcovers, heq⟩)
      obtain ⟨j, hj, -, heq'⟩ := hb'
      have hi := (lastUpTo_iff _ f i).mp hi
      have hj := (lastUpTo_iff _ f j).mp hj
      obtain rfl : i = j := by omega
      rw [heq', ← heq]
      exact hdvd
    · intro hnone hzero b hb
      by_contra hne
      exact hnone ⟨b, hb, hne, hzero.2 b hb⟩
  · rw [if_neg hroot]
    refine iff_of_true ⟨fun _ => show (-2 : ℤ) < 0 by decide,
      fun h => absurd (show (-2 : ℤ) = 0 from h) (by decide)⟩ ?_
    exact fun h => hroot h.2.1

omit hlog in
/-- With sound caches the last word is 0 for a 0 among the pointers, or by chance. -/
theorem lastWord_zero_iff (hsound : WaySound fs node f) (hfit : ProductsFit fs f)
    (his : ∀ ji ∈ (descentTo fs node f).indices, ji.2 < perblock fs)
    (hnull : 0 ∉ storedPointers fs (descentTo fs node f).table (indices fs f)) :
    let way := descentTo fs node f
    let r := f - (12 + perblock fs + perblock fs * perblock fs)
    lastWord fs way.caches way.table way.table way.indices = 0 ↔
      12 + perblock fs + perblock fs * perblock fs ≤ f ∧ perblock fs ≤ r / perblock fs ∧
        Hit fs (allocCache fs node.indir3)
          (IndirCache.entry (allocCache fs node.indir2) (r / perblock fs)) ∧
        IndirCache.entry (allocCache fs node.indir3) (r % perblock fs) = 0 := by
  intro way r
  have hindices : (descentTo fs node f).indices.map Prod.snd = _ := descentTo_indices hfit
  rw [← hindices] at hnull
  have hmatched : LookupMatched fs node f → lastWord fs way.caches way.table way.table
      way.indices ≠ 0 := by
    intro h hzero
    have hmem := lastWord_mem fs _ _ _ _ hsound h his
    exact hnull (hzero ▸ hmem)
  rcases Nat.lt_or_ge f (12 + perblock fs + perblock fs * perblock fs) with hlt | hge
  · refine iff_of_false (hmatched ?_) fun h => by omega
    exact lookupMatched_of_lt fs node f hsound (below_triple hfit hlt)
  have hway : way = _ := descentTo_triple hfit hge
  rcases Nat.lt_or_ge (r / perblock fs) (perblock fs) with hin | hout
  · refine iff_of_false (hmatched ?_) fun h => by omega
    refine matched_of_same fs _ _ _ ?_ hsound
    change ∀ ji ∈ way.indices, _
    rw [hway]
    simpa using (Nat.mod_eq_of_lt hin).symm
  · have hlast := hnull
    change 0 ∉ storedPointers fs way.table (way.indices.map Prod.snd) at hlast
    unfold WaySound at hsound
    change ∀ c ∈ way.caches, _ at hsound
    change ∀ ji ∈ way.indices, _ at his
    rw [hway] at hlast hsound his ⊢
    simp only [List.mem_cons, List.not_mem_nil, or_false, forall_eq_or_imp, forall_eq] at hsound his
    simp only [List.map_cons, List.map_nil, storedPointers, List.mem_cons, List.not_mem_nil,
      or_false, not_or] at hlast
    rw [lastWord_stray fs _ _ _ hsound.1 hsound.2.1 _ _ _ _ his.1 hout his.2.2]
    split
    · rename_i hhit
      simp only [hge, hout, hhit, true_and]
      rfl
    · rename_i hmiss
      refine iff_of_false (fun h => hlast.2.2.2 h.symm) fun h => hmiss h.2.2.1

include hpart in
theorem tables_reported_iff (hflags : node.inode.extents = false) (hsound : WaySound fs node f)
    (hint : f < 2 ^ 31) (hf : f < 12 + perblock fs + perblock fs * perblock fs +
      perblock fs * perblock fs * perblock fs) (hfit : ProductsFit fs f) (log : Log) :
    Yields (readAllocatedBlock1 fs fuel node f) log fun r _ =>
      (Reported fs node f log r.1 ↔ ¬ SingleFails fs node f log ∧ ¬ StrayZero fs node f log) := by
  have his := descentTo_lt fs hlog node f hint hf
  refine ⟨_, _, readAllocatedBlock1_run fs hpart hlog fuel node hflags f (not_dividesByZero hfit)
    log, ?_⟩
  have hcases := failed_cases fs node hflags f log
  have hsingle := readFails_of_single fs node f log
  have hzero := lastWord_zero_iff fs node f hsound hfit his
  unfold Reported StrayZero Descent.run
  simp only [hflags, Bool.false_eq_true, if_false, true_and] at hcases ⊢
  have haligned := descentTo_aligned fs node f
  have htable := descentTo_table_lt fs node f
  have hindices : (descentTo fs node f).indices.map Prod.snd = _ := descentTo_indices hfit
  dsimp only at hzero
  unfold WaySound at hsound
  generalize descentTo fs node f = way at *
  by_cases hfails : ReadFails fs way.caches way.table way.table way.indices log
  · rw [descend_of_readFails fs way.failed _ _ _ _ log hfails]
    simp only [hfails, true_implies, not_true_eq_false, false_and, and_false, not_false_eq_true,
      and_true]
    rcases hcases hfails with ⟨hzero, hone⟩ | ⟨hminus, hnone⟩
    · exact iff_of_false (fun h => by omega) (not_not_intro hone)
    · refine iff_of_true ⟨by omega, fun h => ?_⟩ hnone
      omega
  · have hnotSingle : ¬ SingleFails fs node f log := fun h => hfails (hsingle h)
    simp only [hfails, hnotSingle, false_implies, not_false_eq_true, true_and]
    by_cases hnull : 0 ∈ storedPointers fs way.table (indices fs f)
    · exact iff_of_true (fun _ => hnull) fun h => h.2.2.1 hnull
    · have hstored := hnull
      rw [← hindices] at hstored
      rw [descend_of_readable fs way.failed _ _ _ _ log hsound (Or.inl rfl) haligned his hfails
        hstored, int32_eq_zero_iff _ (lastWord_lt fs _ _ _ _ htable), hzero hnull]
      simp only [hnull, not_false_eq_true, true_and]

end Mounted

/-- Where the caches that are looked into are sound, a failed read is reported
exactly where none of three things happens: the single indirect table fails, a
wrong table is taken for the third one, or the block number of an extent is cut
down to 0. The first and the last are never reported. -/
theorem lookup_reported_iff (past : Bytes) (part : PartDescr) (log₀ log₁ : Log)
    (fs : ExtFilesystem) (root : Ext2fsNode)
    (hmount : ext4fsMount past part log₀ = .ok (some (fs, root), log₁))
    (hpart : part.off + part.length < 2 ^ 63) (fuel : ℕ) (node : Ext2fsNode) (f : ℕ)
    (hint : f < 2 ^ 31)
    (hf : node.inode.extents = false → ProductsFit fs f ∧ f < 12 + perblock fs +
      perblock fs * perblock fs + perblock fs * perblock fs * perblock fs) (log : Log) :
    Yields (readAllocatedBlock1 fs (fuel + 2) node f) log fun r _ =>
      (WaySound fs node f → (Reported fs node f log r.1 ↔
        ¬ SingleFails fs node f log ∧ ¬ StrayZero fs node f log ∧ ¬ WrapsToZero node f)) ∧
      (SingleFails fs node f log ∨ WrapsToZero node f → ¬ Reported fs node f log r.1) := by
  have hmounted := ext4fsMount_mounted past part log₀ log₁ fs root hmount
  have hdev := hmounted.devDesc
  subst hdev
  cases hflags : node.inode.extents with
  | true =>
    refine (extents_reported_iff fs hmounted.shifts hmounted.blksz fuel node f hflags hint
      log).mono ?_
    intro r log' hr
    have hsingle : ¬ SingleFails fs node f log := fun h => by simpa [hflags] using h.1
    have hstray : ¬ StrayZero fs node f log := fun h => by simpa [hflags] using h.1
    simp only [hr, hsingle, hstray, not_false_eq_true, true_and, false_or, not_not, imp_self,
      implies_true]
  | false =>
    obtain ⟨hfit, hlimit⟩ := hf hflags
    have hwraps : ¬ WrapsToZero node f := fun h => by simpa [hflags] using h.1
    have hrun := readAllocatedBlock1_run fs hpart hmounted.shifts (fuel + 2) node hflags f
      (not_dividesByZero hfit) log
    refine ⟨_, _, hrun, fun hsound => ?_, fun hbad => ?_⟩
    · obtain ⟨r, log', hrun', hr⟩ := tables_reported_iff fs hpart hmounted.shifts (fuel + 2) node f
        hflags hsound hint hlimit hfit log
      cases hrun.symm.trans hrun'
      simp only [hr, hwraps, not_false_eq_true, and_true]
    · have hsingle := hbad.resolve_right hwraps
      have hreads := readFails_of_single fs node f log hsingle
      have hzero := ((failed_cases fs node hflags f log hreads).resolve_right
        fun h => h.2 hsingle).1
      unfold Reported Descent.run
      rw [if_neg (by rw [hflags]; decide), descend_of_readFails fs _ _ _ _ _ log hreads, hzero]
      exact fun h => absurd (h.1 hreads) (by decide)

theorem brokenRoot_not_extents :
    ∃ fs root log, ext4fsMount (fun _ => 0) brokenPart [] = .ok (some (fs, root), log) ∧
      perblock fs = 256 ∧ root.inode.extents = false := by
  apply mount_of_check
  decide +kernel

/-- The failed read of the double indirect table is reported. -/
theorem lookup_reported_iff_double :
    ∃ fs root log, ext4fsMount (fun _ => 0) brokenPart [] = .ok (some (fs, root), log) ∧
      Yields (readAllocatedBlock1 fs 2 root (268 : ℕ)) log fun r _ =>
        Reported fs root 268 log r.1 := by
  obtain ⟨fs, root, log, hmount, hper, hflags⟩ := brokenRoot_not_extents
  have hfresh := mounted_fresh (ext4fsMount_mounted _ _ _ _ _ _ hmount)
  refine ⟨fs, root, log, hmount, ?_⟩
  refine (lookup_reported_iff _ brokenPart _ _ fs root hmount (by decide) 0 root 268 (by decide)
    (fun _ => ?_) log).mono ?_
  · unfold ProductsFit
    rw [ext2BlockSize_perblock, hper]
    decide
  intro r log' hr
  have hsound := (fresh_sound fs root hfresh).caches 268
  refine (hr.1 hsound).mpr ⟨fun h => ?_, fun h => ?_, fun h => ?_⟩
  · have hlt := h.2.1.2
    omega
  · have hge := h.2.1
    rw [hper] at hge
    omega
  · simpa [hflags] using h.1

instance (fs : ExtFilesystem) (node : Ext2fsNode) (f : ℕ) (log : Log) :
    Decidable (SingleFails fs node f log) := by
  unfold SingleFails
  infer_instance

/-- The same image with its single indirect table in a bad sector: the lookup of
file block 12 answers 0, a hole. -/
theorem single_failure_is_hole :
    ∃ fs root log, ext4fsMount (fun _ => 0) ⟨oneBadSector brokenImage 10, 0, 16⟩ [] =
        .ok (some (fs, root), log) ∧
      (lookups fs root log [12]).map Prod.fst = some [0] ∧ ¬ Reported fs root 12 log 0 := by
  have hmount : ∃ fs root log, ext4fsMount (fun _ => 0) ⟨oneBadSector brokenImage 10, 0, 16⟩ [] =
      .ok (some (fs, root), log) ∧ SingleFails fs root 12 log ∧
        (lookups fs root log [12]).map Prod.fst = some [0] := by
    apply mount_of_check
    decide +kernel
  obtain ⟨fs, root, log, hrun, hsingle, hzero⟩ := hmount
  refine ⟨fs, root, log, hrun, hzero, ?_⟩
  have hread := readFails_of_single fs root 12 log hsingle
  unfold Reported
  rw [if_neg (by rw [hsingle.1]; decide)]
  intro h
  exact absurd (h.1 hread) (by decide)

end Eokan.LookupErrors
