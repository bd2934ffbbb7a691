import Eokan.BlockMap

/-!
The walk over the indirect tables of an inode, read from the content of the
partition alone: the path to a file block, the pointers met on it, and where
the walk of the code gives up.
-/
namespace Eokan.IndirectWalk

open ByteMem CInt Programs Device Devread Layout BlockMap

/-- Pointers in a block. -/
def perblock (fs : ExtFilesystem) : ℕ := ext2BlockSize fs / 4

theorem ext2BlockSize_perblock (fs : ExtFilesystem) : ext2BlockSize fs = 4 * perblock fs := by
  have hsize := ext2BlockSize_eq fs
  unfold perblock
  omega

theorem perblock_pos (fs : ExtFilesystem) : 0 < perblock fs := by
  have hsize := ext2BlockSize_eq fs
  have htwo := two_le_blockSectors fs
  unfold perblock
  omega

theorem perblock_int (fs : ExtFilesystem) : (ext2BlockSize fs : ℤ) / 4 = perblock fs := by
  unfold perblock
  omega

theorem perblock_pow (fs : ExtFilesystem) : perblock fs = 2 ^ (fs.sblock.log2BlockSize + 8) := by
  unfold perblock ext2BlockSize
  rw [show fs.sblock.log2BlockSize + 10 = fs.sblock.log2BlockSize + 8 + 2 by omega, Nat.pow_add]
  omega

theorem perblock_le {fs : ExtFilesystem} (k : ℕ) (h : fs.sblock.log2BlockSize ≤ k) :
    perblock fs ≤ 2 ^ (k + 8) := by
  rw [perblock_pow]
  exact Nat.pow_le_pow_right (by decide) (by omega)

theorem perblock_mul_succ (fs : ExtFilesystem) : (perblock fs : ℤ) * (perblock fs + 1) =
    (perblock fs * perblock fs + perblock fs : ℕ) := by
  rw [Int.mul_add, Int.mul_one, Int.natCast_add, Int.natCast_mul]

/-- The product of the double indirect bound fits up to blocks of 128 KiB ... -/
theorem doubleEnd_eq (fs : ExtFilesystem) (hlog : fs.sblock.log2BlockSize ≤ 7) :
    doubleEnd fs = (12 + perblock fs + perblock fs * perblock fs : ℕ) := by
  have hle := perblock_le 7 hlog
  have hsquare := Nat.mul_le_mul hle hle
  have hfits : int32 (perblock fs * perblock fs + perblock fs : ℕ) =
      (perblock fs * perblock fs + perblock fs : ℕ) := int32_of_nat _ (by omega) (by omega)
  unfold doubleEnd
  dsimp only
  rw [perblock_int, perblock_mul_succ, hfits, int32_of_nat _ (by omega) (by omega)]
  omega

theorem perblockParent_eq (fs : ExtFilesystem) (hlog : fs.sblock.log2BlockSize ≤ 7) :
    perblockParent fs = perblock fs * perblock fs := by
  have hle := perblock_le 7 hlog
  have hsquare := Nat.mul_le_mul hle hle
  unfold perblockParent
  dsimp only
  rw [perblock_int, ← Int.natCast_mul, int32_of_nat _ (by omega) (by omega), Int.toNat_natCast]

/-- ... and the one of the triple indirect case up to 64 KiB. -/
theorem tripleStart_eq (fs : ExtFilesystem) (hlog : fs.sblock.log2BlockSize ≤ 6) :
    tripleStart fs = 12 + perblock fs + perblock fs * perblock fs := by
  have hle := perblock_le 6 hlog
  have hsquare := Nat.mul_le_mul hle hle
  have hprod : (perblock fs : ℤ) * (ext2BlockSize fs : ℤ) =
      (4 * (perblock fs * perblock fs) : ℕ) := by
    rw [ext2BlockSize_perblock, ← Int.natCast_mul, Nat.mul_left_comm]
  have hfits : int32 (4 * (perblock fs * perblock fs) : ℕ) =
      (4 * (perblock fs * perblock fs) : ℕ) :=
    int32_of_nat _ (by omega) (by omega)
  unfold tripleStart
  dsimp only
  rw [perblock_int, hprod, hfits, Int.tdiv_eq_ediv_of_nonneg (by omega),
    int32_of_nat _ (by omega) (by omega)]
  omega

/-- For larger blocks nothing is left of the square. -/
theorem perblock_square_wraps (fs : ExtFilesystem) (hlog : 8 ≤ fs.sblock.log2BlockSize) :
    2 ^ 32 ∣ perblock fs * perblock fs := by
  rw [perblock_pow, ← Nat.pow_add]
  exact Nat.pow_dvd_pow 2 (by omega)

theorem doubleEnd_wraps (fs : ExtFilesystem) (hlog : 8 ≤ fs.sblock.log2BlockSize)
    (hmax : fs.sblock.log2BlockSize ≤ 20) : doubleEnd fs = (12 + perblock fs : ℕ) := by
  have hle := perblock_le 20 hmax
  obtain ⟨k, hk⟩ := perblock_square_wraps fs hlog
  unfold doubleEnd
  dsimp only
  rw [perblock_int, perblock_mul_succ, hk]
  unfold int32
  omega

theorem perblockParent_wraps (fs : ExtFilesystem) (hlog : 8 ≤ fs.sblock.log2BlockSize) :
    perblockParent fs = 0 := by
  obtain ⟨k, hk⟩ := perblock_square_wraps fs hlog
  unfold perblockParent
  dsimp only
  rw [perblock_int, ← Int.natCast_mul, hk]
  unfold int32
  omega

/-- Word i of the table in block t. -/
def tableEntry (fs : ExtFilesystem) (t i : ℕ) : ℕ :=
  le32 fs.devDesc.bytes (t * ext2BlockSize fs + 4 * i)

/-- The table in block t lies in the partition, at a sector that an `int` holds. -/
def TableReadable (fs : ExtFilesystem) (t : ℕ) : Prop :=
  Readable fs.devDesc (t * blockSectors fs : ℕ) 0 (ext2BlockSize fs)

instance (fs : ExtFilesystem) (t : ℕ) : Decidable (TableReadable fs t) := by
  unfold TableReadable
  infer_instance

/-- Where the pointer to a file block stands: a slot of the inode and an index
into each table from there on. -/
def path (p f : ℕ) : ℕ × List ℕ :=
  if f < 12 then (f, [])
  else if f < 12 + p then (12, [f - 12])
  else if f < 12 + p + p * p then
    (13, [(f - (12 + p)) / p, (f - (12 + p)) % p])
  else
    (14, [(f - (12 + p + p * p)) / (p * p), (f - (12 + p + p * p)) / p % p,
      (f - (12 + p + p * p)) % p])

theorem path_triple (p f : ℕ) (hf : 12 + p + p * p ≤ f) :
    path p f = (14, [(f - (12 + p + p * p)) / (p * p), (f - (12 + p + p * p)) / p % p,
      (f - (12 + p + p * p)) % p]) := by
  unfold path
  rw [if_neg (by omega), if_neg (by omega), if_neg (by omega)]

theorem path_single_length (p f : ℕ) (h : (path p f).1 = 12) : (path p f).2.length ≤ 1 := by
  unfold path at h ⊢
  by_cases hdirect : f < 12
  · rw [if_pos hdirect]
    exact Nat.zero_le 1
  by_cases hsingle : f < 12 + p
  · rw [if_neg hdirect, if_pos hsingle]
    exact Nat.le_refl 1
  rw [if_neg hdirect, if_neg hsingle] at h
  by_cases hpair : f < 12 + p + p * p
  · simp only [if_pos hpair] at h
    omega
  · simp only [if_neg hpair] at h
    omega

/-- The pointer an inode starts the walk to file block f with. -/
def slotPointer (fs : ExtFilesystem) (inode : Ext2Inode) (f : ℕ) : ℕ :=
  inode.dirBlock (path (perblock fs) f).1

def indices (fs : ExtFilesystem) (f : ℕ) : List ℕ := (path (perblock fs) f).2

/-- The pointers met from pointer t on, the last of them being the block. -/
def pointers (fs : ExtFilesystem) : ℕ → List ℕ → List ℕ
  | t, [] => [t]
  | t, i :: is => t :: pointers fs (tableEntry fs t i) is

/-- The pointer at the end of the walk. -/
def walk (fs : ExtFilesystem) (t : ℕ) (is : List ℕ) : ℕ := is.foldl (tableEntry fs) t

/-- The walk of the code, which gives up at a table it cannot read. -/
def walkResult (fs : ExtFilesystem) (failed : ℤ) : ℕ → List ℕ → ℤ
  | t, [] => int32 t
  | t, i :: is =>
    if TableReadable fs t then walkResult fs failed (tableEntry fs t i) is else failed

/-- What a lookup of file block f answers: a single indirect table that cannot
be read counts as a hole, any other one is an error. -/
def mappedBlock (fs : ExtFilesystem) (inode : Ext2Inode) (f : ℕ) : ℤ :=
  walkResult fs (if (path (perblock fs) f).1 = 12 then 0 else -1) (slotPointer fs inode f)
    (indices fs f)

/-- The sectors of the tables met are numbers of 32 bits. -/
def Narrow (fs : ExtFilesystem) : ℕ → List ℕ → Prop
  | _, [] => True
  | t, i :: is =>
    t * blockSectors fs < 2 ^ 32 ∧ (TableReadable fs t → Narrow fs (tableEntry fs t i) is)

theorem pointers_ne_nil (fs : ExtFilesystem) (t : ℕ) (is : List ℕ) : pointers fs t is ≠ [] := by
  cases is with
  | nil => exact List.cons_ne_nil _ _
  | cons i is => exact List.cons_ne_nil _ _

/-- All pointers but the last lead to tables. -/
theorem dropLast_pointers (fs : ExtFilesystem) (t i : ℕ) (is : List ℕ) :
    (pointers fs t (i :: is)).dropLast = t :: (pointers fs (tableEntry fs t i) is).dropLast :=
  List.dropLast_cons_of_ne_nil (pointers_ne_nil fs _ is)

theorem indices_lt (fs : ExtFilesystem) (f : ℕ)
    (hf : f < 12 + perblock fs + perblock fs * perblock fs +
      perblock fs * perblock fs * perblock fs) :
    ∀ i ∈ indices fs f, i < perblock fs := by
  have hpos := perblock_pos fs
  unfold indices path
  intro i hi
  split at hi
  · exact absurd hi List.not_mem_nil
  · split at hi
    · obtain rfl := List.mem_singleton.mp hi
      omega
    · split at hi
      · rcases List.mem_cons.mp hi with heq | hi
        · rw [heq]
          exact Nat.div_lt_of_lt_mul (by omega)
        · rw [List.mem_singleton.mp hi]
          exact Nat.mod_lt _ hpos
      · rcases List.mem_cons.mp hi with heq | hi
        · rw [heq]
          exact Nat.div_lt_of_lt_mul (by omega)
        · rcases List.mem_cons.mp hi with heq | hi
          · rw [heq]
            exact Nat.mod_lt _ hpos
          · rw [List.mem_singleton.mp hi]
            exact Nat.mod_lt _ hpos

theorem walkResult_eq_walk (fs : ExtFilesystem) (failed : ℤ) (t : ℕ) (is : List ℕ)
    (hread : ∀ u ∈ (pointers fs t is).dropLast, TableReadable fs u) :
    walkResult fs failed t is = int32 (walk fs t is) := by
  induction is generalizing t with
  | nil => rfl
  | cons i is ih =>
    rw [dropLast_pointers] at hread
    unfold walkResult
    rw [if_pos (hread t List.mem_cons_self)]
    exact ih _ fun u hu => hread u (List.mem_cons_of_mem _ hu)

end Eokan.IndirectWalk
