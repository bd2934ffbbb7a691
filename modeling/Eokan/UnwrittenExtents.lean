import Eokan.ExtentSearch
import Eokan.FileContent
import Eokan.InodePlaces
import Mathlib.Tactic.IntervalCases

/-!
Extents that are allocated and not written. Their length is stored with 32768
added, and their blocks read as zeros. The lookup takes the length as it is
stored, so it maps such blocks, and the ones behind them, to the disk.
-/
namespace Eokan.UnwrittenExtents

open ByteMem CInt Programs Device Devread Layout SortedScan BlockMap ExtentSearch IndirectCache
  ReadFile ReadPlan DeferredReads FileMaps FileContent InodePlaces

def Unwritten (e : Ext4Extent) : Prop := 32768 < e.len

instance (e : Ext4Extent) : Decidable (Unwritten e) := Nat.decLt _ _

/-- The number of blocks of an extent. -/
def coverage (e : Ext4Extent) : ℕ := if Unwritten e then e.len - 32768 else e.len

/-- Block p of the disk belongs to an extent. -/
def Holds (e : Ext4Extent) (p : ℕ) : Prop := e.start ≤ p ∧ p < e.start + coverage e

/-- File block f belongs to extent i of a node, or to the gap behind it. -/
def Governs (node : Bytes) (f i : ℕ) : Prop :=
  i < ehEntries node ∧ (extentAt node i).block ≤ f ∧
    (i + 1 < ehEntries node → f < (extentAt node (i + 1)).block)

/-- An inode whose extents are in order and at places of their own. -/
structure SortedRoot (fs : ExtFilesystem) (inode : Ext2Inode) : Prop where
  flags : inode.extents = true
  magic : ehMagic inode.b = ext4ExtMagic
  depth : ehDepth inode.b = 0
  fits : ehEntries inode.b ≤ 4
  covers : ∀ i, i < ehEntries inode.b → 0 < coverage (extentAt inode.b i)
  ordered : ∀ i j, i < j → j < ehEntries inode.b →
    (extentAt inode.b i).block + coverage (extentAt inode.b i) ≤ (extentAt inode.b j).block
  placed : ∀ i, i < ehEntries inode.b → 0 < (extentAt inode.b i).start ∧
    ((extentAt inode.b i).start + coverage (extentAt inode.b i)) * blockSectors fs ≤
        fs.devDesc.length ∧
      ((extentAt inode.b i).start + coverage (extentAt inode.b i)) * blockSectors fs ≤ 2 ^ 31
  apart : ∀ i j p, i < ehEntries inode.b → j < ehEntries inode.b →
    Holds (extentAt inode.b i) p → Holds (extentAt inode.b j) p → i = j

/-- No written extent has this block of the disk, but an unwritten one has. -/
def OnlyUnwritten (node : Bytes) (p : ℕ) : Prop :=
  (∃ i, i < ehEntries node ∧ Unwritten (extentAt node i) ∧ Holds (extentAt node i) p) ∧
    ∀ i, i < ehEntries node → ¬ Unwritten (extentAt node i) → ¬ Holds (extentAt node i) p

/-- The contents of two disks are the same outside such blocks. -/
def SameBut (fs : ExtFilesystem) (inode : Ext2Inode) (image image' : Bytes) : Prop :=
  ∀ x, image x ≠ image' x → ∃ p q, OnlyUnwritten inode.b p ∧ q < ext2BlockSize fs ∧
    x = fs.devDesc.off * 512 + (p * ext2BlockSize fs + q)

section Lookup
variable {fs : ExtFilesystem} {inode : Ext2Inode} (hroot : SortedRoot fs inode)
include hroot

theorem lt_countUpTo (f i : ℕ) (hi : i < ehEntries inode.b) :
    (extentAt inode.b i).block ≤ f ↔ i < countUpTo inode.b f := by
  refine scanEntries_le_iff (fun i => (extentAt inode.b i).block) _ (fun j k hjk hk => ?_) f i hi
  rcases Nat.eq_or_lt_of_le hjk with rfl | hlt
  · exact Nat.le_refl _
  · have hord := hroot.ordered j k hlt hk
    omega

theorem governs_iff (f i : ℕ) : Governs inode.b f i ↔ countUpTo inode.b f = i + 1 := by
  have hle := countUpTo_le inode.b f
  constructor
  · rintro ⟨hi, hblock, hnext⟩
    have hlt := (lt_countUpTo hroot f i hi).mp hblock
    rcases Nat.lt_or_ge (i + 1) (ehEntries inode.b) with hmore | hlast
    · have hstop := (lt_countUpTo hroot f (i + 1) hmore).not.mp (Nat.not_le_of_lt (hnext hmore))
      omega
    · omega
  · intro heq
    refine ⟨by omega, (lt_countUpTo hroot f i (by omega)).mpr (by omega), fun hmore => ?_⟩
    have hstop := (lt_countUpTo hroot f (i + 1) hmore).not.mpr (by omega)
    omega

theorem governs_of_le {f g i : ℕ} (h : Governs inode.b f i) (hle : f ≤ g) :
    ∃ k, Governs inode.b g k := by
  have hlt := (lt_countUpTo hroot g i h.1).mp (h.2.1.trans hle)
  exact ⟨countUpTo inode.b g - 1, (governs_iff hroot g _).mpr (by omega)⟩

/-- A lookup in the extent a block belongs to, with the stored length. -/
theorem findExtent_governs (f i : ℕ) (hf : f < 2 ^ 31) (h : Governs inode.b f i) :
    findExtent inode.b f =
      if (extentAt inode.b i).block + (extentAt inode.b i).len ≤ f then (0 : ℤ)
      else (((extentAt inode.b i).start + (f - (extentAt inode.b i).block) : ℕ) : ℤ) := by
  have hlen : (extentAt inode.b i).len < 2 ^ 16 := le16_lt _ _
  have hstart : (extentAt inode.b i).start < 2 ^ 30 + 1 := by
    have htwo := two_le_blockSectors fs
    have hplaced := (hroot.placed i h.1).2.2
    rw [Nat.add_mul] at hplaced
    have hmul : (extentAt inode.b i).start * 2 ≤ (extentAt inode.b i).start * blockSectors fs :=
      Nat.mul_le_mul_left _ htwo
    omega
  have hblock := h.2.1
  have hrel : int32 ((f : ℤ) - (extentAt inode.b i).block) =
      (f - (extentAt inode.b i).block : ℕ) := by
    rw [int32_of_nat _ (by omega) (by omega)]
    omega
  rw [findExtent_eq inode.b f hf, (governs_iff hroot f i).mp h, if_neg (Nat.succ_ne_zero i)]
  simp only [Nat.add_sub_cancel, hrel]
  by_cases hfar : (extentAt inode.b i).block + (extentAt inode.b i).len ≤ f
  · rw [if_pos hfar, if_pos (by omega)]
  · rw [if_neg hfar, if_neg (by omega), int32_of_nat _ (by omega) (by omega)]
    omega

/-- A block that is mapped has a sector, whatever extent it belongs to. -/
theorem lookup_sector (hlog : fs.sblock.log2BlockSize ≤ 6) (f i : ℕ) (hf : f < 2 ^ 31)
    (h : Governs inode.b f i) : 0 ≤ findExtent inode.b f ∧
      (sectorOf fs (fun j => findExtent inode.b j) f = 0 ↔ findExtent inode.b f = 0) := by
  rw [sectorOf, findExtent_governs hroot f i hf h]
  by_cases hfar : (extentAt inode.b i).block + (extentAt inode.b i).len ≤ f
  · rw [if_pos hfar, Int.zero_mul, int32_zero]
    exact ⟨Int.le_refl 0, Iff.rfl⟩
  · have hlen : (extentAt inode.b i).len < 2 ^ 16 := le16_lt _ _
    have htwo := two_le_blockSectors fs
    have hbig := blockSectors_le fs hlog
    obtain ⟨hstart, -, hplaced⟩ := hroot.placed i h.1
    rw [Nat.add_mul] at hplaced
    have hrest : (f - (extentAt inode.b i).block) * blockSectors fs ≤ 2 ^ 16 * 2 ^ 7 :=
      Nat.mul_le_mul (by omega) hbig
    have hpos : 0 < (extentAt inode.b i).start * blockSectors fs :=
      Nat.mul_pos hstart (by omega)
    rw [if_neg hfar]
    refine ⟨Int.natCast_nonneg _, ?_⟩
    rw [← Int.natCast_mul, Nat.add_mul]
    generalize (extentAt inode.b i).start * blockSectors fs = x at *
    generalize (f - (extentAt inode.b i).block) * blockSectors fs = y at *
    unfold int32
    omega

theorem findExtent_front (f : ℕ) (hf : f < 2 ^ 31) (h : ¬ ∃ i, Governs inode.b f i) :
    findExtent inode.b f = -1 := by
  have hzero : countUpTo inode.b f = 0 := by
    by_contra hpos
    exact h ⟨countUpTo inode.b f - 1, (governs_iff hroot f _).mpr (by omega)⟩
  rw [findExtent_eq inode.b f hf, if_pos hzero]

end Lookup

/-- The result of a read of this range does not depend on what is in the blocks
that only unwritten extents have, and their part of the range reads as zeros. -/
structure HidesUnwritten (fs : ExtFilesystem) (fuel : ℕ) (inode : Ext2Inode) (pos len : ℕ) :
    Prop where
  independent : ∀ image image', SameBut fs inode image image' → ∀ node, node.inode = inode →
    ∀ buf log log',
      Yields (ext4fsReadFile (withImage fs image) fuel node pos len buf) log fun r _ =>
        Yields (ext4fsReadFile (withImage fs image') fuel node pos len buf) log' fun s _ =>
          s.1 = r.1 ∧ ∀ j, j < min len inode.size → s.2.2 j = r.2.2 j
  zeros : ∀ image node, node.inode = inode → ∀ buf log j i, j < min len inode.size →
    Governs inode.b ((pos + j) / ext2BlockSize fs) i → Unwritten (extentAt inode.b i) →
      Yields (ext4fsReadFile (withImage fs image) fuel node pos len buf) log fun r _ =>
        r.1 = int32 (min len inode.size : ℕ) ∧ r.2.2 j = 0

/-- The blocks of a range that belong to unwritten extents or to the gaps behind
them lie behind the stored length, and the range does not start in front of the
first extent if there is one. -/
def Beyond (fs : ExtFilesystem) (inode : Ext2Inode) (pos len : ℕ) : Prop :=
  ∀ j i, j < min len inode.size → Governs inode.b ((pos + j) / ext2BlockSize fs) i →
    Unwritten (extentAt inode.b i) →
      (extentAt inode.b i).block + (extentAt inode.b i).len ≤ (pos + j) / ext2BlockSize fs ∧
        ∃ k, Governs inode.b (pos / ext2BlockSize fs) k

section Blocks
variable {fs : ExtFilesystem} {inode : Ext2Inode} (hroot : SortedRoot fs inode) {pos n : ℕ}
  (hmax : pos + n ≤ 2 ^ 31)

/-- Every block of a range has a byte of it. -/
theorem exists_byte (i : ℕ) (hfirst : firstBlock fs pos ≤ i) (hi : i < endBlock fs pos n)
    (hn : 0 < n) : ∃ j, j < n ∧ (pos + j) / ext2BlockSize fs = i := by
  have hlt := (endBlock_bounds fs pos n i hi).1
  have hbounds := firstBlock_bounds fs pos
  have hpos := ext2BlockSize_pos fs
  rcases Nat.lt_or_ge pos (i * ext2BlockSize fs) with hlater | hhere
  · refine ⟨i * ext2BlockSize fs - pos, by omega, ?_⟩
    rw [Nat.add_sub_cancel' (Nat.le_of_lt hlater), Nat.mul_div_cancel _ hpos]
  · refine ⟨0, hn, ?_⟩
    have hle : i < firstBlock fs pos + 1 := by
      by_contra hge
      have hmul := Nat.mul_le_mul_right (ext2BlockSize fs) (Nat.le_of_not_lt hge)
      omega
    have heq : i = firstBlock fs pos := by omega
    exact heq.symm

theorem block_small (i : ℕ) (hi : i < endBlock fs pos n) (hmax : pos + n ≤ 2 ^ 31) :
    i < 2 ^ 31 := by
  have hlt := (endBlock_bounds fs pos n i hi).1
  have hone := Nat.le_mul_of_pos_right i (ext2BlockSize_pos fs)
  omega

end Blocks

section Images
variable (fs : ExtFilesystem) (image : Bytes) (map : ℕ → ℤ) (pos n : ℕ)

/-- What is to be done does not depend on the content of the disk. -/
theorem plan_withImage (k i : ℕ) (run : Option Run) :
    plan (withImage fs image) pos n map k i run = plan fs pos n map k i run := by
  induction k generalizing i run with
  | zero => rfl
  | succ k ih =>
    rw [plan_succ, plan_succ, ih, ih, ih]
    rfl

theorem rangePlan_withImage : rangePlan (withImage fs image) pos n map = rangePlan fs pos n map :=
  plan_withImage fs image map pos n _ _ _

end Images

/-- Block i of a map is a hole or a block of a written extent. -/
def WrittenAt (inode : Ext2Inode) (map : ℕ → ℤ) (i : ℕ) : Prop :=
  map i = 0 ∨ ∃ e p, e < ehEntries inode.b ∧ ¬ Unwritten (extentAt inode.b e) ∧
    Holds (extentAt inode.b e) p ∧ (extentAt inode.b e).block ≤ i ∧
      p = (extentAt inode.b e).start + (i - (extentAt inode.b e).block) ∧ map i = p

section Written
variable {fs : ExtFilesystem} {inode : Ext2Inode} (hroot : SortedRoot fs inode) {map : ℕ → ℤ}
  (hwritten : ∀ i, WrittenAt inode map i)
include hroot hwritten

theorem written_inPartition (hsome : 0 < ehEntries inode.b) (count : ℕ) :
    InPartition fs map count := by
  intro i _
  rcases hwritten i with hzero | ⟨e, p, he, -, hholds, -, -, hmap⟩
  · obtain ⟨hstart, hlen, hint⟩ := hroot.placed 0 hsome
    have hle : blockSectors fs ≤
        ((extentAt inode.b 0).start + coverage (extentAt inode.b 0)) * blockSectors fs :=
      Nat.le_mul_of_pos_left _ (by omega)
    rw [hzero, Int.zero_add, Int.one_mul]
    exact ⟨Int.le_refl 0, by exact_mod_cast hle.trans hlen, by exact_mod_cast hle.trans hint⟩
  · obtain ⟨-, hlen, hint⟩ := hroot.placed e he
    have hle : (p + 1) * blockSectors fs ≤
        ((extentAt inode.b e).start + coverage (extentAt inode.b e)) * blockSectors fs :=
      Nat.mul_le_mul_right _ hholds.2
    rw [hmap]
    refine ⟨Int.natCast_nonneg p, ?_, ?_⟩
    · exact_mod_cast hle.trans hlen
    · exact_mod_cast hle.trans hint

theorem written_noRepeat (count : ℕ) : NoRepeat map count := by
  intro i _ hne heq
  rcases hwritten i with hzero | ⟨e, p, he, -, hholds, hblock, hp, hmap⟩
  · exact hne (heq.trans hzero)
  rcases hwritten (i + 1) with hzero | ⟨e', p', he', -, hholds', hblock', hp', hmap'⟩
  · exact hne hzero
  have hsame : p' = p := by
    rw [hmap, hmap'] at heq
    exact Int.natCast_inj.mp heq
  subst hsame
  obtain rfl := hroot.apart e e' p' he he' hholds hholds'
  omega

omit hroot in
/-- Disks that agree outside the unwritten blocks agree on such a file. -/
theorem fileByte_same {image image' : Bytes} (hsame : SameBut fs inode image image') (x : ℕ) :
    fileByte (withImage fs image) map x = fileByte (withImage fs image') map x := by
  have hpos := ext2BlockSize_pos fs
  unfold fileByte
  change (if map (x / ext2BlockSize fs) = 0 then 0 else
      image (fs.devDesc.off * 512 + ((map (x / ext2BlockSize fs)).toNat * ext2BlockSize fs +
        x % ext2BlockSize fs))) =
    if map (x / ext2BlockSize fs) = 0 then 0 else
      image' (fs.devDesc.off * 512 + ((map (x / ext2BlockSize fs)).toNat * ext2BlockSize fs +
        x % ext2BlockSize fs))
  rcases hwritten (x / ext2BlockSize fs) with hzero | ⟨e, p, he, hun, hholds, -, -, hmap⟩
  · rw [if_pos hzero, if_pos hzero]
  · rw [hmap, Int.toNat_natCast]
    split
    · rfl
    · by_contra hdiffers
      obtain ⟨p', q, hstale, hq, hplace⟩ := hsame _ hdiffers
      have hmod := Nat.mod_lt x hpos
      have heq : p * ext2BlockSize fs + x % ext2BlockSize fs = p' * ext2BlockSize fs + q := by
        omega
      have hblock := congrArg (· / ext2BlockSize fs) heq
      simp only [Nat.add_comm (_ * _), Nat.add_mul_div_right _ _ hpos, Nat.div_eq_of_lt hmod,
        Nat.div_eq_of_lt hq, Nat.zero_add] at hblock
      exact hstale.2 e he hun (hblock ▸ hholds)

end Written

section Reads
variable (fs : ExtFilesystem) (hpart : fs.devDesc.off + fs.devDesc.length < 2 ^ 63)
  (hlog : fs.sblock.log2BlockSize ≤ 6) (fuel : ℕ) {inode : Ext2Inode}
  (hroot : SortedRoot fs inode) (pos n : ℕ)

/-- The answers of the lookups for a range. -/
def rangeMap (inode : Ext2Inode) (i : ℕ) : ℤ :=
  if firstBlock fs pos ≤ i ∧ i < endBlock fs pos n then findExtent inode.b i else 0

theorem rangePlan_rangeMap : rangePlan fs pos n (fun i => findExtent inode.b i) =
    rangePlan fs pos n (rangeMap fs pos n inode) := by
  have hle := firstBlock_le_endBlock fs pos n
  refine plan_congr fs pos n _ _ _ _ _ fun j hlo hhi => ?_
  exact (if_pos ⟨hlo, by omega⟩).symm

include hroot

/-- A block of such a range is a hole or belongs to a written extent. -/
theorem block_mapped (hmax : pos + n ≤ 2 ^ 31) (hn : 0 < n) (k : ℕ)
    (hfront : Governs inode.b (firstBlock fs pos) k)
    (hbeyond : ∀ j i, j < n → Governs inode.b ((pos + j) / ext2BlockSize fs) i →
      Unwritten (extentAt inode.b i) →
        (extentAt inode.b i).block + (extentAt inode.b i).len ≤ (pos + j) / ext2BlockSize fs)
    (i : ℕ) : WrittenAt inode (rangeMap fs pos n inode) i := by
  by_cases hrange : firstBlock fs pos ≤ i ∧ i < endBlock fs pos n
  · obtain ⟨hfirst, hi⟩ := hrange
    obtain ⟨e, he⟩ := governs_of_le hroot hfront hfirst
    have hfind := findExtent_governs hroot i e (block_small i hi hmax) he
    have hmap : rangeMap fs pos n inode i = findExtent inode.b i := if_pos ⟨hfirst, hi⟩
    unfold WrittenAt
    rw [hmap, hfind]
    by_cases hfar : (extentAt inode.b e).block + (extentAt inode.b e).len ≤ i
    · exact Or.inl (if_pos hfar)
    · rw [if_neg hfar]
      have hwritten : ¬ Unwritten (extentAt inode.b e) := by
        intro hun
        obtain ⟨j, hj, hblock⟩ := @exists_byte fs pos n i hfirst hi hn
        have hbehind := hbeyond j e hj (hblock ▸ he) hun
        rw [hblock] at hbehind
        exact hfar hbehind
      have hcover : coverage (extentAt inode.b e) = (extentAt inode.b e).len := if_neg hwritten
      have hblock := he.2.1
      refine Or.inr ⟨e, _, he.1, hwritten, ⟨Nat.le_add_right _ _, ?_⟩, hblock, rfl, rfl⟩
      rw [hcover]
      omega
  · exact Or.inl (if_neg hrange)

end Reads

section Constant
variable {fs : ExtFilesystem} {v : UInt8} (hbytes : ∀ x, fs.devDesc.bytes x = v) {map : ℕ → ℤ}
  {pos n : ℕ}
include hbytes

theorem fileByte_constant (i q : ℕ) (hmap : map i ≠ 0) (hq : q < ext2BlockSize fs) :
    fileByte fs map (i * ext2BlockSize fs + q) = v := by
  rw [fileByte_in_block fs map i q hq, if_neg hmap, hbytes]

/-- On a disk that is the same everywhere it does not matter where the reads go. -/
theorem constant_carries
    (hmapped : ∀ i, firstBlock fs pos ≤ i → i < endBlock fs pos n → 0 ≤ map i)
    (hsector : ∀ i, firstBlock fs pos ≤ i → i < endBlock fs pos n →
      (sectorOf fs map i = 0 ↔ map i = 0)) :
    Carries fs map pos n fun i run =>
      firstBlock fs pos < i ∧ Reaches fs pos n i run ∧ RunRight fs map pos run where
  mapped := hmapped
  right _ _ h := h.2.2
  reaches _ _ h := h.2.1
  grows := by
    rintro i run ⟨hlater, hreach, hright⟩ hi hnonzero -
    have hmap : map i ≠ 0 := (hsector i (Nat.le_of_lt hlater) hi).not.mp hnonzero
    obtain ⟨⟨hlo, hpos⟩, ⟨hle, -⟩, ⟨-, hhi, hend⟩, -⟩ :=
      piece_bounds fs pos n i (Nat.le_of_lt hlater) hi
    have hlt := (endBlock_bounds fs pos n i hi).1
    have hbefore := (firstBlock_bounds fs pos).2.trans_le (Nat.mul_le_mul_right _ hlater)
    have hstart : pieceStart fs pos i = i * ext2BlockSize fs := Nat.max_eq_right (by omega)
    have hreach' : run.dst + run.extent = min (pos + n) (i * ext2BlockSize fs) - pos := hreach
    rw [Nat.succ_mul] at hhi
    refine ⟨by omega, ?_, fun t ht => ?_⟩
    · change run.dst + (run.extent + (pieceEnd fs pos n i - pieceStart fs pos i)) =
        pieceEnd fs pos n i - pos
      omega
    · change t < run.extent + (pieceEnd fs pos n i - pieceStart fs pos i) at ht
      by_cases hold : t < run.extent
      · exact hright t hold
      · have hplace : pos + run.dst + t = i * ext2BlockSize fs + (t - run.extent) := by omega
        change fs.devDesc.bytes _ = fileByte fs map (pos + run.dst + t)
        rw [hbytes, hplace, fileByte_constant hbytes i _ hmap (by omega)]
  starts := by
    intro i hfirst hi hnonzero
    have hmap : map i ≠ 0 := (hsector i hfirst hi).not.mp hnonzero
    obtain ⟨⟨hlo, hpos⟩, ⟨hle, -⟩, ⟨-, hhi, hend⟩, -⟩ := piece_bounds fs pos n i hfirst hi
    rw [Nat.succ_mul] at hhi
    refine ⟨by omega, ?_, fun t ht => ?_⟩
    · change pieceStart fs pos i - pos + (pieceEnd fs pos n i - pieceStart fs pos i) =
        pieceEnd fs pos n i - pos
      omega
    · change t < pieceEnd fs pos n i - pieceStart fs pos i at ht
      have hplace : pos + (pieceStart fs pos i - pos) + t =
          i * ext2BlockSize fs + (pieceStart fs pos i - i * ext2BlockSize fs + t) := by omega
      change fs.devDesc.bytes _ = fileByte fs map (pos + (pieceStart fs pos i - pos) + t)
      rw [hbytes, hplace, fileByte_constant hbytes i _ hmap (by omega)]
  holes := by
    intro i hfirst hi hzero t ht _
    obtain ⟨⟨hlo, hpos⟩, ⟨-, hlt⟩, -⟩ := piece_bounds fs pos n i hfirst hi
    rw [Nat.succ_mul] at ht
    have hplace : pos + (pieceStart fs pos i - pos) + t =
        i * ext2BlockSize fs + (pieceStart fs pos i - i * ext2BlockSize fs + t) := by omega
    rw [hplace, fileByte_in_block fs map i _ (by omega), if_pos ((hsector i hfirst hi).mp hzero)]

end Constant

section Exact
variable (fs : ExtFilesystem) (hpart : fs.devDesc.off + fs.devDesc.length < 2 ^ 63)
  (hlog : fs.sblock.log2BlockSize ≤ 6) (fuel : ℕ) (inode : Ext2Inode)
  (hroot : SortedRoot fs inode) (pos : ℕ)

/-- What carrying out the steps for n bytes leaves with this disk. -/
def readSteps (image : Bytes) (n : ℕ) (buf : Bytes) : Bool × Bytes :=
  runSteps (withImage fs image).devDesc (rangePlan fs pos n fun i => findExtent inode.b i) buf

theorem readSteps_status (image image' : Bytes) (n : ℕ) (buf : Bytes) :
    (readSteps fs inode pos image n buf).1 = (readSteps fs inode pos image' n buf).1 := by
  rw [Bool.eq_iff_iff]
  exact (runSteps_ok_iff _ _ buf).trans (runSteps_ok_iff (withImage fs image').devDesc _ buf).symm

include hroot in
/-- In front of the first extent the read ends at once. -/
theorem readSteps_front (n : ℕ) (hmax : pos + n ≤ 2 ^ 31)
    (hfront : ¬ ∃ k, Governs inode.b (firstBlock fs pos) k) (image buf : Bytes) :
    (readSteps fs inode pos image n buf).2 = buf ∧
      (0 < n → (readSteps fs inode pos image n buf).1 = false) := by
  have hle := firstBlock_le_endBlock fs pos n
  unfold readSteps rangePlan
  rcases Nat.eq_or_lt_of_le hle with heq | hlt
  · rw [heq, Nat.sub_self]
    refine ⟨rfl, fun hn => ?_⟩
    have hcovers := endBlock_covers fs pos n
    have hbounds := (firstBlock_bounds fs pos).1
    rw [heq] at hbounds
    omega
  · obtain ⟨k, hk⟩ : ∃ k, endBlock fs pos n - firstBlock fs pos = k + 1 :=
      ⟨endBlock fs pos n - firstBlock fs pos - 1, by omega⟩
    have hfind := findExtent_front hroot _ (block_small _ hlt hmax) hfront
    rw [hk, plan_succ, if_pos (by rw [hfind]; decide)]
    exact ⟨rfl, fun _ => rfl⟩

include hpart hlog hroot

theorem readFile_steps (len : ℕ) (hmax : pos + min len inode.size ≤ 2 ^ 31) (image : Bytes)
    (node : Ext2fsNode) (hnode : node.inode = inode) (buf : Bytes) (log : Log) :
    Yields (ext4fsReadFile (withImage fs image) (fuel + 1) node pos len buf) log fun r _ =>
      (r.1, r.2.2) =
        outcome (min len inode.size) (readSteps fs inode pos image (min len inode.size) buf) := by
  have hclamp : clampLength node len = (min len inode.size : ℕ) := hnode ▸ clampLength_eq node len
  refine (ext4fsReadFile_plan (withImage fs image) (noErrors_ofImage image) hpart
    (show fs.sblock.log2BlockSize ≤ 20 by omega) (fuel + 1) pos (min len inode.size) hmax _ _
    (realizes_leaf (withImage fs image) (show fs.sblock.log2BlockSize ≤ 20 by omega) fuel inode
      hroot.flags hroot.magic hroot.depth _) len node hclamp hnode buf log).mono ?_
  rintro r log' ⟨-, hr⟩
  rw [hr, rangePlan_withImage]
  rfl

omit hpart in
/-- Where only written extents are met, the read is one of a regular file. -/
theorem readSteps_content (n : ℕ) (hmax : pos + n ≤ 2 ^ 31) (hn : 0 < n) (k : ℕ)
    (hfront : Governs inode.b (firstBlock fs pos) k)
    (hbeyond : ∀ j i, j < n → Governs inode.b ((pos + j) / ext2BlockSize fs) i →
      Unwritten (extentAt inode.b i) →
        (extentAt inode.b i).block + (extentAt inode.b i).len ≤ (pos + j) / ext2BlockSize fs)
    (image buf : Bytes) :
    (readSteps fs inode pos image n buf).1 = true ∧ ∀ j, j < n →
      (readSteps fs inode pos image n buf).2 j =
        fileByte (withImage fs image) (rangeMap fs pos n inode) (pos + j) := by
  have hwritten := block_mapped fs hroot pos n hmax hn k hfront hbeyond
  have hin := written_inPartition hroot hwritten (Nat.zero_lt_of_lt hfront.1) (endBlock fs pos n)
  obtain ⟨hok, hbytes⟩ := rangePlan_content (withImage fs image) (rangeMap fs pos n inode) pos n hin
    (show fs.sblock.log2BlockSize ≤ 20 by omega) (written_noRepeat hroot hwritten _)
    (Nat.le_refl _) buf
  rw [rangePlan_withImage, ← rangePlan_rangeMap] at hok hbytes
  exact ⟨(runSteps_ok_iff _ _ buf).mpr hok, hbytes⟩

theorem hides_of_beyond (len : ℕ) (hmax : pos + min len inode.size ≤ 2 ^ 31)
    (hbeyond : Beyond fs inode pos len) : HidesUnwritten fs (fuel + 1) inode pos len where
  independent := by
    intro image image' hsame node hnode buf log log'
    refine (readFile_steps fs hpart hlog fuel inode hroot pos len hmax image node hnode buf
      log).mono ?_
    intro r _ hr
    refine (readFile_steps fs hpart hlog fuel inode hroot pos len hmax image' node hnode buf
      log').mono ?_
    intro s _ hs
    have hstatus := readSteps_status fs inode pos image image' (min len inode.size) buf
    obtain ⟨hr₁, hr₂⟩ := Prod.mk.inj hr
    obtain ⟨hs₁, hs₂⟩ := Prod.mk.inj hs
    refine ⟨?_, fun j hj => ?_⟩
    · rw [hs₁, hr₁, hstatus]
    · rw [hs₂, hr₂]
      by_cases hfront : ∃ k, Governs inode.b (firstBlock fs pos) k
      · obtain ⟨k, hk⟩ := hfront
        have hfar := fun j i hj hi hun => (hbeyond j i hj hi hun).1
        have hn : 0 < min len inode.size := by omega
        rw [(readSteps_content fs hlog inode hroot pos _ hmax hn k hk hfar image' buf).2 j hj,
          (readSteps_content fs hlog inode hroot pos _ hmax hn k hk hfar image buf).2 j hj]
        exact (fileByte_same (block_mapped fs hroot pos _ hmax hn k hk hfar) hsame _).symm
      · rw [(readSteps_front fs inode hroot pos _ hmax hfront image' buf).1,
          (readSteps_front fs inode hroot pos _ hmax hfront image buf).1]
  zeros := by
    intro image node hnode buf log j i hj hi hun
    refine (readFile_steps fs hpart hlog fuel inode hroot pos len hmax image node hnode buf
      log).mono ?_
    intro r _ hr
    obtain ⟨hr₁, hr₂⟩ := Prod.mk.inj hr
    obtain ⟨hbehind, k, hk⟩ := hbeyond j i hj hi hun
    have hn : 0 < min len inode.size := by omega
    obtain ⟨hok, hbytes⟩ := readSteps_content fs hlog inode hroot pos _ hmax hn k hk
      (fun j i hj hi hun => (hbeyond j i hj hi hun).1) image buf
    have hsmall : (pos + j) / ext2BlockSize fs < 2 ^ 31 := by
      have hdiv := Nat.div_le_self (pos + j) (ext2BlockSize fs)
      omega
    have hmap : rangeMap fs pos (min len inode.size) inode ((pos + j) / ext2BlockSize fs) = 0 := by
      unfold rangeMap
      rw [findExtent_governs hroot _ i hsmall hi, if_pos hbehind, ite_self]
    refine ⟨?_, ?_⟩
    · rw [hr₁, hok, if_pos rfl]
    · rw [hr₂]
      exact (hbytes j hj).trans (if_pos hmap)

theorem beyond_of_hides (len : ℕ) (hmax : pos + min len inode.size ≤ 2 ^ 31)
    (hhides : HidesUnwritten fs (fuel + 1) inode pos len) : Beyond fs inode pos len := by
  intro j i hj hi hun
  have hzero := hhides.zeros (fun _ => 1) (freshNode inode) rfl (fun _ => 0) [] j i
    hj hi hun
  have hsteps := readFile_steps fs hpart hlog fuel inode hroot pos len hmax (fun _ => 1)
    (freshNode inode) rfl (fun _ => 0) []
  obtain ⟨r, log, -, ⟨hstatus, hbyte⟩, hr⟩ := hzero.and hsteps
  obtain ⟨hr₁, hr₂⟩ := Prod.mk.inj hr
  have hn : 0 < min len inode.size := by omega
  have hok : (readSteps fs inode pos (fun _ => 1) (min len inode.size) fun _ => 0).1 = true := by
    by_contra hfail
    rw [hstatus, if_neg hfail] at hr₁
    have hwrap := (uint32_eq_iff (min len inode.size : ℕ) (-1)).mpr (by
      rw [hr₁]
      decide +kernel)
    rw [uint32_of_range _ (by omega) (by omega)] at hwrap
    have hminus : uint32 (-1) = 2 ^ 32 - 1 := by decide +kernel
    omega
  have hfront : ∃ k, Governs inode.b (pos / ext2BlockSize fs) k := by
    by_contra hnone
    have hfail := (readSteps_front fs inode hroot pos _ hmax hnone (fun _ => 1) fun _ => 0).2 hn
    rw [hok] at hfail
    cases hfail
  obtain ⟨k, hk⟩ := hfront
  refine ⟨?_, k, hk⟩
  by_contra hinside
  have hlookup := fun i (hlo : firstBlock fs pos ≤ i)
      (hhi : i < endBlock fs pos (min len inode.size)) =>
    let ⟨e, he⟩ := governs_of_le hroot hk hlo
    lookup_sector hroot hlog i e (block_small i hhi hmax) he
  have hsteps := (runSteps_ok_iff _ _ _).mp hok
  have hone := rangePlan_delivers (withImage fs fun _ => 1) (fun i => findExtent inode.b i) pos
    (min len inode.size) (constant_carries (v := 1) (fun _ => rfl)
      (fun i hlo hhi => (hlookup i hlo hhi).1) fun i hlo hhi => (hlookup i hlo hhi).2) ?_
    (fun _ => 0) j hj
  · have hsmall : (pos + j) / ext2BlockSize fs < 2 ^ 31 := by
      have hdiv := Nat.div_le_self (pos + j) (ext2BlockSize fs)
      omega
    have hmapped : findExtent inode.b ((pos + j) / ext2BlockSize fs : ℕ) ≠ 0 := by
      obtain ⟨hstart, -⟩ := hroot.placed i hi.1
      rw [findExtent_governs hroot _ i hsmall hi, if_neg hinside]
      omega
    have hbyteOne : fileByte (withImage fs fun _ => 1) (fun i => findExtent inode.b i) (pos + j) =
        1 := if_neg hmapped
    rw [rangePlan_withImage, hbyteOne] at hone
    rw [hr₂, show (readSteps fs inode pos _ _ _).2 j = 1 from hone] at hbyte
    exact absurd hbyte (by decide)
  · rw [rangePlan_withImage]
    exact hsteps

/-- Exactly the ranges that meet no unwritten extent within its stored length
keep what is on the disk there hidden. -/
theorem hidesUnwritten_iff (len : ℕ) (hmax : pos + min len inode.size ≤ 2 ^ 31) :
    HidesUnwritten fs (fuel + 1) inode pos len ↔ Beyond fs inode pos len :=
  ⟨beyond_of_hides fs hpart hlog fuel inode hroot pos len hmax,
    hides_of_beyond fs hpart hlog fuel inode hroot pos len hmax⟩

end Exact

/-- Two blocks: block 3 of the disk, which is written, and block 4, which is not. -/
def preallocatedInode : Ext2Inode := ⟨fun j =>
  match j with
  | 5 => 8
  | 34 => 8
  | 40 => 0x0a
  | 41 => 0xf3
  | 42 => 2
  | 56 => 1
  | 60 => 3
  | 64 => 1
  | 68 => 1
  | 69 => 0x80
  | 72 => 4
  | _ => 0⟩

theorem preallocated_sorted : SortedRoot (smallFs fun _ => 0) preallocatedInode := by
  have hentries : ehEntries preallocatedInode.b = 2 := by decide +kernel
  have hzero : extentAt preallocatedInode.b 0 = ⟨0, 1, 3⟩ := by decide +kernel
  have hone : extentAt preallocatedInode.b 1 = ⟨1, 32769, 4⟩ := by decide +kernel
  have hplace : ∀ i p, i < 2 → Holds (extentAt preallocatedInode.b i) p → p = 3 + i := by
    intro i p hi
    unfold Holds
    interval_cases i
    · rw [hzero, show coverage ⟨0, 1, 3⟩ = 1 by decide]
      dsimp only
      omega
    · rw [hone, show coverage ⟨1, 32769, 4⟩ = 1 by decide]
      dsimp only
      omega
  refine ⟨by decide +kernel, by decide +kernel, by decide +kernel, by rw [hentries]; decide, ?_, ?_,
    ?_, ?_⟩
  · rw [hentries]
    decide +kernel
  · rw [hentries]
    intro i j hij hj
    interval_cases j
    · omega
    · obtain rfl : i = 0 := by omega
      decide +kernel
  · rw [hentries]
    decide +kernel
  · rw [hentries]
    intro i j p hi hj hhi hhj
    have hleft := hplace i p hi hhi
    have hright := hplace j p hj hhj
    omega

/-- The written block is read as it should be. -/
theorem hidesUnwritten_iff_written :
    HidesUnwritten (smallFs fun _ => 0) 1 preallocatedInode 0 1024 :=
  (hidesUnwritten_iff (smallFs fun _ => 0) (by decide) (by decide) 0 preallocatedInode
    preallocated_sorted 0 1024 (by decide +kernel)).mpr fun j i hj hi hun => by
      have hsize : min 1024 preallocatedInode.size = 1024 := by decide +kernel
      rw [hsize] at hj
      have hblock : (0 + j) / ext2BlockSize (smallFs fun _ => 0) = 0 :=
        Nat.div_eq_of_lt (show 0 + j < 1024 by omega)
      rw [hblock] at hi
      obtain ⟨hlt, hle, -⟩ := hi
      have hentries : ehEntries preallocatedInode.b = 2 := by decide +kernel
      rw [hentries] at hlt
      interval_cases i
      · exact absurd hun (by decide +kernel)
      · exact absurd hle (by decide +kernel)

/-- The block behind it is read from the disk, whatever is there. -/
theorem unwritten_block_read : SortedRoot (smallFs fun _ => 0) preallocatedInode ∧
    ¬ HidesUnwritten (smallFs fun _ => 0) 1 preallocatedInode 1024 1 := by
  refine ⟨preallocated_sorted, fun h => ?_⟩
  have hgoverns : Governs preallocatedInode.b
      ((1024 + 0) / ext2BlockSize (smallFs fun _ => 0)) 1 := by
    unfold Governs
    decide +kernel
  obtain ⟨r, log, hrun, -, hzero⟩ := h.zeros (fun _ => 1) (freshNode preallocatedInode) rfl
    (fun _ => 0) [] 0 1 (by decide +kernel) hgoverns (by decide +kernel)
  have hone : (ext4fsReadFile (withImage (smallFs fun _ => 0) fun _ => 1) 1
      (freshNode preallocatedInode) (1024 : ℕ) (1 : ℕ) (fun _ => 0) []).map
        (fun p => p.1.2.2 0) = .ok 1 := by decide +kernel
  rw [hrun] at hone
  rw [show r.2.2 0 = 1 from Except.ok.inj hone] at hzero
  exact absurd hzero (by decide)

end Eokan.UnwrittenExtents
