import Eokan.InodeReads
import Mathlib.Logic.Function.Basic
import Mathlib.Tactic.Ring

/-!
Where an inode lies, and where the code reads it from. The block comes from the
index of the inode in its group, but the offset in the block from the number of
the inode, which is taken as a signed one.
-/
namespace Eokan.InodePlaces

open ByteMem CInt Programs Device Devread DevreadOutcome Layout Inodes InodeReads

section Places
variable (fs : ExtFilesystem) (ino : ℕ)

/-- The byte where the descriptor of the group of an inode starts. -/
def descPlace : ℕ :=
  (fs.sblock.firstDataBlock + 1) * ext2BlockSize fs + 32 * ((ino - 1) / fs.sblock.inodesPerGroup)

/-- The first block of the inode table of that group. -/
def tableId : ℕ := le32 fs.devDesc.bytes (descPlace fs ino + 8)

/-- The byte where the inode starts. -/
def inodePlace : ℕ :=
  tableId fs ino * ext2BlockSize fs + (ino - 1) % fs.sblock.inodesPerGroup * fs.inodesz

/-- The descriptor and the inode lie inside the partition and below sector 2 ^ 31. -/
structure InRange : Prop where
  desc : descPlace fs ino + 32 ≤ fs.devDesc.length * 512
  desc_low : descPlace fs ino + 32 ≤ 2 ^ 31 * 512
  inode : inodePlace fs ino + 128 ≤ fs.devDesc.length * 512
  inode_low : inodePlace fs ino + 128 ≤ 2 ^ 31 * 512

/-- The geometries that a superblock may have. -/
structure Geometry : Prop where
  block : fs.sblock.log2BlockSize ≤ 6
  inode_dvd : fs.inodesz ∣ ext2BlockSize fs
  inode_le : 128 ≤ fs.inodesz
  group : fs.sblock.inodesPerGroup ≠ 0

/-- The number of the inode and its index in the group lead to the same offset in
a block, and the number leads there as a signed one too. -/
def OffsetFits : Prop :=
  (ino - 1) % inodesPerBlock fs = (ino - 1) % fs.sblock.inodesPerGroup % inodesPerBlock fs ∧
    (ino ≤ 2 ^ 31 ∨ (ino - 1) % inodesPerBlock fs = 0)

/-- The block that the inode is in. -/
def inodeBlock : ℕ :=
  tableId fs ino + (ino - 1) % fs.sblock.inodesPerGroup / inodesPerBlock fs

end Places

section Geometry
variable {fs : ExtFilesystem} (hgeom : Geometry fs)
include hgeom

theorem perBlock_mul : inodesPerBlock fs * fs.inodesz = ext2BlockSize fs :=
  Nat.div_mul_cancel hgeom.inode_dvd

theorem perBlock_pos : 0 < inodesPerBlock fs :=
  Nat.div_pos (Nat.le_of_dvd (ext2BlockSize_pos fs) hgeom.inode_dvd)
    (Nat.lt_of_lt_of_le (by decide) hgeom.inode_le)

/-- The inode starts in its block, behind the ones before it there. -/
theorem inodePlace_eq (ino : ℕ) : inodePlace fs ino = inodeBlock fs ino * ext2BlockSize fs +
    (ino - 1) % fs.sblock.inodesPerGroup % inodesPerBlock fs * fs.inodesz := by
  have hmul := perBlock_mul hgeom
  have hsplit := Nat.div_add_mod ((ino - 1) % fs.sblock.inodesPerGroup) (inodesPerBlock fs)
  unfold inodePlace inodeBlock
  generalize (ino - 1) % fs.sblock.inodesPerGroup = index at hsplit ⊢
  calc tableId fs ino * ext2BlockSize fs + index * fs.inodesz
      = tableId fs ino * ext2BlockSize fs +
          (inodesPerBlock fs * (index / inodesPerBlock fs) + index % inodesPerBlock fs) *
            fs.inodesz := by rw [hsplit]
    _ = tableId fs ino * ext2BlockSize fs +
          index / inodesPerBlock fs * (inodesPerBlock fs * fs.inodesz) +
            index % inodesPerBlock fs * fs.inodesz := by ring
    _ = (tableId fs ino + index / inodesPerBlock fs) * ext2BlockSize fs +
          index % inodesPerBlock fs * fs.inodesz := by rw [hmul]; ring

theorem perBlock_dvd : inodesPerBlock fs ∣ 2 ^ 32 := by
  have hblock : inodesPerBlock fs ∣ ext2BlockSize fs := ⟨fs.inodesz, (perBlock_mul hgeom).symm⟩
  have hle := hgeom.block
  exact hblock.trans (Nat.pow_dvd_pow 2 (by omega))

/-- From number 2 ^ 31 + 1 on the code computes the offset in the other direction. -/
theorem signedOffset_of_gt (ino : ℕ) (hino : 2 ^ 31 < ino) (hmax : ino < 2 ^ 32) :
    signedOffset fs ino = -(((2 ^ 32 - (ino - 1)) % inodesPerBlock fs * fs.inodesz : ℕ) : ℤ) ∧
      ((2 ^ 32 - (ino - 1)) % inodesPerBlock fs = 0 ↔ (ino - 1) % inodesPerBlock fs = 0) := by
  constructor
  · have hsigned : int32 ((ino : ℤ) - 1) = -((2 ^ 32 - (ino - 1) : ℕ) : ℤ) := by
      unfold int32
      omega
    unfold signedOffset
    rw [hsigned, Int.neg_tmod, ← Int.ofNat_tmod, Int.neg_mul, Int.natCast_mul]
  · rw [← Nat.dvd_iff_mod_eq_zero, ← Nat.dvd_iff_mod_eq_zero]
    exact Nat.dvd_sub_iff_right (by omega) (perBlock_dvd hgeom)

theorem signedOffset_eq_iff (ino : ℕ) (hino : 1 ≤ ino) (hmax : ino < 2 ^ 32) :
    signedOffset fs ino =
      ((ino - 1) % fs.sblock.inodesPerGroup % inodesPerBlock fs * fs.inodesz : ℕ) ↔
      OffsetFits fs ino := by
  have hpos : 0 < fs.inodesz := Nat.lt_of_lt_of_le (by decide) hgeom.inode_le
  unfold OffsetFits
  generalize (ino - 1) % fs.sblock.inodesPerGroup % inodesPerBlock fs = within
  by_cases hsmall : ino ≤ 2 ^ 31
  · rw [signedOffset_of_le fs ino hino hsmall]
    unfold inodeOffset
    rw [Int.natCast_inj, Nat.mul_right_cancel_iff hpos]
    exact (and_iff_left (Or.inl hsmall)).symm
  · obtain ⟨hsigned, hzero⟩ := signedOffset_of_gt hgeom ino (Nat.lt_of_not_le hsmall) hmax
    rw [hsigned, ← hzero]
    generalize (2 ^ 32 - (ino - 1)) % inodesPerBlock fs = back at hzero ⊢
    constructor
    · intro h
      have hback : back * fs.inodesz = 0 := by omega
      have hwithin : within * fs.inodesz = 0 := by omega
      have hback' := (Nat.mul_eq_zero.mp hback).resolve_right (Nat.ne_of_gt hpos)
      have hwithin' := (Nat.mul_eq_zero.mp hwithin).resolve_right (Nat.ne_of_gt hpos)
      exact ⟨(hzero.mp hback').trans hwithin'.symm, Or.inr hback'⟩
    · rintro ⟨hsame, hlow⟩
      have hback := hlow.resolve_left hsmall
      rw [hback, ← hsame, hzero.mp hback]
      simp

end Geometry

/-- A number of sectors that fits is what the code makes of its block number. -/
theorem int32_sectors (block sectors : ℕ) (h : block * (512 * sectors) < 2 ^ 31 * 512)
    (hpos : 0 < sectors) : int32 (int32 block * sectors) = (block * sectors : ℕ) := by
  have hmul : block * (512 * sectors) = 512 * (block * sectors) := by ring
  have hle : block ≤ block * sectors := Nat.le_mul_of_pos_right block hpos
  rw [int32_of_nat block (by omega) (by omega), ← Int.natCast_mul]
  exact int32_of_nat _ (by omega) (by omega)

section Descriptor
variable {fs : ExtFilesystem} {ino : ℕ} (hin : InRange fs ino)
include hin

theorem descSector_eq :
    descSector fs ((ino - 1) / fs.sblock.inodesPerGroup) * 512 +
        descOffset fs ((ino - 1) / fs.sblock.inodesPerGroup) = descPlace fs ino ∧
      0 ≤ descSector fs ((ino - 1) / fs.sblock.inodesPerGroup) := by
  have hbs := ext2BlockSize_eq fs
  have htwo := two_le_blockSectors fs
  have hlow := hin.desc_low
  have hper : ext2BlockSize fs / 32 * 32 = ext2BlockSize fs := by omega
  unfold descPlace at hlow ⊢
  generalize (ino - 1) / fs.sblock.inodesPerGroup = group at hlow ⊢
  have hsplit := Nat.div_add_mod group (ext2BlockSize fs / 32)
  have hplace : (fs.sblock.firstDataBlock + 1) * ext2BlockSize fs + 32 * group =
      (fs.sblock.firstDataBlock + 1 + group / (ext2BlockSize fs / 32)) * ext2BlockSize fs +
        descOffset fs group := by
    unfold descOffset
    calc (fs.sblock.firstDataBlock + 1) * ext2BlockSize fs + 32 * group
        = (fs.sblock.firstDataBlock + 1) * ext2BlockSize fs +
            32 * (ext2BlockSize fs / 32 * (group / (ext2BlockSize fs / 32)) +
              group % (ext2BlockSize fs / 32)) := by rw [hsplit]
      _ = (fs.sblock.firstDataBlock + 1) * ext2BlockSize fs +
            group / (ext2BlockSize fs / 32) * (ext2BlockSize fs / 32 * 32) +
              group % (ext2BlockSize fs / 32) * 32 := by ring
      _ = _ := by rw [hper]; ring
  rw [hplace] at hlow ⊢
  have hsector : descSector fs group =
      ((fs.sblock.firstDataBlock + 1 + group / (ext2BlockSize fs / 32)) * blockSectors fs : ℕ) := by
    unfold descSector
    apply int32_sectors _ _ _ (by omega)
    rw [← hbs]
    omega
  rw [hsector, hbs]
  constructor
  · push_cast
    ring
  · exact Int.natCast_nonneg _

theorem descReadable : DescReadable fs ((ino - 1) / fs.sblock.inodesPerGroup) := by
  obtain ⟨hplace, hnonneg⟩ := descSector_eq hin
  have hdesc := hin.desc
  have hlow := hin.desc_low
  unfold DescReadable Readable
  exact ⟨hnonneg, by omega, by omega⟩

theorem tableId_eq :
    (groupDesc fs ((ino - 1) / fs.sblock.inodesPerGroup)).inodeTableId = tableId fs ino := by
  obtain ⟨hplace, hnonneg⟩ := descSector_eq hin
  unfold groupDesc Ext2BlockGroup.inodeTableId tableId
  generalize (ino - 1) / fs.sblock.inodesPerGroup = group at hplace hnonneg ⊢
  apply le32_congr
  intro j hj
  have hbyte := write_at blkgrpBuf 0 32 (slice fs.devDesc.bytes
    ((descSector fs group).toNat * 512 + descOffset fs group)) (j := 8 + j) (by omega)
  rw [Nat.zero_add] at hbyte
  dsimp only
  rw [hbyte]
  have hstart : (descSector fs group).toNat * 512 + descOffset fs group = descPlace fs ino := by
    omega
  unfold slice
  rw [hstart, Nat.add_assoc]

end Descriptor

theorem inodeGroup_eq (fs : ExtFilesystem) (ino : ℕ) (hino : 1 ≤ ino) (hmax : ino < 2 ^ 32) :
    inodeGroup fs ino = (ino - 1) / fs.sblock.inodesPerGroup := by
  have hnat : (uint32 ((ino : ℤ) - 1)).toNat = ino - 1 := by
    rw [uint32_of_range _ (by omega) (by omega)]
    omega
  unfold inodeGroup
  rw [hnat]

/-- A negative offset reads from a block before. -/
theorem vfsDevread_shift (part : PartDescr) (sector back byteOffset byteLen : ℤ)
    (hback : 0 ≤ back) (hle : back ≤ sector) (hlow : -2 ^ 31 ≤ byteOffset + byteLen - 1)
    (hhigh : byteOffset + 512 * back + byteLen ≤ 2 ^ 31) (buf : Bytes) (dst : ℕ) :
    vfsDevread part sector byteOffset byteLen buf dst =
      vfsDevread part (sector - back) (byteOffset + 512 * back) byteLen buf dst := by
  have hdiv : (byteOffset + 512 * back) / 512 = byteOffset / 512 + back := by omega
  have hmod : (byteOffset + 512 * back) % 512 = byteOffset % 512 := by omega
  have hend : int32 (byteOffset + 512 * back + byteLen - 1) / 512 =
      int32 (byteOffset + byteLen - 1) / 512 + back := by
    rw [int32_of_range _ (by omega) (by omega), int32_of_range _ (by omega) (by omega)]
    omega
  have hsum : ∀ x, sector - back + (x + back) = sector + x := fun x => by ring
  have hneg : decide (sector - back < 0) = decide (sector < 0) := by
    rw [decide_eq_decide]
    omega
  unfold vfsDevread outsidePartition
  rw [hdiv, hmod, hend, hsum, hsum, hneg]

/-- In front of the first block there is nothing. -/
theorem vfsDevread_negative (part : PartDescr) (hpart : part.length < 2 ^ 63)
    (byteOffset byteLen : ℤ) (hlow : -2 ^ 31 ≤ byteOffset + byteLen - 1)
    (hend : byteOffset + byteLen ≤ 0) (buf : Bytes) (dst : ℕ) (log : Log) :
    vfsDevread part 0 byteOffset byteLen buf dst log = .ok ((0, buf), log) := by
  have hout : outsidePartition part 0 byteOffset byteLen = true := by
    unfold outsidePartition uint64 int32
    simp only [Bool.or_eq_true, decide_eq_true_eq]
    right
    omega
  unfold vfsDevread
  rw [if_pos hout]
  rfl

/-- Different slots of 128 bytes or more are 128 bytes apart. -/
theorem slots_apart (i j : ℤ) (size : ℕ) (hsize : 128 ≤ size) (hne : i ≠ j) :
    i * size + 128 ≤ j * size ∨ j * size + 128 ≤ i * size := by
  have hone : ∀ a b : ℤ, a < b → a * size + 128 ≤ b * size := fun a b hlt => by
    have hmul : (a + 1) * (size : ℤ) ≤ b * size :=
      Int.mul_le_mul_of_nonneg_right hlt (Int.natCast_nonneg _)
    rw [Int.add_mul] at hmul
    omega
  rcases Int.lt_or_gt_of_ne hne with hlt | hgt
  · exact Or.inl (hone i j hlt)
  · exact Or.inr (hone j i hgt)

/-- A read succeeds with what is there, or is refused. -/
theorem read_at (part : PartDescr) (hgood : part.disk.NoErrors)
    (hpart : part.off + part.length < 2 ^ 63) (sector offset : ℕ) (hsector : sector < 2 ^ 31)
    (hoffset : offset + 128 ≤ 2 ^ 31) (buf : Bytes) (log : Log) :
    Yields (vfsDevread part sector offset (int32 (128 : ℕ)) buf 0) log fun r _ =>
      r.1 = 0 ∨ r = (1, write buf 0 128 (slice part.bytes (sector * 512 + offset))) := by
  refine (vfsDevread_spec part hgood hpart sector offset 128 (by omega) (by omega) hoffset buf 0
    log).mono ?_
  rintro _ log' (⟨-, rfl⟩ | ⟨-, rfl⟩)
  · exact Or.inr rfl
  · exact Or.inl rfl

/-- With a negative offset a read succeeds with what is before the block. -/
theorem read_back (part : PartDescr) (hgood : part.disk.NoErrors)
    (hpart : part.off + part.length < 2 ^ 63) (block sectors : ℕ) (signed : ℤ)
    (hlow : -(512 * sectors : ℤ) < signed) (hend : signed + 128 ≤ 0)
    (hmax : block * sectors < 2 ^ 31) (hsectors : sectors ≤ 2 ^ 21) (buf : Bytes) (log : Log) :
    Yields (vfsDevread part (block * sectors : ℕ) signed (int32 (128 : ℕ)) buf 0) log fun r _ =>
      r.1 = 0 ∨ 0 ≤ (block * sectors * 512 : ℕ) + signed ∧
        r = (1, write buf 0 128
          (slice part.bytes ((block * sectors * 512 : ℕ) + signed).toNat)) := by
  have hlen : int32 (128 : ℕ) = 128 := int32_of_nat 128 (by decide) (by decide)
  cases block with
  | zero =>
    rw [Nat.zero_mul, hlen]
    exact ⟨_, _, vfsDevread_negative part (by omega) signed 128 (by omega) hend buf 0 log,
      Or.inl rfl⟩
  | succ block =>
    obtain ⟨o, ho⟩ := Int.eq_ofNat_of_zero_le (a := signed + 512 * sectors) (by omega)
    have hback : ((block + 1) * sectors : ℕ) - (sectors : ℤ) = (block * sectors : ℕ) := by
      rw [Nat.succ_mul]
      omega
    rw [Nat.succ_mul] at hmax
    have hplace : (((block + 1) * sectors * 512 : ℕ) + signed).toNat =
        block * sectors * 512 + o := by
      rw [Nat.succ_mul]
      omega
    rw [vfsDevread_shift part _ sectors signed _ (by omega) (by rw [Nat.succ_mul]; omega)
      (by omega) (by omega), hback, ho]
    refine (read_at part hgood hpart (block * sectors) o (by omega) (by omega) buf log).mono ?_
    rintro r log' (hzero | rfl)
    · exact Or.inl hzero
    · rw [hplace]
      refine Or.inr ⟨?_, rfl⟩
      rw [Nat.succ_mul]
      omega

section Reads
variable {fs : ExtFilesystem} (hgeom : Geometry fs) {ino : ℕ} (hin : InRange fs ino)
  (hino : 1 ≤ ino) (hmax : ino < 2 ^ 32)
include hgeom hin hino hmax

theorem inodeSector_eq :
    inodeSector fs ino = (inodeBlock fs ino * blockSectors fs : ℕ) := by
  have hplace := inodePlace_eq hgeom ino
  have hlow := hin.inode_low
  have htwo := two_le_blockSectors fs
  rw [hplace, ext2BlockSize_eq] at hlow
  unfold inodeSector
  rw [inodeGroup_eq fs ino hino hmax, tableId_eq hin]
  exact int32_sectors _ _ (by change inodeBlock fs ino * _ < _; omega) (by omega)

variable (hgood : fs.devDesc.disk.NoErrors)
  (hpart : fs.devDesc.off + fs.devDesc.length < 2 ^ 63)
include hgood hpart

/-- What is read comes from the block of the inode and the signed offset. -/
theorem ext4fsReadInode_place (inode : Ext2Inode) (log : Log)
    {post : ℤ × Ext2Inode → Log → Prop}
    (hread : ∀ log', Yields (vfsDevread fs.devDesc (inodeBlock fs ino * blockSectors fs : ℕ)
      (signedOffset fs ino) (int32 (128 : ℕ)) inode.raw 0) log' fun r log'' =>
        post (if r.1 = 0 then 0 else 1, ⟨r.2⟩) log'') :
    Yields (ext4fsReadInode fs (int32 ino) inode) log post := by
  have hlog := hgeom.block
  have hle := Nat.le_of_dvd (ext2BlockSize_pos fs) hgeom.inode_dvd
  have hdesc : DescReadable fs (inodeGroup fs ino) := by
    rw [inodeGroup_eq fs ino hino hmax]
    exact descReadable hin
  apply ext4fsReadInode_run fs hgood hpart (by omega) hgeom.group ino hino hmax
    (Nat.ne_of_gt (Nat.lt_of_lt_of_le (by decide) hgeom.inode_le)) hle hdesc
  rw [inodeSector_eq hgeom hin hino hmax]
  exact hread

/-- If the offset fits, the inode is read. -/
theorem reads_of_fits (hfits : OffsetFits fs ino) (inode : Ext2Inode) (log : Log) :
    Yields (ext4fsReadInode fs (int32 ino) inode) log fun r _ =>
      r = (1, ⟨write inode.raw 0 128 (slice fs.devDesc.bytes (inodePlace fs ino))⟩) := by
  have hplace := inodePlace_eq hgeom ino
  have hbs := ext2BlockSize_eq fs
  have hle := ext2BlockSize_le fs (Nat.le_trans hgeom.block (by decide))
  have hoff := mod_mul_lt (a := (ino - 1) % fs.sblock.inodesPerGroup) (perBlock_pos hgeom)
    (Nat.le_of_eq (perBlock_mul hgeom))
  have hsize := hgeom.inode_le
  have hlength := hin.inode
  have hlow := hin.inode_low
  have hbyte : inodeBlock fs ino * blockSectors fs * 512 =
      inodeBlock fs ino * ext2BlockSize fs := by
    rw [hbs]
    ring
  apply ext4fsReadInode_place hgeom hin hino hmax hgood hpart
  intro log'
  rw [(signedOffset_eq_iff hgeom ino hino hmax).mpr hfits]
  generalize (ino - 1) % fs.sblock.inodesPerGroup % inodesPerBlock fs * fs.inodesz = offset
    at hplace hoff ⊢
  have hreadable : Readable fs.devDesc (inodeBlock fs ino * blockSectors fs : ℕ) offset 128 :=
    ⟨Int.natCast_nonneg _, by omega, by omega⟩
  refine (vfsDevread_ok fs.devDesc hgood hpart _ offset 128 (by omega) (by omega) hreadable
    inode.raw 0 log').mono ?_
  rintro _ log'' rfl
  rw [hbyte, ← hplace]
  rfl

/-- Where the code reads from, if that is not in front of the partition. -/
def readPlace (fs : ExtFilesystem) (ino : ℕ) : ℕ :=
  ((inodeBlock fs ino * ext2BlockSize fs : ℕ) + signedOffset fs ino).toNat

/-- If the offset does not fit, another inode is read or none. -/
theorem misreads (hfits : ¬ OffsetFits fs ino) (inode : Ext2Inode) (log : Log) :
    Yields (ext4fsReadInode fs (int32 ino) inode) log fun r _ =>
      r.1 = 0 ∨ r.2.raw = write inode.raw 0 128 (slice fs.devDesc.bytes (readPlace fs ino)) ∧
        (readPlace fs ino + 128 ≤ inodePlace fs ino ∨
          inodePlace fs ino + 128 ≤ readPlace fs ino) := by
  have hplace := inodePlace_eq hgeom ino
  have hbs := ext2BlockSize_eq fs
  have hle := ext2BlockSize_le fs (Nat.le_trans hgeom.block (by decide))
  have hsize := hgeom.inode_le
  have hlow := hin.inode_low
  have hne := fun h => hfits ((signedOffset_eq_iff hgeom ino hino hmax).mp h)
  have hbounds := signedOffset_bounds fs (by omega)
    (Nat.le_of_dvd (ext2BlockSize_pos fs) hgeom.inode_dvd) ino
  obtain ⟨index, hindex⟩ : ∃ index : ℤ, signedOffset fs ino = index * fs.inodesz := ⟨_, rfl⟩
  have hapart := slots_apart index
    ((ino - 1) % fs.sblock.inodesPerGroup % inodesPerBlock fs : ℕ) fs.inodesz hsize (by
      rw [hindex, Int.natCast_mul] at hne
      exact fun h => hne (h ▸ rfl))
  rw [← hindex, ← Int.natCast_mul] at hapart
  have hbyte : inodeBlock fs ino * blockSectors fs * 512 =
      inodeBlock fs ino * ext2BlockSize fs := by
    rw [hbs]
    ring
  have hback : signedOffset fs ino < 0 → signedOffset fs ino + 128 ≤ 0 := by
    intro hneg
    rw [hindex] at hneg ⊢
    have hlt : index < 0 := by
      by_contra hle
      have hmul := Int.mul_nonneg (Int.not_lt.mp hle) (Int.natCast_nonneg fs.inodesz)
      omega
    have hmul : index * fs.inodesz ≤ -1 * fs.inodesz :=
      Int.mul_le_mul_of_nonneg_right (by omega) (Int.natCast_nonneg _)
    omega
  generalize (ino - 1) % fs.sblock.inodesPerGroup % inodesPerBlock fs * fs.inodesz = offset
    at hplace hapart
  apply ext4fsReadInode_place hgeom hin hino hmax hgood hpart
  intro log'
  unfold readPlace
  generalize signedOffset fs ino = signed at hbounds hapart hback ⊢
  by_cases hneg : 0 ≤ signed
  · obtain ⟨o, rfl⟩ := Int.eq_ofNat_of_zero_le hneg
    refine (read_at fs.devDesc hgood hpart (inodeBlock fs ino * blockSectors fs) o (by omega)
      (by omega) inode.raw log').mono ?_
    rintro r log'' (hzero | rfl)
    · exact Or.inl (if_pos hzero)
    · refine Or.inr ⟨?_, by omega⟩
      rw [hbyte]
      rfl
  · have hsectors : inodeBlock fs ino * blockSectors fs < 2 ^ 31 := by omega
    refine (read_back fs.devDesc hgood hpart (inodeBlock fs ino) (blockSectors fs) signed
      (by omega) (hback (Int.not_le.mp hneg)) hsectors (by omega) inode.raw log').mono ?_
    rintro r log'' (hzero | ⟨hfront, rfl⟩)
    · exact Or.inl (if_pos hzero)
    · rw [hbyte] at hfront
      refine Or.inr ⟨?_, by omega⟩
      rw [hbyte]

end Reads

/-- The same file system with another content of the disk. -/
def withImage (fs : ExtFilesystem) (image : Bytes) : ExtFilesystem :=
  { fs with devDesc := { fs.devDesc with disk := DiskDescr.ofImage image } }

/-- Whatever is on the disk, the inode is read from its place. -/
def ReadsItsPlace (fs : ExtFilesystem) (ino : ℕ) : Prop :=
  ∀ image, InRange (withImage fs image) ino → ∀ inode log,
    Yields (ext4fsReadInode (withImage fs image) (int32 ino) inode) log fun r _ =>
      r = (1, ⟨write inode.raw 0 128
        (slice (withImage fs image).devDesc.bytes (inodePlace (withImage fs image) ino))⟩)

/-- One byte of the partition is changed. -/
def poke (fs : ExtFilesystem) (image : Bytes) (place : ℕ) (value : UInt8) : Bytes :=
  Function.update image (fs.devDesc.off * 512 + place) value

theorem bytes_poke (fs : ExtFilesystem) (image : Bytes) (place : ℕ) (value : UInt8) (x : ℕ) :
    (withImage fs (poke fs image place value)).devDesc.bytes x =
      if x = place then value else (withImage fs image).devDesc.bytes x := by
  simp only [PartDescr.bytes, slice, withImage, poke, DiskDescr.ofImage, Function.update_apply,
    Nat.add_left_cancel_iff]

theorem exists_ne (x : UInt8) : ∃ y : UInt8, y ≠ x := by
  by_cases h : x = 0
  · exact ⟨1, by rw [h]; decide⟩
  · exact ⟨0, Ne.symm h⟩

/-- An inode has a byte outside of its descriptor. -/
theorem byte_outside (p d : ℕ) : ∃ i < 128, p + i < d ∨ d + 32 ≤ p + i := by
  by_cases h : p < d
  · exact ⟨0, by decide, Or.inl h⟩
  · exact ⟨32, by decide, Or.inr (by omega)⟩

section Poke
variable (fs : ExtFilesystem) (image : Bytes) (place : ℕ) (value : UInt8) (ino : ℕ)
  (hplace : place < descPlace fs ino ∨ descPlace fs ino + 32 ≤ place)
include hplace

theorem tableId_poke : tableId (withImage fs (poke fs image place value)) ino =
    tableId (withImage fs image) ino := by
  apply le32_congr
  intro j hj
  have hdesc : descPlace (withImage fs (poke fs image place value)) ino = descPlace fs ino := rfl
  have hdesc' : descPlace (withImage fs image) ino = descPlace fs ino := rfl
  rw [bytes_poke, hdesc, hdesc']
  exact if_neg (by omega)

theorem inodePlace_poke : inodePlace (withImage fs (poke fs image place value)) ino =
    inodePlace (withImage fs image) ino := by
  unfold inodePlace
  rw [tableId_poke fs image place value ino hplace]
  rfl

theorem readPlace_poke : readPlace (withImage fs (poke fs image place value)) ino =
    readPlace (withImage fs image) ino := by
  unfold readPlace inodeBlock
  rw [tableId_poke fs image place value ino hplace]
  rfl

end Poke

section Images
variable {fs : ExtFilesystem} (hgeom : Geometry fs)
  (hpart : fs.devDesc.off + fs.devDesc.length < 2 ^ 63) {ino : ℕ} (hino : 1 ≤ ino)
  (hmax : ino < 2 ^ 32) (image : Bytes) (hin : InRange (withImage fs image) ino)
include hgeom

theorem geometry_withImage : Geometry (withImage fs image) :=
  ⟨hgeom.block, hgeom.inode_dvd, hgeom.inode_le, hgeom.group⟩

include hpart hino hmax

theorem readsItsPlace_of_fits (hfits : OffsetFits fs ino) : ReadsItsPlace fs ino := by
  intro image hin inode log
  exact reads_of_fits (geometry_withImage hgeom image) hin hino hmax (noErrors_ofImage image) hpart
    hfits inode log

include hin

/-- Where the offset does not fit, a byte of the inode is changed that the code
does not read. -/
theorem fits_of_readsItsPlace (h : ReadsItsPlace fs ino) : OffsetFits fs ino := by
  by_contra hfits
  obtain ⟨i, hi, hfree⟩ := byte_outside (inodePlace (withImage fs image) ino) (descPlace fs ino)
  obtain ⟨value, hvalue⟩ := exists_ne
    ((withImage fs image).devDesc.bytes (readPlace (withImage fs image) ino + i))
  have hplace := inodePlace_poke fs image _ value ino hfree
  have hread := readPlace_poke fs image _ value ino hfree
  have hbytes := bytes_poke fs image (inodePlace (withImage fs image) ino + i) value
  generalize poke fs image (inodePlace (withImage fs image) ino + i) value = image'
    at hplace hread hbytes
  have hin' : InRange (withImage fs image') ino := by
    obtain ⟨hdesc, hdesc_low, hinode, hinode_low⟩ := hin
    rw [← hplace] at hinode hinode_low
    exact ⟨hdesc, hdesc_low, hinode, hinode_low⟩
  obtain ⟨r, log, -, rfl, hmiss⟩ := (h image' hin' ⟨fun _ => 0⟩ []).and
    (misreads (geometry_withImage hgeom image') hin' hino hmax (noErrors_ofImage image') hpart hfits
      ⟨fun _ => 0⟩ [])
  dsimp only at hmiss
  obtain ⟨hraw, hapart⟩ := hmiss.resolve_left Int.one_ne_zero
  have hbyte := congrFun hraw (0 + i)
  rw [write_at _ _ _ _ hi, write_at _ _ _ _ hi] at hbyte
  unfold slice at hbyte
  rw [hplace, hread] at hbyte hapart
  rw [hbytes, hbytes, if_pos rfl, if_neg (by omega)] at hbyte
  exact hvalue hbyte

end Images

/-- Two inodes are in one table, or in tables that do not overlap. -/
def TablesApart (fs : ExtFilesystem) (ino other : ℕ) : Prop :=
  (ino - 1) / fs.sblock.inodesPerGroup ≠ (other - 1) / fs.sblock.inodesPerGroup →
    tableId fs ino * ext2BlockSize fs + fs.sblock.inodesPerGroup * fs.inodesz ≤
        tableId fs other * ext2BlockSize fs ∨
      tableId fs other * ext2BlockSize fs + fs.sblock.inodesPerGroup * fs.inodesz ≤
        tableId fs ino * ext2BlockSize fs

/-- Different inodes have no byte in common. -/
theorem inodePlace_apart {fs : ExtFilesystem} (hgeom : Geometry fs) {ino other : ℕ}
    (hino : 1 ≤ ino) (hother : 1 ≤ other) (hne : ino ≠ other) (htables : TablesApart fs ino other) :
    inodePlace fs ino + 128 ≤ inodePlace fs other ∨
      inodePlace fs other + 128 ≤ inodePlace fs ino := by
  have hsize := hgeom.inode_le
  have hpos := Nat.pos_of_ne_zero hgeom.group
  have hsplit := Nat.div_add_mod (ino - 1) fs.sblock.inodesPerGroup
  have hsplit' := Nat.div_add_mod (other - 1) fs.sblock.inodesPerGroup
  unfold inodePlace
  by_cases hgroup : (ino - 1) / fs.sblock.inodesPerGroup = (other - 1) / fs.sblock.inodesPerGroup
  · have htable : tableId fs ino = tableId fs other := by
      unfold tableId descPlace
      rw [hgroup]
    have hindex : (ino - 1) % fs.sblock.inodesPerGroup ≠
        (other - 1) % fs.sblock.inodesPerGroup := by
      intro heq
      rw [hgroup, heq, hsplit'] at hsplit
      omega
    have hapart := slots_apart _ _ fs.inodesz hsize fun h => hindex (Int.natCast_inj.mp h)
    rw [← Int.natCast_mul, ← Int.natCast_mul] at hapart
    rw [htable]
    omega
  · have hin := mod_mul_lt (a := ino - 1) hpos (Nat.le_refl (_ * fs.inodesz))
    have hin' := mod_mul_lt (a := other - 1) hpos (Nat.le_refl (_ * fs.inodesz))
    rcases htables hgroup with h | h
    · left
      omega
    · right
      omega

/-- Every inode is read from its place if and only if its number and its index in
the group lead to the same offset in a block, and the places are apart. -/
theorem readsItsPlace_iff {fs : ExtFilesystem} (hgeom : Geometry fs)
    (hpart : fs.devDesc.off + fs.devDesc.length < 2 ^ 63) (ino : ℕ) (hino : 1 ≤ ino)
    (hmax : ino < 2 ^ 32) (image : Bytes) (hin : InRange (withImage fs image) ino) :
    (ReadsItsPlace fs ino ↔ OffsetFits fs ino) ∧
      ∀ other, 1 ≤ other → ino ≠ other → TablesApart (withImage fs image) ino other →
        inodePlace (withImage fs image) ino + 128 ≤ inodePlace (withImage fs image) other ∨
          inodePlace (withImage fs image) other + 128 ≤ inodePlace (withImage fs image) ino := by
  refine ⟨⟨fits_of_readsItsPlace hgeom hpart hino hmax image hin,
    readsItsPlace_of_fits hgeom hpart hino hmax⟩, fun other hother hne htables => ?_⟩
  exact inodePlace_apart (geometry_withImage hgeom image) hino hother hne htables

/-- Groups of 12 inodes, in blocks of 8. -/
def dozenFs : ExtFilesystem where
  blksz := 1024
  inodesz := 128
  devDesc := ⟨DiskDescr.ofImage fun b => if b = 2088 then 5 else 0, 0, 16⟩
  sblock := ⟨fun b => if b = 20 then 1 else if b = 40 then 12 else 0⟩
  past := fun _ => 0

theorem dozenFs_geometry :
    Geometry dozenFs ∧ InRange (withImage dozenFs dozenFs.devDesc.disk.image) 13 := by
  refine ⟨⟨?_, ?_, ?_, ?_⟩, ⟨?_, ?_, ?_, ?_⟩⟩ <;> decide +kernel

theorem readsItsPlace_iff_dozen :
    (ReadsItsPlace dozenFs 13 ↔ OffsetFits dozenFs 13) ∧
      ∀ other, 1 ≤ other → 13 ≠ other →
        TablesApart (withImage dozenFs dozenFs.devDesc.disk.image) 13 other →
        inodePlace (withImage dozenFs dozenFs.devDesc.disk.image) 13 + 128 ≤
            inodePlace (withImage dozenFs dozenFs.devDesc.disk.image) other ∨
          inodePlace (withImage dozenFs dozenFs.devDesc.disk.image) other + 128 ≤
            inodePlace (withImage dozenFs dozenFs.devDesc.disk.image) 13 :=
  readsItsPlace_iff dozenFs_geometry.1 (by decide) 13 (by decide) (by decide) _ dozenFs_geometry.2

/-- The first inode of the second group is not read from its place. -/
theorem dozenFs_misreads :
    Geometry dozenFs ∧ InRange (withImage dozenFs dozenFs.devDesc.disk.image) 13 ∧
      ¬ ReadsItsPlace dozenFs 13 := by
  obtain ⟨hgeom, hin⟩ := dozenFs_geometry
  refine ⟨hgeom, hin, fun h => ?_⟩
  have hfits := fits_of_readsItsPlace hgeom (by decide) (by decide) (by decide) _ hin h
  exact absurd hfits.1 (by decide +kernel)

end Eokan.InodePlaces
