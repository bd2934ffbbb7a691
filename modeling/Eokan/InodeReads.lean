import Eokan.DevreadOutcome
import Eokan.Inodes

/-!
Reading an inode from a disk without read errors. It succeeds if its descriptor
and the inode itself lie inside the partition, and then it gives these bytes.
-/
namespace Eokan.InodeReads

open ByteMem CInt Programs Device Devread DevreadOutcome Layout Inodes

section Places
variable (fs : ExtFilesystem) (group ino : ℕ)

/-- The descriptor of a group: its sector and its place there. -/
def descSector : ℤ :=
  int32 (int32 (fs.sblock.firstDataBlock + 1 + group / (ext2BlockSize fs / 32) : ℕ) *
    blockSectors fs)

def descOffset : ℕ := group % (ext2BlockSize fs / 32) * 32

def groupDesc : Ext2BlockGroup :=
  ⟨write blkgrpBuf 0 32
    (slice fs.devDesc.bytes ((descSector fs group).toNat * 512 + descOffset fs group))⟩

/-- The group of an inode. Number 0 counts as the one before number 1. -/
def inodeGroup : ℕ := (uint32 (ino - 1)).toNat / fs.sblock.inodesPerGroup

def inodesPerBlock : ℕ := ext2BlockSize fs / fs.inodesz

def inodeSector : ℤ :=
  int32 (int32 ((groupDesc fs (inodeGroup fs ino)).inodeTableId +
    (ino - 1) % fs.sblock.inodesPerGroup / inodesPerBlock fs : ℕ) * blockSectors fs)

def inodeOffset : ℕ := (ino - 1) % inodesPerBlock fs * fs.inodesz

/-- The offset that the code computes. From number 2 ^ 31 + 1 on it may be negative. -/
def signedOffset : ℤ := (int32 (ino - 1)).tmod (inodesPerBlock fs) * fs.inodesz

def inodeBytes : Bytes :=
  slice fs.devDesc.bytes ((inodeSector fs ino).toNat * 512 + inodeOffset fs ino)

/-- The descriptor and the inode lie inside the partition. -/
def DescReadable : Prop :=
  Readable fs.devDesc (descSector fs group) (descOffset fs group) 32

def InodeReadable : Prop :=
  DescReadable fs (inodeGroup fs ino) ∧
    Readable fs.devDesc (inodeSector fs ino) (inodeOffset fs ino) 128

instance : Decidable (DescReadable fs group) := by
  unfold DescReadable
  infer_instance

instance : Decidable (InodeReadable fs ino) := by
  unfold InodeReadable
  infer_instance

end Places

theorem mod_mul_lt {a b c n : ℕ} (hb : 0 < b) (h : b * c ≤ n) : a % b * c + c ≤ n := by
  have hlt := Nat.mod_lt a hb
  calc a % b * c + c = (a % b + 1) * c := by rw [Nat.succ_mul]
    _ ≤ b * c := Nat.mul_le_mul_right c hlt
    _ ≤ n := h

theorem inodeGroup_lt (fs : ExtFilesystem) (ino : ℕ) : inodeGroup fs ino < 2 ^ 32 := by
  have hbounds := uint32_bounds (ino - 1)
  have hle := Nat.div_le_self (uint32 ((ino : ℤ) - 1)).toNat fs.sblock.inodesPerGroup
  unfold inodeGroup
  omega

theorem offset_bounds {o b size : ℕ} (h : o + size ≤ b) (hb : b ≤ 2 ^ 30) :
    1 ≤ o + 128 ∧ o + 128 ≤ 2 ^ 31 ∧ (o : ℤ) < 2 ^ 31 := by omega

theorem signedOffset_bounds (fs : ExtFilesystem) (hsize : fs.inodesz ≠ 0)
    (hfits : fs.inodesz ≤ ext2BlockSize fs) (ino : ℕ) :
    -(ext2BlockSize fs : ℤ) < signedOffset fs ino ∧ signedOffset fs ino < ext2BlockSize fs := by
  have hpos : 0 < inodesPerBlock fs := Nat.div_pos hfits (Nat.pos_of_ne_zero hsize)
  have hlt : (int32 ((ino : ℤ) - 1)).natAbs % inodesPerBlock fs * fs.inodesz + fs.inodesz ≤
      ext2BlockSize fs := mod_mul_lt hpos (Nat.div_mul_le_self _ _)
  have habs : (signedOffset fs ino).natAbs =
      (int32 ((ino : ℤ) - 1)).natAbs % inodesPerBlock fs * fs.inodesz := by
    unfold signedOffset
    rw [Int.natAbs_mul, Int.natAbs_tmod, Int.natAbs_natCast, Int.natAbs_natCast]
  rw [← habs] at hlt
  omega

theorem signedOffset_of_le (fs : ExtFilesystem) (ino : ℕ) (hino : 1 ≤ ino) (hmax : ino ≤ 2 ^ 31) :
    signedOffset fs ino = (inodeOffset fs ino : ℕ) := by
  unfold signedOffset inodeOffset
  rw [int32_of_nat _ (by omega) (by omega), Int.tmod_eq_emod_of_nonneg (by omega),
    Int.natCast_mul, Int.natCast_emod, Int.natCast_sub hino]
  rfl

section Reads
variable (fs : ExtFilesystem) (hgood : fs.devDesc.disk.NoErrors)
  (hpart : fs.devDesc.off + fs.devDesc.length < 2 ^ 63) (hlog : fs.sblock.log2BlockSize ≤ 20)
include hgood hpart hlog

theorem ext4fsBlockgroup_spec (group : ℕ) (hgroup : group < 2 ^ 32) (log : Log) :
    Yields (ext4fsBlockgroup fs (int32 group)) log fun r _ =>
      (DescReadable fs group ∧ r = (1, groupDesc fs group)) ∨
      (¬ DescReadable fs group ∧ r.1 = 0) := by
  have hle := ext2BlockSize_le fs hlog
  have hsmall : 1024 ≤ ext2BlockSize fs := by
    have htwo := two_le_blockSectors fs
    rw [ext2BlockSize_eq]
    omega
  have hoff : descOffset fs group + 32 ≤ ext2BlockSize fs :=
    mod_mul_lt (by omega) (by omega)
  have hnat : uint32 (int32 group) = group := by
    rw [uint32_int32, uint32_of_range _ (by omega) (by omega)]
  have hcast : (group : ℤ) % (ext2BlockSize fs / 32 : ℕ) * 32 = (descOffset fs group : ℕ) := by
    unfold descOffset
    rw [Int.natCast_mul, Int.natCast_emod]
    rfl
  have hblkoff : int32 (uint32 (uint32 (int32 group) % (ext2BlockSize fs / 32 : ℕ) * 32)) =
      (descOffset fs group : ℕ) := by
    rw [hnat, hcast, int32_uint32]
    exact int32_of_nat _ (by omega) (by omega)
  have hblkno : int32 (int32 (fs.sblock.firstDataBlock + 1 +
      uint32 (int32 group) / (ext2BlockSize fs / 32 : ℕ)) * blockSectors fs) =
      descSector fs group := by
    rw [hnat]
    unfold descSector
    rw [Int.natCast_add, Int.natCast_add, Int.natCast_ediv]
    rfl
  have hlen : (32 : ℤ) = int32 (32 : ℕ) := (int32_of_nat 32 (by decide) (by decide)).symm
  have hsector := (int32_bounds (int32 (fs.sblock.firstDataBlock + 1 +
    group / (ext2BlockSize fs / 32) : ℕ) * blockSectors fs)).2
  unfold ext4fsBlockgroup
  refine Yields.lift (if_pos hlog) ?_
  dsimp only
  rw [hblkno, hblkoff, hlen]
  refine Yields.bind (vfsDevread_spec fs.devDesc hgood hpart (descSector fs group)
    (descOffset fs group) 32 hsector (by omega) (by omega) blkgrpBuf 0 log) ?_
  rintro _ log' (⟨hin, rfl⟩ | ⟨hout, rfl⟩)
  · exact Yields.pure (Or.inl ⟨hin, rfl⟩)
  · exact Yields.pure (Or.inr ⟨hout, rfl⟩)

theorem blockgroup_of_inode (ino : ℕ) (log : Log) :
    Yields (ext4fsBlockgroup fs
      (int32 (uint32 (int32 (int32 ino - 1)) / fs.sblock.inodesPerGroup))) log fun r _ =>
      (DescReadable fs (inodeGroup fs ino) ∧ r = (1, groupDesc fs (inodeGroup fs ino))) ∨
      (¬ DescReadable fs (inodeGroup fs ino) ∧ r.1 = 0) := by
  have hbounds := uint32_bounds (ino - 1)
  obtain ⟨n, hn⟩ : ∃ n : ℕ, uint32 ((ino : ℤ) - 1) = n := ⟨_, (Int.toNat_of_nonneg hbounds.1).symm⟩
  have harg : uint32 (int32 (int32 ino - 1)) / fs.sblock.inodesPerGroup =
      (inodeGroup fs ino : ℕ) := by
    unfold inodeGroup
    rw [int32_int32_sub, uint32_int32, hn, Int.toNat_natCast, Int.natCast_ediv]
  rw [harg]
  exact ext4fsBlockgroup_spec fs hgood hpart hlog _ (inodeGroup_lt fs ino) log

variable (hgroup : fs.sblock.inodesPerGroup ≠ 0)
include hgroup

/-- Without its descriptor an inode cannot be read. -/
theorem unreadable_of_desc (ino : ℕ) (hdesc : ¬ DescReadable fs (inodeGroup fs ino)) :
    InodeUnreadable fs (int32 ino) := by
  intro inode log
  unfold ext4fsReadInode
  dsimp only
  rw [if_neg hgroup]
  apply Yields.bind (blockgroup_of_inode fs hgood hpart hlog ino log)
  rintro r log' (⟨hin, -⟩ | ⟨-, hr⟩)
  · exact absurd hin hdesc
  · rw [if_pos hr]
    exact Yields.pure rfl

/-- With its descriptor an inode is read from where the code computes it to be. -/
theorem ext4fsReadInode_run (ino : ℕ) (hino : 1 ≤ ino) (hmax : ino < 2 ^ 32)
    (hsize : fs.inodesz ≠ 0) (hfits : fs.inodesz ≤ ext2BlockSize fs)
    (hdesc : DescReadable fs (inodeGroup fs ino)) (inode : Ext2Inode) (log : Log)
    {post : ℤ × Ext2Inode → Log → Prop}
    (hread : ∀ log', Yields (vfsDevread fs.devDesc (inodeSector fs ino) (signedOffset fs ino)
      (int32 (128 : ℕ)) inode.raw 0) log' fun r log'' =>
        post (if r.1 = 0 then 0 else 1, ⟨r.2⟩) log'') :
    Yields (ext4fsReadInode fs (int32 ino) inode) log post := by
  have hpos : 0 < inodesPerBlock fs := Nat.div_pos hfits (Nat.pos_of_ne_zero hsize)
  have hle := ext2BlockSize_le fs hlog
  obtain ⟨k, rfl⟩ : ∃ k, ino = k + 1 := ⟨ino - 1, by omega⟩
  have hindex : int32 (int32 (k + 1 : ℕ) - 1) = int32 k := by
    rw [int32_int32_sub]
    exact congrArg int32 (by omega)
  have hnat : uint32 (int32 (k : ℤ)) = k := by
    rw [uint32_int32, uint32_of_range k (by omega) (by omega)]
  have hblkno : int32 (int32 ((groupDesc fs (inodeGroup fs (k + 1))).inodeTableId +
      (k : ℤ) % fs.sblock.inodesPerGroup / (inodesPerBlock fs : ℕ)) * blockSectors fs) =
      inodeSector fs (k + 1) := by
    unfold inodeSector
    rw [Int.natCast_add, Int.natCast_ediv, Int.natCast_emod]
    rfl
  have hsigned : (int32 (k : ℤ)).tmod (inodesPerBlock fs : ℕ) * fs.inodesz =
      signedOffset fs (k + 1) := by
    unfold signedOffset
    exact congrArg (fun i => (int32 i).tmod (inodesPerBlock fs : ℕ) * (fs.inodesz : ℤ)) (by omega)
  have hblkoff : int32 (uint32 (signedOffset fs (k + 1))) = signedOffset fs (k + 1) := by
    have hbounds := signedOffset_bounds fs hsize hfits (k + 1)
    rw [int32_uint32]
    exact int32_of_range _ (by omega) (by omega)
  have hlen : (128 : ℤ) = int32 (128 : ℕ) := (int32_of_nat 128 (by decide) (by decide)).symm
  have hrun := blockgroup_of_inode fs hgood hpart hlog (k + 1) log
  rw [hindex] at hrun
  unfold ext4fsReadInode
  dsimp only
  rw [if_neg hgroup, hindex]
  apply Yields.bind hrun
  rintro r log' (⟨-, rfl⟩ | ⟨hout, -⟩)
  swap
  · exact absurd hdesc hout
  rw [hnat]
  dsimp only
  have hper : ext2BlockSize fs / fs.inodesz = inodesPerBlock fs := rfl
  rw [if_neg (by decide : ¬ (1 : ℤ) = 0), if_neg hsize, hper, if_neg (Nat.ne_of_gt hpos), hblkno,
    hsigned, hblkoff, hlen]
  apply Yields.bind (hread log')
  intro r log'' hr
  by_cases hzero : r.1 = 0
  · rw [if_pos hzero] at hr ⊢
    exact Yields.pure hr
  · rw [if_neg hzero] at hr ⊢
    exact Yields.pure hr

/-- Numbers from 1 on are those an inode can have. -/
theorem ext4fsReadInode_spec (ino : ℕ) (hino : 1 ≤ ino) (hmax : ino ≤ 2 ^ 31)
    (hsize : fs.inodesz ≠ 0) (hfits : fs.inodesz ≤ ext2BlockSize fs) (inode : Ext2Inode)
    (log : Log) :
    Yields (ext4fsReadInode fs (int32 ino) inode) log fun r _ =>
      (InodeReadable fs ino ∧ r = (1, ⟨write inode.raw 0 128 (inodeBytes fs ino)⟩)) ∨
      (¬ InodeReadable fs ino ∧ r.1 = 0) := by
  by_cases hdesc : DescReadable fs (inodeGroup fs ino)
  swap
  · refine (unreadable_of_desc fs hgood hpart hlog hgroup ino hdesc inode log).mono ?_
    intro r log' hr
    exact Or.inr ⟨fun h => hdesc h.1, hr⟩
  have hpos : 0 < inodesPerBlock fs := Nat.div_pos hfits (Nat.pos_of_ne_zero hsize)
  have hle := ext2BlockSize_le fs hlog
  have hoff : inodeOffset fs ino + fs.inodesz ≤ ext2BlockSize fs :=
    mod_mul_lt hpos (Nat.div_mul_le_self _ _)
  have hbound := offset_bounds hoff hle
  have hsector : inodeSector fs ino < 2 ^ 31 := (int32_bounds _).2
  apply ext4fsReadInode_run fs hgood hpart hlog hgroup ino hino (by omega) hsize hfits hdesc
  intro log'
  rw [signedOffset_of_le fs ino hino hmax]
  refine (vfsDevread_spec fs.devDesc hgood hpart (inodeSector fs ino) (inodeOffset fs ino) 128
    hsector hbound.1 hbound.2.1 inode.raw 0 log').mono ?_
  rintro _ log₂ (⟨hin, rfl⟩ | ⟨hout, rfl⟩)
  · exact Or.inl ⟨⟨hdesc, hin⟩, rfl⟩
  · exact Or.inr ⟨fun h => hout h.2, rfl⟩

/-- With a number from 1 on it depends on the places alone if an inode is read. -/
theorem readsInode_of_readable (ino : ℕ) (hino : 1 ≤ ino) (hmax : ino ≤ 2 ^ 31)
    (hsize : fs.inodesz ≠ 0) (hfits : fs.inodesz ≤ ext2BlockSize fs)
    (hreadable : InodeReadable fs ino) : ReadsInode fs (int32 ino) (inodeBytes fs ino) := by
  intro inode log
  refine (ext4fsReadInode_spec fs hgood hpart hlog hgroup ino hino hmax hsize hfits inode log).mono
    ?_
  rintro _ log' (⟨-, rfl⟩ | ⟨hout, -⟩)
  · exact ⟨rfl, rfl⟩
  · exact absurd hreadable hout

end Reads

/-- Two pieces written one behind the other are one piece. -/
theorem write_write_adjacent (m a p : Bytes) (dst n k : ℕ) :
    write (write m dst n a) (dst + n) k p = write m dst (n + k) (write a n k p) := by
  funext j
  by_cases hlo : j < dst
  · rw [write_of_lt _ _ _ _ (by omega), write_of_lt _ _ _ _ hlo, write_of_lt _ _ _ _ hlo]
  by_cases hmid : j < dst + n
  · rw [write_of_lt _ _ _ _ hmid, write_of_mem _ _ _ _ (by omega) hmid,
      write_of_mem _ _ _ _ (by omega) (by omega), write_of_lt _ _ _ _ (by omega)]
  by_cases hhi : j < dst + n + k
  · rw [write_of_mem _ _ _ _ (by omega) hhi, write_of_mem _ _ _ _ (by omega) (by omega),
      write_of_mem _ _ _ _ (by omega) (by omega)]
    congr 1
    omega
  · rw [write_of_ge _ _ _ _ (by omega), write_of_ge _ _ _ _ (by omega),
      write_of_ge _ _ _ _ (by omega)]

section Decided
variable (part : PartDescr) (hgood : part.disk.NoErrors)
include hgood

theorem partRead_ok (start num : ℤ) :
    ∃ bytes, ∀ buf dst log, Yields (partRead part start num buf dst) log fun r _ =>
      r = (0, write buf dst (num * 512).toNat bytes) := by
  refine ⟨slice part.disk.image (int64 (start + part.off) * 512).toNat, fun buf dst log => ?_⟩
  have hfails : ¬ part.disk.fails log ⟨int64 (start + part.off), num⟩ = true := by
    rw [hgood]
    exact Bool.false_ne_true
  unfold Yields partRead diskRead
  exact ⟨_, _, if_neg hfails, rfl⟩

theorem readAligned_short (sector : ℤ) (n : ℕ) (hn : n < 512) :
    ∃ bytes, ∀ buf dst log, Yields (readAligned part sector n buf dst) log fun r _ =>
      r = (1, write buf dst n bytes) := by
  obtain ⟨bytes, hread⟩ := partRead_ok part hgood sector 1
  refine ⟨write secBuf 0 512 bytes, fun buf dst log => ?_⟩
  unfold readAligned
  by_cases hzero : n = 0
  · subst hzero
    rw [if_pos (show ((0 : ℕ) : ℤ) = 0 from rfl), write_none]
    exact Yields.pure rfl
  · have hblock : uint32 ((n : ℤ) - n % 512) = 0 := by
      rw [show (n : ℤ) - n % 512 = 0 by omega]
      exact uint32_zero
    rw [if_neg (by omega)]
    dsimp only
    rw [if_pos hblock]
    apply Yields.bind (hread secBuf 0 log)
    intro r log' hr
    rw [hr]
    exact Yields.pure rfl

/-- A read of less than a sector succeeds with certain bytes, or is refused. -/
theorem vfsDevread_decided (sector byteOffset : ℤ) (n : ℕ) (hn : n < 512) :
    (∃ bytes, ∀ buf dst log,
      Yields (vfsDevread part sector byteOffset n buf dst) log fun r _ =>
        r = (1, write buf dst n bytes)) ∨
    ∀ buf dst log, Yields (vfsDevread part sector byteOffset n buf dst) log fun r _ =>
      r = (0, buf) := by
  unfold vfsDevread
  by_cases hout : outsidePartition part sector byteOffset n = true
  · simp only [hout, if_true]
    exact Or.inr fun buf dst log => Yields.pure rfl
  simp only [hout]
  left
  by_cases hoff : byteOffset % 512 = 0
  · simp only [hoff, ne_eq, not_true_eq_false, if_false]
    exact readAligned_short part hgood _ n hn
  simp only [hoff, ne_eq, not_false_eq_true, if_true]
  obtain ⟨head, hhead⟩ := partRead_ok part hgood (int32 (sector + byteOffset / 512)) 1
  obtain ⟨k, hk⟩ : ∃ k : ℕ, min (512 - byteOffset % 512) n = k :=
    ⟨(min (512 - byteOffset % 512) n).toNat, by omega⟩
  obtain ⟨rest, hrest⟩ := readAligned_short part hgood
    (int32 (int32 (sector + byteOffset / 512) + 1)) (n - k) (by omega)
  refine ⟨write (slice (write secBuf 0 512 head) (byteOffset % 512).toNat) k (n - k) rest,
    fun buf dst log => ?_⟩
  apply Yields.bind (hhead secBuf 0 log)
  rintro _ log' rfl
  have hcast : (n : ℤ) - k = (n - k : ℕ) := by omega
  have hsum : k + (n - k) = n := by omega
  dsimp only
  rw [if_neg (by decide), hk, Int.toNat_natCast, hcast]
  refine (hrest _ _ log').mono fun r _ hr => ?_
  rw [hr, write_write_adjacent, hsum]
  rfl

end Decided

section AnyNumber
variable (fs : ExtFilesystem) (hgood : fs.devDesc.disk.NoErrors)
  (hlog : fs.sblock.log2BlockSize ≤ 20)
include hgood hlog

theorem blockgroup_decided (group : ℤ) :
    (∃ desc, ∀ log, Yields (ext4fsBlockgroup fs group) log fun r _ => r = (1, desc)) ∨
      ∀ log, Yields (ext4fsBlockgroup fs group) log fun r _ => r.1 = 0 := by
  rcases vfsDevread_decided fs.devDesc hgood
    (int32 (int32 (fs.sblock.firstDataBlock + 1 + uint32 group / (ext2BlockSize fs / 32 : ℕ)) *
      blockSectors fs))
    (int32 (uint32 (uint32 group % (ext2BlockSize fs / 32 : ℕ) * 32))) 32 (by decide) with
    ⟨desc, hdesc⟩ | hrefused
  · refine Or.inl ⟨⟨write blkgrpBuf 0 32 desc⟩, fun log => ?_⟩
    refine Yields.lift (if_pos hlog) (Yields.bind (hdesc blkgrpBuf 0 log) fun r log' hr => ?_)
    rw [hr]
    exact Yields.pure rfl
  · refine Or.inr fun log => ?_
    refine Yields.lift (if_pos hlog) (Yields.bind (hrefused blkgrpBuf 0 log) fun r log' hr => ?_)
    rw [hr]
    exact Yields.pure rfl

/-- Without read errors every inode number can be read or not. -/
theorem inode_decided (hgroup : fs.sblock.inodesPerGroup ≠ 0) (hsize : fs.inodesz ≠ 0)
    (hfits : fs.inodesz ≤ ext2BlockSize fs) (ino : ℤ) :
    (∃ bytes, ReadsInode fs ino bytes) ∨ InodeUnreadable fs ino := by
  have hper : ¬ ext2BlockSize fs / fs.inodesz = 0 :=
    Nat.ne_of_gt (Nat.div_pos hfits (Nat.pos_of_ne_zero hsize))
  rcases blockgroup_decided fs hgood hlog
    (int32 (uint32 (int32 (ino - 1)) / fs.sblock.inodesPerGroup)) with ⟨desc, hdesc⟩ | hrefused
  swap
  · refine Or.inr fun inode log => ?_
    unfold ext4fsReadInode
    dsimp only
    rw [if_neg hgroup]
    apply Yields.bind (hrefused log)
    intro r log' hr
    rw [if_pos hr]
    exact Yields.pure rfl
  rcases vfsDevread_decided fs.devDesc hgood
    (int32 (int32 (desc.inodeTableId + uint32 (int32 (ino - 1)) % fs.sblock.inodesPerGroup /
      (ext2BlockSize fs / fs.inodesz : ℕ)) * blockSectors fs))
    (int32 (uint32 ((int32 (ino - 1)).tmod (ext2BlockSize fs / fs.inodesz : ℕ) * fs.inodesz)))
    128 (by decide) with ⟨bytes, hbytes⟩ | hrefused
  · refine Or.inl ⟨bytes, fun inode log => ?_⟩
    unfold ext4fsReadInode
    dsimp only
    rw [if_neg hgroup]
    apply Yields.bind (hdesc log)
    rintro _ log' rfl
    dsimp only
    rw [if_neg (by decide), if_neg hsize, if_neg hper]
    apply Yields.bind (hbytes inode.raw 0 log')
    rintro _ log'' rfl
    exact Yields.pure ⟨rfl, rfl⟩
  · refine Or.inr fun inode log => ?_
    unfold ext4fsReadInode
    dsimp only
    rw [if_neg hgroup]
    apply Yields.bind (hdesc log)
    rintro _ log' rfl
    dsimp only
    rw [if_neg (by decide), if_neg hsize, if_neg hper]
    apply Yields.bind (hrefused inode.raw 0 log')
    rintro _ log'' rfl
    exact Yields.pure rfl

end AnyNumber

end Eokan.InodeReads
