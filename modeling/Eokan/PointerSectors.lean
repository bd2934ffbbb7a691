import Eokan.TableDescent

/-!
The sector of a block in an `int`, and the reads of tables. Below sector 2 ^ 31
nothing is lost. From there on a block inside the partition cannot be read, and
one outside can be taken for another block.
-/
namespace Eokan.PointerSectors

open ByteMem CInt Programs Device Devread Layout BlockMap IndirectCache TableDescent

/-- Block b lies wholly inside the partition. -/
def BlockInside (fs : ExtFilesystem) (b : ℕ) : Prop :=
  (b + 1) * blockSectors fs ≤ fs.devDesc.length

instance (fs : ExtFilesystem) (b : ℕ) : Decidable (BlockInside fs b) := by
  unfold BlockInside
  infer_instance

/-- The first read issued since log starts at this sector of the partition. -/
def FirstReadAt (fs : ExtFilesystem) (sector : ℕ) (log log' : Log) : Prop :=
  ∃ issued num, log' = issued ++ ⟨(sector + fs.devDesc.off : ℕ), num⟩ :: log

theorem log_ne_issued (issued : Log) (request : Request) (log : Log) :
    log ≠ issued ++ request :: log := by
  intro h
  have hlen := congrArg List.length h
  simp only [List.length_append, List.length_cons] at hlen
  omega

theorem not_firstReadAt_self (fs : ExtFilesystem) (sector : ℕ) (log : Log) :
    ¬ FirstReadAt fs sector log log := fun ⟨_, _, h⟩ => log_ne_issued _ _ log h

/-- An access for block b is right: a block inside the partition that is not
held already is read where it lies, and a block that is not inside fails. -/
def RightAccess (fs : ExtFilesystem) (b skip : ℕ) (held failed : Prop) (log log' : Log) : Prop :=
  (BlockInside fs b → ¬ held → FirstReadAt fs (b * blockSectors fs + skip / 512) log log') ∧
    (¬ BlockInside fs b → failed ∧ log' = log)

/-- The sector of block b in 32 bits. -/
def lowSector (fs : ExtFilesystem) (b : ℕ) : ℕ := b * blockSectors fs % 2 ^ 32

/-- In 32 bits the sector of block b starts a range that lies in the partition. -/
def TakenFor (fs : ExtFilesystem) (b skip n : ℕ) : Prop :=
  lowSector fs b * 512 + skip + n ≤ min fs.devDesc.length (2 ^ 31) * 512

def TableFits (fs : ExtFilesystem) (cache : IndirCache) (test b : ℕ) : Prop :=
  (BlockInside fs b → Hit fs cache test ∨ b * blockSectors fs < 2 ^ 31) ∧
    (¬ BlockInside fs b → ¬ Hit fs cache test ∧ ¬ TakenFor fs b 0 (ext2BlockSize fs))

def DataFits (fs : ExtFilesystem) (b skip n : ℕ) : Prop :=
  (BlockInside fs b → b * blockSectors fs < 2 ^ 31) ∧
    (¬ BlockInside fs b → 2 ^ 31 ≤ b % 2 ^ 32 ∨ (lowSector fs b ≠ 0 ∧ ¬ TakenFor fs b skip n))

theorem int32_neg_iff (b : ℕ) : int32 b < 0 ↔ 2 ^ 31 ≤ b % 2 ^ 32 := by
  unfold int32
  omega

theorem tableSector_eq_zero_iff (fs : ExtFilesystem) (b : ℕ) :
    tableSector fs b = 0 ↔ lowSector fs b = 0 := by
  unfold tableSector lowSector
  unfold int32
  omega

theorem readable_iff (fs : ExtFilesystem) (b skip n : ℕ) (hn : 1 ≤ n) :
    Readable fs.devDesc (tableSector fs b) skip n ↔ TakenFor fs b skip n := by
  unfold Devread.Readable TakenFor tableSector lowSector
  generalize b * blockSectors fs = s
  have hlow : int32 (s : ℤ) = (s % 2 ^ 32 : ℕ) ∧ s % 2 ^ 32 < 2 ^ 31 ∨
      int32 (s : ℤ) < 0 ∧ 2 ^ 31 ≤ s % 2 ^ 32 := by
    unfold int32
    omega
  rcases hlow with ⟨heq, hlt⟩ | ⟨hneg, hge⟩
  · rw [heq]
    omega
  · omega

/-- The access to pointer b is refused, before or after the shift. -/
def Refused (fs : ExtFilesystem) (b skip n : ℕ) : Prop :=
  int32 b < 0 ∨ (tableSector fs b ≠ 0 ∧ ¬ Readable fs.devDesc (tableSector fs b) skip n)

theorem refused_iff (fs : ExtFilesystem) (b skip n : ℕ) (hn : 1 ≤ n) :
    Refused fs b skip n ↔ 2 ^ 31 ≤ b % 2 ^ 32 ∨ (lowSector fs b ≠ 0 ∧ ¬ TakenFor fs b skip n) := by
  unfold Refused
  rw [int32_neg_iff, readable_iff fs b skip n hn, ne_eq, tableSector_eq_zero_iff]

theorem readable_part (part : PartDescr) (sector : ℤ) (skip n size : ℕ) (hn : skip + n ≤ size)
    (h : Readable part sector 0 size) : Readable part sector skip n := by
  obtain ⟨hpos, hend, hlimit⟩ := h
  refine ⟨hpos, ?_, ?_⟩
  · omega
  · omega

section Logs
variable (part : PartDescr)

theorem readRest_log (sector byteLen : ℤ) (buf : Bytes) (dst : ℕ) (log : Log) :
    Yields (readRest part sector byteLen buf dst) log fun _ log' =>
      ∃ issued, log' = issued ++ log := by
  unfold readRest
  split
  · exact Yields.pure ⟨[], rfl⟩
  · refine Yields.bind (partRead_issues part sector 1 secBuf 0 log) ?_
    intro r log' hr
    dsimp only
    split
    · exact Yields.pure ⟨[_], hr.1⟩
    · exact Yields.pure ⟨[_], hr.1⟩

/-- Of at least one byte from a sector boundary on, the first read starts there. -/
theorem readAligned_first (sector : ℤ) (n : ℕ) (hn : 1 ≤ n) (buf : Bytes) (dst : ℕ) (log : Log) :
    Yields (readAligned part sector n buf dst) log fun _ log' =>
      ∃ issued num, log' = issued ++ ⟨int64 (sector + part.off), num⟩ :: log := by
  unfold readAligned
  rw [if_neg (by omega)]
  dsimp only
  split
  · refine Yields.bind (partRead_issues part sector 1 secBuf 0 log) ?_
    intro r log' hr
    exact Yields.pure ⟨[], 1, hr.1⟩
  · refine Yields.bind (partRead_issues part sector _ buf dst log) ?_
    intro r log' hr
    obtain ⟨rfl, -⟩ := hr
    split
    · exact Yields.pure ⟨[], _, rfl⟩
    · refine (readRest_log part _ _ _ _ _).mono ?_
      intro r' log'' hr'
      obtain ⟨issued, rfl⟩ := hr'
      exact ⟨issued, _, rfl⟩

theorem readAligned_log (sector byteLen : ℤ) (buf : Bytes) (dst : ℕ) (log : Log) :
    Yields (readAligned part sector byteLen buf dst) log fun _ log' =>
      ∃ issued, log' = issued ++ log := by
  unfold readAligned
  split
  · exact Yields.pure ⟨[], rfl⟩
  dsimp only
  split
  · refine Yields.bind (partRead_issues part sector 1 secBuf 0 log) ?_
    intro r log' hr
    exact Yields.pure ⟨[_], hr.1⟩
  · refine Yields.bind (partRead_issues part sector _ buf dst log) ?_
    intro r log' hr
    obtain ⟨rfl, -⟩ := hr
    split
    · exact Yields.pure ⟨[_], rfl⟩
    · refine (readRest_log part _ _ _ _ _).mono ?_
      intro r' log'' hr'
      obtain ⟨issued, rfl⟩ := hr'
      exact ⟨issued ++ [_], List.append_cons issued _ log⟩

/-- The first read for an accepted range starts at the sector of its first byte. -/
theorem vfsDevread_first (hpart : part.off + part.length < 2 ^ 63) (sector skip n : ℕ)
    (hn : 1 ≤ n) (hmax : skip + n < 2 ^ 31) (hin : Readable part sector skip n) (buf : Bytes)
    (dst : ℕ) (log : Log) :
    Yields (vfsDevread part sector skip (int32 n) buf dst) log fun _ log' =>
      ∃ issued num, log' = issued ++ ⟨(sector + skip / 512 + part.off : ℕ), num⟩ :: log := by
  have hout := (outsidePartition_int32 part sector skip n (by omega) (by have := hin.2.2; omega)
    (by omega) (by omega)).mpr hin
  have hint : int32 n = n := int32_of_nat n (by omega) (by omega)
  obtain ⟨-, hend, hlimit⟩ := hin
  have hstart : int32 ((sector : ℤ) + (skip : ℤ) / 512) = ((sector + skip / 512 : ℕ) : ℤ) := by
    rw [int32_of_nat _ (by omega) (by omega)]
    omega
  have hdisk : int64 (((sector + skip / 512 : ℕ) : ℤ) + part.off) =
      ((sector + skip / 512 + part.off : ℕ) : ℤ) := by
    rw [int64_of_range _ (by omega) (by omega)]
    omega
  rw [hint] at hout ⊢
  unfold vfsDevread
  rw [hout, if_neg Bool.false_ne_true]
  simp only [hstart]
  split
  · refine Yields.bind (partRead_issues part _ 1 secBuf 0 log) ?_
    intro r log' hr
    obtain ⟨rfl, -⟩ := hr
    rw [hdisk]
    split
    · exact Yields.pure ⟨[], 1, rfl⟩
    · refine (readAligned_log part _ _ _ _ _).mono ?_
      intro r' log'' hr'
      obtain ⟨issued, rfl⟩ := hr'
      exact ⟨issued, 1, rfl⟩
  · rw [← hdisk]
    exact readAligned_first part _ n hn buf dst log

end Logs

section Tables
variable (fs : ExtFilesystem) (hpart : fs.devDesc.off + fs.devDesc.length < 2 ^ 63)
  (hlength : fs.devDesc.length < 2 ^ 32) (hlog : fs.sblock.log2BlockSize ≤ 20)
include hlength

theorem inside_sector_lt (b : ℕ) (h : BlockInside fs b) : b * blockSectors fs < 2 ^ 32 := by
  have htwo := two_le_blockSectors fs
  unfold BlockInside at h
  rw [Nat.succ_mul] at h
  omega

include hlog

/-- A block inside the partition is in reach below sector 2 ^ 31, and only there. -/
theorem inReach_of_inside (b : ℕ) (h : BlockInside fs b) :
    InReach fs b ↔ b * blockSectors fs < 2 ^ 31 := by
  have hlt := inside_sector_lt fs hlength b h
  have hsize := ext2BlockSize_eq fs
  have htwo := two_le_blockSectors fs
  unfold BlockInside at h
  rw [Nat.succ_mul] at h
  constructor
  · intro ⟨hpos, _⟩
    unfold tableSector at hpos
    unfold int32 at hpos
    omega
  · intro hsmall
    -- the last block below sector 2 ^ 31 ends there
    have hend : b * blockSectors fs + blockSectors fs ≤ 2 ^ 31 := by
      have hdvd : blockSectors fs ∣ 2 ^ 31 := by
        refine Nat.pow_dvd_pow 2 ?_
        unfold log2Ext2BlockSize
        omega
      obtain ⟨k, hk⟩ := hdvd
      rw [hk, Nat.mul_comm] at hsmall
      have hbk : b + 1 ≤ k := Nat.lt_of_mul_lt_mul_left hsmall
      have hmul := Nat.mul_le_mul_left (blockSectors fs) hbk
      rw [hk, Nat.mul_comm b, ← Nat.mul_succ]
      exact hmul
    have hsector : tableSector fs b = (b * blockSectors fs : ℕ) :=
      int32_of_nat _ (by omega) (by omega)
    unfold InReach
    rw [hsector]
    unfold Devread.Readable
    omega

include hpart

/-- The access for the table in block b. -/
theorem table_access_iff (cache : IndirCache) (test b : ℕ) (log : Log) :
    Yields (refill fs (allocCache fs cache) test b) log fun r log' =>
      RightAccess fs b 0 (Hit fs (allocCache fs cache) test) (r.1 = false) log log' ↔
        TableFits fs (allocCache fs cache) test b := by
  have hsize := ext2BlockSize_eq fs
  have htwo := two_le_blockSectors fs
  have hreach := inReach_of_inside fs hlength hlog b
  have htaken : InReach fs b ↔ TakenFor fs b 0 (ext2BlockSize fs) :=
    readable_iff fs b 0 _ (by omega)
  have hgrows : tableRequest fs b :: log ≠ log := List.cons_ne_self _ _
  refine Yields.of_run (refill_run fs hpart hlog _ (allocCache_isSome fs cache) test b log) ?_
  unfold RightAccess TableFits
  rw [← htaken]
  generalize allocCache fs cache = cache
  by_cases hhit : Hit fs cache test
  · have hrefilled : refilled fs cache test b log = ((true, cache), log) := by
      unfold refilled
      rw [if_pos hhit]
    simp [hrefilled, hhit]
  by_cases hin : InReach fs b
  · have hread : (refilled fs cache test b log).2 = tableRequest fs b :: log := by
      unfold refilled
      rw [if_neg hhit, if_neg (not_not_intro hin)]
      dsimp only
      split
      · rfl
      · rfl
    have hfirst : BlockInside fs b → FirstReadAt fs (b * blockSectors fs + 0 / 512) log
        (tableRequest fs b :: log) := by
      intro hinside
      have hsmall := (hreach hinside).mp hin
      refine ⟨[], blockSectors fs, ?_⟩
      unfold tableRequest tableSector
      rw [int32_of_nat _ (by omega) (by omega), Int.natCast_add]
      rfl
    rw [hread]
    simp only [hhit, hin, hgrows, not_false_eq_true, not_true_eq_false, true_implies, false_or,
      and_false]
    constructor
    · intro ⟨_, hfail⟩
      exact ⟨fun hinside => (hreach hinside).mp hin, hfail⟩
    · intro ⟨_, hfail⟩
      exact ⟨hfirst, hfail⟩
  · have hrefused : refilled fs cache test b log = ((false, cache), log) := by
      unfold refilled
      rw [if_neg hhit, if_pos hin]
    rw [hrefused]
    simp only [hhit, hin, not_false_eq_true, true_implies, false_or, and_self, implies_true,
      and_true]
    refine forall_congr' fun hinside => ?_
    rw [← hreach hinside]
    exact iff_of_false (not_firstReadAt_self fs _ log) hin

end Tables

end Eokan.PointerSectors
