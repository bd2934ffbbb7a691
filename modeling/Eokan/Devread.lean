import Eokan.Device

/-!
Reading a byte range of a partition. The range is split into the end of its
first sector, whole sectors read in place and the beginning of its last one.
One check, made before the offset is folded into the sector, has to bound all
three reads.
-/
namespace Eokan.Devread

open ByteMem CInt Programs Device

/-- A sector buffer on the stack, read only after it has been filled. -/
def secBuf : Bytes := fun _ => 0

def readRest (part : PartDescr) (sector byteLen : ℤ) (buf : Bytes) (dst : ℕ) :
    DevM (ℤ × Bytes) :=
  if byteLen = 0 then pure (1, buf)
  else do
    let (status, sec) ← partRead part sector 1 secBuf 0
    if status < 0 then pure (0, buf)
    else pure (1, write buf dst byteLen.toNat sec)

/-- The read from a sector boundary on. Less than one sector is read without
looking at the outcome. -/
def readAligned (part : PartDescr) (sector byteLen : ℤ) (buf : Bytes) (dst : ℕ) :
    DevM (ℤ × Bytes) :=
  if byteLen = 0 then pure (1, buf)
  else
    let blockLen := uint32 (byteLen - byteLen % 512)
    if blockLen = 0 then do
      let (_, p) ← partRead part sector 1 secBuf 0
      pure (1, write buf dst byteLen.toNat p)
    else do
      let (status, buf) ← partRead part sector (blockLen / 512) buf dst
      if status < 0 then pure (0, buf)
      else
        readRest part (int32 (sector + blockLen / 512)) (int32 (byteLen - blockLen)) buf
          (dst + blockLen.toNat)

/-- The range ends outside the partition, as the code tests it. -/
def outsidePartition (part : PartDescr) (sector byteOffset byteLen : ℤ) : Bool :=
  sector < 0 ||
    part.length ≤ uint64 (int32 (sector + int32 (byteOffset + byteLen - 1) / 512))

def vfsDevread (part : PartDescr) (sector byteOffset byteLen : ℤ) (buf : Bytes) (dst : ℕ) :
    DevM (ℤ × Bytes) :=
  if outsidePartition part sector byteOffset byteLen then pure (0, buf)
  else
    let sector := int32 (sector + byteOffset / 512)
    let byteOffset := byteOffset % 512
    if byteOffset ≠ 0 then do
      let (status, sec) ← partRead part sector 1 secBuf 0
      if status < 0 then pure (0, buf)
      else
        let n := min (512 - byteOffset) byteLen
        readAligned part (int32 (sector + 1)) (byteLen - n)
          (write buf dst n.toNat (slice sec byteOffset.toNat)) (dst + n.toNat)
    else readAligned part sector byteLen buf dst

/-- What the check accepts is a range inside the partition, and nothing wraps. -/
theorem outsidePartition_eq_false_iff (part : PartDescr) (sector bo bl : ℤ)
    (hpart : part.length < 2 ^ 63) (hsec : sector < 2 ^ 31)
    (hbl : 1 ≤ bo + bl) (hmax : bo + bl ≤ 2 ^ 31) :
    outsidePartition part sector bo bl = false ↔
      0 ≤ sector ∧ sector * 512 + bo + bl ≤ part.length * 512 ∧
        sector * 512 + bo + bl ≤ 2 ^ 31 * 512 := by
  unfold outsidePartition uint64 int32
  simp only [Bool.or_eq_false_iff, decide_eq_false_iff_not]
  omega

/-- A range the reader accepts: inside the partition and within 2 ^ 31 sectors. -/
def Readable (part : PartDescr) (sector : ℤ) (byteOffset n : ℕ) : Prop :=
  0 ≤ sector ∧ sector * 512 + byteOffset + n ≤ part.length * 512 ∧
    sector * 512 + byteOffset + n ≤ 2 ^ 31 * 512

instance (part : PartDescr) (sector : ℤ) (byteOffset n : ℕ) :
    Decidable (Readable part sector byteOffset n) := by
  unfold Readable
  infer_instance

/-- The length 2 ^ 31 is the one that an `int` stores as a negative number. -/
theorem outsidePartition_int32 (part : PartDescr) (sector : ℤ) (byteOffset n : ℕ)
    (hpart : part.length < 2 ^ 63) (hsec : sector < 2 ^ 31) (hn : 1 ≤ byteOffset + n)
    (hmax : byteOffset + n ≤ 2 ^ 31) :
    outsidePartition part sector byteOffset (int32 n) = false ↔
      Readable part sector byteOffset n := by
  have hlast : int32 ((byteOffset : ℤ) + int32 n - 1) = int32 ((byteOffset : ℤ) + n - 1) := by
    unfold int32
    omega
  have heq : outsidePartition part sector byteOffset (int32 n) =
      outsidePartition part sector byteOffset n := by
    simp only [outsidePartition, hlast]
  rw [heq]
  exact outsidePartition_eq_false_iff part sector byteOffset n hpart hsec (by omega) (by omega)

/-- The whole request lies inside the partition. -/
def Inside (part : PartDescr) (q : Request) : Prop :=
  part.off ≤ q.start ∧ 1 ≤ q.num ∧ q.start + q.num ≤ part.off + part.length

/-- The reads issued since log all lie inside the partition. -/
def Issues (part : PartDescr) (log log' : Log) : Prop :=
  ∃ issued, log' = issued ++ log ∧ ∀ q ∈ issued, Inside part q

theorem issues_refl (part : PartDescr) (log : Log) : Issues part log log :=
  ⟨[], rfl, fun _ h => absurd h List.not_mem_nil⟩

theorem Issues.trans {part : PartDescr} {log log' log'' : Log} (h : Issues part log log')
    (h' : Issues part log' log'') : Issues part log log'' := by
  obtain ⟨early, rfl, hearly⟩ := h
  obtain ⟨late, rfl, hlate⟩ := h'
  refine ⟨late ++ early, by rw [List.append_assoc], fun q hq => ?_⟩
  rcases List.mem_append.mp hq with hq | hq
  · exact hlate q hq
  · exact hearly q hq

/-- One read: its request, its status and the bytes it may have changed. -/
theorem partRead_inside (part : PartDescr) (hpart : part.off + part.length < 2 ^ 63)
    (start num : ℤ) (hstart : 0 ≤ start) (hnum : 1 ≤ num) (hend : start + num ≤ part.length)
    (buf : Bytes) (dst : ℕ) (log : Log) :
    Yields (partRead part start num buf dst) log fun r log' =>
      Issues part log log' ∧ Frame buf r.2 dst (num * 512).toNat := by
  refine (partRead_issues part start num buf dst log).mono ?_
  rintro ⟨status, buf'⟩ log' ⟨rfl, -, src, rfl⟩
  refine ⟨⟨[⟨int64 (start + part.off), num⟩], rfl, fun q hq => ?_⟩, frame_write _ _ _ _⟩
  rw [List.mem_singleton.mp hq, int64_of_range _ (by omega) (by omega)]
  exact ⟨Int.le_add_of_nonneg_left hstart, hnum, by dsimp only; omega⟩

section AnyOutcome
variable (part : PartDescr) (hpart : part.off + part.length < 2 ^ 63)
include hpart

theorem readRest_inside (sector byteLen : ℤ)
    (hin : byteLen ≠ 0 → 0 ≤ sector ∧ sector + 1 ≤ part.length)
    (buf : Bytes) (dst : ℕ) (log : Log) :
    Yields (readRest part sector byteLen buf dst) log fun r log' =>
      Issues part log log' ∧ (r.1 = 0 ∨ r.1 = 1) ∧ Frame buf r.2 dst byteLen.toNat := by
  unfold readRest
  split
  · exact Yields.pure ⟨issues_refl part log, Or.inr rfl, frame_refl _ _ _⟩
  · rename_i hne
    refine Yields.bind (partRead_inside part hpart sector 1 (hin hne).1 (by omega) (hin hne).2
      secBuf 0 log) ?_
    rintro ⟨status, sec⟩ log' ⟨hissues, -⟩
    dsimp only
    split
    · exact Yields.pure ⟨hissues, Or.inl rfl, frame_refl _ _ _⟩
    · exact Yields.pure ⟨hissues, Or.inr rfl, frame_write _ _ _ _⟩

theorem readAligned_inside (sector byteLen : ℤ) (hlen : 0 ≤ byteLen) (hmax : byteLen < 2 ^ 31)
    (hin : byteLen ≠ 0 → 0 ≤ sector ∧ sector * 512 + byteLen ≤ part.length * 512 ∧
      sector * 512 + byteLen ≤ 2 ^ 31 * 512)
    (buf : Bytes) (dst : ℕ) (log : Log) :
    Yields (readAligned part sector byteLen buf dst) log fun r log' =>
      Issues part log log' ∧ (r.1 = 0 ∨ r.1 = 1) ∧ Frame buf r.2 dst byteLen.toNat := by
  have hblock : uint32 (byteLen - byteLen % 512) = byteLen - byteLen % 512 := by
    unfold uint32
    omega
  unfold readAligned
  split
  · exact Yields.pure ⟨issues_refl part log, Or.inr rfl, frame_refl _ _ _⟩
  · rename_i hne
    obtain ⟨hsec, hend, hint⟩ := hin hne
    simp only [hblock]
    split
    · -- less than a sector: one read, whose outcome is not looked at
      refine Yields.bind (partRead_inside part hpart sector 1 hsec (by omega) (by omega)
        secBuf 0 log) ?_
      rintro ⟨status, p⟩ log' ⟨hissues, -⟩
      exact Yields.pure ⟨hissues, Or.inr rfl, frame_write _ _ _ _⟩
    · have hnum : (byteLen - byteLen % 512) / 512 = byteLen / 512 := by
        omega
      rw [hnum]
      refine Yields.bind (partRead_inside part hpart sector (byteLen / 512) hsec (by omega)
        (by omega) buf dst log) ?_
      rintro ⟨status, buf'⟩ log' ⟨hissues, hframe⟩
      dsimp only
      split
      · exact Yields.pure ⟨hissues, Or.inl rfl, hframe.mono (Nat.le_refl _) (by
          omega)⟩
      · have hrest : int32 (byteLen - (byteLen - byteLen % 512)) = byteLen % 512 := by
          rw [int32_of_nat _ (by omega) (by omega)]
          omega
        rw [hrest]
        refine (readRest_inside part hpart (int32 (sector + byteLen / 512)) (byteLen % 512)
          ?_ buf' _ log').mono ?_
        · intro hpart'
          unfold int32
          omega
        · rintro ⟨status', buf''⟩ log'' ⟨hissues', hstatus, hframe'⟩
          refine ⟨hissues.trans hissues', hstatus, Frame.trans (hframe.mono (Nat.le_refl _) ?_)
            hframe' (by omega) (by omega)⟩
          omega

/-- Every read that is issued stays inside the partition, and a range that
does not is refused before any read. Only the bytes asked for may change. -/
theorem vfsDevread_runs (sector byteOffset byteLen : ℤ) (hsec : sector < 2 ^ 31)
    (hoff : 0 ≤ byteOffset) (hlen : 0 ≤ byteLen) (hint : byteLen < 2 ^ 31)
    (hone : 1 ≤ byteOffset + byteLen) (hmax : byteOffset + byteLen ≤ 2 ^ 31) (buf : Bytes)
    (dst : ℕ) (log : Log) :
    Yields (vfsDevread part sector byteOffset byteLen buf dst) log fun r log' =>
      Issues part log log' ∧ (r.1 = 0 ∨ r.1 = 1) ∧ Frame buf r.2 dst byteLen.toNat ∧
        (outsidePartition part sector byteOffset byteLen = true → r = (0, buf) ∧ log' = log) := by
  unfold vfsDevread
  cases hout : outsidePartition part sector byteOffset byteLen with
  | true => exact Yields.pure ⟨issues_refl part log, Or.inl rfl, frame_refl _ _ _,
      fun _ => ⟨rfl, rfl⟩⟩
  | false =>
    obtain ⟨hpos, hin, hwrap⟩ := (outsidePartition_eq_false_iff part sector byteOffset byteLen
      (by omega) hsec hone hmax).mp hout
    simp only [Bool.false_eq_true, if_false, false_implies, and_true]
    by_cases hnone : byteLen = 0 ∧ byteOffset % 512 = 0
    · -- nothing is left to read, whatever the sector has become
      obtain ⟨rfl, hzero⟩ := hnone
      rw [if_neg (not_not_intro hzero)]
      unfold readAligned
      rw [if_pos rfl]
      exact Yields.pure ⟨issues_refl part log, Or.inr rfl, frame_refl _ _ _⟩
    have hstart : int32 (sector + byteOffset / 512) = sector + byteOffset / 512 := by
      unfold int32
      omega
    simp only [hstart]
    split
    · rename_i hhead
      refine Yields.bind (partRead_inside part hpart (sector + byteOffset / 512) 1 (by omega)
        (by omega) (by omega) secBuf 0 log) ?_
      rintro ⟨status, sec⟩ log' ⟨hissues, -⟩
      dsimp only
      split
      · exact Yields.pure ⟨hissues, Or.inl rfl, frame_refl _ _ _⟩
      · refine (readAligned_inside part hpart (int32 (sector + byteOffset / 512 + 1))
          (byteLen - min (512 - byteOffset % 512) byteLen) (by omega) (by omega) ?_
          _ _ log').mono ?_
        · intro hmore
          unfold int32
          omega
        rintro ⟨status', buf'⟩ log'' ⟨hissues', hstatus, hframe⟩
        exact ⟨hissues.trans hissues', hstatus, Frame.trans
          ((frame_write _ _ _ _).mono (Nat.le_refl _) (by omega)) hframe (by omega) (by omega)⟩
    · rename_i hhead
      exact readAligned_inside part hpart (sector + byteOffset / 512) byteLen hlen hint
        (by omega) buf dst log

/-- The safety of the reader for all 32-bit arguments and all outcomes: what is
asked of the disk lies in [off, off + length), and a range that starts before
the partition or runs past it is refused without a read. -/
theorem vfsDevread_inside_partition (sector byteOffset byteLen : ℤ)
    (hsec : -2 ^ 31 ≤ sector ∧ sector < 2 ^ 31) (hoff : 0 ≤ byteOffset)
    (hlen : 1 ≤ byteLen ∧ byteLen < 2 ^ 31) (hmax : byteOffset + byteLen - 1 ≤ 2 ^ 31 - 1)
    (buf : Bytes) (dst : ℕ) (log : Log) :
    Yields (vfsDevread part sector byteOffset byteLen buf dst) log fun r log' =>
      (∃ issued, log' = issued ++ log ∧ ∀ q ∈ issued, Inside part q) ∧
      (sector < 0 ∨ part.length * 512 < sector * 512 + byteOffset + byteLen →
        log' = log ∧ r.1 = 0) := by
  refine (vfsDevread_runs part hpart sector byteOffset byteLen hsec.2 hoff (by omega) hlen.2
    (by omega) (by omega) buf dst log).mono ?_
  rintro r log' ⟨hissues, -, -, hrefused⟩
  refine ⟨hissues, fun hrange => ?_⟩
  have hout : outsidePartition part sector byteOffset byteLen = true := by
    by_contra hin
    have := (outsidePartition_eq_false_iff part sector byteOffset byteLen (by omega) hsec.2
      (by omega) (by omega)).mp (Bool.eq_false_iff.mpr hin)
    omega
  obtain ⟨rfl, rfl⟩ := hrefused hout
  exact ⟨rfl, rfl⟩

end AnyOutcome

/-- Ten bytes from offset 508 of the last sector are refused. -/
theorem vfsDevread_inside_partition_refuses :
    Yields (vfsDevread ⟨DiskDescr.ofImage fun _ => 7, 63, 4⟩ 3 508 10 (fun _ => 1) 0) []
      fun r log' => log' = [] ∧ r.1 = 0 :=
  (vfsDevread_inside_partition ⟨DiskDescr.ofImage fun _ => 7, 63, 4⟩ (by decide) 3 508 10
    (by decide) (by decide) (by decide) (by decide) (fun _ => 1) 0 []).mono
    fun _ _ h => h.2 (Or.inr (by decide))

end Eokan.Devread
