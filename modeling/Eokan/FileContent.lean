import Eokan.DeferredReads
import Eokan.FileMaps

/-!
The bytes a read delivers. Block by block a file is the content of its disk
blocks, with zeros for its holes. The deferred reads deliver exactly that, as
long as no block takes the same place on the disk as the block before it.
-/
namespace Eokan.FileContent

open ByteMem CInt Programs Device Devread Layout BlockMap IndirectCache ReadFile ReadPlan
  DeferredReads FileMaps

section Plan
variable (fs : ExtFilesystem) (map : ℕ → ℤ)

/-- The file blocks below count are holes or lie inside the partition, and
their sectors have 31 bits. -/
def InPartition (count : ℕ) : Prop :=
  ∀ i, i < count → 0 ≤ map i ∧
    (map i + 1) * blockSectors fs ≤ fs.devDesc.length ∧ (map i + 1) * blockSectors fs ≤ 2 ^ 31

/-- No block has the place of the block before it. -/
def NoRepeat (count : ℕ) : Prop :=
  ∀ i, i + 1 < count → map (i + 1) ≠ 0 → map (i + 1) ≠ map i

/-- Byte p of the file. -/
def fileByte (p : ℕ) : UInt8 :=
  if map (p / ext2BlockSize fs) = 0 then 0
  else fs.devDesc.bytes
    ((map (p / ext2BlockSize fs)).toNat * ext2BlockSize fs + p % ext2BlockSize fs)

variable {count : ℕ} (hin : InPartition fs map count)
include hin

theorem sectorOf_eq (i : ℕ) (hi : i < count) : sectorOf fs map i = map i * blockSectors fs := by
  obtain ⟨hpos, -, hint⟩ := hin i hi
  have htwo := two_le_blockSectors fs
  have hmul : 0 ≤ map i * blockSectors fs := Int.mul_nonneg hpos (by omega)
  rw [Int.add_mul] at hint
  exact int32_of_nat _ hmul (by omega)

theorem sectorOf_eq_zero_iff (i : ℕ) (hi : i < count) : sectorOf fs map i = 0 ↔ map i = 0 := by
  have htwo := two_le_blockSectors fs
  rw [sectorOf_eq fs map hin i hi, Int.mul_eq_zero]
  exact ⟨fun h => h.resolve_right (by omega), Or.inl⟩

theorem reads_of_inPartition (pos n i : ℕ) (hfirst : firstBlock fs pos ≤ i)
    (hi : i < endBlock fs pos n) (hcount : i < count) : Reads fs pos n map i := by
  obtain ⟨hpos, hlen, hint⟩ := hin i hcount
  obtain ⟨⟨hlo, -⟩, ⟨hle, hlt⟩, ⟨-, hhi, -⟩, -⟩ := piece_bounds fs pos n i hfirst hi
  have hsize := ext2BlockSize_eq fs
  have hmul : 0 ≤ map i * blockSectors fs := Int.mul_nonneg hpos (by omega)
  refine ⟨hpos, fun _ => ?_⟩
  rw [sectorOf_eq fs map hin i hcount]
  rw [Int.add_mul] at hlen hint
  rw [Nat.succ_mul] at hhi
  unfold Readable pieceSkip pieceLength
  omega

end Plan

section Steps
variable (fs : ExtFilesystem) (map : ℕ → ℤ) (pos n : ℕ)

/-- A deferred read promises the bytes of the file. -/
def RunRight (run : Run) : Prop :=
  ∀ t, t < run.extent → fs.devDesc.bytes (run.start.toNat * 512 + run.skip + t) =
    fileByte fs map (pos + run.dst + t)

def StepRight : Step → Prop
  | .fail => True
  | .read run => RunRight fs map pos run
  | .zero dst m => ∀ t, t < m → dst + t < n → fileByte fs map (pos + dst + t) = 0

def StepCovers (j : ℕ) : Step → Prop
  | .fail => False
  | .read run => run.dst ≤ j ∧ j < run.dst + run.extent
  | .zero dst m => dst ≤ j ∧ j < dst + m

/-- Steps that are right leave the file in every byte one of them covers, in
whatever order they write it. -/
theorem runSteps_right (steps : List Step) (hok : StepsOk fs.devDesc steps)
    (hright : ∀ step ∈ steps, StepRight fs map pos n step) (buf : Bytes) (j : ℕ) (hj : j < n)
    (hcover : buf j = fileByte fs map (pos + j) ∨ ∃ step ∈ steps, StepCovers j step) :
    (runSteps fs.devDesc steps buf).2 j = fileByte fs map (pos + j) := by
  induction steps generalizing buf with
  | nil => exact hcover.elim id fun h => absurd h.choose_spec.1 List.not_mem_nil
  | cons step steps ih =>
    obtain ⟨hokhead, hoktail⟩ := (stepsOk_cons _ _ _).mp hok
    obtain ⟨hhead, htail⟩ := List.forall_mem_cons.mp hright
    have hkeep : ∀ buf' : Bytes, (StepCovers j step → buf' j = fileByte fs map (pos + j)) →
        (¬ StepCovers j step → buf' j = buf j) →
        buf' j = fileByte fs map (pos + j) ∨ ∃ step ∈ steps, StepCovers j step := by
      intro buf' hwrite hframe
      by_cases hc : StepCovers j step
      · exact Or.inl (hwrite hc)
      · rcases hcover with hdone | ⟨s, hs, hsc⟩
        · exact Or.inl ((hframe hc).trans hdone)
        · rcases List.mem_cons.mp hs with rfl | hs
          · exact absurd hsc hc
          · exact Or.inr ⟨s, hs, hsc⟩
    cases step with
    | fail => exact hokhead.elim
    | zero dst m =>
      refine ih hoktail htail _ (hkeep _ (fun hc => ?_) fun hc => ?_)
      · obtain ⟨hlo, hhi⟩ := hc
        have hbyte := hhead (j - dst) (by omega) (by omega)
        rw [show pos + dst + (j - dst) = pos + j by omega] at hbyte
        exact (write_of_mem buf dst m _ hlo hhi).trans hbyte.symm
      · refine write_outside buf dst m _ ?_
        by_cases hlo : j < dst
        · exact Or.inl hlo
        · exact Or.inr (Nat.le_of_not_lt fun hhi => hc ⟨by omega, hhi⟩)
    | read run =>
      have hread : run.Readable fs.devDesc := hokhead
      rw [runSteps, if_pos hread]
      refine ih hoktail htail _ (hkeep _ (fun hc => ?_) fun hc => ?_)
      · obtain ⟨hlo, hhi⟩ := hc
        have hbyte := hhead (j - run.dst) (by omega)
        rw [show pos + run.dst + (j - run.dst) = pos + j by omega] at hbyte
        exact (write_of_mem buf run.dst run.extent _ hlo hhi).trans hbyte
      · refine write_outside buf run.dst run.extent _ ?_
        by_cases hlo : j < run.dst
        · exact Or.inl hlo
        · exact Or.inr (Nat.le_of_not_lt fun hhi => hc ⟨by omega, hhi⟩)

theorem fileByte_in_block (i q : ℕ) (hq : q < ext2BlockSize fs) :
    fileByte fs map (i * ext2BlockSize fs + q) =
      if map i = 0 then 0 else fs.devDesc.bytes ((map i).toNat * ext2BlockSize fs + q) := by
  have hdiv : (i * ext2BlockSize fs + q) / ext2BlockSize fs = i := by
    rw [Nat.add_comm, Nat.add_mul_div_right _ _ (ext2BlockSize_pos fs), Nat.div_eq_of_lt hq,
      Nat.zero_add]
  have hmod : (i * ext2BlockSize fs + q) % ext2BlockSize fs = q := by
    rw [Nat.add_comm, Nat.add_mul_mod_self_right, Nat.mod_eq_of_lt hq]
  unfold fileByte
  rw [hdiv, hmod]

variable {count : ℕ} (hin : InPartition fs map count)
include hin

theorem sector_bytes (i : ℕ) (hi : i < count) :
    (sectorOf fs map i).toNat * 512 = (map i).toNat * ext2BlockSize fs := by
  obtain ⟨hpos, -⟩ := hin i hi
  obtain ⟨b, hb⟩ : ∃ b : ℕ, map i = b := ⟨(map i).toNat, by omega⟩
  rw [sectorOf_eq fs map hin i hi, hb, ← Int.natCast_mul, Int.toNat_natCast, Int.toNat_natCast,
    Nat.mul_assoc, Nat.mul_comm (blockSectors fs), ← ext2BlockSize_eq]

/-- A block read by itself delivers its piece of the file. -/
theorem piece_right (i : ℕ) (hfirst : firstBlock fs pos ≤ i) (hi : i < endBlock fs pos n)
    (hcount : i < count) (hsector : sectorOf fs map i ≠ 0) (t : ℕ)
    (ht : t < pieceLength fs pos n i) :
    fs.devDesc.bytes ((sectorOf fs map i).toNat * 512 + pieceSkip fs pos i + t) =
      fileByte fs map (pieceStart fs pos i + t) := by
  obtain ⟨⟨hlo, -⟩, ⟨hle, hlt⟩, ⟨-, hhi, -⟩, -⟩ := piece_bounds fs pos n i hfirst hi
  have hmap : map i ≠ 0 := fun h => hsector ((sectorOf_eq_zero_iff fs map hin i hcount).mpr h)
  have hoff : pieceSkip fs pos i + t < ext2BlockSize fs := by
    rw [Nat.succ_mul] at hhi
    unfold pieceLength at ht
    unfold pieceSkip
    omega
  have hpos : pieceStart fs pos i + t = i * ext2BlockSize fs + (pieceSkip fs pos i + t) := by
    unfold pieceSkip
    omega
  rw [hpos, fileByte_in_block fs map i _ hoff, if_neg hmap, sector_bytes fs map hin i hcount,
    Nat.add_assoc]

theorem startRun_right (i : ℕ) (hfirst : firstBlock fs pos ≤ i) (hi : i < endBlock fs pos n)
    (hcount : i < count) (hsector : sectorOf fs map i ≠ 0) :
    RunRight fs map pos (startRun fs pos n map i) := by
  intro t ht
  obtain ⟨⟨-, hpos⟩, -⟩ := piece_bounds fs pos n i hfirst hi
  have hdst : pos + (startRun fs pos n map i).dst = pieceStart fs pos i := by
    change pos + (pieceStart fs pos i - pos) = _
    omega
  rw [hdst]
  exact piece_right fs map pos n hin i hfirst hi hcount hsector t ht

theorem holeStep_right (i : ℕ) (hfirst : firstBlock fs pos ≤ i) (hi : i < endBlock fs pos n)
    (hcount : i < count) (hsector : sectorOf fs map i = 0) :
    StepRight fs map pos n (holeStep fs pos i) := by
  intro t ht _
  obtain ⟨⟨hlo, hpos⟩, ⟨-, hlt⟩, -⟩ := piece_bounds fs pos n i hfirst hi
  have hmap := (sectorOf_eq_zero_iff fs map hin i hcount).mp hsector
  rw [Nat.succ_mul] at ht
  have hbyte : pos + (pieceStart fs pos i - pos) + t =
      i * ext2BlockSize fs + (pieceStart fs pos i - i * ext2BlockSize fs + t) := by omega
  rw [hbyte, fileByte_in_block fs map i _ (by omega), if_pos hmap]

/-- A read that is deferred ends where block i of the range starts. -/
def Reaches (i : ℕ) (run : Run) : Prop :=
  run.dst + run.extent = min (pos + n) (i * ext2BlockSize fs) - pos

/-- A read deferred up to block i: what it promises is right, and a block that
continues it starts where it ends. -/
structure Deferred (i : ℕ) (run : Run) : Prop where
  later : firstBlock fs pos < i
  start : 0 ≤ run.start
  bound : run.start * 512 + run.skip + run.extent ≤ 2 ^ 31 * 512
  right : RunRight fs map pos run
  reaches : run.dst + run.extent = min (pos + n) (i * ext2BlockSize fs) - pos
  joins : i < endBlock fs pos n → sectorOf fs map i ≠ 0 → run.next = sectorOf fs map i →
    Run.Tight run

omit hin in
theorem Deferred.extent_eq {i : ℕ} {run : Run} (h : Deferred fs map pos n i run)
    (hi : i < endBlock fs pos n) : pos + run.dst + run.extent = pieceStart fs pos i := by
  obtain ⟨⟨hlo, hpos⟩, ⟨hle, -⟩, -⟩ := piece_bounds fs pos n i (Nat.le_of_lt h.later) hi
  have hstart := (piece_bounds fs pos n (i - 1) (by have := h.later; omega) (by omega)).2.2.2
  have hend := (endBlock_bounds fs pos n i hi).1
  have hreach := h.reaches
  have hlater := h.later
  rw [show i - 1 + 1 = i by omega] at hstart
  omega

theorem Deferred.extend {i : ℕ} {run : Run} (h : Deferred fs map pos n i run)
    (hi : i < endBlock fs pos n) (hcount : i < count) (hsector : sectorOf fs map i ≠ 0)
    (hnext : run.next = sectorOf fs map i) :
    Deferred fs map pos n (i + 1) (run.extend (pieceLength fs pos n i)) := by
  have hlater := h.later
  have hstart := h.start
  have hbound := h.bound
  have htight := h.joins hi hsector hnext
  have hpos := h.extent_eq fs map pos n hi
  obtain ⟨hmap, -, hint⟩ := hin i hcount
  obtain ⟨sector, heq, hle, hend⟩ := htight
  obtain ⟨hskip, -, hfull⟩ := piece_later fs pos n i hlater hi
  obtain ⟨⟨hlo, hpiece⟩, ⟨hpe, -⟩, ⟨-, hblock, -⟩, -⟩ :=
    piece_bounds fs pos n i (Nat.le_of_lt hlater) hi
  have hsize := ext2BlockSize_eq fs
  have hmul : 0 ≤ map i * blockSectors fs := Int.mul_nonneg hmap (by omega)
  have hsectorOf := sectorOf_eq fs map hin i hcount
  -- the sector behind the read is the one the block has on the disk
  have hsame : sectorOf fs map i = sector := by
    rw [Int.add_mul] at hint
    rw [← hnext, heq] at hsectorOf ⊢
    unfold int32 at hsectorOf ⊢
    omega
  have hlen : pieceLength fs pos n i ≤ ext2BlockSize fs := by
    rw [Nat.succ_mul] at hblock
    unfold pieceLength
    omega
  refine ⟨by omega, hstart, ?_, fun t ht => ?_, ?_, fun hmore _ _ => ?_⟩
  · rw [Int.add_mul, ← hsectorOf, hsame] at hint
    change run.start * 512 + run.skip + (run.extent + pieceLength fs pos n i : ℕ) ≤ _
    omega
  · by_cases hold : t < run.extent
    · exact h.right t hold
    · have hnew : t - run.extent < pieceLength fs pos n i := by
        have hlt : t < run.extent + pieceLength fs pos n i := ht
        omega
      have hbyte := piece_right fs map pos n hin i (Nat.le_of_lt hlater) hi hcount hsector _ hnew
      have hsrc : (sectorOf fs map i).toNat * 512 + pieceSkip fs pos i + (t - run.extent) =
          run.start.toNat * 512 + run.skip + t := by omega
      have hdst : pieceStart fs pos i + (t - run.extent) = pos + run.dst + t := by omega
      rw [hsrc, hdst] at hbyte
      exact hbyte
  · have hlt := (endBlock_bounds fs pos n i hi).1
    change run.dst + (run.extent + pieceLength fs pos n i) = pieceEnd fs pos n i - pos
    unfold pieceLength
    omega
  · exact (show Run.Tight run from ⟨sector, heq, hle, hend⟩).extend _ (by
      have hwhole := hfull hmore
      omega)

/-- In a map without repetitions no block repeats the place of the first one. -/
theorem not_repeats (hrep : NoRepeat map count) (i u : ℕ) (hi : i + 1 < count) :
    ¬ Repeats fs map i (u + 1) := by
  intro h
  obtain ⟨hsector, hsame⟩ := h 0 (by omega)
  rw [Nat.zero_mul, Int.natCast_zero, Int.add_zero, Nat.add_zero,
    sectorOf_eq fs map hin _ hi, sectorOf_eq fs map hin i (by omega)] at hsame
  obtain ⟨hpos, -, hint⟩ := hin i (by omega)
  have htwo := two_le_blockSectors fs
  have hmul : 0 ≤ map i * blockSectors fs := Int.mul_nonneg hpos (by omega)
  rw [Int.add_mul] at hint
  rw [int32_of_nat _ hmul (by omega)] at hsame
  refine hrep i hi (fun h => hsector ?_) (Int.eq_of_mul_eq_mul_right (by omega) hsame)
  exact (sectorOf_eq_zero_iff fs map hin _ hi).mpr h

/-- Behind a partial first block nothing continues the read, unless the next
block repeats its place. -/
theorem first_not_joined (hlog : fs.sblock.log2BlockSize ≤ 20) (hrep : NoRepeat map count)
    (hmore : firstBlock fs pos + 1 < endBlock fs pos n) (hcount : endBlock fs pos n ≤ count)
    (hskip : 0 < pos % ext2BlockSize fs) (hsector : sectorOf fs map (firstBlock fs pos + 1) ≠ 0) :
    (startRun fs pos n map (firstBlock fs pos)).next ≠ sectorOf fs map (firstBlock fs pos + 1) := by
  intro hnext
  by_cases hshift : ext2BlockSize fs < pos % ext2BlockSize fs + 512
  · refine not_repeats fs map hin hrep (firstBlock fs pos) 0 (by omega) fun j hj => ?_
    obtain rfl : j = 0 := by omega
    have hsame := grow_shifted fs pos n map 0 hmore hshift
    exact ⟨hsector, hnext.symm.trans hsame⟩
  · refine not_chain_first fs pos n map hlog 0 hmore hskip hshift fun j hj => ?_
    obtain rfl : j = 0 := by omega
    exact ⟨hsector, hnext.symm⟩

theorem startRun_deferred (hlog : fs.sblock.log2BlockSize ≤ 20) (hrep : NoRepeat map count)
    (hcount : endBlock fs pos n ≤ count) (i : ℕ) (hfirst : firstBlock fs pos ≤ i)
    (hi : i < endBlock fs pos n) (hsector : sectorOf fs map i ≠ 0) :
    Deferred fs map pos n (i + 1) (startRun fs pos n map i) := by
  obtain ⟨hmap, -, hint⟩ := hin i (by omega)
  obtain ⟨⟨hlo, hpos⟩, ⟨hle, -⟩, ⟨-, hhi, -⟩, -⟩ := piece_bounds fs pos n i hfirst hi
  have hsize := ext2BlockSize_eq fs
  have htwo := two_le_blockSectors fs
  have hmul : 0 ≤ map i * blockSectors fs := Int.mul_nonneg hmap (by omega)
  have heq := sectorOf_eq fs map hin i (by omega)
  rw [Int.add_mul] at hint
  rw [Nat.succ_mul] at hhi
  refine ⟨by omega, ?_, ?_, startRun_right fs map pos n hin i hfirst hi (by omega) hsector, ?_,
    fun hmore hnonzero hnext => ?_⟩
  · change 0 ≤ sectorOf fs map i
    omega
  · change sectorOf fs map i * 512 + (pieceSkip fs pos i : ℕ) + (pieceLength fs pos n i : ℕ) ≤ _
    unfold pieceSkip pieceLength
    omega
  · change pieceStart fs pos i - pos + pieceLength fs pos n i = pieceEnd fs pos n i - pos
    unfold pieceLength
    omega
  · by_cases hlater : firstBlock fs pos < i
    · exact startRun_tight fs pos n map i hlater hmore
    · obtain rfl : i = firstBlock fs pos := by omega
      by_cases hzero : pos % ext2BlockSize fs = 0
      · exact startRun_tight_first fs pos n map hmore hzero
      · exact absurd hnext (first_not_joined fs map pos n hin hlog hrep hmore hcount (by omega)
          hnonzero)

/-- The offset from which the steps that are left deliver. -/
def deliversFrom (i : ℕ) : Option Run → ℕ
  | none => pieceStart fs pos i - pos
  | some run => run.dst

omit hin in
theorem flush_right (run : Option Run) (hrun : ∀ r, run = some r → RunRight fs map pos r) :
    ∀ step ∈ flushSteps run, StepRight fs map pos n step := by
  cases run with
  | none => exact fun _ h => absurd h List.not_mem_nil
  | some r => exact List.forall_mem_singleton.mpr (hrun r rfl)

omit hin in
theorem flush_covers (i : ℕ) (run : Option Run)
    (hrun : ∀ r, run = some r → Reaches fs pos n i r) (j : ℕ)
    (hlo : deliversFrom fs pos i run ≤ j)
    (hhi : j < min (pos + n) (i * ext2BlockSize fs) - pos) :
    ∃ step ∈ flushSteps run, StepCovers j step := by
  cases run with
  | none =>
    change max pos (i * ext2BlockSize fs) - pos ≤ j at hlo
    omega
  | some r =>
    have hreach : r.dst + r.extent = _ := hrun r rfl
    exact ⟨.read r, List.mem_singleton.mpr rfl, hlo, by omega⟩

omit hin in
theorem endBlock_covers : pos + n ≤ endBlock fs pos n * ext2BlockSize fs := by
  by_cases hzero : endBlock fs pos n = 0
  · have hpos := ext2BlockSize_pos fs
    have hsmall : pos + n + ext2BlockSize fs - 1 < ext2BlockSize fs :=
      (Nat.div_eq_zero_iff_lt hpos).mp hzero
    omega
  · have hlast := (endBlock_bounds fs pos n (endBlock fs pos n - 1) (by omega)).2.1 (by omega)
    rwa [Nat.sub_add_cancel (by omega)] at hlast

/-- What an invariant of the deferred read has to give for the blocks of a range. -/
structure Carries (inv : ℕ → Run → Prop) : Prop where
  mapped : ∀ i, firstBlock fs pos ≤ i → i < endBlock fs pos n → 0 ≤ map i
  right : ∀ i r, inv i r → RunRight fs map pos r
  reaches : ∀ i r, inv i r → Reaches fs pos n i r
  grows : ∀ i r, inv i r → i < endBlock fs pos n → sectorOf fs map i ≠ 0 →
    r.next = sectorOf fs map i → inv (i + 1) (r.extend (pieceLength fs pos n i))
  starts : ∀ i, firstBlock fs pos ≤ i → i < endBlock fs pos n → sectorOf fs map i ≠ 0 →
    inv (i + 1) (startRun fs pos n map i)
  holes : ∀ i, firstBlock fs pos ≤ i → i < endBlock fs pos n → sectorOf fs map i = 0 →
    StepRight fs map pos n (holeStep fs pos i)

omit hin in
/-- The steps of a range are right, and together they cover it. The induction is
on the blocks left. -/
theorem plan_right {inv : ℕ → Run → Prop} (h : Carries fs map pos n inv)
    (k i : ℕ) (run : Option Run) (hfirst : firstBlock fs pos ≤ i)
    (hk : i + k = endBlock fs pos n) (hrun : ∀ r, run = some r → inv i r) :
    (∀ step ∈ plan fs pos n map k i run, StepRight fs map pos n step) ∧
      ∀ j, deliversFrom fs pos i run ≤ j → j < n →
        ∃ step ∈ plan fs pos n map k i run, StepCovers j step := by
  induction k generalizing i run with
  | zero =>
    have hend := endBlock_covers fs pos n
    obtain rfl : i = endBlock fs pos n := by omega
    exact ⟨flush_right fs map pos n run fun r hr => h.right _ r (hrun r hr),
      fun j hlo hhi => flush_covers fs pos n _ run (fun r hr => h.reaches _ r (hrun r hr)) j hlo
        (by omega)⟩
  | succ k ih =>
    have hi : i < endBlock fs pos n := by omega
    have hmap := h.mapped i hfirst hi
    obtain ⟨⟨hblock, hpos⟩, ⟨hle, hlt⟩, ⟨hend, -⟩, hnext⟩ := piece_bounds fs pos n i hfirst hi
    have hflush := flush_right fs map pos n run fun r hr => h.right i r (hrun r hr)
    have hcovers := flush_covers fs pos n i run fun r hr => h.reaches i r (hrun r hr)
    rw [plan_succ, if_neg (by omega)]
    split
    · rename_i hcont
      cases run with
      | none => exact hcont.2.elim
      | some r =>
        refine ih (i + 1) (some (r.extend (pieceLength fs pos n i))) (by omega) (by omega)
          fun r' hr' => ?_
        obtain rfl := Option.some.inj hr'
        exact h.grows i r (hrun r rfl) hi hcont.1 hcont.2
    split
    · rename_i hsector
      obtain ⟨hright, hcover⟩ := ih (i + 1) (some (startRun fs pos n map i)) (by omega) (by omega)
        fun r hr => by
          obtain rfl := Option.some.inj hr
          exact h.starts i hfirst hi hsector
      refine ⟨List.forall_mem_append.mpr ⟨hflush, hright⟩, fun j hlo hhi => ?_⟩
      by_cases hj : pieceStart fs pos i - pos ≤ j
      · obtain ⟨step, hstep, hc⟩ := hcover j hj hhi
        exact ⟨step, List.mem_append_right _ hstep, hc⟩
      · obtain ⟨step, hstep, hc⟩ := hcovers j hlo (by unfold pieceStart at hj; omega)
        exact ⟨step, List.mem_append_left _ hstep, hc⟩
    · rename_i hsector
      obtain ⟨hright, hcover⟩ := ih (i + 1) none (by omega) (by omega) fun r hr => nomatch hr
      refine ⟨List.forall_mem_append.mpr ⟨hflush, List.forall_mem_cons.mpr
        ⟨h.holes i hfirst hi (Classical.not_not.mp hsector), hright⟩⟩, fun j hlo hhi => ?_⟩
      by_cases hlater : pieceStart fs pos (i + 1) - pos ≤ j
      · obtain ⟨step, hstep, hc⟩ := hcover j hlater hhi
        exact ⟨step, List.mem_append_right _ (List.mem_cons_of_mem _ hstep), hc⟩
      by_cases hj : pieceStart fs pos i - pos ≤ j
      · refine ⟨holeStep fs pos i, List.mem_append_right _ List.mem_cons_self, hj, ?_⟩
        omega
      · obtain ⟨step, hstep, hc⟩ := hcovers j hlo (by unfold pieceStart at hj; omega)
        exact ⟨step, List.mem_append_left _ hstep, hc⟩

omit hin in
/-- Steps that succeed deliver the file, if they are right and cover the range. -/
theorem rangePlan_delivers {inv : ℕ → Run → Prop} (h : Carries fs map pos n inv)
    (hok : StepsOk fs.devDesc (rangePlan fs pos n map)) (buf : Bytes) (j : ℕ) (hj : j < n) :
    (runSteps fs.devDesc (rangePlan fs pos n map) buf).2 j = fileByte fs map (pos + j) := by
  have hle := firstBlock_le_endBlock fs pos n
  have hfrom : deliversFrom fs pos (firstBlock fs pos) none = 0 := by
    have hbounds := (firstBlock_bounds fs pos).1
    change max pos (firstBlock fs pos * ext2BlockSize fs) - pos = 0
    omega
  obtain ⟨hright, hcover⟩ := plan_right fs map pos n h _ _ none (Nat.le_refl _)
    (Nat.add_sub_cancel' hle) fun r hr => nomatch hr
  exact runSteps_right fs map pos n _ hok hright buf j hj
    (Or.inr (hcover j (by rw [hfrom]; exact Nat.zero_le j) hj))

theorem deferred_carries (hlog : fs.sblock.log2BlockSize ≤ 20) (hrep : NoRepeat map count)
    (hcount : endBlock fs pos n ≤ count) : Carries fs map pos n (Deferred fs map pos n) where
  mapped i _ hi := (hin i (by omega)).1
  right _ _ h := h.right
  reaches _ _ h := h.reaches
  grows i _ h hi hsector hnext := h.extend fs map pos n hin hi (by omega) hsector hnext
  starts i hfirst hi hsector :=
    startRun_deferred fs map pos n hin hlog hrep hcount i hfirst hi hsector
  holes i hfirst hi hsector := holeStep_right fs map pos n hin i hfirst hi (by omega) hsector

/-- Where no block repeats the one before it, a range of mapped blocks is delivered. -/
theorem rangePlan_content (hlog : fs.sblock.log2BlockSize ≤ 20) (hrep : NoRepeat map count)
    (hcount : endBlock fs pos n ≤ count) (buf : Bytes) :
    StepsOk fs.devDesc (rangePlan fs pos n map) ∧ ∀ j, j < n →
      (runSteps fs.devDesc (rangePlan fs pos n map) buf).2 j = fileByte fs map (pos + j) := by
  have hok : StepsOk fs.devDesc (rangePlan fs pos n map) := by
    refine (rangePlan_ok_iff fs pos n map hlog _ (Nat.le_refl _)
      (firstBlock_le_endBlock fs pos n)).mpr
      ⟨fun j hlo hhi => reads_of_inPartition fs map hin pos n j hlo hhi (by omega),
        fun _ _ u hu hlt hrepeats => ?_⟩
    obtain ⟨v, rfl⟩ : ∃ v, u = v + 1 := ⟨u - 1, by omega⟩
    exact absurd hrepeats (not_repeats fs map hin hrep _ v (by omega))
  exact ⟨hok, rangePlan_delivers fs map pos n
    (deferred_carries fs map pos n hin hlog hrep hcount) hok buf⟩

end Steps

section Files
variable (fs : ExtFilesystem) (hgood : fs.devDesc.disk.NoErrors)
  (hpart : fs.devDesc.off + fs.devDesc.length < 2 ^ 63)
  (hlog : fs.sblock.log2BlockSize ≤ 20) (fuel count : ℕ) (map : ℕ → ℤ)
  (valid : Ext2fsNode → Prop) (hreal : Realizes fs fuel map count valid)
  (hin : InPartition fs map count)

theorem endBlock_le (pos n : ℕ) (h : pos + n ≤ count * ext2BlockSize fs) :
    endBlock fs pos n ≤ count := by
  refine Nat.le_of_lt_succ ((Nat.div_lt_iff_lt_mul (ext2BlockSize_pos fs)).mpr ?_)
  have hpos := ext2BlockSize_pos fs
  rw [Nat.succ_mul]
  omega

include hgood hpart hlog hreal hin

/-- What a read of a range leaves, where no block repeats the one before it. -/
theorem ext4fsReadFile_content (hrep : NoRepeat map count) (node : Ext2fsNode)
    (hvalid : valid node) (pos n : ℕ) (hmax : pos + n ≤ 2 ^ 31)
    (hcount : endBlock fs pos n ≤ count) (len : ℤ) (hlen : clampLength node len = n) (buf : Bytes)
    (log : Log) :
    Yields (ext4fsReadFile fs fuel node pos len buf) log fun r _ =>
      valid r.2.1 ∧ r.1 = int32 n ∧ ∀ j, j < n → r.2.2 j = fileByte fs map (pos + j) := by
  obtain ⟨hok, hbytes⟩ := rangePlan_content fs map pos n hin hlog hrep hcount buf
  refine (ext4fsReadFile_plan fs hgood hpart hlog fuel pos n hmax map valid
    (realizes_mono hreal hcount) len node hlen hvalid buf log).mono ?_
  rintro r log' ⟨hvalid', hr⟩
  have hrun := (runSteps_ok_iff _ _ buf).mpr hok
  have hcountRead : r.1 = int32 n := by
    refine (congrArg Prod.fst hr).trans ?_
    rw [outcome, if_pos hrun]
  have hbuf : r.2.2 = (runSteps fs.devDesc (rangePlan fs pos n map) buf).2 := congrArg Prod.snd hr
  rw [hbuf]
  exact ⟨hvalid', hcountRead, hbytes⟩

end Files

/-- Read a range in two parts. -/
def readTwice (fs : ExtFilesystem) (fuel : ℕ) (node : Ext2fsNode) (pos a b : ℕ)
    (buf buf' : Bytes) : DevM (ℤ × Bytes × Bytes) := do
  let (first, node, buf) ← ext4fsReadFile fs fuel node pos a buf
  let (second, _, buf') ← ext4fsReadFile fs fuel node (pos + a : ℕ) b buf'
  pure (first + second, buf, buf')

/-- Inside a file the reads are those of the blocks one by one, so a range can
be read in parts. -/
theorem ext4fsReadFile_eq_blocks (fs : ExtFilesystem) (hgood : fs.devDesc.disk.NoErrors)
    (hpart : fs.devDesc.off + fs.devDesc.length < 2 ^ 63)
    (hlog : fs.sblock.log2BlockSize ≤ 20) (fuel count : ℕ) (map : ℕ → ℤ)
    (valid : Ext2fsNode → Prop) (hreal : Realizes fs fuel map count valid)
    (hin : InPartition fs map count) (hrep : NoRepeat map count) (size : ℕ)
    (hsize : size < 2 ^ 31 - 65536) (hcount : size ≤ count * ext2BlockSize fs)
    (hsizes : ∀ node, valid node → node.inode.size = size) (node : Ext2fsNode)
    (hvalid : valid node) (pos : ℕ) :
    (∀ len, pos + len ≤ size → ∀ buf log,
      Yields (ext4fsReadFile fs fuel node pos len buf) log fun r _ =>
        r.1 = len ∧ ∀ j, j < len → r.2.2 j = fileByte fs map (pos + j)) ∧
    ∀ a b, pos + (a + b) ≤ size → ∀ buf buf' buf'' log log',
      Yields (ext4fsReadFile fs fuel node pos (a + b : ℕ) buf) log fun r _ =>
        Yields (readTwice fs fuel node pos a b buf' buf'') log' fun s _ =>
          s.1 = r.1 ∧ (∀ j, j < a → s.2.1 j = r.2.2 j) ∧ ∀ j, j < b → s.2.2 j = r.2.2 (a + j) := by
  have hread : ∀ node, valid node → ∀ pos len, pos + len ≤ size → ∀ buf log,
      Yields (ext4fsReadFile fs fuel node (pos : ℕ) (len : ℕ) buf) log fun r _ =>
        valid r.2.1 ∧ r.1 = len ∧ ∀ j, j < len → r.2.2 j = fileByte fs map (pos + j) := by
    intro node hvalid pos len hlen buf log
    have hclamp : clampLength node len = len := by
      have hnode := hsizes node hvalid
      exact if_neg (by omega)
    have h := ext4fsReadFile_content fs hgood hpart hlog fuel count map valid hreal hin hrep node
      hvalid pos len (by omega) (endBlock_le fs count pos len (by omega)) len hclamp buf log
    rwa [int32_of_nat (len : ℤ) (by omega) (by omega)] at h
  refine ⟨fun len hlen buf log => (hread node hvalid pos len hlen buf log).mono
    fun r log' hr => hr.2, fun a b hab buf buf' buf'' log log' => ?_⟩
  refine (hread node hvalid pos (a + b) hab buf log).mono ?_
  rintro r log'' ⟨-, hcountRead, hbytes⟩
  refine Yields.bind (hread node hvalid pos a (by omega) buf' log') ?_
  rintro ⟨first, node', bytes'⟩ log₁ ⟨hvalid', hfirst, hbytes'⟩
  refine Yields.bind (hread node' hvalid' (pos + a) b (by omega) buf'' log₁) ?_
  rintro ⟨second, node'', bytes''⟩ log₂ ⟨-, hsecond, hbytes''⟩
  refine Yields.pure ⟨?_, fun j hj => ?_, fun j hj => ?_⟩
  · change first + second = r.1
    have hfirst' : first = a := hfirst
    have hsecond' : second = b := hsecond
    omega
  · exact (hbytes' j hj).trans (hbytes j (by omega)).symm
  · rw [hbytes (a + j) (by omega), ← Nat.add_assoc]
    exact hbytes'' j hj

/-- A file of 1500 bytes: block 3 of the disk and a hole. -/
def pairInode : Ext2Inode :=
  ⟨fun j => if j = 40 then 3 else if 4 ≤ j ∧ j < 8 then byteLe 1500 (j - 4) else 0⟩

def pairImage : Bytes := fun b => UInt8.ofNat (b % 251)

theorem pairInode_map : InPartition (smallFs pairImage) (fun i => int32 (pairInode.dirBlock i)) 2 ∧
    NoRepeat (fun i => int32 (pairInode.dirBlock i)) 2 := by
  refine ⟨?_, fun i hi => ?_⟩
  · unfold InPartition
    decide +kernel
  · obtain rfl : i = 0 := by omega
    decide +kernel

/-- The end of its data and the beginning of the hole. -/
theorem ext4fsReadFile_eq_blocks_pair :
    Yields (ext4fsReadFile (smallFs pairImage) 0 (freshNode pairInode) (1000 : ℕ) (400 : ℕ)
      fun _ => 9) [] fun r _ =>
        r.1 = (400 : ℕ) ∧ r.2.2 0 = pairImage 4072 ∧ r.2.2 24 = 0 := by
  have hread := (ext4fsReadFile_eq_blocks (smallFs pairImage) (noErrors_ofImage _) (by decide)
    (by decide) 0 2 _ (fun node => node.inode = pairInode)
    (realizes_mono (realizes_direct (smallFs pairImage) (by decide) 0 pairInode (by decide +kernel))
      (by decide)) pairInode_map.1 pairInode_map.2 1500 (by decide) (by decide)
    (fun node hnode => by
      rw [hnode]
      decide +kernel) (freshNode pairInode) rfl 1000).1 400 (by decide) (fun _ => 9) []
  refine hread.mono ?_
  rintro r log ⟨hcount, hbytes⟩
  refine ⟨hcount, (hbytes 0 (by decide)).trans ?_, (hbytes 24 (by decide)).trans ?_⟩
  · decide +kernel
  · decide +kernel

end Eokan.FileContent
