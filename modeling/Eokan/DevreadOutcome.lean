import Eokan.Devread

/-!
What the reader delivers when some sectors cannot be read. A range is read in
up to three requests, and the outcome of one of them is not looked at: that for
less than one sector at the end of the range.
-/
namespace Eokan.DevreadOutcome

open ByteMem CInt Programs Device Devread

/-- The reads of a partition fail where they meet a bad sector. -/
def FailsOn (part : PartDescr) (bad : ℕ → Prop) : Prop :=
  ∀ log (start num : ℕ), start + num ≤ part.length →
    (part.disk.fails log ⟨(start + part.off : ℕ), num⟩ = true ↔
      ∃ s, start ≤ s ∧ s < start + num ∧ bad s)

theorem failsOn_of_noErrors (part : PartDescr) (hgood : part.disk.NoErrors) :
    FailsOn part fun _ => False := by
  intro log start num _
  rw [hgood]
  exact ⟨fun h => absurd h Bool.false_ne_true, fun ⟨_, _, _, h⟩ => h.elim⟩

/-- The sectors from lo up to hi can be read. -/
def Good (bad : ℕ → Prop) (lo hi : ℕ) : Prop := ∀ s, lo ≤ s → s < hi → ¬ bad s

theorem not_good {bad : ℕ → Prop} {lo hi : ℕ} (h : ¬ Good bad lo hi) :
    ∃ s, lo ≤ s ∧ s < hi ∧ bad s := by
  unfold Good at h
  by_contra hnone
  exact h fun s hlo hhi hbad => hnone ⟨s, hlo, hhi, hbad⟩

theorem good_split {bad : ℕ → Prop} {lo mid hi : ℕ} (hlo : lo ≤ mid) (hhi : mid ≤ hi) :
    Good bad lo hi ↔ Good bad lo mid ∧ Good bad mid hi := by
  constructor
  · exact fun h => ⟨fun s hl hr => h s hl (by omega), fun s hl hr => h s (by omega) hr⟩
  · rintro ⟨hleft, hright⟩ s hl hr
    by_cases hs : s < mid
    · exact hleft s hl hs
    · exact hright s (by omega) hr

/-- The sectors that n bytes from a byte offset on reach into. -/
def sectorCount (byteOffset n : ℕ) : ℕ := (byteOffset + n + 511) / 512

/-- A range that is not accepted is refused before any read. -/
theorem vfsDevread_refused (part : PartDescr) (sector : ℤ) (byteOffset n : ℕ)
    (hpart : part.length < 2 ^ 63) (hsec : sector < 2 ^ 31) (hn : 1 ≤ byteOffset + n)
    (hmax : byteOffset + n ≤ 2 ^ 31) (hin : ¬ Readable part sector byteOffset n) (buf : Bytes)
    (dst : ℕ) (log : Log) :
    vfsDevread part sector byteOffset (int32 n) buf dst log = .ok ((0, buf), log) := by
  have hout : outsidePartition part sector byteOffset (int32 n) = true := by
    rw [← Bool.not_eq_false]
    exact fun h => hin ((outsidePartition_int32 part sector byteOffset n hpart hsec hn
      hmax).mp h)
  unfold vfsDevread
  rw [if_pos hout]
  rfl

section BadSectors
variable (part : PartDescr) (bad : ℕ → Prop) (hbad : FailsOn part bad)
  (hpart : part.off + part.length < 2 ^ 63)
include hbad hpart

theorem partRead_outcome (start num : ℕ) (hrange : start + num ≤ part.length) (buf : Bytes)
    (dst : ℕ) (log : Log) :
    Yields (partRead part start num buf dst) log fun r _ =>
      (Good bad start (start + num) ∧
        r = (0, write buf dst (num * 512) (slice part.bytes (start * 512)))) ∨
      (¬ Good bad start (start + num) ∧ r.1 = -1) := by
  have hstart : int64 ((start : ℤ) + part.off) = ((start + part.off : ℕ) : ℤ) := by
    rw [int64_of_range _ (by omega) (by omega)]
    omega
  have hnum : ((num : ℤ) * 512).toNat = num * 512 := by omega
  have hsrc : slice part.disk.image (((start + part.off : ℕ) : ℤ) * 512).toNat =
      slice part.bytes (start * 512) := by
    funext j
    refine congrArg part.disk.image ?_
    omega
  unfold partRead diskRead Yields
  rw [hstart, hnum, hsrc]
  by_cases h : part.disk.fails log ⟨((start + part.off : ℕ) : ℤ), num⟩ = true
  · obtain ⟨s, hlo, hhi, hs⟩ := (hbad log start num hrange).mp h
    exact ⟨_, _, if_pos h, Or.inr ⟨fun hgood => hgood s hlo hhi hs, rfl⟩⟩
  · exact ⟨_, _, if_neg h, Or.inl ⟨fun s hlo hhi hs =>
      h ((hbad log start num hrange).mpr ⟨s, hlo, hhi, hs⟩), rfl⟩⟩

theorem readRest_outcome (sector : ℤ) (s n : ℕ) (hn : n < 512)
    (hin : n ≠ 0 → sector = s ∧ s < part.length) (buf : Bytes) (dst : ℕ) (log : Log) :
    Yields (readRest part sector n buf dst) log fun r _ =>
      (Good bad s (s + sectorCount 0 n) ∧
        r = (1, write buf dst n (slice part.bytes (s * 512)))) ∨
      (¬ Good bad s (s + sectorCount 0 n) ∧ r.1 = 0) := by
  unfold readRest
  split
  · rename_i hzero
    obtain rfl : n = 0 := by omega
    rw [write_none]
    exact Yields.pure (Or.inl ⟨fun t hlo hhi => by unfold sectorCount at hhi; omega, rfl⟩)
  · obtain ⟨rfl, hlt⟩ := hin (by omega)
    have hone : sectorCount 0 n = 1 := by
      unfold sectorCount
      omega
    rw [hone]
    refine Yields.bind (partRead_outcome part bad hbad hpart s 1 (by omega) secBuf 0 log) ?_
    rintro ⟨status, sec⟩ log' (⟨hgood, hr⟩ | ⟨hgood, hr⟩)
    · cases hr
      refine Yields.pure (Or.inl ⟨hgood, Prod.ext rfl (write_congr buf dst n _ fun j hj => ?_)⟩)
      exact write_of_mem _ _ _ _ (by omega) (by omega)
    · obtain rfl : status = -1 := hr
      exact Yields.pure (Or.inr ⟨hgood, rfl⟩)

/-- From a sector boundary on: less than a sector is read whatever happens. -/
theorem readAligned_outcome (sector : ℤ) (s n : ℕ) (hmax : n ≤ 2 ^ 31)
    (hin : n ≠ 0 → sector = s ∧ s * 512 + n ≤ part.length * 512 ∧ s * 512 + n ≤ 2 ^ 31 * 512)
    (buf : Bytes) (dst : ℕ) (log : Log) :
    Yields (readAligned part sector (int32 n) buf dst) log fun r _ =>
      (Good bad s (s + sectorCount 0 n) ∧
        r = (1, write buf dst n (slice part.bytes (s * 512)))) ∨
      (¬ Good bad s (s + sectorCount 0 n) ∧ r.1 = if n < 512 then 1 else 0) := by
  have hblock : uint32 (int32 n - int32 n % 512) = ((n / 512 * 512 : ℕ) : ℤ) := by
    unfold uint32 int32
    omega
  unfold readAligned
  split
  · rename_i hzero
    obtain rfl : n = 0 := by
      unfold int32 at hzero
      omega
    rw [write_none]
    exact Yields.pure (Or.inl ⟨fun t hlo hhi => by unfold sectorCount at hhi; omega, rfl⟩)
  · rename_i hne
    have hsome : n ≠ 0 := fun h => hne (by rw [h]; exact int32_zero)
    obtain ⟨rfl, hend, hint⟩ := hin hsome
    simp only [hblock]
    split
    · have hlen : (int32 n).toNat = n := by
        unfold int32
        omega
      have hone : sectorCount 0 n = 1 := by
        unfold sectorCount
        omega
      rw [hone]
      refine Yields.bind (partRead_outcome part bad hbad hpart s 1 (by omega) secBuf 0 log) ?_
      rintro ⟨status, p⟩ log' (⟨hgood, hr⟩ | ⟨hgood, -⟩)
      · cases hr
        rw [hlen]
        refine Yields.pure (Or.inl ⟨hgood, Prod.ext rfl (write_congr buf dst n _ fun j hj => ?_)⟩)
        refine write_of_mem _ _ _ _ (by omega) ?_
        omega
      · rw [if_pos (by omega)]
        exact Yields.pure (Or.inr ⟨hgood, rfl⟩)
    · have hnum : ((n / 512 * 512 : ℕ) : ℤ) / 512 = ((n / 512 : ℕ) : ℤ) := by
        omega
      have hrest : int32 (int32 n - (n / 512 * 512 : ℕ)) = ((n % 512 : ℕ) : ℤ) := by
        unfold int32
        omega
      have hlen : n / 512 * 512 + n % 512 = n := by
        omega
      have hcount : s + sectorCount 0 n = s + n / 512 + sectorCount 0 (n % 512) := by
        unfold sectorCount
        omega
      have hsplit := @good_split bad s (s + n / 512) (s + n / 512 + sectorCount 0 (n % 512))
        (by omega) (by omega)
      rw [hnum, hrest, hcount, hsplit, if_neg (by omega)]
      refine Yields.bind
        (partRead_outcome part bad hbad hpart s (n / 512) (by omega) buf dst log) ?_
      rintro ⟨status, buf'⟩ log' (⟨hgood, hr⟩ | ⟨hgood, hr⟩)
      · cases hr
        refine (readRest_outcome part bad hbad hpart (int32 (s + (n / 512 : ℕ))) (s + n / 512)
          (n % 512) (Nat.mod_lt _ (by decide)) ?_ _ _ log').mono ?_
        · intro hrem
          unfold int32
          omega
        · -- the whole sectors and the rest are one piece of the partition
          rintro _ log'' (⟨hgood', rfl⟩ | ⟨hgood', hr⟩)
          · rw [Nat.add_mul, Int.toNat_natCast]
            refine Or.inl ⟨⟨hgood, hgood'⟩, Prod.ext rfl ?_⟩
            exact (write_append buf dst (n / 512 * 512) (n % 512) part.bytes (s * 512)).trans
              (by rw [hlen])
          · exact Or.inr ⟨fun h => hgood' h.2, hr⟩
      · obtain rfl : status = -1 := hr
        exact Yields.pure (Or.inr ⟨fun h => hgood h.1, rfl⟩)

/-- The bytes that are left when the first sector of a range is only touched. -/
def restLength (byteOffset n : ℕ) : ℕ :=
  if byteOffset % 512 = 0 then n else n - min (512 - byteOffset % 512) n

/-- What decides a range with a bad sector: it counts as read when the bad sector
is the last one and less than all of it is wanted. -/
def TailUnchecked (sector byteOffset n : ℕ) : Prop :=
  (0 < restLength byteOffset n ∧ restLength byteOffset n < 512) ∧
    (byteOffset % 512 ≠ 0 → ¬ bad (sector + byteOffset / 512))

omit hbad hpart in
/-- The piece of a range that lies in a sector it does not start with. -/
theorem head_lengths (bo n : ℕ) (hpos : bo % 512 ≠ 0) (hn : n < 2 ^ 31) :
    ∃ k rest : ℕ, restLength bo n = rest ∧ k + rest = n ∧
      min ((512 : ℤ) - (bo % 512 : ℕ)) (int32 n) = k ∧ int32 n - (k : ℤ) = int32 rest ∧
      bo % 512 + k ≤ 512 ∧ (rest ≠ 0 → bo % 512 + k = 512) := by
  refine ⟨min (512 - bo % 512) n, restLength bo n, rfl, ?_⟩
  unfold restLength
  rw [if_neg hpos, int32_of_nat n (by omega) (by omega), int32_of_nat _ (by omega) (by omega)]
  omega

/-- A range inside the partition: its bytes are delivered when its sectors can be
read. Otherwise that is noticed, apart from the end of the range. -/
theorem vfsDevread_outcome (sector byteOffset n : ℕ) (hn : 1 ≤ byteOffset + n)
    (hmax : byteOffset + n ≤ 2 ^ 31) (hin : Readable part sector byteOffset n)
    (buf : Bytes) (dst : ℕ) (log : Log) :
    Yields (vfsDevread part sector byteOffset (int32 n) buf dst) log fun r _ =>
      (Good bad (sector + byteOffset / 512)
          (sector + byteOffset / 512 + sectorCount (byteOffset % 512) n) ∧
        r = (1, write buf dst n (slice part.bytes (sector * 512 + byteOffset)))) ∨
      (¬ Good bad (sector + byteOffset / 512)
          (sector + byteOffset / 512 + sectorCount (byteOffset % 512) n) ∧
        (TailUnchecked bad sector byteOffset n ∧ r.1 = 1 ∨
          ¬ TailUnchecked bad sector byteOffset n ∧ r.1 = 0)) := by
  obtain ⟨-, hend, hint⟩ := hin
  have hout := (outsidePartition_int32 part sector byteOffset n (by omega) (by omega) hn
    hmax).mpr ⟨by omega, hend, hint⟩
  have hoff : (byteOffset : ℤ) % 512 = ((byteOffset % 512 : ℕ) : ℤ) := by
    omega
  unfold vfsDevread
  simp only [hout, Bool.false_eq_true, if_false, hoff]
  clear hout hoff
  by_cases hnone : n = 0 ∧ byteOffset % 512 = 0
  · -- nothing is left to read, whatever the sector has become
    obtain ⟨rfl, hzero⟩ := hnone
    rw [if_neg (by omega), write_none]
    unfold readAligned
    simp only [Int.natCast_zero, int32_zero, if_true]
    refine Yields.pure (Or.inl ⟨fun s hlo hhi => ?_, rfl⟩)
    unfold sectorCount at hhi
    omega
  have hstart : int32 ((sector : ℤ) + (byteOffset : ℤ) / 512) =
      ((sector + byteOffset / 512 : ℕ) : ℤ) := by
    unfold int32
    omega
  simp only [hstart]
  clear hstart
  obtain ⟨first, hfirst⟩ : ∃ first, first = sector + byteOffset / 512 := ⟨_, rfl⟩
  have hsrc : first * 512 + byteOffset % 512 = sector * 512 + byteOffset := by omega
  unfold TailUnchecked
  rw [← hfirst]
  split
  · rename_i hhead
    have hmod : byteOffset % 512 ≠ 0 := by omega
    have hfirstIn : first + 1 ≤ part.length := by omega
    obtain ⟨k, rest, hrest, hsum, hmin, hleft, hfit, hmore⟩ :=
      head_lengths byteOffset n hmod (by omega)
    rw [hrest]
    have hcount : sectorCount (byteOffset % 512) n = 1 + sectorCount 0 rest := by
      unfold sectorCount
      clear hmin hleft hrest
      omega
    rw [hcount, ← Nat.add_assoc, @good_split bad first (first + 1) _ (by omega) (by omega)]
    refine Yields.bind (partRead_outcome part bad hbad hpart first 1 hfirstIn secBuf 0 log) ?_
    rintro ⟨status, sec⟩ log' (⟨hgood, hr⟩ | ⟨hgood, hr⟩)
    · cases hr
      have hfine : ¬ bad first := hgood first (Nat.le_refl _) (Nat.lt_succ_self _)
      dsimp only
      rw [if_neg (Int.lt_irrefl 0), hmin, hleft, Int.toNat_natCast, Int.toNat_natCast]
      clear hmin hleft hrest
      refine (readAligned_outcome part bad hbad hpart _ (first + 1) rest (by omega) ?_ _ _
        log').mono ?_
      · intro hrem
        have := hmore hrem
        rw [int32_of_nat _ (by omega) (by omega)]
        omega
      rintro ⟨status, buf'⟩ log'' (⟨hgood', hr⟩ | ⟨hgood', hr⟩)
      · -- the piece copied out of the sector buffer lies just before the aligned rest
        refine Or.inl ⟨⟨hgood, hgood'⟩, hr.trans (Prod.ext rfl ?_)⟩
        dsimp only
        rw [write_slice_write _ _ _ _ _ (by omega), slice_slice, hsrc]
        by_cases hzero : rest = 0
        · rw [hzero, write_none, show n = k by omega]
        · have := hmore hzero
          rw [show (first + 1) * 512 = sector * 512 + byteOffset + k by omega,
            write_append, hsum]
      · obtain ⟨s, hlo, hhi, -⟩ := not_good hgood'
        have hsome : 0 < rest := by
          unfold sectorCount at hhi
          omega
        refine Or.inr ⟨fun h => hgood' h.2, ?_⟩
        by_cases hshort : rest < 512
        · exact Or.inl ⟨⟨⟨hsome, hshort⟩, fun _ => hfine⟩, hr.trans (if_pos hshort)⟩
        · exact Or.inr ⟨fun h => hshort h.1.2, hr.trans (if_neg hshort)⟩
    · obtain rfl : status = -1 := hr
      obtain ⟨s, hlo, hhi, hs⟩ := not_good hgood
      obtain rfl : s = first := by omega
      exact Yields.pure (Or.inr ⟨fun h => hgood h.1, Or.inr ⟨fun h => h.2 hmod hs, rfl⟩⟩)
  · rename_i hhead
    have hmod : byteOffset % 512 = 0 := by omega
    rw [hmod, Nat.add_zero] at hsrc
    have hrest : restLength byteOffset n = n := if_pos hmod
    rw [hrest, hmod]
    refine (readAligned_outcome part bad hbad hpart _ first n (by omega) (by omega) buf dst
      log).mono ?_
    rintro ⟨status, buf'⟩ log' (⟨hgood, hr⟩ | ⟨hgood, hr⟩)
    · rw [hsrc] at hr
      exact Or.inl ⟨hgood, hr⟩
    · obtain ⟨s, hlo, hhi, -⟩ := not_good hgood
      have hsome : 0 < n := by
        unfold sectorCount at hhi
        omega
      refine Or.inr ⟨hgood, ?_⟩
      by_cases hshort : n < 512
      · exact Or.inl ⟨⟨⟨hsome, hshort⟩, fun h => absurd rfl h⟩, hr.trans (if_pos hshort)⟩
      · exact Or.inr ⟨fun h => hshort h.1.2, hr.trans (if_neg hshort)⟩

end BadSectors

section NoErrors
variable (part : PartDescr) (hgood : part.disk.NoErrors)
  (hpart : part.off + part.length < 2 ^ 63)
include hgood hpart

/-- Without read errors the range is delivered, and nothing else is touched. -/
theorem vfsDevread_ok (sector byteOffset n : ℕ) (hn : 1 ≤ byteOffset + n)
    (hmax : byteOffset + n ≤ 2 ^ 31) (hin : Readable part sector byteOffset n)
    (buf : Bytes) (dst : ℕ) (log : Log) :
    Yields (vfsDevread part sector byteOffset (int32 n) buf dst) log fun r _ =>
      r = (1, write buf dst n (slice part.bytes (sector * 512 + byteOffset))) := by
  refine (vfsDevread_outcome part (fun _ => False) (failsOn_of_noErrors part hgood) hpart sector
    byteOffset n hn hmax hin buf dst log).mono ?_
  rintro r log' (⟨-, hr⟩ | ⟨hnone, -⟩)
  · exact hr
  · exact absurd (fun _ _ _ => not_false) hnone

/-- What the reader does with any range, for the code above it. -/
theorem vfsDevread_spec (sector : ℤ) (byteOffset n : ℕ) (hsec : sector < 2 ^ 31)
    (hn : 1 ≤ byteOffset + n) (hmax : byteOffset + n ≤ 2 ^ 31) (buf : Bytes) (dst : ℕ)
    (log : Log) :
    Yields (vfsDevread part sector byteOffset (int32 n) buf dst) log fun r _ =>
      (Readable part sector byteOffset n ∧
        r = (1, write buf dst n (slice part.bytes (sector.toNat * 512 + byteOffset)))) ∨
      (¬ Readable part sector byteOffset n ∧ r = (0, buf)) := by
  by_cases hin : Readable part sector byteOffset n
  · obtain ⟨s, rfl⟩ : ∃ s : ℕ, sector = s := ⟨sector.toNat, by have := hin.1; omega⟩
    refine (vfsDevread_ok part hgood hpart s byteOffset n hn hmax hin buf dst log).mono ?_
    intro r log' hr
    exact Or.inl ⟨hin, hr⟩
  · exact ⟨_, _, vfsDevread_refused part sector byteOffset n (by omega) hsec hn hmax hin buf dst
      log, Or.inr ⟨hin, rfl⟩⟩

end NoErrors

/-- The sectors that the bytes of a range lie in. -/
def Needed (sector byteOffset n s : ℕ) : Prop :=
  s * 512 < sector * 512 + byteOffset + n ∧ sector * 512 + byteOffset < (s + 1) * 512

theorem good_iff_needed (bad : ℕ → Prop) (sector byteOffset n : ℕ) :
    Good bad (sector + byteOffset / 512)
        (sector + byteOffset / 512 + sectorCount (byteOffset % 512) n) ↔
      ∀ s, Needed sector byteOffset n s → ¬ bad s := by
  have hsame : ∀ s, Needed sector byteOffset n s ↔ sector + byteOffset / 512 ≤ s ∧
      s < sector + byteOffset / 512 + sectorCount (byteOffset % 512) n := by
    intro s
    unfold Needed sectorCount
    omega
  simp only [Good, hsame, and_imp]

/-- Success means that the bytes are those of the partition and that no sector
of theirs failed, and a readable range of the partition is a success. -/
def Faithful (part : PartDescr) (bad : ℕ → Prop) (sector byteOffset n dst : ℕ)
    (r : ℤ × Bytes) : Prop :=
  (r.1 = 1 → (∀ j, j < n → r.2 (dst + j) = part.bytes (sector * 512 + byteOffset + j)) ∧
    ∀ s, Needed sector byteOffset n s → ¬ bad s) ∧
  (sector * 512 + byteOffset + n ≤ part.length * 512 →
    (∀ s, Needed sector byteOffset n s → ¬ bad s) → r.1 = 1)

/-- The last sector of an accepted range is bad, less than a sector is wanted
from the sector boundary on, and nothing before it stops the read. -/
def LastFails (part : PartDescr) (bad : ℕ → Prop) (sector byteOffset n : ℕ) : Prop :=
  Readable part sector byteOffset n ∧ TailUnchecked bad sector byteOffset n ∧
    bad ((sector * 512 + byteOffset + n - 1) / 512)

/-- A readable range of the partition that reaches past 2 ^ 31 sectors. -/
def PastInt (part : PartDescr) (bad : ℕ → Prop) (sector byteOffset n : ℕ) : Prop :=
  2 ^ 31 * 512 < sector * 512 + byteOffset + n ∧
    sector * 512 + byteOffset + n ≤ part.length * 512 ∧
    ∀ s, Needed sector byteOffset n s → ¬ bad s

theorem lastFails_iff (part : PartDescr) (bad : ℕ → Prop) (sector byteOffset n : ℕ) (hn : 1 ≤ n)
    (hin : Readable part sector byteOffset n) (htail : TailUnchecked bad sector byteOffset n) :
    LastFails part bad sector byteOffset n ↔
      ¬ ∀ s, Needed sector byteOffset n s → ¬ bad s := by
  constructor
  · intro h hgood
    refine hgood _ ?_ h.2.2
    unfold Needed
    omega
  · intro hbad
    refine ⟨hin, htail, ?_⟩
    simp only [not_forall, not_not] at hbad
    obtain ⟨s, hs, hfail⟩ := hbad
    obtain ⟨⟨hpos, hshort⟩, hhead⟩ := htail
    have hlast : s = (sector * 512 + byteOffset + n - 1) / 512 ∨
        byteOffset % 512 ≠ 0 ∧ s = sector + byteOffset / 512 := by
      unfold restLength at hpos hshort
      unfold Needed at hs
      split at hpos <;> split at hshort <;> omega
    rcases hlast with rfl | ⟨hmod, rfl⟩
    · exact hfail
    · exact absurd hfail (hhead hmod)

/-- The reader keeps its contract exactly when neither the unchecked read at the
end of the range nor the width of a sector number gets in the way. -/
theorem vfsDevread_faithful_iff (part : PartDescr) (bad : ℕ → Prop) (hbad : FailsOn part bad)
    (hpart : part.off + part.length < 2 ^ 63) (sector byteOffset n : ℕ) (hsec : sector < 2 ^ 31)
    (hn : 1 ≤ n) (hmax : byteOffset + n - 1 ≤ 2 ^ 31 - 1) (hint : n < 2 ^ 31) (buf : Bytes)
    (dst : ℕ) (log : Log) :
    Yields (vfsDevread part sector byteOffset n buf dst) log fun r _ =>
      (Faithful part bad sector byteOffset n dst r ↔
        ¬ LastFails part bad sector byteOffset n ∧ ¬ PastInt part bad sector byteOffset n) := by
  rw [← int32_of_nat n (by omega) (by omega)]
  by_cases hin : Readable part sector byteOffset n
  · have hwithin : ¬ PastInt part bad sector byteOffset n := by
      intro hpast
      have := hin.2.2
      have := hpast.1
      omega
    refine (vfsDevread_outcome part bad hbad hpart sector byteOffset n (by omega) (by omega) hin
      buf dst log).mono ?_
    rw [good_iff_needed bad sector byteOffset n]
    intro r log' hcases
    rcases hcases with ⟨hgood, rfl⟩ | ⟨hfail, ⟨htail, hone⟩ | ⟨htail, hzero⟩⟩
    · have hlast : ¬ LastFails part bad sector byteOffset n := by
        intro h
        exact (lastFails_iff part bad sector byteOffset n hn hin h.2.1).mp h hgood
      simp only [hlast, hwithin, not_false_eq_true, and_self, iff_true]
      refine ⟨fun _ => ⟨fun j hj => ?_, hgood⟩, fun _ _ => rfl⟩
      exact write_at buf dst n _ hj
    · -- the bad sector goes unnoticed
      have hlast := (lastFails_iff part bad sector byteOffset n hn hin htail).mpr hfail
      simp only [hlast, not_true_eq_false, false_and, iff_false]
      exact fun h => hfail (h.1 hone).2
    · have hlast : ¬ LastFails part bad sector byteOffset n := fun h => htail h.2.1
      simp only [hlast, hwithin, not_false_eq_true, and_self, iff_true]
      refine ⟨fun hone => ?_, fun _ hgood => absurd hgood hfail⟩
      omega
  · have hlast : ¬ LastFails part bad sector byteOffset n := fun h => hin h.1
    refine ⟨_, _, vfsDevread_refused part sector byteOffset n (by omega) (by omega) (by omega)
      (by omega) hin buf dst log, ?_⟩
    simp only [hlast, not_false_eq_true, true_and]
    unfold Faithful PastInt
    unfold Readable at hin
    constructor
    · rintro ⟨-, hinside⟩ ⟨-, hend, hgood⟩
      exact absurd (hinside hend hgood) Int.zero_ne_one
    · intro hpast
      refine ⟨fun hone => absurd hone Int.zero_ne_one, fun hend hgood => ?_⟩
      refine absurd ⟨?_, hend, hgood⟩ hpast
      omega

/-- A disk with one bad sector. A failing read leaves zeros. -/
def oneBadSector (image : Bytes) (k : ℕ) : DiskDescr :=
  ⟨image, fun _ q => q.start ≤ k && k < q.start + q.num, fun _ _ _ => 0⟩

theorem failsOn_oneBadSector (image : Bytes) (k off length : ℕ) :
    FailsOn ⟨oneBadSector image k, off, length⟩ fun s => s + off = k := by
  intro log start num hrange
  simp only [oneBadSector, Bool.and_eq_true, decide_eq_true_eq]
  constructor
  · intro h
    exact ⟨k - off, by omega, by omega, by omega⟩
  · intro ⟨s, hlo, hhi, hs⟩
    omega

/-- Five hundred and twelve bytes, half of them in a sector that fails at the
beginning: the failure is noticed. -/
theorem vfsDevread_faithful_head :
    Yields (vfsDevread ⟨oneBadSector (fun _ => 7) 63, 63, 4⟩ (0 : ℕ) (256 : ℕ) (512 : ℕ)
        (fun _ => 1) 0) [] fun r _ =>
      Faithful ⟨oneBadSector (fun _ => 7) 63, 63, 4⟩ (fun s => s + 63 = 63) 0 256 512 0 r := by
  refine (vfsDevread_faithful_iff _ _ (failsOn_oneBadSector (fun _ => 7) 63 63 4) (by decide) 0
    256 512 (by decide) (by decide) (by decide) (by decide) _ 0 []).mono ?_
  intro r log' h
  refine h.mpr ⟨fun hlast => ?_, fun hpast => ?_⟩
  · exact absurd hlast.2.2 (by decide)
  · exact absurd hpast.1 (by decide)

/-- Ten bytes of a sector that cannot be read: the reader returns 1. -/
theorem vfsDevread_ignores_failure :
    Yields (vfsDevread ⟨oneBadSector (fun _ => 7) 63, 63, 4⟩ (0 : ℕ) (0 : ℕ) (int32 (10 : ℕ))
        (fun _ => 1) 0) [] fun r _ =>
      r.1 = 1 ∧
        ¬ Faithful ⟨oneBadSector (fun _ => 7) 63, 63, 4⟩ (fun s => s + 63 = 63) 0 0 10 0 r := by
  have hneeded : Needed 0 0 10 0 := by
    unfold Needed
    decide
  have hbad : ¬ ∀ s, Needed 0 0 10 s → ¬ s + 63 = 63 := fun h => h 0 hneeded rfl
  refine (vfsDevread_outcome _ _ (failsOn_oneBadSector (fun _ => 7) 63 63 4) (by decide) 0 0 10
    (by decide) (by decide) (by decide) _ 0 []).mono ?_
  rw [good_iff_needed _ 0 0 10]
  intro r log' hcases
  rcases hcases with ⟨hgood, -⟩ | ⟨-, ⟨-, hone⟩ | ⟨htail, -⟩⟩
  · exact absurd hgood hbad
  · exact ⟨hone, fun h => hbad (h.1 hone).2⟩
  · refine absurd ⟨?_, fun h => absurd rfl h⟩ htail
    decide

end Eokan.DevreadOutcome
