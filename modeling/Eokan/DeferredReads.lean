import Eokan.ReadPlan

/-!
When the steps of a read succeed. A deferred read that ends where the next
block starts is readable exactly when its blocks are. The exception is a range
that starts in the last sector of a block: its first block counts as no sector
at all, so the read is continued by a block with the same place on the disk.
-/
namespace Eokan.DeferredReads

open ByteMem CInt Programs Device Devread Layout ReadFile ReadPlan

def StepOk (part : PartDescr) : Step → Prop
  | .fail => False
  | .read run => run.Readable part
  | .zero _ _ => True

def StepsOk (part : PartDescr) (steps : List Step) : Prop := ∀ step ∈ steps, StepOk part step

theorem stepsOk_nil (part : PartDescr) : StepsOk part [] := fun _ h => absurd h List.not_mem_nil

theorem stepsOk_cons (part : PartDescr) (step : Step) (steps : List Step) :
    StepsOk part (step :: steps) ↔ StepOk part step ∧ StepsOk part steps := List.forall_mem_cons

theorem stepsOk_append (part : PartDescr) (steps rest : List Step) :
    StepsOk part (steps ++ rest) ↔ StepsOk part steps ∧ StepsOk part rest :=
  List.forall_mem_append

theorem stepsOk_flush (part : PartDescr) (run : Option Run) :
    StepsOk part (flushSteps run) ↔ ∀ r, run = some r → r.Readable part := by
  cases run with
  | none => exact ⟨fun _ _ h => (nomatch h), fun _ => stepsOk_nil part⟩
  | some r =>
    refine (stepsOk_cons part _ _).trans ⟨fun h r' heq => ?_, fun h => ⟨h r rfl, stepsOk_nil part⟩⟩
    obtain rfl := Option.some.inj heq
    exact h.1

theorem runSteps_ok_iff (part : PartDescr) (steps : List Step) (buf : Bytes) :
    (runSteps part steps buf).1 = true ↔ StepsOk part steps := by
  induction steps generalizing buf with
  | nil => exact ⟨fun _ => stepsOk_nil part, fun _ => rfl⟩
  | cons step steps ih =>
    rw [stepsOk_cons]
    cases step with
    | fail => exact ⟨fun h => absurd h Bool.false_ne_true, fun h => h.1.elim⟩
    | zero dst n => exact (ih _).trans (Iff.symm (and_iff_right trivial))
    | read run =>
      by_cases hread : run.Readable part
      · simp only [runSteps, if_pos hread]
        exact (ih _).trans (Iff.symm (and_iff_right hread))
      · simp only [runSteps, if_neg hread]
        exact ⟨fun h => absurd h Bool.false_ne_true, fun h => absurd h.1 hread⟩

/-- The read is deferred up to a sector that is not behind its end ... -/
def Run.Loose (run : Run) : Prop :=
  ∃ sector : ℤ, run.next = int32 sector ∧ run.start ≤ sector ∧
    sector * 512 ≤ run.start * 512 + run.skip + run.extent

/-- ... or exactly at it. -/
def Run.Tight (run : Run) : Prop :=
  ∃ sector : ℤ, run.next = int32 sector ∧ run.start ≤ sector ∧
    sector * 512 = run.start * 512 + run.skip + run.extent

theorem Run.Loose.extend {run : Run} (h : Run.Loose run) (piece : ℕ) :
    Run.Loose (run.extend piece) := by
  obtain ⟨sector, hnext, hstart, hend⟩ := h
  refine ⟨sector + (piece / 512 : ℕ), ?_, ?_, ?_⟩
  · rw [Run.extend, hnext]
    exact int32_int32_add _ _
  · change run.start ≤ _
    omega
  · change _ ≤ run.start * 512 + run.skip + (run.extent + piece : ℕ)
    omega

theorem Run.Tight.extend {run : Run} (h : Run.Tight run) (piece : ℕ) (hpiece : piece % 512 = 0) :
    Run.Tight (run.extend piece) := by
  obtain ⟨sector, hnext, hstart, hend⟩ := h
  refine ⟨sector + (piece / 512 : ℕ), ?_, ?_, ?_⟩
  · rw [Run.extend, hnext]
    exact int32_int32_add _ _
  · change run.start ≤ _
    omega
  · change _ = run.start * 512 + run.skip + (run.extent + piece : ℕ)
    omega

theorem Run.Readable.of_extend {part : PartDescr} {run : Run} {piece : ℕ}
    (h : (run.extend piece).Readable part) : run.Readable part := by
  obtain ⟨hstart, hin, hint⟩ := h
  change run.start * 512 + run.skip + (run.extent + piece : ℕ) ≤ _ at hin
  change run.start * 512 + run.skip + (run.extent + piece : ℕ) ≤ _ at hint
  exact ⟨hstart, by omega, by omega⟩

/-- The block that continues a readable read is readable. -/
theorem Run.Loose.piece_readable {part : PartDescr} {run : Run} {piece : ℕ} (h : Run.Loose run)
    (hpiece : 0 < piece) (hread : (run.extend piece).Readable part) :
    Devread.Readable part run.next 0 piece := by
  obtain ⟨sector, hnext, hle, hend⟩ := h
  obtain ⟨hstart, hin, hint⟩ := hread
  change 0 ≤ run.start at hstart
  change run.start * 512 + run.skip + (run.extent + piece : ℕ) ≤ _ at hin
  change run.start * 512 + run.skip + (run.extent + piece : ℕ) ≤ _ at hint
  rw [hnext, int32_of_nat sector (by omega) (by omega)]
  unfold Devread.Readable
  omega

/-- The last sector an `int` can hold is the last one a read can be continued in. -/
theorem Run.Tight.extend_readable {part : PartDescr} {run : Run} {piece : ℕ} (h : Run.Tight run)
    (hrun : run.Readable part) (hread : Devread.Readable part run.next 0 piece) :
    (run.extend piece).Readable part := by
  obtain ⟨sector, hnext, hle, hend⟩ := h
  obtain ⟨hstart, -, hint⟩ := hrun
  obtain ⟨hpos, hin, hint'⟩ := hread
  have hsector : int32 sector = sector := by
    rw [hnext] at hpos
    unfold int32 at hpos ⊢
    omega
  rw [hnext, hsector] at hin hint'
  refine ⟨hstart, ?_, ?_⟩
  · change run.start * 512 + run.skip + (run.extent + piece : ℕ) ≤ _
    omega
  · change run.start * 512 + run.skip + (run.extent + piece : ℕ) ≤ _
    omega

section Plan
variable (fs : ExtFilesystem) (pos n : ℕ) (map : ℕ → ℤ)

/-- A block of the range that can be read by itself, or is a hole. -/
def Reads (i : ℕ) : Prop :=
  0 ≤ map i ∧ (sectorOf fs map i ≠ 0 →
    Readable fs.devDesc (sectorOf fs map i) (pieceSkip fs pos i) (pieceLength fs pos n i))

/-- The read continued by u blocks from block i on. -/
def grow (run : Run) (i : ℕ) : ℕ → Run
  | 0 => run
  | u + 1 => (grow run i u).extend (pieceLength fs pos n (i + u))

/-- These blocks do continue it. -/
def Chain (run : Run) (i u : ℕ) : Prop :=
  ∀ j, j < u → sectorOf fs map (i + j) ≠ 0 ∧ sectorOf fs map (i + j) = (grow fs pos n run i j).next

theorem grow_succ (run : Run) (i u : ℕ) :
    grow fs pos n (run.extend (pieceLength fs pos n i)) (i + 1) u =
      grow fs pos n run i (u + 1) := by
  induction u with
  | zero => rfl
  | succ u ih =>
    rw [grow, ih, Nat.add_right_comm i 1 u]
    rfl

theorem chain_succ (run : Run) (i u : ℕ) :
    Chain fs pos n map run i (u + 1) ↔
      (sectorOf fs map i ≠ 0 ∧ sectorOf fs map i = run.next) ∧
        Chain fs pos n map (run.extend (pieceLength fs pos n i)) (i + 1) u := by
  unfold Chain
  constructor
  · refine fun h => ⟨h 0 (by omega), fun j hj => ?_⟩
    rw [grow_succ, Nat.add_right_comm, Nat.add_assoc]
    exact h (j + 1) (by omega)
  · rintro ⟨hhead, htail⟩ j hj
    cases j with
    | zero => exact hhead
    | succ j =>
      have h := htail j (by omega)
      rw [grow_succ, Nat.add_right_comm, Nat.add_assoc] at h
      exact h

theorem startRun_loose (i : ℕ) : Run.Loose (startRun fs pos n map i) := by
  refine ⟨sectorOf fs map i + (pieceLength fs pos n i / 512 : ℕ), rfl, ?_, ?_⟩
  · change sectorOf fs map i ≤ _
    omega
  · change _ ≤ sectorOf fs map i * 512 + (pieceSkip fs pos i : ℕ) + (pieceLength fs pos n i : ℕ)
    omega

/-- Behind the first block the pieces start with their blocks, and are whole
blocks up to the last one. -/
theorem piece_later (i : ℕ) (hfirst : firstBlock fs pos < i) (hi : i < endBlock fs pos n) :
    pieceSkip fs pos i = 0 ∧ 0 < pieceLength fs pos n i ∧
      (i + 1 < endBlock fs pos n → pieceLength fs pos n i = ext2BlockSize fs) := by
  obtain ⟨-, -, ⟨hlt, -⟩, -⟩ := piece_bounds fs pos n i (by omega) hi
  obtain ⟨-, -, hmore⟩ := endBlock_bounds fs pos n i hi
  obtain ⟨-, hbound⟩ := firstBlock_bounds fs pos
  have hle : (firstBlock fs pos + 1) * ext2BlockSize fs ≤ i * ext2BlockSize fs :=
    Nat.mul_le_mul_right _ hfirst
  have hstart : pieceStart fs pos i = i * ext2BlockSize fs := by
    unfold pieceStart
    omega
  have hsucc : (i + 1) * ext2BlockSize fs = i * ext2BlockSize fs + ext2BlockSize fs :=
    Nat.succ_mul _ _
  unfold pieceSkip pieceLength
  refine ⟨by omega, by omega, fun hlast => ?_⟩
  have hend : pieceEnd fs pos n i = (i + 1) * ext2BlockSize fs := by
    have hcut := hmore (by omega)
    unfold pieceEnd
    omega
  omega

/-- A read of whole blocks is tight. -/
theorem startRun_tight_of_whole (i : ℕ) (hskip : pieceSkip fs pos i = 0)
    (hlen : pieceLength fs pos n i = ext2BlockSize fs) : Run.Tight (startRun fs pos n map i) := by
  have hsize := ext2BlockSize_eq fs
  refine ⟨sectorOf fs map i + (pieceLength fs pos n i / 512 : ℕ), rfl, ?_, ?_⟩
  · change sectorOf fs map i ≤ _
    omega
  · change _ = sectorOf fs map i * 512 + (pieceSkip fs pos i : ℕ) + (pieceLength fs pos n i : ℕ)
    omega

theorem startRun_tight (i : ℕ) (hfirst : firstBlock fs pos < i) (hi : i + 1 < endBlock fs pos n) :
    Run.Tight (startRun fs pos n map i) := by
  obtain ⟨hskip, -, hfull⟩ := piece_later fs pos n i hfirst (by omega)
  exact startRun_tight_of_whole fs pos n map i hskip (hfull hi)

/-- Whole blocks continue a readable read to a readable read. -/
theorem grow_readable (run : Run) (i u : ℕ) (hfirst : firstBlock fs pos < i)
    (hu : i + u ≤ endBlock fs pos n) (htight : i < endBlock fs pos n → Run.Tight run)
    (hread : run.Readable fs.devDesc) (hall : ∀ j, i ≤ j → j < i + u → Reads fs pos n map j)
    (hchain : Chain fs pos n map run i u) :
    (grow fs pos n run i u).Readable fs.devDesc ∧
      (i + u < endBlock fs pos n → Run.Tight (grow fs pos n run i u)) := by
  induction u with
  | zero => exact ⟨hread, htight⟩
  | succ u ih =>
    obtain ⟨hgrow, hends⟩ := ih (by omega) (fun j hlo hhi => hall j hlo (by omega))
      (fun j hj => hchain j (by omega))
    obtain ⟨hsector, hnext⟩ := hchain u (by omega)
    obtain ⟨hskip, -, hfull⟩ := piece_later fs pos n (i + u) (by omega) (by omega)
    have hpiece := (hall (i + u) (by omega) (by omega)).2 hsector
    rw [hnext, hskip] at hpiece
    refine ⟨(hends (by omega)).extend_readable hgrow hpiece, fun hmore => ?_⟩
    have hsize := ext2BlockSize_eq fs
    have hlen := hfull (by omega)
    exact (hends (by omega)).extend _ (by omega)

theorem forall_from_succ (p : ℕ → Prop) (i k : ℕ) :
    (∀ j, i ≤ j → j < i + (k + 1) → p j) ↔ p i ∧ ∀ j, i + 1 ≤ j → j < i + 1 + k → p j := by
  constructor
  · exact fun h => ⟨h i (by omega) (by omega), fun j hlo hhi => h j (by omega) (by omega)⟩
  · rintro ⟨hhead, htail⟩ j hlo hhi
    by_cases heq : j = i
    · rw [heq]
      exact hhead
    · exact htail j (by omega) (by omega)

/-- A read that a block does not continue is one on its own. -/
theorem not_continued (run : Option Run) (i k : ℕ)
    (hstop : ¬ (sectorOf fs map i ≠ 0 ∧ runContinues run (sectorOf fs map i))) :
    (∀ r, run = some r → ∀ u, u ≤ k → Chain fs pos n map r i u →
      (grow fs pos n r i u).Readable fs.devDesc) ↔
        ∀ r, run = some r → r.Readable fs.devDesc := by
  constructor
  · exact fun h r hr => h r hr 0 (by omega) fun j hj => by omega
  · intro h r hr u hu hchain
    cases u with
    | zero => exact h r hr
    | succ u =>
      obtain ⟨⟨hsector, hnext⟩, -⟩ := (chain_succ fs pos n map r i u).mp hchain
      rw [hr] at hstop
      exact absurd ⟨hsector, hnext.symm⟩ hstop

/-- A read started behind the first block succeeds when its blocks can be read. -/
theorem started_ok_iff (i k : ℕ) (hfirst : firstBlock fs pos < i)
    (hk : i + (k + 1) ≤ endBlock fs pos n) (hpos : 0 ≤ map i) (hsector : sectorOf fs map i ≠ 0) :
    ((∀ j, i + 1 ≤ j → j < i + 1 + k → Reads fs pos n map j) ∧
      ∀ r, some (startRun fs pos n map i) = some r → ∀ u, u ≤ k →
        Chain fs pos n map r (i + 1) u → (grow fs pos n r (i + 1) u).Readable fs.devDesc) ↔
      ∀ j, i ≤ j → j < i + (k + 1) → Reads fs pos n map j := by
  rw [forall_from_succ]
  constructor
  · rintro ⟨htail, hgrow⟩
    refine ⟨⟨hpos, fun _ => ?_⟩, htail⟩
    exact hgrow _ rfl 0 (by omega) fun j hj => by omega
  · rintro ⟨hhead, htail⟩
    refine ⟨htail, fun r hr u hu hchain => ?_⟩
    obtain rfl := Option.some.inj hr
    refine (grow_readable fs pos n map _ (i + 1) u (by omega) (by omega)
      (fun hi => startRun_tight fs pos n map i hfirst hi) (hhead.2 hsector) ?_ hchain).1
    exact fun j hlo hhi => htail j hlo (by omega)

/-- The steps succeed when every block can be read and every read that is put
together from them as well. The induction is on the blocks left. -/
theorem plan_ok_iff (k i : ℕ) (run : Option Run) (hfirst : firstBlock fs pos < i)
    (hk : i + k ≤ endBlock fs pos n) (hloose : ∀ r, run = some r → Run.Loose r) :
    StepsOk fs.devDesc (plan fs pos n map k i run) ↔
      (∀ j, i ≤ j → j < i + k → Reads fs pos n map j) ∧
        ∀ r, run = some r → ∀ u, u ≤ k → Chain fs pos n map r i u →
          (grow fs pos n r i u).Readable fs.devDesc := by
  induction k generalizing i run with
  | zero =>
    rw [plan, stepsOk_flush]
    constructor
    · refine fun h => ⟨fun j hlo hhi => by omega, fun r hr u hu _ => ?_⟩
      obtain rfl : u = 0 := by omega
      exact h r hr
    · exact fun h r hr => h.2 r hr 0 (by omega) fun j hj => by omega
  | succ k ih =>
    rw [plan_succ]
    by_cases hneg : map i < 0
    · rw [if_pos hneg, stepsOk_cons]
      refine ⟨fun h => h.1.elim, fun h => ?_⟩
      have hread := (h.1 i (by omega) (by omega)).1
      omega
    rw [if_neg hneg]
    by_cases hcont : sectorOf fs map i ≠ 0 ∧ runContinues run (sectorOf fs map i)
    · rw [if_pos hcont]
      cases run with
      | none => exact hcont.2.elim
      | some r =>
        obtain ⟨hsector, hnext⟩ := hcont
        have hr := hloose r rfl
        obtain ⟨hskip, hpiece, -⟩ := piece_later fs pos n i hfirst (by omega)
        refine (ih (i + 1) (some (r.extend (pieceLength fs pos n i))) (by omega) (by omega)
          fun r' h => Option.some.inj h ▸ hr.extend _).trans ?_
        rw [forall_from_succ]
        constructor
        · rintro ⟨htail, hgrow⟩
          have hext := hgrow _ rfl 0 (by omega) fun j hj => by omega
          refine ⟨⟨⟨by omega, fun _ => ?_⟩, htail⟩, fun r' h u hu hchain => ?_⟩
          · rw [hskip, ← hnext]
            exact hr.piece_readable hpiece hext
          · obtain rfl := Option.some.inj h
            cases u with
            | zero => exact Run.Readable.of_extend hext
            | succ u =>
              rw [← grow_succ]
              exact hgrow _ rfl u (by omega) ((chain_succ fs pos n map r i u).mp hchain).2
        · rintro ⟨⟨-, htail⟩, hgrow⟩
          refine ⟨htail, fun r' h u hu hchain => ?_⟩
          obtain rfl := Option.some.inj h
          rw [grow_succ]
          exact hgrow r rfl (u + 1) (by omega)
            ((chain_succ fs pos n map r i u).mpr ⟨⟨hsector, hnext.symm⟩, hchain⟩)
    · rw [if_neg hcont, not_continued fs pos n map run i (k + 1) hcont]
      by_cases hsector : sectorOf fs map i ≠ 0
      · rw [if_pos hsector, stepsOk_append, stepsOk_flush,
          ih (i + 1) _ (by omega) (by omega)
            (fun r h => Option.some.inj h ▸ startRun_loose fs pos n map i),
          started_ok_iff fs pos n map i k hfirst hk (by omega) hsector]
        exact And.comm
      · rw [if_neg hsector, stepsOk_append, stepsOk_flush, stepsOk_cons,
          ih (i + 1) none (by omega) (by omega) (fun r h => nomatch h), forall_from_succ]
        constructor
        · rintro ⟨hflush, -, htail, -⟩
          exact ⟨⟨⟨by omega, fun h => absurd h hsector⟩, htail⟩, hflush⟩
        · rintro ⟨⟨-, htail⟩, hflush⟩
          exact ⟨hflush, trivial, htail, fun r h => nomatch h⟩

/-- The first block of a range of more than one block. -/
theorem piece_first (hmore : firstBlock fs pos + 1 < endBlock fs pos n) :
    pieceStart fs pos (firstBlock fs pos) = pos ∧
      pieceSkip fs pos (firstBlock fs pos) = pos % ext2BlockSize fs ∧
      pieceLength fs pos n (firstBlock fs pos) = ext2BlockSize fs - pos % ext2BlockSize fs ∧
      pieceEnd fs pos n (firstBlock fs pos) = (firstBlock fs pos + 1) * ext2BlockSize fs := by
  obtain ⟨hlo, hhi⟩ := firstBlock_bounds fs pos
  obtain ⟨-, -, hcut⟩ := endBlock_bounds fs pos n (firstBlock fs pos) (by omega)
  have hend := hcut (by omega)
  have hdiv : firstBlock fs pos * ext2BlockSize fs + pos % ext2BlockSize fs = pos := by
    unfold firstBlock
    exact Nat.div_add_mod' pos (ext2BlockSize fs)
  have hsucc : (firstBlock fs pos + 1) * ext2BlockSize fs =
      firstBlock fs pos * ext2BlockSize fs + ext2BlockSize fs := Nat.succ_mul _ _
  unfold pieceSkip pieceLength pieceStart pieceEnd
  omega

/-- A range that starts with its first block is read straight on. -/
theorem startRun_tight_first (hmore : firstBlock fs pos + 1 < endBlock fs pos n)
    (hzero : pos % ext2BlockSize fs = 0) :
    Run.Tight (startRun fs pos n map (firstBlock fs pos)) := by
  obtain ⟨-, hskip, hlen, -⟩ := piece_first fs pos n hmore
  exact startRun_tight_of_whole fs pos n map _ (by omega) (by omega)

/-- What a read started at the first block has become after u more blocks. -/
theorem grow_first (u : ℕ) (hu : firstBlock fs pos + 1 + u ≤ endBlock fs pos n)
    (hmore : firstBlock fs pos + 1 < endBlock fs pos n) :
    (grow fs pos n (startRun fs pos n map (firstBlock fs pos)) (firstBlock fs pos + 1) u).start =
        sectorOf fs map (firstBlock fs pos) ∧
      (grow fs pos n (startRun fs pos n map (firstBlock fs pos)) (firstBlock fs pos + 1) u).skip =
        pos % ext2BlockSize fs ∧
      (grow fs pos n (startRun fs pos n map (firstBlock fs pos)) (firstBlock fs pos + 1) u).extent =
        pieceEnd fs pos n (firstBlock fs pos + u) - pos := by
  obtain ⟨hstart, hskip, hlen, hend⟩ := piece_first fs pos n hmore
  induction u with
  | zero =>
    refine ⟨rfl, hskip, ?_⟩
    change pieceEnd fs pos n (firstBlock fs pos) -
      pieceStart fs pos (firstBlock fs pos) = _
    rw [hstart]
    rfl
  | succ u ih =>
    obtain ⟨hs, hk, he⟩ := ih (by omega)
    refine ⟨hs, hk, ?_⟩
    change _ + pieceLength fs pos n _ = _
    obtain ⟨⟨-, hpos⟩, ⟨-, hblock⟩, -, hnext⟩ :=
      piece_bounds fs pos n (firstBlock fs pos + u) (by omega) (by omega)
    obtain ⟨-, -, hcut⟩ := endBlock_bounds fs pos n (firstBlock fs pos + u) (by omega)
    obtain ⟨-, ⟨hle, -⟩, -⟩ :=
      piece_bounds fs pos n (firstBlock fs pos + u + 1) (by omega) (by omega)
    have hfull : pieceEnd fs pos n (firstBlock fs pos + u) =
        (firstBlock fs pos + u + 1) * ext2BlockSize fs := by
      have hlast := hcut (by omega)
      unfold pieceEnd
      omega
    have hbefore : pos ≤ (firstBlock fs pos + u + 1) * ext2BlockSize fs :=
      Nat.le_trans hpos (Nat.le_of_lt hblock)
    rw [he, hfull, Nat.add_right_comm (firstBlock fs pos) 1 u]
    unfold pieceLength
    rw [hnext]
    change _ = pieceEnd fs pos n (firstBlock fs pos + u + 1) - pos
    rw [hnext] at hle
    omega

/-- Blocks behind block i that take the place of block i on the disk, the place
behind it, and so on. -/
def Repeats (i u : ℕ) : Prop :=
  ∀ j, j < u → sectorOf fs map (i + 1 + j) ≠ 0 ∧
    sectorOf fs map (i + 1 + j) = int32 (sectorOf fs map i + (j * blockSectors fs : ℕ))

/-- A read that starts in the last sector of a block and runs on over blocks
which repeat its place is one block off, and has to stay readable that way. -/
def ShiftOk (e : ℕ) : Prop :=
  ext2BlockSize fs < pos % ext2BlockSize fs + 512 → sectorOf fs map (firstBlock fs pos) ≠ 0 →
    ∀ u, 0 < u → firstBlock fs pos + u < e → Repeats fs map (firstBlock fs pos) u →
      Readable fs.devDesc (sectorOf fs map (firstBlock fs pos)) (pos % ext2BlockSize fs)
        (pieceEnd fs pos n (firstBlock fs pos + u) - pos)

/-- In the last sector of its block, a first block does not move the next sector. -/
theorem grow_shifted (u : ℕ) (hu : firstBlock fs pos + 1 + u < endBlock fs pos n)
    (hshift : ext2BlockSize fs < pos % ext2BlockSize fs + 512) :
    (grow fs pos n (startRun fs pos n map (firstBlock fs pos)) (firstBlock fs pos + 1) u).next =
      int32 (sectorOf fs map (firstBlock fs pos) + (u * blockSectors fs : ℕ)) := by
  obtain ⟨-, hskip, hlen, -⟩ := piece_first fs pos n (by omega)
  have hmod := Nat.mod_lt pos (ext2BlockSize_pos fs)
  have hsize := ext2BlockSize_eq fs
  induction u with
  | zero =>
    change int32 (_ + (pieceLength fs pos n (firstBlock fs pos) / 512 : ℕ)) = _
    have hnone : pieceLength fs pos n (firstBlock fs pos) / 512 = 0 := by omega
    rw [hnone, Nat.zero_mul]
  | succ u ih =>
    obtain ⟨-, -, hfull⟩ := piece_later fs pos n (firstBlock fs pos + 1 + u) (by omega) (by omega)
    have hpiece : pieceLength fs pos n (firstBlock fs pos + 1 + u) / 512 = blockSectors fs := by
      have hblock := hfull (by omega)
      omega
    have hsum : sectorOf fs map (firstBlock fs pos) + (u * blockSectors fs : ℕ) +
        (blockSectors fs : ℕ) =
          sectorOf fs map (firstBlock fs pos) + ((u + 1) * blockSectors fs : ℕ) := by
      rw [Nat.succ_mul, Int.natCast_add, Int.add_assoc]
    rw [grow, Run.extend]
    dsimp only
    rw [ih (by omega), hpiece, int32_int32_add, hsum]

section Shifts
variable (hlog : fs.sblock.log2BlockSize ≤ 20)
include hlog

theorem blockSectors_dvd_int32 (x : ℤ) : (blockSectors fs : ℤ) ∣ int32 x ↔
    (blockSectors fs : ℤ) ∣ x := by
  have hhalf : (blockSectors fs : ℤ) ∣ (2 ^ 31 : ℕ) :=
    Int.natCast_dvd_natCast.mpr (Nat.pow_dvd_pow 2 (by unfold log2Ext2BlockSize; omega))
  have hwrap : int32 x - x = (2 ^ 31 : ℕ) * -(2 * ((x + 2 ^ 31) / 2 ^ 32)) := by
    unfold int32
    omega
  refine Int.dvd_iff_dvd_of_dvd_sub ?_
  rw [hwrap]
  exact Int.dvd_trans hhalf (Int.dvd_mul_right _ _)

theorem blockSectors_dvd_sectorOf (i : ℕ) : (blockSectors fs : ℤ) ∣ sectorOf fs map i :=
  (blockSectors_dvd_int32 fs hlog _).mpr (Int.dvd_mul_left _ _)

/-- What comes after a first block that starts inside a sector group of its own
block, but not in its last sector, never continues the read. -/
theorem not_chain_first (u : ℕ) (hu : firstBlock fs pos + 1 + u < endBlock fs pos n)
    (hskip : 0 < pos % ext2BlockSize fs)
    (hshift : ¬ ext2BlockSize fs < pos % ext2BlockSize fs + 512) :
    ¬ Chain fs pos n map (startRun fs pos n map (firstBlock fs pos)) (firstBlock fs pos + 1)
      (u + 1) := by
  intro hchain
  obtain ⟨-, -, hlen, -⟩ := piece_first fs pos n (by omega)
  have hsize := ext2BlockSize_eq fs
  obtain ⟨-, hnext⟩ := hchain 0 (by omega)
  obtain ⟨q, hq⟩ : ∃ q, q = pieceLength fs pos n (firstBlock fs pos) / 512 := ⟨_, rfl⟩
  change sectorOf fs map (firstBlock fs pos + 1) =
    int32 (sectorOf fs map (firstBlock fs pos) +
      (pieceLength fs pos n (firstBlock fs pos) / 512 : ℕ)) at hnext
  rw [← hq] at hnext
  have hdvd := blockSectors_dvd_sectorOf fs map hlog (firstBlock fs pos + 1)
  rw [hnext, blockSectors_dvd_int32 fs hlog,
    Int.dvd_add_right (blockSectors_dvd_sectorOf fs map hlog _)] at hdvd
  have hle := Nat.le_of_dvd (by omega) (Int.natCast_dvd_natCast.mp hdvd)
  omega

/-- The reads put together from the first block on. -/
theorem shiftOk_iff (e : ℕ) (he : e ≤ endBlock fs pos n) (hfirst : firstBlock fs pos < e)
    (hsector : sectorOf fs map (firstBlock fs pos) ≠ 0)
    (hall : ∀ j, firstBlock fs pos ≤ j → j < e → Reads fs pos n map j) :
    (∀ u, u ≤ e - (firstBlock fs pos + 1) →
      Chain fs pos n map (startRun fs pos n map (firstBlock fs pos)) (firstBlock fs pos + 1) u →
        (grow fs pos n (startRun fs pos n map (firstBlock fs pos)) (firstBlock fs pos + 1)
          u).Readable fs.devDesc) ↔ ShiftOk fs pos n map e := by
  constructor
  · intro h hshift _ u hu hlt hrep
    have hread := h u (by omega) fun j hj => by
      rw [grow_shifted fs pos n map j (by omega) hshift]
      exact hrep j hj
    obtain ⟨hstart, hskip, hextent⟩ := grow_first fs pos n map u (by omega) (by omega)
    unfold Run.Readable at hread
    rwa [hstart, hskip, hextent] at hread
  · intro h u hu hchain
    cases u with
    | zero => exact (hall _ (Nat.le_refl _) hfirst).2 hsector
    | succ u =>
      by_cases hzero : pos % ext2BlockSize fs = 0
      · have htight := startRun_tight_first fs pos n map (by omega) hzero
        exact (grow_readable fs pos n map _ _ (u + 1) (Nat.lt_succ_self _) (by omega)
          (fun _ => htight) ((hall _ (Nat.le_refl _) hfirst).2 hsector)
          (fun j hlo hhi => hall j (by omega) (by omega)) hchain).1
      · by_cases hshift : ext2BlockSize fs < pos % ext2BlockSize fs + 512
        · obtain ⟨hstart, hskip', hextent⟩ :=
            grow_first fs pos n map (u + 1) (by omega) (by omega)
          have hread := h hshift hsector (u + 1) (by omega) (by omega) fun j hj => by
            rw [← grow_shifted fs pos n map j (by omega) hshift]
            exact hchain j hj
          unfold Run.Readable
          rwa [hstart, hskip', hextent]
        · exact absurd hchain (not_chain_first fs pos n map hlog u (by omega) (by omega) hshift)

/-- When the steps for the first blocks of a range succeed. -/
theorem rangePlan_ok_iff (e : ℕ) (he : e ≤ endBlock fs pos n) (hfirst : firstBlock fs pos ≤ e) :
    StepsOk fs.devDesc
        (plan fs pos n map (e - firstBlock fs pos) (firstBlock fs pos) none) ↔
      (∀ j, firstBlock fs pos ≤ j → j < e → Reads fs pos n map j) ∧ ShiftOk fs pos n map e := by
  obtain ⟨k, rfl⟩ : ∃ k, e = firstBlock fs pos + k := ⟨e - firstBlock fs pos, by omega⟩
  rw [Nat.add_sub_cancel_left]
  cases k with
  | zero =>
    exact ⟨fun _ => ⟨fun j hlo hhi => by omega, fun _ _ u hu hlt => by omega⟩,
      fun _ => stepsOk_nil _⟩
  | succ k =>
    rw [plan_succ]
    by_cases hneg : map (firstBlock fs pos) < 0
    · rw [if_pos hneg, stepsOk_cons]
      refine ⟨fun h => h.1.elim, fun h => ?_⟩
      have hread := (h.1 _ (Nat.le_refl _) (by omega)).1
      omega
    rw [if_neg hneg, if_neg fun h => h.2]
    by_cases hsector : sectorOf fs map (firstBlock fs pos) ≠ 0
    · rw [if_pos hsector]
      have hsteps := plan_ok_iff fs pos n map k (firstBlock fs pos + 1)
        (some (startRun fs pos n map (firstBlock fs pos))) (Nat.lt_succ_self _) (by omega)
        fun r h => Option.some.inj h ▸ startRun_loose fs pos n map _
      refine hsteps.trans ?_
      rw [forall_from_succ]
      constructor
      · rintro ⟨htail, hgrow⟩
        have hhead : Reads fs pos n map (firstBlock fs pos) :=
          ⟨by omega, fun _ => hgrow _ rfl 0 (by omega) fun j hj => by omega⟩
        refine ⟨⟨hhead, htail⟩, (shiftOk_iff fs pos n map hlog _ he (by omega) hsector
          ((forall_from_succ _ _ _).mpr ⟨hhead, htail⟩)).mp fun u hu => ?_⟩
        exact hgrow _ rfl u (by omega)
      · rintro ⟨hall, hshift⟩
        refine ⟨hall.2, fun r hr u hu => ?_⟩
        obtain rfl := Option.some.inj hr
        exact (shiftOk_iff fs pos n map hlog _ he (by omega) hsector
          ((forall_from_succ _ _ _).mpr hall)).mpr hshift u (by omega)
    · rw [if_neg hsector]
      have hsteps := plan_ok_iff fs pos n map k (firstBlock fs pos + 1) none
        (Nat.lt_succ_self _) (by omega) fun r h => nomatch h
      rw [flushSteps, List.nil_append, stepsOk_cons, hsteps, forall_from_succ]
      constructor
      · rintro ⟨-, htail, -⟩
        exact ⟨⟨⟨by omega, fun h => absurd h hsector⟩, htail⟩, fun _ h => absurd h hsector⟩
      · rintro ⟨⟨-, htail⟩, -⟩
        exact ⟨trivial, htail, fun r h => nomatch h⟩

end Shifts

end Plan

end Eokan.DeferredReads
