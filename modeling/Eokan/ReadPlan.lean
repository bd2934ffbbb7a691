import Eokan.DevreadOutcome
import Eokan.ReadFile

/-!
What a read of a file range does on a device without read errors, as a list
of steps that depends only on the answers of the lookups. Carrying out the
steps is what the loop does, whatever the node caches in between.
-/
namespace Eokan.ReadPlan

open ByteMem CInt Programs Device Devread DevreadOutcome Layout BlockMap ReadFile

/-- The lookups of the file blocks below `count` answer as the map says, from
every valid node, and leave a valid node. -/
def Realizes (fs : ExtFilesystem) (fuel : ℕ) (map : ℕ → ℤ) (count : ℕ)
    (valid : Ext2fsNode → Prop) : Prop :=
  ∀ node, valid node → ∀ i, i < count → ∀ log,
    Yields (readAllocatedBlock1 fs fuel node i) log fun r _ => r.1 = map i ∧ valid r.2

/-- A deferred read in exact numbers. -/
structure Run where
  start : ℤ
  skip : ℕ
  extent : ℕ
  next : ℤ
  dst : ℕ

def Run.toDelayed (run : Run) : Delayed :=
  ⟨run.start, int32 run.extent, run.skip, run.next, run.dst⟩

def Run.extend (run : Run) (piece : ℕ) : Run :=
  { run with extent := run.extent + piece, next := int32 (run.next + (piece / 512 : ℕ)) }

def Run.Readable (part : PartDescr) (run : Run) : Prop :=
  Devread.Readable part run.start run.skip run.extent

instance (part : PartDescr) (run : Run) : Decidable (run.Readable part) := by
  unfold Run.Readable
  infer_instance

inductive Step
  | fail
  | read (run : Run)
  | zero (dst n : ℕ)

def flushSteps : Option Run → List Step
  | none => []
  | some run => [.read run]

def runContinues : Option Run → ℤ → Prop
  | none, _ => False
  | some run, blknr => run.next = blknr

instance (run : Option Run) (blknr : ℤ) : Decidable (runContinues run blknr) := by
  unfold runContinues
  split <;> infer_instance

section Plan
variable (fs : ExtFilesystem) (pos n : ℕ) (map : ℕ → ℤ)

/-- The sector file block i starts at, as the code computes it. -/
def sectorOf (i : ℕ) : ℤ := int32 (map i * blockSectors fs)

def pieceSkip (i : ℕ) : ℕ := pieceStart fs pos i - i * ext2BlockSize fs

def pieceLength (i : ℕ) : ℕ := pieceEnd fs pos n i - pieceStart fs pos i

def startRun (i : ℕ) : Run where
  start := sectorOf fs map i
  skip := pieceSkip fs pos i
  extent := pieceLength fs pos n i
  next := int32 (sectorOf fs map i + (pieceLength fs pos n i / 512 : ℕ))
  dst := pieceStart fs pos i - pos

/-- A hole is filled to the end of its block. -/
def holeStep (i : ℕ) : Step :=
  .zero (pieceStart fs pos i - pos) ((i + 1) * ext2BlockSize fs - pieceStart fs pos i)

/-- The steps for k blocks from block i on, with a read deferred or not. -/
def plan : ℕ → ℕ → Option Run → List Step
  | 0, _, run => flushSteps run
  | k + 1, i, run =>
    if map i < 0 then [.fail]
    else if sectorOf fs map i ≠ 0 ∧ runContinues run (sectorOf fs map i) then
      plan k (i + 1) (run.map fun r => r.extend (pieceLength fs pos n i))
    else if sectorOf fs map i ≠ 0 then
      flushSteps run ++ plan k (i + 1) (some (startRun fs pos n map i))
    else flushSteps run ++ holeStep fs pos i :: plan k (i + 1) none

theorem plan_succ (k i : ℕ) (run : Option Run) :
    plan fs pos n map (k + 1) i run =
      if map i < 0 then [.fail]
      else if sectorOf fs map i ≠ 0 ∧ runContinues run (sectorOf fs map i) then
        plan fs pos n map k (i + 1) (run.map fun r => r.extend (pieceLength fs pos n i))
      else if sectorOf fs map i ≠ 0 then
        flushSteps run ++ plan fs pos n map k (i + 1) (some (startRun fs pos n map i))
      else flushSteps run ++ holeStep fs pos i :: plan fs pos n map k (i + 1) none := rfl

/-- The plan looks at the blocks of the range only. -/
theorem plan_congr (map' : ℕ → ℤ) (k i : ℕ) (run : Option Run)
    (h : ∀ j, i ≤ j → j < i + k → map j = map' j) :
    plan fs pos n map k i run = plan fs pos n map' k i run := by
  induction k generalizing i run with
  | zero => rfl
  | succ k ih =>
    have hhead := h i (Nat.le_refl i) (by omega)
    have hrest := fun run => ih (i + 1) run fun j hlo hhi => h j (by omega) (by omega)
    have hsector : sectorOf fs map i = sectorOf fs map' i := by
      unfold sectorOf
      rw [hhead]
    have hstart : startRun fs pos n map i = startRun fs pos n map' i := by
      unfold startRun
      rw [hsector]
    rw [plan_succ, plan_succ, hrest, hrest, hrest, hhead, hsector, hstart]

/-- The steps for a whole range. -/
def rangePlan : List Step :=
  plan fs pos n map (endBlock fs pos n - firstBlock fs pos) (firstBlock fs pos) none

end Plan

/-- Carry out steps up to the first one that fails. -/
def runSteps (part : PartDescr) : List Step → Bytes → Bool × Bytes
  | [], buf => (true, buf)
  | .fail :: _, buf => (false, buf)
  | .read run :: steps, buf =>
    if run.Readable part then
      runSteps part steps (write buf run.dst run.extent
        (slice part.bytes (run.start.toNat * 512 + run.skip)))
    else (false, buf)
  | .zero dst n :: steps, buf => runSteps part steps (fill buf dst n 0)

theorem runSteps_append (part : PartDescr) (steps rest : List Step) (buf : Bytes) :
    runSteps part (steps ++ rest) buf =
      if (runSteps part steps buf).1 then runSteps part rest (runSteps part steps buf).2
      else (false, (runSteps part steps buf).2) := by
  induction steps generalizing buf with
  | nil => rfl
  | cons step steps ih =>
    cases step with
    | fail => rfl
    | zero dst n => exact ih _
    | read run =>
      by_cases hread : run.Readable part
      · simp only [List.cons_append, runSteps, if_pos hread]
        exact ih _
      · simp only [List.cons_append, runSteps, if_neg hread, Bool.false_eq_true, if_false]

/-- The numbers of a deferred read stay in range below this end of a file range. -/
structure Run.Fits (stop : ℕ) (run : Run) : Prop where
  start : run.start < 2 ^ 31
  some_byte : 1 ≤ run.skip + run.extent
  stop_le : run.skip + run.extent ≤ stop

section NoErrors
variable (fs : ExtFilesystem) (hgood : fs.devDesc.disk.NoErrors)
  (hpart : fs.devDesc.off + fs.devDesc.length < 2 ^ 63)
include hgood hpart

/-- Spilling is carrying out the steps that are deferred. -/
theorem flush_spec (run : Option Run) (stop : ℕ) (hstop : stop ≤ 2 ^ 31)
    (hfits : ∀ r, run = some r → r.Fits stop) (buf : Bytes) (log : Log) :
    Yields (flush fs (run.map Run.toDelayed) buf) log fun r _ =>
      r = runSteps fs.devDesc (flushSteps run) buf := by
  cases run with
  | none => exact Yields.pure rfl
  | some r =>
    have hr := hfits r rfl
    have hle := hr.stop_le
    unfold flush spill
    refine Yields.bind (vfsDevread_spec fs.devDesc hgood hpart r.start r.skip r.extent hr.start
      hr.some_byte (by omega) buf r.dst log) ?_
    intro res log' hres
    rcases hres with ⟨hread, heq⟩ | ⟨hread, heq⟩
    · have hrun : r.Readable fs.devDesc := hread
      simp only [flushSteps, runSteps, if_pos hrun, heq]
      exact Yields.pure rfl
    · have hrun : ¬ r.Readable fs.devDesc := hread
      simp only [flushSteps, runSteps, if_neg hrun, heq]
      exact Yields.pure rfl

end NoErrors

theorem continues_toDelayed (run : Option Run) (blknr : ℤ) :
    continues (run.map Run.toDelayed) blknr = true ↔ runContinues run blknr := by
  cases run with
  | none => exact ⟨fun h => absurd h Bool.false_ne_true, False.elim⟩
  | some r => exact decide_eq_true_iff

theorem extend_toDelayed (run : Option Run) (piece : ℕ) :
    (run.map Run.toDelayed).map (fun d => d.extend piece) =
      (run.map fun r => r.extend piece).map Run.toDelayed := by
  cases run with
  | none => rfl
  | some r =>
    have hextent : int32 (int32 r.extent + piece) = int32 ((r.extent + piece : ℕ) : ℤ) := by
      rw [int32_int32_add, Int.natCast_add]
    have hnext : (piece : ℤ) / 512 = (piece / 512 : ℕ) := by omega
    simp only [Option.map_some, Run.toDelayed, Run.extend, Delayed.extend, hextent, hnext]

/-- The result of a read whose steps have been carried out or not. -/
def outcome (n : ℕ) (res : Bool × Bytes) : ℤ × Bytes := (if res.1 then int32 n else -1, res.2)

theorem outcome_true (n : ℕ) (buf : Bytes) : outcome n (true, buf) = (int32 n, buf) := by
  simp only [outcome, if_true]

theorem outcome_false (n : ℕ) (buf : Bytes) : outcome n (false, buf) = (-1, buf) := by
  simp only [outcome, Bool.false_eq_true, if_false]

section Refinement
variable (fs : ExtFilesystem) (hgood : fs.devDesc.disk.NoErrors)
  (hpart : fs.devDesc.off + fs.devDesc.length < 2 ^ 63)
  (hlog : fs.sblock.log2BlockSize ≤ 20) (fuel pos n : ℕ) (hmax : pos + n ≤ 2 ^ 31)
  (map : ℕ → ℤ) (valid : Ext2fsNode → Prop)
  (hreal : Realizes fs fuel map (endBlock fs pos n) valid)

theorem startRun_fits (i : ℕ) (hfirst : firstBlock fs pos ≤ i) (hi : i < endBlock fs pos n) :
    (startRun fs pos n map i).Fits (min (pos + n) ((i + 1) * ext2BlockSize fs)) := by
  obtain ⟨⟨hlo, -⟩, ⟨hle, -⟩, ⟨hlt, hhi, hend⟩, -⟩ := piece_bounds fs pos n i hfirst hi
  have hsum : pieceSkip fs pos i + pieceLength fs pos n i =
      pieceEnd fs pos n i - i * ext2BlockSize fs := by
    unfold pieceSkip pieceLength
    omega
  refine ⟨(int32_bounds _).2, ?_, ?_⟩
  · change 1 ≤ pieceSkip fs pos i + pieceLength fs pos n i
    omega
  · change pieceSkip fs pos i + pieceLength fs pos n i ≤ _
    omega

theorem extend_fits (run : Run) (i : ℕ) (hfirst : firstBlock fs pos ≤ i)
    (hi : i < endBlock fs pos n) (hfits : run.Fits (min (pos + n) (i * ext2BlockSize fs))) :
    (run.extend (pieceLength fs pos n i)).Fits
      (min (pos + n) ((i + 1) * ext2BlockSize fs)) := by
  obtain ⟨⟨hlo, -⟩, ⟨hle, -⟩, ⟨hlt, hhi, hend⟩, -⟩ := piece_bounds fs pos n i hfirst hi
  obtain ⟨hstart, hsome, hstop⟩ := hfits
  have hpiece : pieceLength fs pos n i = pieceEnd fs pos n i - pieceStart fs pos i := rfl
  refine ⟨hstart, ?_, ?_⟩
  · change 1 ≤ run.skip + (run.extent + pieceLength fs pos n i)
    omega
  · change run.skip + (run.extent + pieceLength fs pos n i) ≤ _
    omega

include hlog in
theorem startRun_toDelayed (i : ℕ) (hfirst : firstBlock fs pos ≤ i) (hi : i < endBlock fs pos n) :
    startDelayed (sectorOf fs map i) (pieceLength fs pos n i) (pieceSkip fs pos i)
      (pieceStart fs pos i - pos) = (startRun fs pos n map i).toDelayed := by
  obtain ⟨⟨hlo, -⟩, -, ⟨-, hhi, -⟩, -⟩ := piece_bounds fs pos n i hfirst hi
  have hbig := ext2BlockSize_le fs hlog
  rw [Nat.succ_mul] at hhi
  have hlen : int32 ((pieceLength fs pos n i : ℕ) : ℤ) = pieceLength fs pos n i := by
    have hpiece : pieceLength fs pos n i = pieceEnd fs pos n i - pieceStart fs pos i := rfl
    exact int32_of_nat _ (by omega) (by omega)
  have hnext : (pieceLength fs pos n i : ℤ) / 512 = (pieceLength fs pos n i / 512 : ℕ) := by omega
  simp only [startDelayed, startRun, Run.toDelayed, hlen, hnext]

section Loop
variable (hsums : pos + n + ext2BlockSize fs ≤ 2 ^ 32)
include hlog hsums

/-- One block of the loop, in exact numbers. -/
theorem readBlocks_succ (k i : ℕ) (hfirst : firstBlock fs pos ≤ i) (hi : i < endBlock fs pos n)
    (run : Option Run) (node : Ext2fsNode) (buf : Bytes) :
    readBlocks fs fuel pos n (k + 1) i node (run.map Run.toDelayed) buf
        (pieceStart fs pos i - pos) = (do
      let (blknr, node) ← readAllocatedBlock1 fs fuel node i
      if blknr < 0 then pure (-1, node, buf)
      else if sectorOf fs (fun _ => blknr) i ≠ 0 ∧
          runContinues run (sectorOf fs (fun _ => blknr) i) then
        readBlocks fs fuel pos n k (i + 1 : ℕ) node
          ((run.map fun r => r.extend (pieceLength fs pos n i)).map Run.toDelayed) buf
          (pieceStart fs pos (i + 1) - pos)
      else do
        let (spilled, buf) ← flush fs (run.map Run.toDelayed) buf
        if !spilled then pure (-1, node, buf)
        else if sectorOf fs (fun _ => blknr) i ≠ 0 then
          readBlocks fs fuel pos n k (i + 1 : ℕ) node
            ((some (startRun fs pos n (fun _ => blknr) i)).map Run.toDelayed) buf
            (pieceStart fs pos (i + 1) - pos)
        else
          readBlocks fs fuel pos n k (i + 1 : ℕ) node ((none : Option Run).map Run.toDelayed)
            (fill buf (pieceStart fs pos i - pos)
              ((i + 1) * ext2BlockSize fs - pieceStart fs pos i) 0)
            (pieceStart fs pos (i + 1) - pos)) := by
  obtain ⟨⟨hlo, hpos⟩, ⟨-, hnext⟩, -, hstart⟩ := piece_bounds fs pos n i hfirst hi
  have hlen : blockEnd fs pos n i = pieceLength fs pos n i :=
    blockEnd_eq fs pos n hsums i hfirst hi
  have hskip : skipFirst fs pos i = pieceSkip fs pos i := skipFirst_eq fs pos i hfirst
  have hsize : ((ext2BlockSize fs : ℤ) - (pieceSkip fs pos i : ℕ)).toNat =
      (i + 1) * ext2BlockSize fs - pieceStart fs pos i := by
    rw [Nat.succ_mul] at hnext ⊢
    unfold pieceSkip
    omega
  have hdst : pieceStart fs pos i - pos + ((i + 1) * ext2BlockSize fs - pieceStart fs pos i) =
      pieceStart fs pos (i + 1) - pos := by omega
  have hstep : (i : ℤ) + 1 = (i + 1 : ℕ) := by omega
  rw [readBlocks]
  refine congrArg (fun f => readAllocatedBlock1 fs fuel node i >>= f) (funext fun answer => ?_)
  obtain ⟨blknr, node'⟩ := answer
  have hsector : int32 (blknr * blockSectors fs) = sectorOf fs (fun _ => blknr) i := rfl
  have hcont : (continues (run.map Run.toDelayed) (sectorOf fs (fun _ => blknr) i) = true) =
      runContinues run (sectorOf fs (fun _ => blknr) i) := propext (continues_toDelayed run _)
  dsimp only
  rw [hlen, hskip, hsize, hdst, hstep, hsector,
    startRun_toDelayed fs hlog pos n (fun _ => blknr) i hfirst hi, extend_toDelayed]
  simp only [hcont, Option.map_some, Option.map_none]

/-- A read is the loop over the blocks of its range. -/
theorem ext4fsReadFile_eq (len : ℤ) (node : Ext2fsNode) (hlen : clampLength node len = n)
    (buf : Bytes) (log : Log) :
    ext4fsReadFile fs fuel node pos len buf log =
      readBlocks fs fuel pos n (endBlock fs pos n - firstBlock fs pos) (firstBlock fs pos : ℕ) node
        ((none : Option Run).map Run.toDelayed) buf
        (pieceStart fs pos (firstBlock fs pos) - pos) log := by
  have hstart : pieceStart fs pos (firstBlock fs pos) - pos = 0 := by
    have hbounds := firstBlock_bounds fs pos
    unfold pieceStart
    omega
  have hcount : ((endBlock fs pos n : ℤ) - firstBlock fs pos).toNat =
      endBlock fs pos n - firstBlock fs pos := by omega
  unfold ext4fsReadFile
  refine (bind_ok (lift_ok (if_pos hlog) log)).trans ?_
  rw [hlen, blockCount_eq fs pos n hsums, tdiv_eq_firstBlock, hcount, hstart, Option.map_none]

end Loop

theorem firstBlock_le_endBlock : firstBlock fs pos ≤ endBlock fs pos n := by
  have hsize := ext2BlockSize_pos fs
  exact Nat.div_le_div_right (by omega)

include hgood hpart hlog hmax hreal

/-- The loop carries out the plan. The induction is on the blocks left. -/
theorem readBlocks_plan (k i : ℕ) (hfirst : firstBlock fs pos ≤ i)
    (hk : i + k = endBlock fs pos n) (run : Option Run)
    (hfits : ∀ r, run = some r → r.Fits (min (pos + n) (i * ext2BlockSize fs)))
    (node : Ext2fsNode) (hvalid : valid node) (buf : Bytes) (log : Log) :
    Yields (readBlocks fs fuel pos n k i node (run.map Run.toDelayed) buf
      (pieceStart fs pos i - pos)) log fun r _ =>
        valid r.2.1 ∧
          (r.1, r.2.2) = outcome n (runSteps fs.devDesc (plan fs pos n map k i run) buf) := by
  have hspill : min (pos + n) (i * ext2BlockSize fs) ≤ 2 ^ 31 := by omega
  induction k generalizing i run node buf log with
  | zero =>
    unfold readBlocks plan
    refine Yields.bind (flush_spec fs hgood hpart run _ hspill hfits buf log) ?_
    intro res log' hres
    rw [← hres]
    obtain ⟨spilled, buf'⟩ := res
    dsimp only
    cases spilled with
    | false =>
      rw [outcome_false, if_neg Bool.false_ne_true]
      exact Yields.pure ⟨hvalid, rfl⟩
    | true =>
      rw [outcome_true, if_pos rfl]
      exact Yields.pure ⟨hvalid, rfl⟩
  | succ k ih =>
    have hi : i < endBlock fs pos n := by omega
    have hnext : min (pos + n) ((i + 1) * ext2BlockSize fs) ≤ 2 ^ 31 := by omega
    rw [readBlocks_succ fs hlog fuel pos n (sums_fit fs pos n hlog hmax) k i hfirst hi, plan_succ]
    refine Yields.bind (hreal node hvalid i hi log) ?_
    intro res log' hres
    obtain ⟨blknr, node'⟩ := res
    obtain ⟨rfl, hvalid'⟩ := hres
    dsimp only
    change Yields (if _ then _ else if sectorOf fs map i ≠ 0 ∧
      runContinues run (sectorOf fs map i) then _ else _) _ _
    split
    · rw [runSteps, outcome_false]
      exact Yields.pure ⟨hvalid', rfl⟩
    by_cases hcont : sectorOf fs map i ≠ 0 ∧ runContinues run (sectorOf fs map i)
    · rw [if_pos hcont, if_pos hcont]
      refine ih (i + 1) (by omega) (by omega) _ ?_ node' hvalid' buf log' hnext
      intro r hr
      obtain ⟨r', hrun, rfl⟩ := Option.map_eq_some_iff.mp hr
      exact extend_fits fs pos n r' i hfirst hi (hfits r' hrun)
    rw [if_neg hcont, if_neg hcont]
    -- the spill of what is deferred comes first, in the loop and in the plan
    refine Yields.bind (flush_spec fs hgood hpart run _ hspill hfits buf log') ?_
    intro spilled log'' hspilled
    obtain ⟨ok, buf'⟩ := spilled
    dsimp only
    change Yields (if _ then _ else if sectorOf fs map i ≠ 0 then _ else _) _ _
    by_cases hzero : sectorOf fs map i ≠ 0
    · rw [if_pos hzero, if_pos hzero, runSteps_append, ← hspilled]
      cases ok with
      | false =>
        rw [Bool.not_false, if_pos rfl, if_neg Bool.false_ne_true, outcome_false]
        exact Yields.pure ⟨hvalid', rfl⟩
      | true =>
        rw [Bool.not_true, if_neg Bool.false_ne_true, if_pos rfl]
        refine ih (i + 1) (by omega) (by omega) (some (startRun fs pos n map i)) ?_ node' hvalid'
          buf' log'' hnext
        intro r hr
        obtain rfl := Option.some.inj hr
        exact startRun_fits fs pos n map i hfirst hi
    · rw [if_neg hzero, if_neg hzero, runSteps_append, ← hspilled]
      cases ok with
      | false =>
        rw [Bool.not_false, if_pos rfl, if_neg Bool.false_ne_true, outcome_false]
        exact Yields.pure ⟨hvalid', rfl⟩
      | true =>
        rw [Bool.not_true, if_neg Bool.false_ne_true, if_pos rfl]
        refine ih (i + 1) (by omega) (by omega) none ?_ node' hvalid' _ log'' hnext
        intro r hr
        cases hr

/-- A read is its plan, carried out. -/
theorem ext4fsReadFile_plan (len : ℤ) (node : Ext2fsNode) (hlen : clampLength node len = n)
    (hvalid : valid node) (buf : Bytes) (log : Log) :
    Yields (ext4fsReadFile fs fuel node pos len buf) log fun r _ =>
      valid r.2.1 ∧
        (r.1, r.2.2) = outcome n (runSteps fs.devDesc (rangePlan fs pos n map) buf) := by
  have hle := firstBlock_le_endBlock fs pos n
  unfold Yields
  rw [ext4fsReadFile_eq fs hlog fuel pos n (sums_fit fs pos n hlog hmax) len node hlen]
  exact readBlocks_plan fs hgood hpart hlog fuel pos n hmax map valid hreal _ _ (Nat.le_refl _)
    (by omega) none (fun r hr => nomatch hr) node hvalid buf log

end Refinement

end Eokan.ReadPlan
