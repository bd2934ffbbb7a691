import Eokan.DeferredReads
import Eokan.FileMaps

/-!
The bytes of the destination that a read may change. Reads from the device end
with the range, but a hole is filled to the end of its block, and the last
block of the range can end behind it.
-/
namespace Eokan.ReadFrame

open ByteMem CInt Programs Device Devread Layout BlockMap IndirectCache ReadFile ReadPlan
  DeferredReads FileMaps

def StepWithin (stop : ℕ) : Step → Prop
  | .fail => True
  | .read run => run.dst + run.extent ≤ stop
  | .zero dst n => dst + n ≤ stop

theorem runSteps_frame (part : PartDescr) (stop : ℕ) (steps : List Step)
    (hin : ∀ step ∈ steps, StepWithin stop step) (buf : Bytes) (j : ℕ) (hj : stop ≤ j) :
    (runSteps part steps buf).2 j = buf j := by
  induction steps generalizing buf with
  | nil => rfl
  | cons step steps ih =>
    obtain ⟨hhead, htail⟩ := List.forall_mem_cons.mp hin
    cases step with
    | fail => rfl
    | zero dst n =>
      have hle : dst + n ≤ stop := hhead
      refine (ih htail _).trans ?_
      exact write_of_ge buf dst n _ (by omega)
    | read run =>
      have hle : run.dst + run.extent ≤ stop := hhead
      by_cases hread : run.Readable part
      · simp only [runSteps, if_pos hread]
        refine (ih htail _).trans ?_
        exact write_of_ge buf run.dst run.extent _ (by omega)
      · simp only [runSteps, if_neg hread]

/-- A deferred read goes to the bytes of the range before this offset. -/
def Ends (run : Option Run) (stop : ℕ) : Prop := ∀ r, run = some r → r.dst + r.extent ≤ stop

section Plan
variable (fs : ExtFilesystem) (pos n : ℕ) (map : ℕ → ℤ)

theorem flush_within (run : Option Run) (stop : ℕ) (hrun : Ends run stop) :
    ∀ step ∈ flushSteps run, StepWithin stop step := by
  cases run with
  | none => exact fun _ h => absurd h List.not_mem_nil
  | some r =>
    intro step hstep
    rw [List.mem_singleton.mp hstep]
    exact hrun r rfl

theorem startRun_ends (i : ℕ) (hfirst : firstBlock fs pos ≤ i) (hi : i < endBlock fs pos n) :
    Ends (some (startRun fs pos n map i)) (min (pos + n) ((i + 1) * ext2BlockSize fs) - pos) := by
  intro r hr
  obtain rfl := Option.some.inj hr
  obtain ⟨⟨-, hpos⟩, ⟨hle, -⟩, -⟩ := piece_bounds fs pos n i hfirst hi
  change pieceStart fs pos i - pos + pieceLength fs pos n i ≤ pieceEnd fs pos n i - pos
  unfold pieceLength
  omega

theorem extend_ends (run : Option Run) (i : ℕ) (hfirst : firstBlock fs pos ≤ i)
    (hi : i < endBlock fs pos n) (hrun : Ends run (min (pos + n) (i * ext2BlockSize fs) - pos)) :
    Ends (run.map fun r => r.extend (pieceLength fs pos n i))
      (min (pos + n) ((i + 1) * ext2BlockSize fs) - pos) := by
  intro r hr
  obtain ⟨r', hrun', rfl⟩ := Option.map_eq_some_iff.mp hr
  obtain ⟨⟨hlo, hpos⟩, ⟨hle, -⟩, -⟩ := piece_bounds fs pos n i hfirst hi
  have hend := hrun r' hrun'
  change r'.dst + (r'.extent + pieceLength fs pos n i) ≤ pieceEnd fs pos n i - pos
  unfold pieceLength
  omega

/-- The steps of a range change nothing from stop on, if its holes end there. -/
theorem plan_within (stop : ℕ) (hstop : n ≤ stop) (k i : ℕ) (run : Option Run)
    (hfirst : firstBlock fs pos ≤ i) (hk : i + k ≤ endBlock fs pos n)
    (hrun : Ends run (min (pos + n) (i * ext2BlockSize fs) - pos))
    (hholes : ∀ j, i ≤ j → j < i + k → 0 ≤ map j → sectorOf fs map j = 0 →
      (j + 1) * ext2BlockSize fs ≤ pos + stop) :
    ∀ step ∈ plan fs pos n map k i run, StepWithin stop step := by
  induction k generalizing i run with
  | zero =>
    refine flush_within run stop fun r hr => ?_
    have hend := hrun r hr
    omega
  | succ k ih =>
    have hflush := flush_within run stop fun r hr => by
      have hend := hrun r hr
      omega
    rw [plan_succ]
    split
    · exact List.forall_mem_singleton.mpr trivial
    rename_i hneg
    split
    · exact ih (i + 1) _ (by omega) (by omega) (extend_ends fs pos n run i hfirst (by omega) hrun)
        fun j hlo hhi => hholes j (by omega) (by omega)
    split
    · refine List.forall_mem_append.mpr ⟨hflush, ih (i + 1) _ (by omega) (by omega)
        (startRun_ends fs pos n map i hfirst (by omega))
        fun j hlo hhi => hholes j (by omega) (by omega)⟩
    · rename_i hsector
      refine List.forall_mem_append.mpr ⟨hflush, List.forall_mem_cons.mpr ⟨?_,
        ih (i + 1) none (by omega) (by omega) (fun r h => nomatch h)
          fun j hlo hhi => hholes j (by omega) (by omega)⟩⟩
      obtain ⟨⟨-, hpos⟩, ⟨-, hblock⟩, -⟩ := piece_bounds fs pos n i hfirst (by omega)
      have hend := hholes i (by omega) (by omega) (by omega) (Classical.not_not.mp hsector)
      change pieceStart fs pos i - pos + ((i + 1) * ext2BlockSize fs - pieceStart fs pos i) ≤ stop
      omega

/-- A hole at the end of a range only adds its own step, and that only when
the steps before it are reached at all. -/
theorem plan_hole (k i : ℕ) (run : Option Run) (hmap : 0 ≤ map (i + k))
    (hsector : sectorOf fs map (i + k) = 0) :
    ∃ rest, plan fs pos n map (k + 1) i run = plan fs pos n map k i run ++ rest ∧
      ((∀ j, i ≤ j → j < i + k → 0 ≤ map j) → rest = [holeStep fs pos (i + k)]) := by
  induction k generalizing i run with
  | zero =>
    refine ⟨[holeStep fs pos i], ?_, fun _ => rfl⟩
    have hneg : ¬ map i < 0 := by
      have h : 0 ≤ map i := hmap
      omega
    have hzero : ¬ sectorOf fs map i ≠ 0 := fun h => h hsector
    rw [plan_succ, if_neg hneg, if_neg fun h => hzero h.1, if_neg hzero]
    rfl
  | succ k ih =>
    rw [show i + (k + 1) = i + 1 + k by omega] at hmap hsector ⊢
    rw [plan_succ fs pos n map (k + 1) i run, plan_succ fs pos n map k i run]
    by_cases hneg : map i < 0
    · rw [if_pos hneg, if_pos hneg]
      refine ⟨[], (List.append_nil _).symm, fun h => ?_⟩
      have hpos := h i (by omega) (by omega)
      omega
    rw [if_neg hneg, if_neg hneg]
    split
    · obtain ⟨rest, heq, hrest⟩ :=
        ih (i + 1) (run.map fun r => r.extend (pieceLength fs pos n i)) hmap hsector
      exact ⟨rest, heq, fun h => hrest fun j hlo hhi => h j (by omega) hhi⟩
    split
    · obtain ⟨rest, heq, hrest⟩ := ih (i + 1) (some (startRun fs pos n map i)) hmap hsector
      exact ⟨rest, by rw [heq, List.append_assoc],
        fun h => hrest fun j hlo hhi => h j (by omega) hhi⟩
    · obtain ⟨rest, heq, hrest⟩ := ih (i + 1) none hmap hsector
      exact ⟨rest, by rw [heq, List.append_assoc, List.cons_append],
        fun h => hrest fun j hlo hhi => h j (by omega) hhi⟩

end Plan

section AnyOutcome
variable (fs : ExtFilesystem) (hpart : fs.devDesc.off + fs.devDesc.length < 2 ^ 63)
include hpart

theorem flush_frame (run : Option Run) (stop edge : ℕ) (hstop : stop < 2 ^ 31)
    (hfits : ∀ r, run = some r → r.Fits stop) (hends : Ends run edge) (buf : Bytes) (log : Log)
    (res : Bool × Bytes) (log' : Log)
    (h : flush fs (run.map Run.toDelayed) buf log = .ok (res, log')) (j : ℕ) (hj : edge ≤ j) :
    res.2 j = buf j := by
  cases run with
  | none =>
    cases h
    rfl
  | some r =>
    obtain ⟨hstart, hsome, hle⟩ := hfits r rfl
    have hend := hends r rfl
    have hextent : int32 r.extent = r.extent := int32_of_nat _ (by omega) (by omega)
    obtain ⟨⟨status, buf'⟩, log₁, hrun, h⟩ := bind_eq_ok h
    cases h
    have hspec := vfsDevread_runs fs.devDesc hpart r.start r.skip (int32 r.extent) hstart
      (by omega) (by omega) (by omega) (by omega) (by omega) buf r.dst log
    obtain ⟨-, -, hframe, -⟩ := hspec.of_ok hrun
    rw [hextent] at hframe
    exact hframe j (Or.inr (by omega))

/-- The last block of the range ends where the bytes asked for end, or no
lookup of it answers that it is a hole. -/
def TailSafe (fuel pos n len : ℕ) (inode : Ext2Inode) : Prop :=
  endBlock fs pos n * ext2BlockSize fs ≤ pos + len ∨
    ∀ node log r log', node.inode = inode →
      readAllocatedBlock1 fs fuel node ((endBlock fs pos n - 1 : ℕ) : ℤ) log = .ok (r, log') →
        0 ≤ r.1 → int32 (r.1 * blockSectors fs) ≠ 0

variable (hlog : fs.sblock.log2BlockSize ≤ 20) (fuel pos n len : ℕ) (hmax : pos + n < 2 ^ 31)
  (hlen : n ≤ len) (inode : Ext2Inode) (hsafe : TailSafe fs fuel pos n len inode)
include hlog hmax hlen hsafe

/-- Whatever the device and the lookups answer, the loop changes no byte
behind the range. The induction is on the blocks left. -/
theorem readBlocks_frame (k i : ℕ) (hfirst : firstBlock fs pos ≤ i)
    (hk : i + k = endBlock fs pos n) (run : Option Run)
    (hfits : ∀ r, run = some r → r.Fits (min (pos + n) (i * ext2BlockSize fs)))
    (hends : Ends run (min (pos + n) (i * ext2BlockSize fs) - pos)) (node : Ext2fsNode)
    (hinode : node.inode = inode) (buf : Bytes) (log : Log) (res : ℤ × Ext2fsNode × Bytes)
    (log' : Log) (h : readBlocks fs fuel pos n k i node (run.map Run.toDelayed) buf
      (pieceStart fs pos i - pos) log = .ok (res, log')) (j : ℕ) (hj : len ≤ j) :
    res.2.2 j = buf j := by
  have hspill : min (pos + n) (i * ext2BlockSize fs) < 2 ^ 31 := by omega
  induction k generalizing i run node buf log with
  | zero =>
    unfold readBlocks at h
    obtain ⟨⟨spilled, buf'⟩, log₁, hflush, h⟩ := bind_eq_ok h
    have hframe := flush_frame fs hpart run _ _ hspill hfits hends buf log _ log₁ hflush j
      (by omega)
    cases spilled with
    | false =>
      cases h
      exact hframe
    | true =>
      cases h
      exact hframe
  | succ k ih =>
    have hi : i < endBlock fs pos n := by omega
    have hnext : min (pos + n) ((i + 1) * ext2BlockSize fs) < 2 ^ 31 := by omega
    rw [readBlocks_succ fs hlog fuel pos n (sums_fit fs pos n hlog (by omega)) k i hfirst hi] at h
    obtain ⟨⟨blknr, node'⟩, log₁, hlookup, h⟩ := bind_eq_ok h
    have hinode' : node'.inode = inode := (readAllocatedBlock1_inode hlookup).trans hinode
    dsimp only at h
    split at h
    · cases h
      rfl
    rename_i hneg
    split at h
    · refine ih (i + 1) (by omega) (by omega) _ ?_ ?_ node' hinode' buf log₁ h hnext
      · intro r hr
        obtain ⟨r', hrun, rfl⟩ := Option.map_eq_some_iff.mp hr
        exact extend_fits fs pos n r' i hfirst hi (hfits r' hrun)
      · exact extend_ends fs pos n run i hfirst hi hends
    obtain ⟨⟨spilled, buf'⟩, log₂, hflush, h⟩ := bind_eq_ok h
    have hframe := flush_frame fs hpart run _ _ hspill hfits hends buf log₁ _ log₂ hflush j
      (by omega)
    dsimp only at h hframe
    split at h
    · cases h
      exact hframe
    split at h
    · refine (ih (i + 1) (by omega) (by omega) _ ?_ ?_ node' hinode' buf' log₂ h hnext).trans hframe
      · intro r hr
        obtain rfl := Option.some.inj hr
        exact startRun_fits fs pos n _ i hfirst hi
      · exact startRun_ends fs pos n _ i hfirst hi
    · rename_i hsector
      refine (ih (i + 1) (by omega) (by omega) none (by simp) (by simp [Ends]) node' hinode' _ log₂
        h hnext).trans ?_
      refine Eq.trans (write_of_ge _ _ _ _ ?_) hframe
      obtain ⟨⟨-, hpos⟩, ⟨-, hblock⟩, -⟩ := piece_bounds fs pos n i hfirst hi
      obtain ⟨-, -, hmore⟩ := endBlock_bounds fs pos n i hi
      -- only a hole in the last block could end behind the range
      by_cases hlast : i + 1 = endBlock fs pos n
      · rcases hsafe with hend | hsome
        · rw [hlast] at hblock ⊢
          omega
        · have hi' : i = endBlock fs pos n - 1 := by omega
          rw [hi'] at hlookup
          exact absurd (hsome node log _ log₁ hinode hlookup (by omega)) hsector
      · have hfull := hmore hlast
        omega

theorem ext4fsReadFile_frame (node : Ext2fsNode) (hinode : node.inode = inode)
    (hclamp : clampLength node len = n) (buf : Bytes) (log : Log) (res : ℤ × Ext2fsNode × Bytes)
    (log' : Log) (h : ext4fsReadFile fs fuel node pos len buf log = .ok (res, log')) (j : ℕ)
    (hj : len ≤ j) : res.2.2 j = buf j := by
  have hle := firstBlock_le_endBlock fs pos n
  rw [ext4fsReadFile_eq fs hlog fuel pos n (sums_fit fs pos n hlog (by omega)) len node hclamp] at h
  exact readBlocks_frame fs hpart hlog fuel pos n len hmax hlen inode hsafe _ _ (Nat.le_refl _)
    (by omega) none (fun r hr => nomatch hr) (fun r hr => nomatch hr) node hinode buf log res log'
    h j hj

end AnyOutcome

/-- The zeros of the last block go past the bytes asked for: the block is a
hole, ends behind them, and everything before it is read. -/
structure SpillsOver (fs : ExtFilesystem) (map : ℕ → ℤ) (pos n len : ℕ) : Prop where
  behind : pos + len < endBlock fs pos n * ext2BlockSize fs
  answered : 0 ≤ map (endBlock fs pos n - 1)
  hole : sectorOf fs map (endBlock fs pos n - 1) = 0
  reads : ∀ j, firstBlock fs pos ≤ j → j < endBlock fs pos n - 1 → Reads fs pos n map j
  shift : ShiftOk fs pos n map (endBlock fs pos n - 1)

section Exact
variable (fs : ExtFilesystem) (map : ℕ → ℤ) (pos n len : ℕ) (hlen : n ≤ len)
include hlen

/-- The holes before the last block of a range end inside it. -/
theorem inner_holes (j : ℕ) (hj : j + 1 < endBlock fs pos n) :
    (j + 1) * ext2BlockSize fs ≤ pos + len := by
  obtain ⟨-, -, hmore⟩ := endBlock_bounds fs pos n j (by omega)
  have hcut := hmore (by omega)
  omega

/-- Without such a last block the steps of a range change only its bytes. -/
theorem rangePlan_frame (hlog : fs.sblock.log2BlockSize ≤ 20)
    (hnot : ¬ SpillsOver fs map pos n len) (buf : Bytes) (j : ℕ) (hj : len ≤ j) :
    (runSteps fs.devDesc (rangePlan fs pos n map) buf).2 j = buf j := by
  have hle := firstBlock_le_endBlock fs pos n
  have hinner := inner_holes fs pos n len hlen
  by_cases htail : endBlock fs pos n * ext2BlockSize fs ≤ pos + len ∨
      ¬ (0 ≤ map (endBlock fs pos n - 1) ∧ sectorOf fs map (endBlock fs pos n - 1) = 0)
  · refine runSteps_frame fs.devDesc len _ (plan_within fs pos n map len hlen _ _ none
      (Nat.le_refl _) (by omega) (fun r hr => nomatch hr) ?_) buf j hj
    intro i hlo hhi hmap hsector
    by_cases hlast : i + 1 < endBlock fs pos n
    · exact hinner i hlast
    · have hi : i = endBlock fs pos n - 1 := by omega
      rcases htail with hend | hsome
      · rw [show i + 1 = endBlock fs pos n by omega]
        exact hend
      · rw [hi] at hmap hsector
        exact absurd ⟨hmap, hsector⟩ hsome
  · -- the last block is not reached
    obtain ⟨hbehind, hlast⟩ := not_or.mp htail
    obtain ⟨hmap, hsector⟩ := Classical.not_not.mp hlast
    have hfirst : firstBlock fs pos < endBlock fs pos n := by
      refine Nat.lt_of_le_of_ne hle fun heq => ?_
      have hbounds := (firstBlock_bounds fs pos).1
      rw [heq] at hbounds
      omega
    obtain ⟨k, hk⟩ : ∃ k, endBlock fs pos n - 1 = firstBlock fs pos + k :=
      ⟨endBlock fs pos n - 1 - firstBlock fs pos, by omega⟩
    have hsteps : ¬ StepsOk fs.devDesc (plan fs pos n map k (firstBlock fs pos) none) := by
      intro hok
      have hprefix := rangePlan_ok_iff fs pos n map hlog (endBlock fs pos n - 1) (by omega)
        (by omega)
      rw [hk, Nat.add_sub_cancel_left] at hprefix
      obtain ⟨hreads, hshift⟩ := hprefix.mp hok
      exact hnot ⟨by omega, hmap, hsector, by rwa [hk], by rwa [hk]⟩
    rw [hk] at hmap hsector
    obtain ⟨rest, heq, -⟩ := plan_hole fs pos n map k (firstBlock fs pos) none hmap hsector
    have hcount : endBlock fs pos n - firstBlock fs pos = k + 1 := by omega
    unfold rangePlan
    rw [hcount, heq, runSteps_append, if_neg fun h => hsteps ((runSteps_ok_iff _ _ _).mp h)]
    exact runSteps_frame fs.devDesc len _ (plan_within fs pos n map len hlen _ _ none
      (Nat.le_refl _) (by omega) (fun r hr => nomatch hr)
      fun i hlo hhi _ _ => hinner i (by omega)) buf j hj

/-- With such a last block the byte behind the ones asked for is cleared. -/
theorem rangePlan_spills (hlog : fs.sblock.log2BlockSize ≤ 20)
    (hspill : SpillsOver fs map pos n len) (buf : Bytes) :
    (runSteps fs.devDesc (rangePlan fs pos n map) buf).2 len = 0 := by
  obtain ⟨hbehind, hmap, hsector, hreads, hshift⟩ := hspill
  have hle := firstBlock_le_endBlock fs pos n
  have hfirst : firstBlock fs pos < endBlock fs pos n := by
    refine Nat.lt_of_le_of_ne hle fun heq => ?_
    have hbounds := (firstBlock_bounds fs pos).1
    rw [heq] at hbounds
    omega
  obtain ⟨k, hk⟩ : ∃ k, endBlock fs pos n - 1 = firstBlock fs pos + k :=
    ⟨endBlock fs pos n - 1 - firstBlock fs pos, by omega⟩
  have hprefix := rangePlan_ok_iff fs pos n map hlog (endBlock fs pos n - 1) (by omega) (by omega)
  have hok := hprefix.mpr ⟨hreads, hshift⟩
  rw [hk, Nat.add_sub_cancel_left] at hok
  obtain ⟨⟨-, hpos⟩, ⟨hpiece, hblock⟩, ⟨-, -, hend⟩, -⟩ :=
    piece_bounds fs pos n (firstBlock fs pos + k) (by omega) (by omega)
  have hnext : firstBlock fs pos + k + 1 = endBlock fs pos n := by omega
  rw [hk] at hmap hsector hreads
  obtain ⟨rest, heq, hrest⟩ := plan_hole fs pos n map k (firstBlock fs pos) none hmap hsector
  have hcount : endBlock fs pos n - firstBlock fs pos = k + 1 := by omega
  unfold rangePlan
  rw [hcount, heq, hrest fun j hlo hhi => (hreads j hlo hhi).1, runSteps_append,
    if_pos ((runSteps_ok_iff _ _ _).mpr hok)]
  refine write_of_mem _ (pieceStart fs pos (firstBlock fs pos + k) - pos)
    ((firstBlock fs pos + k + 1) * ext2BlockSize fs - pieceStart fs pos (firstBlock fs pos + k))
    (fun _ => 0) (by omega) ?_
  rw [hnext] at hblock ⊢
  omega

end Exact

/-- What a read may change. On any device nothing behind the bytes asked for
changes when the last block ends with them or is never answered as a hole. On
a device without errors that happens exactly in the case above. -/
theorem ext4fsReadFile_frame_iff (fs : ExtFilesystem)
    (hpart : fs.devDesc.off + fs.devDesc.length < 2 ^ 63) (hlog : fs.sblock.log2BlockSize ≤ 20)
    (fuel pos len : ℕ) (hmax : pos + len < 2 ^ 31) (node : Ext2fsNode) :
    (TailSafe fs fuel pos (min len node.inode.size) len node.inode →
      ∀ buf log res log', ext4fsReadFile fs fuel node pos len buf log = .ok (res, log') →
        ∀ j, len ≤ j → res.2.2 j = buf j) ∧
    ∀ map valid, fs.devDesc.disk.NoErrors →
      Realizes fs fuel map (endBlock fs pos (min len node.inode.size)) valid → valid node →
        ((∀ buf log, Yields (ext4fsReadFile fs fuel node pos len buf) log fun res _ =>
          ∀ j, len ≤ j → res.2.2 j = buf j) ↔
            ¬ SpillsOver fs map pos (min len node.inode.size) len) := by
  have hle : min len node.inode.size ≤ len := Nat.min_le_left _ _
  refine ⟨fun hsafe buf log res log' h => ?_, fun map valid hgood hreal hvalid => ?_⟩
  · exact ext4fsReadFile_frame fs hpart hlog fuel pos _ len (by omega) hle node.inode hsafe node
      rfl (clampLength_eq node len) buf log res log' h
  have hruns := ext4fsReadFile_plan fs hgood hpart hlog fuel pos _ (by omega) map valid hreal len
    node (clampLength_eq node len) hvalid
  constructor
  · intro hframe hspill
    obtain ⟨res, log', -, heq, hsame⟩ := (hruns (fun _ => 1) []).and (hframe (fun _ => 1) [])
    have hzero := rangePlan_spills fs map pos _ len hle hlog hspill fun _ => 1
    have hone := hsame len (Nat.le_refl len)
    rw [congrArg Prod.snd heq.2] at hone
    exact absurd (hzero.symm.trans hone) (by decide)
  · intro hnot buf log
    refine (hruns buf log).mono fun res log' hres j hj => ?_
    have hbuf : res.2.2 = (runSteps fs.devDesc (rangePlan fs pos _ map) buf).2 :=
      congrArg Prod.snd hres.2
    rw [hbuf]
    exact rangePlan_frame fs map pos _ len hle hlog hnot buf j hj

/-- Eight bytes of a block that is a hole, and all of it. -/
theorem ext4fsReadFile_frame_iff_hole :
    (¬ ∀ buf log, Yields (ext4fsReadFile (smallFs fun _ => 0) 0 (freshNode (holeInode 1024)) (0 : ℕ)
      (8 : ℕ) buf) log fun res _ => ∀ j, 8 ≤ j → res.2.2 j = buf j) ∧
    ∀ buf log, Yields (ext4fsReadFile (smallFs fun _ => 0) 0 (freshNode (holeInode 1024)) (0 : ℕ)
      (1024 : ℕ) buf) log fun res _ => ∀ j, 1024 ≤ j → res.2.2 j = buf j := by
  have hreal := realizes_direct (smallFs fun _ => 0) (by decide) 0 (holeInode 1024) (by decide)
  constructor
  · rw [(ext4fsReadFile_frame_iff (smallFs fun _ => 0) (by decide) (by decide) 0 0 8 (by decide)
      (freshNode (holeInode 1024))).2 _ _ (noErrors_ofImage _)
      (realizes_mono hreal (by decide +kernel)) rfl, Classical.not_not]
    refine ⟨by decide +kernel, by decide +kernel, by decide +kernel, fun j _ hj => ?_,
      fun _ _ u hu hlt => ?_⟩
    · have hone : endBlock (smallFs fun _ => 0) 0 (min 8 (freshNode (holeInode 1024)).inode.size) =
        1 := by decide +kernel
      omega
    · have hone : endBlock (smallFs fun _ => 0) 0 (min 8 (freshNode (holeInode 1024)).inode.size) =
        1 := by decide +kernel
      omega
  · rw [(ext4fsReadFile_frame_iff (smallFs fun _ => 0) (by decide) (by decide) 0 0 1024 (by decide)
      (freshNode (holeInode 1024))).2 _ _ (noErrors_ofImage _)
      (realizes_mono hreal (by decide +kernel)) rfl]
    rintro ⟨hbehind, -⟩
    have hone : endBlock (smallFs fun _ => 0) 0 (min 1024 (freshNode (holeInode 1024)).inode.size) *
      ext2BlockSize (smallFs fun _ => 0) = 1024 := by decide +kernel
    omega

/-- A read of a directory entry's header, 8 bytes, from a hole clears 1024 bytes. -/
theorem direntRead_clears_block :
    Yields (ext4fsReadFile (smallFs fun _ => 0) 0 (freshNode (holeInode 1024)) 0 8 fun _ => 1) []
      fun res _ => res.1 = 8 ∧ res.2.2 8 = 0 ∧ res.2.2 1023 = 0 := by
  have hrun : (match ext4fsReadFile (smallFs fun _ => 0) 0 (freshNode (holeInode 1024)) 0 8
      (fun _ => 1) [] with
      | .ok (res, _) => decide (res.1 = 8 ∧ res.2.2 8 = 0 ∧ res.2.2 1023 = 0)
      | .error _ => false) = true := by decide +kernel
  split at hrun
  · rename_i res log heq
    exact ⟨res, log, heq, of_decide_eq_true hrun⟩
  · exact absurd hrun Bool.false_ne_true

end Eokan.ReadFrame
