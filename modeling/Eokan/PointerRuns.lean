import Eokan.DeferredReads
import Eokan.StoredPointers
import Mathlib.Logic.Relation

/-!
The pointers of a read over several blocks. The loop holds back the read of a
block and lets later blocks continue it, so that one access is for the pointers
of all of them. The bytes of the file are consecutive in it: block j of the
access is read j blocks behind its head.
-/
namespace Eokan.PointerRuns

open ByteMem CInt Programs Device Devread DevreadOutcome Layout BlockMap ReadFile ReadPlan
open DeferredReads TableDescent PointerSectors StoredPointers

/-- The loop of a read before a block, and the pointers its deferred read is for. -/
structure Loop where
  block : ℕ
  node : Ext2fsNode
  run : Option Run
  held : List ℕ
  buf : Bytes
  log : Log

/-- What is done for pointers. The call ends at one, one is taken for a hole, or
the blocks of several are read at once. -/
inductive Access
  | refused (b : ℕ)
  | zeroed (b : ℕ)
  | read (held : List ℕ) (skip extent : ℕ) (done : Bool) (log log' : Log)

/-- Blocks inside the partition are read where they lie, and the access fails if
one of them is not inside. -/
def Access.Right (fs : ExtFilesystem) : Access → Prop
  | .refused b => ¬ BlockInside fs b
  | .zeroed b => b = 0
  | .read held skip _ done log log' =>
    ((∀ b ∈ held, BlockInside fs b) →
      FirstReadAt fs (held.headD 0 * blockSectors fs + skip / 512) log log' ∧
        ∀ j b, held[j]? = some b → b = held.headD 0 + j) ∧
    ((∃ b ∈ held, ¬ BlockInside fs b) → done = false ∧ log' = log)

/-- The condition on the pointers and the range. An access from the middle of its
first block on is for that block alone. -/
def Access.Fits (fs : ExtFilesystem) : Access → Prop
  | .refused b => BlockInside fs b → b * blockSectors fs < 2 ^ 31
  | .zeroed b => b = 0 ∨ lowSector fs b ≠ 0
  | .read held skip extent _ _ _ =>
    ((∀ b ∈ held, BlockInside fs b) →
      (∀ b ∈ held, b * blockSectors fs < 2 ^ 31) ∧ (skip = 0 ∨ held.length = 1)) ∧
    ((∃ b ∈ held, ¬ BlockInside fs b) → ¬ TakenFor fs (held.headD 0) skip extent)

/-- The call fails with the access. -/
def Access.Ends : Access → Prop
  | .refused _ => True
  | .zeroed _ => False
  | .read _ _ _ done _ _ => done = false

/-- The length of the access is an `int`. -/
def Access.IntSized : Access → Prop
  | .read _ skip extent _ _ _ => skip + extent < 2 ^ 31
  | _ => True

section Loops
variable (fs : ExtFilesystem) (fuel pos n : ℕ)

def Loop.start (node : Ext2fsNode) (buf : Bytes) (log : Log) : Loop :=
  ⟨firstBlock fs pos, node, none, [], buf, log⟩

/-- What the rest of the call does. -/
def Loop.rest (s : Loop) : Except Fault ((ℤ × Ext2fsNode × Bytes) × Log) :=
  readBlocks fs fuel pos n (endBlock fs pos n - s.block) s.block s.node
    (s.run.map Run.toDelayed) s.buf (pieceStart fs pos s.block - pos) s.log

/-- The lookup of the next block, if there is one. -/
structure Loop.Looks (s : Loop) (v : ℤ) (node : Ext2fsNode) (log : Log) : Prop where
  more : s.block < endBlock fs pos n
  run : readAllocatedBlock1 fs fuel s.node s.block s.log = .ok ((v, node), log)

def Loop.Flushes (s : Loop) (log : Log) (done : Bool) (buf : Bytes) (log' : Log) : Prop :=
  flush fs (s.run.map Run.toDelayed) s.buf log = .ok ((done, buf), log')

/-- One block of the loop, if the call does not end there. -/
inductive Loop.Next : Loop → Loop → Prop
  | join {s : Loop} {v : ℤ} {node : Ext2fsNode} {log : Log} {b : ℕ} {r : Run}
      (hlooks : s.Looks fs fuel pos n v node log) (hstored : Stored fs s.node s.block b s.log)
      (hv : 0 ≤ v) (hsector : int32 (v * blockSectors fs) ≠ 0) (hrun : s.run = some r)
      (hnext : r.next = int32 (v * blockSectors fs)) :
      Next s ⟨s.block + 1, node, some (r.extend (pieceLength fs pos n s.block)), s.held ++ [b],
        s.buf, log⟩
  | begin {s : Loop} {v : ℤ} {node : Ext2fsNode} {log log' : Log} {b : ℕ} {buf : Bytes}
      (hlooks : s.Looks fs fuel pos n v node log) (hstored : Stored fs s.node s.block b s.log)
      (hv : 0 ≤ v) (hsector : int32 (v * blockSectors fs) ≠ 0)
      (hstop : ¬ runContinues s.run (int32 (v * blockSectors fs)))
      (hflush : s.Flushes fs log true buf log') :
      Next s ⟨s.block + 1, node, some (startRun fs pos n (fun _ => v) s.block), [b], buf, log'⟩
  | hole {s : Loop} {v : ℤ} {node : Ext2fsNode} {log log' : Log} {buf : Bytes}
      (hlooks : s.Looks fs fuel pos n v node log) (hv : 0 ≤ v)
      (hzero : int32 (v * blockSectors fs) = 0) (hflush : s.Flushes fs log true buf log') :
      Next s ⟨s.block + 1, node, none, [], fill buf (pieceStart fs pos s.block - pos)
        ((s.block + 1) * ext2BlockSize fs - pieceStart fs pos s.block) 0, log'⟩

/-- The loop reads what it has deferred before a block that does not continue it,
and at the end. -/
inductive Loop.Performs : Loop → Access → Prop
  | refuse {s : Loop} {v : ℤ} {node : Ext2fsNode} {log : Log} {b : ℕ}
      (hlooks : s.Looks fs fuel pos n v node log) (hstored : Stored fs s.node s.block b s.log)
      (hv : v < 0) : Performs s (.refused b)
  | zero {s : Loop} {v : ℤ} {node : Ext2fsNode} {log log' : Log} {b : ℕ} {buf : Bytes}
      (hlooks : s.Looks fs fuel pos n v node log) (hstored : Stored fs s.node s.block b s.log)
      (hv : 0 ≤ v) (hzero : int32 (v * blockSectors fs) = 0)
      (hflush : s.Flushes fs log true buf log') : Performs s (.zeroed b)
  | spill {s : Loop} {v : ℤ} {node : Ext2fsNode} {log log' : Log} {r : Run} {done : Bool}
      {buf : Bytes} (hlooks : s.Looks fs fuel pos n v node log) (hv : 0 ≤ v)
      (hrun : s.run = some r)
      (hstop : ¬ (int32 (v * blockSectors fs) ≠ 0 ∧ r.next = int32 (v * blockSectors fs)))
      (hflush : s.Flushes fs log done buf log') :
      Performs s (.read s.held r.skip r.extent done log log')
  | last {s : Loop} {log' : Log} {r : Run} {done : Bool} {buf : Bytes}
      (hend : s.block = endBlock fs pos n) (hrun : s.run = some r)
      (hflush : s.Flushes fs s.log done buf log') :
      Performs s (.read s.held r.skip r.extent done s.log log')

end Loops

section Rest
variable (fs : ExtFilesystem) (hlog : fs.sblock.log2BlockSize ≤ 20) (fuel pos n : ℕ)
  (hsums : pos + n + ext2BlockSize fs ≤ 2 ^ 32)
include hlog hsums

/-- Behind a lookup the loop branches on its answer. -/
theorem rest_of_looks (s : Loop) (hfirst : firstBlock fs pos ≤ s.block) {v : ℤ}
    {node : Ext2fsNode} {log : Log} (hlooks : s.Looks fs fuel pos n v node log) :
    s.rest fs fuel pos n = (
      if v < 0 then pure (-1, node, s.buf)
      else if int32 (v * blockSectors fs) ≠ 0 ∧
          runContinues s.run (int32 (v * blockSectors fs)) then
        readBlocks fs fuel pos n (endBlock fs pos n - (s.block + 1)) (s.block + 1 : ℕ) node
          ((s.run.map fun r => r.extend (pieceLength fs pos n s.block)).map Run.toDelayed) s.buf
          (pieceStart fs pos (s.block + 1) - pos)
      else do
        let (spilled, buf) ← flush fs (s.run.map Run.toDelayed) s.buf
        if !spilled then pure (-1, node, buf)
        else if int32 (v * blockSectors fs) ≠ 0 then
          readBlocks fs fuel pos n (endBlock fs pos n - (s.block + 1)) (s.block + 1 : ℕ) node
            ((some (startRun fs pos n (fun _ => v) s.block)).map Run.toDelayed) buf
            (pieceStart fs pos (s.block + 1) - pos)
        else
          readBlocks fs fuel pos n (endBlock fs pos n - (s.block + 1)) (s.block + 1 : ℕ) node
            ((none : Option Run).map Run.toDelayed)
            (fill buf (pieceStart fs pos s.block - pos)
              ((s.block + 1) * ext2BlockSize fs - pieceStart fs pos s.block) 0)
            (pieceStart fs pos (s.block + 1) - pos) : DevM (ℤ × Ext2fsNode × Bytes)) log := by
  obtain ⟨hmore, hrun⟩ := hlooks
  have hleft : endBlock fs pos n - s.block = endBlock fs pos n - (s.block + 1) + 1 := by omega
  unfold Loop.rest
  rw [hleft, readBlocks_succ fs hlog fuel pos n hsums _ s.block hfirst hmore, bind_ok hrun]
  rfl

/-- The call goes on from the next state. -/
theorem rest_of_next {s t : Loop} (hfirst : firstBlock fs pos ≤ s.block)
    (h : Loop.Next fs fuel pos n s t) : s.rest fs fuel pos n = t.rest fs fuel pos n := by
  cases h with
  | @join v _ _ _ _ hlooks hstored hv hsector hrun hnext =>
    have hcontinues : runContinues s.run (int32 (v * blockSectors fs)) := by
      rw [hrun]
      exact hnext
    rw [rest_of_looks fs hlog fuel pos n hsums s hfirst hlooks, if_neg (Int.not_lt.mpr hv),
      if_pos ⟨hsector, hcontinues⟩, hrun]
    rfl
  | begin hlooks hstored hv hsector hstop hflush =>
    rw [rest_of_looks fs hlog fuel pos n hsums s hfirst hlooks, if_neg (Int.not_lt.mpr hv),
      if_neg fun h => hstop h.2, bind_ok hflush]
    dsimp only
    rw [Bool.not_true, if_neg Bool.false_ne_true, if_pos hsector]
    rfl
  | hole hlooks hv hzero hflush =>
    rw [rest_of_looks fs hlog fuel pos n hsums s hfirst hlooks, if_neg (Int.not_lt.mpr hv),
      if_neg fun h => h.1 hzero, bind_ok hflush]
    dsimp only
    rw [Bool.not_true, if_neg Bool.false_ne_true, if_neg (not_not_intro hzero)]
    rfl

theorem rest_of_ends {s : Loop} {a : Access} (hfirst : firstBlock fs pos ≤ s.block)
    (h : Loop.Performs fs fuel pos n s a) (hends : a.Ends) :
    ∃ node buf log, s.rest fs fuel pos n = .ok ((-1, node, buf), log) := by
  cases h with
  | refuse hlooks hstored hv =>
    rw [rest_of_looks fs hlog fuel pos n hsums s hfirst hlooks, if_pos hv]
    exact ⟨_, _, _, rfl⟩
  | zero hlooks hstored hv hzero hflush => exact hends.elim
  | @spill v _ _ _ _ _ _ hlooks hv hrun hstop hflush =>
    have hcontinues : ¬ (int32 (v * blockSectors fs) ≠ 0 ∧
        runContinues s.run (int32 (v * blockSectors fs))) := by
      rw [hrun]
      exact hstop
    obtain rfl : _ = false := hends
    rw [rest_of_looks fs hlog fuel pos n hsums s hfirst hlooks, if_neg (Int.not_lt.mpr hv),
      if_neg hcontinues, bind_ok hflush]
    exact ⟨_, _, _, rfl⟩
  | last hend hrun hflush =>
    obtain rfl : _ = false := hends
    unfold Loop.rest
    rw [hend, Nat.sub_self]
    unfold readBlocks
    rw [bind_ok hflush]
    exact ⟨_, _, _, rfl⟩

end Rest

section Invariant
variable (fs : ExtFilesystem) (pos n : ℕ)

/-- A deferred read for these pointers, from file block i on. The blocks behind
its head are whole, and so are all of them if more are to come. -/
structure Holds (i : ℕ) (r : Run) (held : List ℕ) : Prop where
  first : firstBlock fs pos ≤ i
  some_pointer : 1 ≤ held.length
  stop : i + held.length ≤ endBlock fs pos n
  start : r.start = tableSector fs (held.headD 0)
  skip : r.skip = pieceSkip fs pos i
  extent : r.skip + r.extent =
    min (pos + n) ((i + held.length) * ext2BlockSize fs) - i * ext2BlockSize fs
  next : i + held.length < endBlock fs pos n → r.next = int32 (r.start +
    ((ext2BlockSize fs - r.skip) / 512 + (held.length - 1) * blockSectors fs : ℕ))
  sectors : ∀ j b, held[j]? = some b → 1 ≤ j → tableSector fs b = int32 (r.start +
    ((ext2BlockSize fs - r.skip) / 512 + (j - 1) * blockSectors fs : ℕ))

theorem Holds.single (i b : ℕ) (v : ℤ) (hfirst : firstBlock fs pos ≤ i)
    (hi : i < endBlock fs pos n) (hsector : int32 (v * blockSectors fs) = tableSector fs b) :
    Holds fs pos n i (startRun fs pos n (fun _ => v) i) [b] := by
  obtain ⟨⟨hlo, -⟩, ⟨hle, -⟩, ⟨-, hhi, -⟩, -⟩ := piece_bounds fs pos n i hfirst hi
  obtain ⟨-, -, hmore⟩ := endBlock_bounds fs pos n i hi
  refine ⟨hfirst, Nat.le_refl 1, hi, hsector, rfl, ?_, fun hnext => ?_, fun j c hc hj => ?_⟩
  · change pieceSkip fs pos i + pieceLength fs pos n i = pieceEnd fs pos n i - _
    unfold pieceSkip pieceLength
    omega
  · have hcut := hmore (Nat.ne_of_lt hnext)
    have hend : pieceEnd fs pos n i = (i + 1) * ext2BlockSize fs := Nat.min_eq_right (by omega)
    have hpiece : pieceLength fs pos n i = ext2BlockSize fs - pieceSkip fs pos i := by
      rw [Nat.succ_mul] at hend
      unfold pieceLength pieceSkip
      omega
    change int32 (int32 (v * blockSectors fs) + (pieceLength fs pos n i / 512 : ℕ)) =
      int32 (int32 (v * blockSectors fs) +
        ((ext2BlockSize fs - pieceSkip fs pos i) / 512 + 0 * blockSectors fs : ℕ))
    rw [hpiece, Nat.zero_mul, Nat.add_zero]
  · obtain ⟨k, rfl⟩ := Nat.exists_eq_succ_of_ne_zero (Nat.one_le_iff_ne_zero.mp hj)
    simp at hc

variable {fs pos n}

theorem Holds.extend {i : ℕ} {r : Run} {held : List ℕ} (h : Holds fs pos n i r held) (b : ℕ)
    (hmore : i + held.length < endBlock fs pos n) (hnext : r.next = tableSector fs b) :
    Holds fs pos n i (r.extend (pieceLength fs pos n (i + held.length))) (held ++ [b]) := by
  obtain ⟨hfirst, hsome, hstop, hstart, hskip, hextent, hruns, hsectors⟩ := h
  have hblocks := ext2BlockSize_eq fs
  obtain ⟨hlt, -, hlater⟩ := endBlock_bounds fs pos n _ hmore
  obtain ⟨hwhole, -, hfull⟩ := piece_later fs pos n (i + held.length) (by omega) hmore
  have hlength : (held ++ [b]).length = held.length + 1 := by simp
  have hhead : (held ++ [b]).headD 0 = held.headD 0 := by
    cases held with
    | nil => simp at hsome
    | cons c held => rfl
  have hnext' := hruns hmore
  refine ⟨hfirst, by omega, by omega, ?_, hskip, ?_, fun hlast => ?_, fun j c hc hj => ?_⟩
  · rw [hhead]
    exact hstart
  · have hpiece : pieceLength fs pos n (i + held.length) =
        min (pos + n) ((i + held.length + 1) * ext2BlockSize fs) -
          (i + held.length) * ext2BlockSize fs := by
      have hstart : pieceStart fs pos (i + held.length) = (i + held.length) * ext2BlockSize fs := by
        have hpos := (piece_bounds fs pos n _ (by omega) hmore).1
        unfold pieceSkip at hwhole
        omega
      unfold pieceLength pieceEnd
      rw [hstart]
    have hle : i * ext2BlockSize fs ≤ (i + held.length) * ext2BlockSize fs :=
      Nat.mul_le_mul_right _ (Nat.le_add_right _ _)
    have hle' : (i + held.length) * ext2BlockSize fs ≤
        (i + held.length + 1) * ext2BlockSize fs := Nat.mul_le_mul_right _ (Nat.le_succ _)
    change r.skip + (r.extent + pieceLength fs pos n (i + held.length)) = _
    rw [hlength, ← Nat.add_assoc, hpiece, ← Nat.add_assoc]
    omega
  · have hpiece := hfull (by omega)
    have hsector : ext2BlockSize fs / 512 = blockSectors fs := by omega
    obtain ⟨k, hk⟩ := Nat.exists_eq_succ_of_ne_zero (Nat.one_le_iff_ne_zero.mp hsome)
    change int32 (r.next + (pieceLength fs pos n (i + held.length) / 512 : ℕ)) =
      int32 (r.start + ((ext2BlockSize fs - r.skip) / 512 +
        ((held ++ [b]).length - 1) * blockSectors fs : ℕ))
    rw [hnext', hpiece, hsector, int32_int32_add, hlength, hk, Nat.add_sub_cancel,
      Nat.succ_sub_one, Nat.succ_mul, Int.add_assoc, ← Int.natCast_add, Nat.add_assoc]
  · by_cases hold : j < held.length
    · rw [List.getElem?_append_left hold] at hc
      exact hsectors j c hc hj
    · rw [List.getElem?_append_right (by omega)] at hc
      have hj' : j = held.length := by
        by_contra hne
        obtain ⟨k, hk⟩ := Nat.exists_eq_succ_of_ne_zero (show j - held.length ≠ 0 by omega)
        simp [hk] at hc
      have hb : b = c := by simpa [hj'] using hc
      rw [← hb, ← hnext, hnext', hj']
      rfl

/-- All of its blocks but the last one are in it, and it has a byte of each. -/
theorem Holds.covers {i : ℕ} {r : Run} {held : List ℕ} (h : Holds fs pos n i r held)
    (hn : 1 ≤ n) : 1 ≤ r.extent ∧
      (held.length - 1) * ext2BlockSize fs < r.skip + r.extent ∧
      r.skip + r.extent ≤ held.length * ext2BlockSize fs := by
  obtain ⟨hfirst, hsome, hstop, -, hskip, hextent, -, -⟩ := h
  obtain ⟨k, hk⟩ := Nat.exists_eq_succ_of_ne_zero (Nat.one_le_iff_ne_zero.mp hsome)
  obtain ⟨hlt, -, -⟩ := endBlock_bounds fs pos n (i + k) (by omega)
  obtain ⟨hhead, -, -⟩ := endBlock_bounds fs pos n i (by omega)
  obtain ⟨⟨hlo, -⟩, ⟨-, hstart⟩, -, -⟩ := piece_bounds fs pos n i hfirst (by omega)
  have hmax : pieceStart fs pos i < pos + n := by
    unfold pieceStart
    omega
  have hend : (i + held.length) * ext2BlockSize fs =
      (i + k) * ext2BlockSize fs + ext2BlockSize fs := by
    rw [hk, ← Nat.succ_mul]
    rfl
  have hsum : (i + k) * ext2BlockSize fs = i * ext2BlockSize fs + k * ext2BlockSize fs :=
    Nat.add_mul _ _ _
  have hlength : held.length * ext2BlockSize fs = k * ext2BlockSize fs + ext2BlockSize fs := by
    rw [hk, Nat.succ_mul]
  have hsize := ext2BlockSize_pos fs
  rw [Nat.succ_mul] at hstart
  rw [hk, Nat.succ_sub_one]
  rw [hk] at hlength
  unfold pieceSkip at hskip
  omega

end Invariant

section Reads
variable {fs : ExtFilesystem} (hpart : fs.devDesc.off + fs.devDesc.length < 2 ^ 63)
  (hlength : fs.devDesc.length < 2 ^ 32) (hlog : fs.sblock.log2BlockSize ≤ 20) {pos n : ℕ}
  (hn : 1 ≤ n) {i : ℕ} {r : Run} {held : List ℕ} (hholds : Holds fs pos n i r held)
  (hint : r.skip + r.extent < 2 ^ 31)
include hn hholds hint

include hpart in
/-- One request starts at the first byte, or the access is refused. -/
theorem flush_outcome {buf buf' : Bytes} {log log' : Log} {done : Bool}
    (hflush : flush fs ((some r).map Run.toDelayed) buf log = .ok ((done, buf'), log')) :
    (r.Readable fs.devDesc → ∃ issued num,
      log' = issued ++ ⟨r.start + (r.skip / 512 + fs.devDesc.off : ℕ), num⟩ :: log) ∧
    (¬ r.Readable fs.devDesc → done = false ∧ log' = log) := by
  obtain ⟨hextent, -, -⟩ := hholds.covers hn
  obtain ⟨⟨status, buf₁⟩, log₁, hread, hdone⟩ := bind_eq_ok hflush
  cases hdone
  have hspill : vfsDevread fs.devDesc r.start r.skip (int32 r.extent) buf r.dst log =
    .ok ((status, buf'), log') := hread
  constructor
  · intro hreadable
    have hin : Devread.Readable fs.devDesc r.start r.skip r.extent := hreadable
    obtain ⟨sector, hsector⟩ := Int.eq_ofNat_of_zero_le hin.1
    rw [hsector] at hspill hin
    obtain ⟨res, log₂, hrun, issued, num, hissued⟩ := vfsDevread_first fs.devDesc hpart sector
      r.skip r.extent hextent hint hin buf r.dst log
    rw [hspill] at hrun
    cases hrun
    refine ⟨issued, num, ?_⟩
    rw [hsector, ← Int.natCast_add, ← Nat.add_assoc]
    exact hissued
  · intro hrefused
    have hstart : r.start < 2 ^ 31 := by
      rw [hholds.start]
      exact (int32_bounds _).2
    rw [vfsDevread_refused fs.devDesc r.start r.skip r.extent (by omega) hstart (by omega)
      (by omega) hrefused buf r.dst log] at hspill
    cases hspill
    exact ⟨rfl, rfl⟩

omit hint in
theorem readable_iff_takenFor :
    r.Readable fs.devDesc ↔ TakenFor fs (held.headD 0) r.skip r.extent := by
  obtain ⟨hextent, -, -⟩ := hholds.covers hn
  unfold Run.Readable
  rw [hholds.start]
  exact readable_iff fs _ _ _ hextent

omit hn hint in
theorem head_mem : held.headD 0 ∈ held := by
  have hsome := hholds.some_pointer
  cases held with
  | nil => simp at hsome
  | cons b rest => exact List.mem_cons_self

section Inside
variable (hinside : ∀ b ∈ held, BlockInside fs b)
include hlength hinside

omit hlength hinside hn hholds hint in
theorem tableSector_of_small {b : ℕ} (h : b * blockSectors fs < 2 ^ 31) :
    tableSector fs b = (b * blockSectors fs : ℕ) := int32_of_nat _ (by omega) (by omega)

omit hlength hinside in
/-- Pointers below sector 2 ^ 31 that continue each other are consecutive, unless
the access starts in the middle of a block. -/
theorem consecutive_of_fits (hsmall : ∀ b ∈ held, b * blockSectors fs < 2 ^ 31)
    (hwhole : r.skip = 0 ∨ held.length = 1) (j b : ℕ) (hb : held[j]? = some b) :
    b = held.headD 0 + j := by
  have hblocks := ext2BlockSize_eq fs
  have htwo := two_le_blockSectors fs
  have hlt : j < held.length := (List.getElem?_eq_some_iff.mp hb).1
  cases j with
  | zero =>
    cases held with
    | nil => simp at hb
    | cons c rest =>
      have hc : c = b := by simpa using hb
      rw [← hc]
      rfl
  | succ j =>
    obtain ⟨-, hcovers, -⟩ := hholds.covers hn
    have hskip : r.skip = 0 := hwhole.resolve_right (by omega)
    have hhead := hsmall _ (head_mem hholds)
    have hword := hsmall b (List.mem_of_getElem? hb)
    have hlast : (j + 1) * ext2BlockSize fs ≤ (held.length - 1) * ext2BlockSize fs :=
      Nat.mul_le_mul_right _ (by omega)
    have hbytes : (j + 1) * ext2BlockSize fs = 512 * ((j + 1) * blockSectors fs) := by
      rw [hblocks, Nat.mul_left_comm]
    have hsum : (ext2BlockSize fs - r.skip) / 512 + (j + 1 - 1) * blockSectors fs =
        (j + 1) * blockSectors fs := by
      rw [Nat.add_sub_cancel, Nat.succ_mul, hskip]
      omega
    have hsector := hholds.sectors (j + 1) b hb (by omega)
    rw [hsum, hholds.start, tableSector_of_small hword, tableSector_of_small hhead,
      ← Int.natCast_add, ← Nat.add_mul] at hsector
    have hplace : b * blockSectors fs = (held.headD 0 + (j + 1)) * blockSectors fs := by
      rw [Nat.add_mul] at hsector ⊢
      unfold int32 at hsector
      omega
    exact Nat.eq_of_mul_eq_mul_right (by omega) hplace

omit hint in
include hlog in
/-- Such blocks are in reach up to the last byte. -/
theorem readable_of_consecutive (hsmall : ∀ b ∈ held, b * blockSectors fs < 2 ^ 31)
    (hplaces : ∀ j b, held[j]? = some b → b = held.headD 0 + j) :
    r.Readable fs.devDesc := by
  have hblocks := ext2BlockSize_eq fs
  have hsome := hholds.some_pointer
  obtain ⟨-, -, hcovers⟩ := hholds.covers hn
  have hend : held[held.length - 1]? = some held[held.length - 1] :=
    List.getElem?_eq_getElem (by omega)
  have hmem := List.getElem_mem (show held.length - 1 < held.length by omega)
  have hlast := hplaces _ _ hend
  generalize held[held.length - 1] = last at hmem hlast
  have hin := (inReach_of_inside fs hlength hlog last (hinside last hmem)).mpr (hsmall last hmem)
  have hhead := hsmall _ (head_mem hholds)
  have hsum : last * blockSectors fs = held.headD 0 * blockSectors fs +
      (held.length - 1) * blockSectors fs := by
    rw [hlast, Nat.add_mul]
  have hall : held.length * ext2BlockSize fs = 512 * ((held.length - 1) * blockSectors fs) +
      ext2BlockSize fs := by
    rw [Nat.mul_left_comm, ← hblocks, ← Nat.succ_mul]
    exact congrArg (· * ext2BlockSize fs) (by omega)
  obtain ⟨-, hpart, hmax⟩ := hin
  rw [tableSector_of_small (hsmall last hmem)] at hpart hmax
  unfold Run.Readable
  rw [hholds.start, tableSector_of_small hhead]
  unfold Devread.Readable
  omega

/-- Conversely blocks that are read at their places lie below sector 2 ^ 31. -/
theorem fits_of_consecutive (hread : r.Readable fs.devDesc)
    (hplaces : ∀ j b, held[j]? = some b → b = held.headD 0 + j) :
    (∀ b ∈ held, b * blockSectors fs < 2 ^ 31) ∧ (r.skip = 0 ∨ held.length = 1) := by
  have hblocks := ext2BlockSize_eq fs
  have htwo := two_le_blockSectors fs
  obtain ⟨-, hcovers, -⟩ := hholds.covers hn
  have hhead := inside_sector_lt fs hlength _ (hinside _ (head_mem hholds))
  obtain ⟨hpos, -, hmax⟩ := hread
  rw [hholds.start] at hpos hmax
  have hstart : tableSector fs (held.headD 0) = (held.headD 0 * blockSectors fs : ℕ) := by
    refine tableSector_of_small ?_
    unfold tableSector at hpos
    unfold int32 at hpos
    omega
  rw [hstart] at hmax
  have hsmall : ∀ b ∈ held, b * blockSectors fs < 2 ^ 31 := by
    intro b hb
    obtain ⟨j, hj, hb⟩ := List.mem_iff_getElem.mp hb
    have hplace := hplaces j b (List.getElem?_eq_some_iff.mpr ⟨hj, hb⟩)
    have hle : j * ext2BlockSize fs ≤ (held.length - 1) * ext2BlockSize fs :=
      Nat.mul_le_mul_right _ (by omega)
    have hbytes : j * ext2BlockSize fs = 512 * (j * blockSectors fs) := by
      rw [hblocks, Nat.mul_left_comm]
    rw [hplace, Nat.add_mul]
    omega
  refine ⟨hsmall, ?_⟩
  by_contra hmiddle
  push Not at hmiddle
  obtain ⟨hskip, hmore⟩ := hmiddle
  have hsome := hholds.some_pointer
  have hnext : held[1]? = some held[1] := List.getElem?_eq_getElem (by omega)
  have hmem := hsmall _ (List.getElem_mem (show 1 < held.length by omega))
  have hplace := hplaces 1 _ hnext
  have hsector := hholds.sectors 1 _ hnext (Nat.le_refl 1)
  -- the first piece is shorter than its block, and counts for fewer sectors
  have hpiece : (ext2BlockSize fs - r.skip) / 512 < blockSectors fs := by omega
  rw [hholds.start, tableSector_of_small hmem, hstart, hplace, Nat.add_mul, Nat.sub_self,
    Nat.zero_mul, Nat.add_zero, ← Int.natCast_add] at hsector
  rw [hplace, Nat.add_mul] at hmem
  unfold int32 at hsector
  omega

end Inside

include hpart hlength hlog in
/-- The access for the pointers of a deferred read. -/
theorem read_right_iff {buf buf' : Bytes} {log log' : Log} {done : Bool}
    (hflush : flush fs ((some r).map Run.toDelayed) buf log = .ok ((done, buf'), log')) :
    (Access.read held r.skip r.extent done log log').Right fs ↔
      (Access.read held r.skip r.extent done log log').Fits fs := by
  obtain ⟨hreads, hrefuses⟩ := flush_outcome hpart hn hholds hint hflush
  unfold Access.Right Access.Fits
  dsimp only
  by_cases hinside : ∀ b ∈ held, BlockInside fs b
  · have hnone : ¬ ∃ b ∈ held, ¬ BlockInside fs b := fun ⟨b, hb, hout⟩ => hout (hinside b hb)
    constructor
    · intro hright
      obtain ⟨hfirst, hplaces⟩ := hright.1 hinside
      have hread : r.Readable fs.devDesc := by
        by_contra hrefused
        rw [(hrefuses hrefused).2] at hfirst
        exact not_firstReadAt_self fs _ log hfirst
      have hfits := fits_of_consecutive hlength hn hholds hint hinside hread hplaces
      exact ⟨fun _ => hfits, fun hout => absurd hout hnone⟩
    · intro hfits
      obtain ⟨hsmall, hwhole⟩ := hfits.1 hinside
      have hplaces := consecutive_of_fits hn hholds hint hsmall hwhole
      obtain ⟨issued, num, hissued⟩ := hreads
        (readable_of_consecutive hlength hlog hn hholds hinside hsmall hplaces)
      refine ⟨fun _ => ⟨⟨issued, num, ?_⟩, hplaces⟩, fun hout => absurd hout hnone⟩
      rw [hissued, hholds.start, tableSector_of_small (hsmall _ (head_mem hholds)),
        ← Int.natCast_add, Nat.add_assoc]
  · have hsome : ∃ b ∈ held, ¬ BlockInside fs b := by
      push Not at hinside
      exact hinside
    rw [← readable_iff_takenFor hn hholds]
    constructor
    · intro hright
      refine ⟨fun hall => absurd hall hinside, fun _ hread => ?_⟩
      obtain ⟨issued, num, hissued⟩ := hreads hread
      rw [(hright.2 hsome).2] at hissued
      exact log_ne_issued issued _ log hissued
    · intro hfits
      exact ⟨fun hall => absurd hall hinside, fun _ => hrefuses (hfits.2 hsome)⟩

end Reads

section Runs
variable (fs : ExtFilesystem) (hpart : fs.devDesc.off + fs.devDesc.length < 2 ^ 63)
  (hlength : fs.devDesc.length < 2 ^ 32) (hlog : fs.sblock.log2BlockSize ≤ 20)
  (hblksz : fs.blksz = 0) (fuel pos n : ℕ)

/-- In every state of the loop the deferred read is for the blocks before. -/
structure Loop.Inv (s : Loop) : Prop where
  first : firstBlock fs pos ≤ s.block
  stop : s.block ≤ endBlock fs pos n
  holds : ∀ r, s.run = some r → ∃ i, i + s.held.length = s.block ∧ Holds fs pos n i r s.held

include hpart hlog hblksz

theorem sector_of_stored {s : Loop} {v : ℤ} {node : Ext2fsNode} {log : Log} {b : ℕ}
    (hlooks : s.Looks fs (fuel + 2) pos n v node log)
    (hstored : Stored fs s.node s.block b s.log) :
    v = int32 b ∧ int32 (v * blockSectors fs) = tableSector fs b := by
  have hv := stored_answer fs hpart hlog hblksz fuel s.node node s.block b s.log log v hstored
    hlooks.run
  rw [hv]
  exact ⟨rfl, tableSector_eq fs b⟩

/-- One block of the loop. -/
theorem inv_of_next {s t : Loop} (hs : s.Inv fs pos n) (h : Loop.Next fs (fuel + 2) pos n s t) :
    t.Inv fs pos n := by
  obtain ⟨hfirst, hstop, hholds⟩ := hs
  cases h with
  | join hlooks hstored hv hsector hrun hnext =>
    have hmore := hlooks.more
    obtain ⟨i, hi, hr⟩ := hholds _ hrun
    have hsame := (sector_of_stored fs hpart hlog hblksz fuel pos n hlooks hstored).2
    refine ⟨Nat.le_succ_of_le hfirst, hmore, fun r' hr' => ⟨i, ?_, ?_⟩⟩
    · dsimp only
      rw [List.length_append, List.length_singleton]
      omega
    · obtain rfl := Option.some.inj hr'
      have hnext' := hr.extend _ (by omega) (hnext.trans hsame)
      rw [hi] at hnext'
      exact hnext'
  | begin hlooks hstored hv hsector hstop' hflush =>
    have hsame := (sector_of_stored fs hpart hlog hblksz fuel pos n hlooks hstored).2
    refine ⟨Nat.le_succ_of_le hfirst, hlooks.more, fun r' hr' => ⟨s.block, rfl, ?_⟩⟩
    obtain rfl := Option.some.inj hr'
    exact Holds.single fs pos n s.block _ _ hfirst hlooks.more hsame
  | hole hlooks hv hzero hflush =>
    exact ⟨Nat.le_succ_of_le hfirst, hlooks.more, by simp⟩

include hlength

theorem right_iff_of_performs (hn : 1 ≤ n) {s : Loop} (hs : s.Inv fs pos n) {a : Access}
    (h : Loop.Performs fs (fuel + 2) pos n s a) (hint : a.IntSized) : a.Right fs ↔ a.Fits fs := by
  cases h with
  | @refuse v _ _ b hlooks hstored hv =>
    -- a pointer with this bit lies behind every partition
    have hout : ¬ BlockInside fs b := by
      intro hinside
      rw [(sector_of_stored fs hpart hlog hblksz fuel pos n hlooks hstored).1] at hv
      have hlt := inside_sector_lt fs hlength b hinside
      have htwo := two_le_blockSectors fs
      have hle := Nat.mul_le_mul_left b htwo
      unfold int32 at hv
      omega
    exact iff_of_true hout fun hinside => absurd hinside hout
  | @zero v _ _ _ b _ hlooks hstored hv hzero hflush =>
    rw [(sector_of_stored fs hpart hlog hblksz fuel pos n hlooks hstored).2,
      tableSector_eq_zero_iff] at hzero
    unfold Access.Right Access.Fits
    simp [hzero]
  | spill hlooks hv hrun hstop hflush =>
    obtain ⟨i, -, hr⟩ := hs.holds _ hrun
    unfold Loop.Flushes at hflush
    rw [hrun] at hflush
    exact read_right_iff hpart hlength hlog hn hr hint hflush
  | last hend hrun hflush =>
    obtain ⟨i, -, hr⟩ := hs.holds _ hrun
    unfold Loop.Flushes at hflush
    rw [hrun] at hflush
    exact read_right_iff hpart hlength hlog hn hr hint hflush

omit hlength in
/-- Every state that a read comes to. The call goes on from it. -/
theorem reached (hsums : pos + n + ext2BlockSize fs ≤ 2 ^ 32) (len : ℤ) (node : Ext2fsNode)
    (hlen : clampLength node len = n) (buf : Bytes) (log : Log) {s : Loop}
    (h : Relation.ReflTransGen (Loop.Next fs (fuel + 2) pos n) (Loop.start fs pos node buf log) s) :
    s.Inv fs pos n ∧
      ext4fsReadFile fs (fuel + 2) node pos len buf log = s.rest fs (fuel + 2) pos n := by
  induction h with
  | refl =>
    refine ⟨⟨Nat.le_refl _, firstBlock_le_endBlock fs pos n, by simp [Loop.start]⟩, ?_⟩
    exact ext4fsReadFile_eq fs hlog (fuel + 2) pos n hsums len node hlen buf log
  | tail _ hnext ih =>
    obtain ⟨hinv, hrest⟩ := ih
    refine ⟨inv_of_next fs hpart hlog hblksz fuel pos n hinv hnext, ?_⟩
    rw [hrest, rest_of_next fs hlog (fuel + 2) pos n hsums hinv.first hnext]

end Runs

end Eokan.PointerRuns
