import Eokan.BlockMap
import Eokan.Chains
import Eokan.DevreadOutcome
import Eokan.FileMaps
import Mathlib.Data.Int.Interval

/-!
When the descent through the nodes of an extent tree ends. The code follows the
index entry for a file block from node to node, and a tree on a disk may lead
back to a node above.
-/
namespace Eokan.ExtentCycles

open ByteMem CInt Programs Device Devread DevreadOutcome Layout SortedScan BlockMap FileMaps
  Chains

section Descent
variable (fs : ExtFilesystem) (fileblock : ℤ)

/-- Where the index entry for the file block leads, if the node has one. -/
def childSector (node : Bytes) : Option ℤ :=
  if ehMagic node ≠ ext4ExtMagic ∨ ehDepth node = 0 then none
  else
    let i := scanEntries (fun i => (indexAt node i).block < uint32 fileblock) (ehEntries node) 0
    if i = 0 then none
    else some (int32 ((indexAt node (i - 1)).leaf * blockSectors fs : ℕ))

/-- The node buffer with the node in this sector. -/
def nodeIn (sector : ℤ) : Bytes :=
  write (zalloc fs (ext2BlockSize fs)) 0 (ext2BlockSize fs)
    (slice fs.devDesc.bytes (sector.toNat * 512))

/-- The sector of the next node. There is none below a leaf, and a node that
cannot be read is not entered. -/
def below (node : Bytes) : Option ℤ :=
  (childSector fs fileblock node).filter fun s => Readable fs.devDesc s 0 (ext2BlockSize fs)

def nextNode (sector : ℤ) : Option ℤ := below fs fileblock (nodeIn fs sector)

/-- The sectors of the nodes that the descent from a root enters. -/
def nodes (root : Bytes) : ℕ → Option ℤ := chain (nextNode fs fileblock) (below fs fileblock root)

theorem nodes_readable (root : Bytes) (n : ℕ) (s : ℤ) (h : nodes fs fileblock root n = some s) :
    Readable fs.devDesc s 0 (ext2BlockSize fs) := by
  have hfilter : ∀ node, below fs fileblock node = some s →
      Readable fs.devDesc s 0 (ext2BlockSize fs) := by
    intro node hnode
    have hsome := (Option.filter_eq_some_iff.mp hnode).2
    exact of_decide_eq_true hsome
  cases n with
  | zero => exact hfilter root h
  | succ n =>
    obtain ⟨s', -, hs'⟩ := Option.bind_eq_some_iff.mp h
    exact hfilter _ hs'

/-- Behind the block the node buffer is as it was allocated. -/
def Scratch (buf : Bytes) : Prop :=
  ∀ src, write buf 0 (ext2BlockSize fs) src =
    write (zalloc fs (ext2BlockSize fs)) 0 (ext2BlockSize fs) src

theorem scratch_nodeIn (sector : ℤ) : Scratch fs (nodeIn fs sector) := by
  intro src
  funext j
  by_cases hj : j < ext2BlockSize fs
  · rw [write_of_mem _ 0 _ src (Nat.zero_le j) (by omega),
      write_of_mem _ 0 _ src (Nat.zero_le j) (by omega)]
  · rw [write_of_ge _ 0 _ src (by omega), write_of_ge _ 0 _ src (by omega)]
    exact write_of_ge _ 0 _ _ (by omega)

theorem childSector_lt (node : Bytes) (s : ℤ) (h : childSector fs fileblock node = some s) :
    s < 2 ^ 31 := by
  unfold childSector at h
  split at h
  · cases h
  · dsimp only at h
    split at h
    · cases h
    · obtain rfl := Option.some.inj h
      exact (int32_bounds _).2

variable (fuel : ℕ) (node buf : Bytes)

theorem getExtentBlock_none (h : childSector fs fileblock node = none) :
    ∃ r, getExtentBlock fs fileblock (fuel + 1) node buf = pure r := by
  unfold childSector at h
  unfold getExtentBlock
  split at h
  · rename_i hstop
    by_cases hmagic : ehMagic node ≠ ext4ExtMagic
    · exact ⟨none, if_pos hmagic⟩
    · exact ⟨some node, (if_neg hmagic).trans (if_pos (hstop.resolve_left hmagic))⟩
  · rename_i hgo
    obtain ⟨hmagic, hdepth⟩ := not_or.mp hgo
    dsimp only at h ⊢
    split at h
    · rename_i hi
      exact ⟨none, (if_neg hmagic).trans ((if_neg hdepth).trans (if_pos hi))⟩
    · cases h

/-- One round of the loop reads the child. -/
theorem getExtentBlock_some (s : ℤ) (h : childSector fs fileblock node = some s) :
    getExtentBlock fs fileblock (fuel + 1) node buf = (do
      let (status, buf) ← vfsDevread fs.devDesc s 0 (int32 fs.blksz) buf 0
      if status ≠ 0 then getExtentBlock fs fileblock fuel buf buf
      else pure none) := by
  unfold childSector at h
  rw [getExtentBlock]
  split at h
  · cases h
  · rename_i hgo
    obtain ⟨hmagic, hdepth⟩ := not_or.mp hgo
    dsimp only at h ⊢
    split at h
    · cases h
    · rename_i hi
      obtain rfl := Option.some.inj h
      rw [if_neg hmagic, if_neg hdepth, if_neg hi]

end Descent

section Loop
variable {fs : ExtFilesystem} (hgood : fs.devDesc.disk.NoErrors)
  (hpart : fs.devDesc.off + fs.devDesc.length < 2 ^ 63) (hlog : fs.sblock.log2BlockSize ≤ 20)
  (hblksz : fs.blksz = ext2BlockSize fs) (fileblock : ℤ)
include hgood hpart hlog hblksz

/-- One round of the loop. -/
theorem getExtentBlock_round (node buf : Bytes) (hbuf : Scratch fs buf) (fuel : ℕ) (log : Log) :
    match below fs fileblock node with
    | none => Yields (getExtentBlock fs fileblock (fuel + 1) node buf) log fun _ _ => True
    | some s => ∃ log', getExtentBlock fs fileblock (fuel + 1) node buf log =
        getExtentBlock fs fileblock fuel (nodeIn fs s) (nodeIn fs s) log' := by
  have hpos := ext2BlockSize_pos fs
  have hle := ext2BlockSize_le fs hlog
  unfold below
  cases hchild : childSector fs fileblock node with
  | none =>
    obtain ⟨r, hr⟩ := getExtentBlock_none fs fileblock fuel node buf hchild
    rw [hr]
    exact Yields.pure trivial
  | some s =>
    have hsector := childSector_lt fs fileblock node s hchild
    obtain ⟨r, log', hrun, hread⟩ := vfsDevread_spec fs.devDesc hgood hpart s 0 (ext2BlockSize fs)
      hsector (by omega) (by omega) buf 0 log
    rw [getExtentBlock_some fs fileblock fuel node buf s hchild, hblksz]
    rw [Int.natCast_zero] at hrun
    rcases hread with ⟨hin, rfl⟩ | ⟨hout, rfl⟩
    · rw [Option.filter_some, if_pos (decide_eq_true hin)]
      refine ⟨log', ?_⟩
      rw [bind_ok hrun, hbuf]
      dsimp only
      rw [if_pos (by decide), Nat.add_zero]
      rfl
    · rw [Option.filter_some, if_neg (by simpa using hout)]
      unfold Yields
      rw [bind_ok hrun]
      exact ⟨none, log', rfl, trivial⟩

theorem ends_of_run (fuel : ℕ) (node buf : Bytes) (hbuf : Scratch fs buf) (log : Log)
    (r : Option Bytes) (log' : Log)
    (h : getExtentBlock fs fileblock fuel node buf log = .ok (r, log')) :
    Ends (nextNode fs fileblock) (below fs fileblock node) := by
  induction fuel generalizing node buf log with
  | zero => cases h
  | succ fuel ih =>
    have hround := getExtentBlock_round hgood hpart hlog hblksz fileblock node buf hbuf fuel log
    cases hbelow : below fs fileblock node with
    | none => exact ends_none _
    | some s =>
      rw [hbelow] at hround
      obtain ⟨log₁, hrun⟩ := hround
      rw [ends_some]
      exact ih (nodeIn fs s) (nodeIn fs s) (scratch_nodeIn fs s) log₁ (hrun ▸ h)

theorem run_of_ends (n : ℕ) (node buf : Bytes) (hbuf : Scratch fs buf) (log : Log)
    (h : chain (nextNode fs fileblock) (below fs fileblock node) n = none) :
    Yields (getExtentBlock fs fileblock (n + 1) node buf) log fun _ _ => True := by
  induction n generalizing node buf log with
  | zero =>
    have hround := getExtentBlock_round hgood hpart hlog hblksz fileblock node buf hbuf 0 log
    rwa [show below fs fileblock node = none from h] at hround
  | succ n ih =>
    have hround := getExtentBlock_round hgood hpart hlog hblksz fileblock node buf hbuf (n + 1) log
    cases hbelow : below fs fileblock node with
    | none => rwa [hbelow] at hround
    | some s =>
      rw [hbelow] at hround h
      obtain ⟨log₁, hrun⟩ := hround
      rw [chain_succ] at h
      unfold Yields
      rw [hrun]
      exact ih (nodeIn fs s) (nodeIn fs s) (scratch_nodeIn fs s) log₁ h

/-- The descent ends if and only if it enters no node twice. -/
theorem getExtentBlock_ends_iff (inode : Ext2Inode) (log : Log) :
    (∃ fuel r log', getExtentBlock fs fileblock fuel inode.b (zalloc fs (ext2BlockSize fs)) log =
      .ok (r, log')) ↔
    ¬ ∃ i j s, i < j ∧ nodes fs fileblock inode.b i = some s ∧
      nodes fs fileblock inode.b j = some s := by
  have hfinite : (Set.Icc (0 : ℤ) fs.devDesc.length).Finite := Set.finite_Icc _ _
  have hscratch : Scratch fs (zalloc fs (ext2BlockSize fs)) := fun _ => rfl
  have hends := ends_iff_not_returns (nextNode fs fileblock) (below fs fileblock inode.b) _ hfinite
    fun n s hs => by
      have hin := nodes_readable fs fileblock inode.b n s hs
      have hpos := ext2BlockSize_pos fs
      unfold Readable at hin
      exact ⟨hin.1, by omega⟩
  refine Iff.trans ⟨?_, ?_⟩ hends
  · rintro ⟨fuel, r, log', hrun⟩
    exact ends_of_run hgood hpart hlog hblksz fileblock fuel inode.b _ hscratch log r log' hrun
  · rintro ⟨n, hn⟩
    obtain ⟨r, log', hrun, -⟩ := run_of_ends hgood hpart hlog hblksz fileblock n inode.b _ hscratch
      log hn
    exact ⟨n + 1, r, log', hrun⟩

end Loop

/-- Block 5 is an index node whose only entry leads to block 5 again. -/
def cyclicImage : Bytes := fun b =>
  match b with
  | 5120 => 0x0a
  | 5121 => 0xf3
  | 5122 => 1
  | 5126 => 1
  | 5136 => 5
  | _ => 0

def cyclicFs : ExtFilesystem := { smallFs cyclicImage with blksz := 1024 }

/-- The root of this inode leads to block 5. -/
def cyclicInode : Ext2Inode := ⟨fun j =>
  match j with
  | 34 => 8
  | 40 => 0x0a
  | 41 => 0xf3
  | 42 => 1
  | 46 => 1
  | 56 => 5
  | _ => 0⟩

/-- In front of the first entry nothing is entered. -/
theorem getExtentBlock_ends_iff_cyclic :
    (∃ fuel r log', getExtentBlock cyclicFs 0 fuel cyclicInode.b
      (zalloc cyclicFs (ext2BlockSize cyclicFs)) [] = .ok (r, log')) ↔
    ¬ ∃ i j s, i < j ∧ nodes cyclicFs 0 cyclicInode.b i = some s ∧
      nodes cyclicFs 0 cyclicInode.b j = some s :=
  getExtentBlock_ends_iff (noErrors_ofImage cyclicImage) (by decide) (by decide)
    (by decide +kernel) 0 cyclicInode []

/-- Block 5 is read for ever. -/
theorem cyclic_tree_never_ends :
    cyclicFs.blksz = ext2BlockSize cyclicFs ∧
      ¬ ∃ fuel r log', getExtentBlock cyclicFs 1 fuel cyclicInode.b
        (zalloc cyclicFs (ext2BlockSize cyclicFs)) [] = .ok (r, log') := by
  refine ⟨by decide +kernel, ?_⟩
  rintro ⟨fuel, r, log', hrun⟩
  have hends := ends_of_run (noErrors_ofImage cyclicImage) (by decide) (by decide)
    (by decide +kernel) 1 fuel cyclicInode.b _ (fun _ => rfl) [] r log' hrun
  refine not_ends_of_returns _ _ ⟨0, 1, 10, by decide, ?_, ?_⟩ hends
  · decide +kernel
  · decide +kernel

end Eokan.ExtentCycles
