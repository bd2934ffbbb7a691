import Eokan.Calls
import Eokan.EntrySearch
import Eokan.FileMaps
import Eokan.IndirectCache

/-!
The entries that the searches in the nodes of an extent tree look at. A root
has room for four entries behind its header, and a block for as many as fit.
The number of entries comes from the disk and is not compared with that.
-/
namespace Eokan.NodeBounds

open ByteMem CInt Programs Device Devread Layout SortedScan BlockMap EntrySearch Calls Traced
  FileMaps IndirectCache

/-- A node that is searched, and the number of entries it has room for. -/
structure Visit where
  node : Bytes
  isLeaf : Bool
  capacity : ℕ

/-- The entries in the 60 bytes of an inode. -/
def rootCapacity : ℕ := (60 - 12) / 12

def blockCapacity (fs : ExtFilesystem) : ℕ := (ext2BlockSize fs - 12) / 12

namespace Visit
variable (visit : Visit) (fileblock : ℤ)

/-- The search goes on behind entry i. -/
def passes (i : ℕ) : Bool :=
  if visit.isLeaf then (extentAt visit.node i).block ≤ uint32 fileblock
  else (indexAt visit.node i).block < uint32 fileblock

/-- The entries that the search looks at. -/
def examined : List ℕ := SortedScan.examined (visit.passes fileblock) (ehEntries visit.node) 0

/-- There are no more entries than the node has room for, or the search stops
at one of those. -/
def Stays : Prop :=
  ehEntries visit.node ≤ visit.capacity ∨ ∃ i < visit.capacity, visit.passes fileblock i = false

theorem inside_iff :
    (∀ i ∈ visit.examined fileblock, i < visit.capacity) ↔ visit.Stays fileblock :=
  examined_lt_iff (visit.passes fileblock) (ehEntries visit.node) visit.capacity

end Visit

section Code
variable (fs : ExtFilesystem) (fileblock : ℤ)

/-- The descent with the nodes it searches. -/
def extentBlockVisits : ℕ → ℕ → Bytes → Bytes → Traced Visit Log Fault (Option (ℕ × Bytes))
  | 0, _, _, _ => silent (fault .outOfFuel)
  | fuel + 1, capacity, extBlock, buf =>
    if ehMagic extBlock ≠ ext4ExtMagic then pure none
    else if ehDepth extBlock = 0 then pure (some (capacity, extBlock))
    else do
      call (fun _ => ⟨extBlock, false, capacity⟩) (pure ())
      match indexSearch extBlock fileblock with
      | none => pure none
      | some i => do
        let (status, buf) ← silent (vfsDevread fs.devDesc
          (int32 ((indexAt extBlock i).leaf * blockSectors fs : ℕ)) 0 (int32 fs.blksz) buf 0)
        if status ≠ 0 then extentBlockVisits fuel (blockCapacity fs) buf buf
        else pure none

def readExtentVisits (fuel : ℕ) (node : Ext2fsNode) : Traced Visit Log Fault ℤ := do
  let buf := zalloc fs (ext2BlockSize fs)
  match ← extentBlockVisits fs fileblock fuel rootCapacity node.inode.b buf with
  | none => pure (-2)
  | some (capacity, extBlock) => do
    call (fun _ => ⟨extBlock, true, capacity⟩) (pure ())
    pure (findExtent extBlock fileblock)

end Code

section Erase
variable (fs : ExtFilesystem) (fileblock : ℤ)

theorem erase_extentBlockVisits (fuel capacity : ℕ) (node buf : Bytes) :
    (erase (extentBlockVisits fs fileblock fuel capacity node buf) >>= fun r =>
      pure (r.map Prod.snd)) = getExtentBlock fs fileblock fuel node buf := by
  induction fuel generalizing capacity node buf with
  | zero => rfl
  | succ fuel ih =>
    rw [getExtentBlock_search, extentBlockVisits]
    by_cases hmagic : ehMagic node ≠ ext4ExtMagic
    · rw [if_pos hmagic, if_pos hmagic]
      rfl
    rw [if_neg hmagic, if_neg hmagic]
    by_cases hdepth : ehDepth node = 0
    · rw [if_pos hdepth, if_pos hdepth]
      rfl
    rw [if_neg hdepth, if_neg hdepth, erase_bind, erase_call, pure_bind]
    cases indexSearch node fileblock with
    | none => rfl
    | some i =>
      dsimp only
      rw [erase_bind, erase_silent, bind_assoc]
      congr 1
      funext ⟨status, buf'⟩
      by_cases hstatus : status ≠ 0
      · simp only [if_pos hstatus]
        exact ih (blockCapacity fs) buf' buf'
      · simp only [if_neg hstatus]
        rfl

/-- Without the record it is the lookup in the tree. -/
theorem erase_readExtentVisits (fuel : ℕ) (node : Ext2fsNode) :
    erase (readExtentVisits fs fileblock fuel node) = readExtentBlock fs fuel node fileblock := by
  unfold readExtentVisits readExtentBlock
  dsimp only
  rw [erase_bind, ← erase_extentBlockVisits fs fileblock fuel rootCapacity, bind_assoc]
  congr 1
  funext r
  rcases r with _ | ⟨capacity, extBlock⟩
  · rfl
  · rfl

end Erase

/-- All entries that a lookup looks at lie inside their nodes just if it stays
inside every node. -/
theorem examined_inside_iff (fs : ExtFilesystem) (fileblock : ℤ) (fuel : ℕ) (node : Ext2fsNode)
    (log : Log) :
    (∀ visit ∈ (readExtentVisits fs fileblock fuel node log).1,
      ∀ i ∈ visit.examined fileblock, i < visit.capacity) ↔
    ∀ visit ∈ (readExtentVisits fs fileblock fuel node log).1, visit.Stays fileblock := by
  constructor
  · intro hinside visit hvisit
    exact (visit.inside_iff fileblock).mp (hinside visit hvisit)
  · intro hstays visit hvisit
    exact (visit.inside_iff fileblock).mpr (hstays visit hvisit)

/-- A root with five extents, all of them at block 0. -/
def crowdedInode : Ext2Inode := ⟨fun j =>
  match j with
  | 34 => 8
  | 40 => 0x0a
  | 41 => 0xf3
  | 42 => 5
  | _ => 0⟩

/-- The fifth one is behind the root. -/
theorem crowded_root_overruns :
    ∃ visit ∈ (readExtentVisits (smallFs fun _ => 0) 0 1 (freshNode crowdedInode) []).1,
      visit.capacity = 4 ∧ 4 ∈ visit.examined 0 := by
  refine ⟨⟨crowdedInode.b, true, 4⟩, ?_, rfl, ?_⟩
  · exact List.mem_singleton.mpr rfl
  · decide +kernel

end Eokan.NodeBounds
