import Eokan.BlockMap
import Mathlib.Data.Int.Order.Basic

/-!
The searches in the nodes of an extent tree. An index node and a leaf have
their keys in the same places. The search in a leaf goes on at a key that is
the file block itself, and the one in an index node stops there.
-/
namespace Eokan.EntrySearch

open ByteMem CInt Programs Device Devread Layout SortedScan BlockMap

/-- The first file block of entry i, in a leaf or in an index node. -/
def key (node : Bytes) (i : ℕ) : ℤ := le32 node (12 + 12 * i)

/-- The entry of an index node that the descent selects. -/
def indexSearch (node : Bytes) (fileblock : ℤ) : Option ℕ :=
  lastPassed (fun i => (indexAt node i).block < uint32 fileblock) (ehEntries node)

/-- The extent of a leaf that is selected. -/
def leafSearch (node : Bytes) (fileblock : ℤ) : Option ℕ :=
  lastPassed (fun i => (extentAt node i).block ≤ uint32 fileblock) (ehEntries node)

/-- The descent goes on below the selected entry. -/
theorem getExtentBlock_search (fs : ExtFilesystem) (f : ℤ) (fuel : ℕ) (node buf : Bytes) :
    getExtentBlock fs f (fuel + 1) node buf =
      if ehMagic node ≠ ext4ExtMagic then pure none
      else if ehDepth node = 0 then pure (some node)
      else
        match indexSearch node f with
        | none => pure none
        | some i => (do
          let (status, buf) ← vfsDevread fs.devDesc
            (int32 ((indexAt node i).leaf * blockSectors fs : ℕ)) 0 (int32 fs.blksz) buf 0
          if status ≠ 0 then getExtentBlock fs f fuel buf buf
          else pure none) := by
  rw [getExtentBlock]
  unfold indexSearch lastPassed
  dsimp only
  split
  · rfl
  split
  · rfl
  split
  · rfl
  · rfl

/-- A block is looked up in the selected extent. -/
theorem findExtent_search (node : Bytes) (f : ℤ) :
    findExtent node f =
      match leafSearch node f with
      | none => -1
      | some i =>
        let rest := int32 (f - (extentAt node i).block)
        if (extentAt node i).len ≤ rest then 0 else int32 (rest + (extentAt node i).start) := by
  unfold findExtent leafSearch lastPassed
  dsimp only
  split
  · rfl
  · rfl

section Searches
variable (node : Bytes) (f : ℤ)
  (hsorted : ∀ i j, i < j → j < ehEntries node → key node i < key node j)
  (hnonempty : 0 < ehEntries node) (hfirst : key node 0 ≤ uint32 f)
include hsorted hnonempty hfirst

/-- Both searches select the entry with the last key up to the file block, but
for the one in an index node if the file block is a key. -/
theorem searches_select_iff :
    ∃ i, LastUpTo (key node) (ehEntries node) (uint32 f) i ∧
      leafSearch node f = some i ∧
      (indexSearch node f = some i ↔ ∀ j < ehEntries node, key node j ≠ uint32 f) := by
  obtain ⟨i, hlast⟩ := exists_lastUpTo hsorted hnonempty hfirst
  refine ⟨i, hlast, ?_, ?_⟩
  · exact (lastPassed_le_iff hsorted).mpr hlast
  · exact lastPassed_lt_iff hsorted hlast

end Searches

/-- Two entries, with the keys 0 and 5. -/
def pairNode : Bytes := fun b =>
  match b with
  | 0 => 0x0a
  | 1 => 0xf3
  | 2 => 2
  | 24 => 5
  | _ => 0

theorem pairNode_sorted (i j : ℕ) (hij : i < j) (hj : j < ehEntries pairNode) :
    key pairNode i < key pairNode j := by
  have htwo : ehEntries pairNode = 2 := by decide
  obtain ⟨rfl, rfl⟩ : i = 0 ∧ j = 1 := by omega
  decide

theorem searches_select_iff_pair :
    ∃ i, LastUpTo (key pairNode) (ehEntries pairNode) (uint32 7) i ∧
      leafSearch pairNode 7 = some i ∧
      (indexSearch pairNode 7 = some i ↔ ∀ j < ehEntries pairNode, key pairNode j ≠ uint32 7) :=
  searches_select_iff pairNode 7 pairNode_sorted (by decide) (by decide +kernel)

/-- At block 5 the search in an index node selects the entry before. -/
theorem indexSearch_stops_at_key :
    ((∀ i j, i < j → j < ehEntries pairNode → key pairNode i < key pairNode j) ∧
      0 < ehEntries pairNode ∧ key pairNode 0 ≤ uint32 5) ∧
    LastUpTo (key pairNode) (ehEntries pairNode) (uint32 5) 1 ∧
      leafSearch pairNode 5 = some 1 ∧ indexSearch pairNode 5 = some 0 := by
  have hlast : LastUpTo (key pairNode) (ehEntries pairNode) (uint32 5) 1 := by
    refine ⟨by decide, by decide +kernel, fun j hj _ => ?_⟩
    have htwo : ehEntries pairNode = 2 := by decide
    omega
  refine ⟨⟨pairNode_sorted, by decide, by decide +kernel⟩, hlast, ?_, ?_⟩
  · exact (lastPassed_le_iff pairNode_sorted).mpr hlast
  · decide +kernel

end Eokan.EntrySearch
