import Eokan.PartitionSearch

/-!
When the search for a partition ends. The records of a disk may lead back to
each other, and the code follows them without a limit.
-/
namespace Eokan.PartitionCycles

open ByteMem CInt Programs Device PartitionTable Relation Walks PartitionWalk PartitionSearch

section Endings
variable (disk : DiskDescr) (bad : ℕ → Bool) (hbad : BadSectors disk bad) (no : ℤ)
  (hno : -2 ^ 31 ≤ no ∧ no < 2 ^ 31)
include hbad

theorem diskGetPartition_walk (fuel : ℕ) (log : Log) :
    diskGetPartition fuel disk no log =
      let walk := walkDisk disk bad wrap32 fuel
      (outcome disk no walk.1 walk.2 0 (⟨0, 1⟩ :: log)).map fun r => (r.1.1, r.2) :=
  diskGetPartition_outcome disk bad hbad no wrap32 fuel log fun _ _ => rfl

include hno

/-- The search for a number ends if and only if no record leads back to itself,
or the partition comes, depth first, before the walk is caught in a cycle. -/
theorem diskGetPartition_ends_iff (log : Log) :
    (∃ fuel r, diskGetPartition fuel disk no log = .ok r) ↔
      Acyclic disk bad wrap32 ∨
      ∃ n, indexOf no 0 < (counted (walkDisk disk bad wrap32 n).1).length := by
  have hreturns : ∀ fuel, (∃ r, diskGetPartition fuel disk no log = .ok r) ↔
      (walkDisk disk bad wrap32 fuel).2 = true ∨
        indexOf no 0 < (counted (walkDisk disk bad wrap32 fuel).1).length := by
    intro fuel
    rw [diskGetPartition_walk disk bad hbad no fuel log, ← outcome_returns hno 0 disk _ _
      (⟨0, 1⟩ :: log)]
    dsimp only
    rcases outcome disk no _ _ 0 (⟨0, 1⟩ :: log) with e | r
    · exact iff_of_false (fun ⟨_, h⟩ => nomatch h) fun ⟨_, h⟩ => nomatch h
    · exact iff_of_true ⟨_, rfl⟩ ⟨_, rfl⟩
  rw [← walkDisk_ends, ← exists_or]
  exact exists_congr hreturns

end Endings

/-- The record in sector 1 leads to itself. -/
def loopDisk : DiskDescr := DiskDescr.ofImage fun b =>
  match b with
  | 450 => 5
  | 454 => 1
  | 962 => 5
  | _ => 0

theorem loopDisk_walk (n : ℕ) :
    walkRecord loopDisk (fun _ => false) wrap32 1 n 0 =
      (List.replicate n (.reads ⟨1, 0⟩), false) := by
  have hentries : tableEntries loopDisk 1 2 = [⟨5, 0, 0⟩, ⟨0, 0, 0⟩] := by decide +kernel
  induction n with
  | zero => rfl
  | succ n ih =>
    have hsector : wrap32 (1 + 0) = 1 := by decide
    simp [walkRecord, hsector, hentries, walkEntries, TableEntry.Extended, ih,
      List.replicate_succ]

theorem loopDisk_counted (n : ℕ) :
    (walkDisk loopDisk (fun _ => false) wrap32 n).2 = false ∧
      counted (walkDisk loopDisk (fun _ => false) wrap32 n).1 = [] := by
  have hentries : tableEntries loopDisk 0 4 = [⟨5, 1, 0⟩, ⟨0, 0, 0⟩, ⟨0, 0, 0⟩, ⟨0, 0, 0⟩] := by
    decide +kernel
  simp [walkDisk, hentries, walkEntries, TableEntry.Extended, loopDisk_walk, counted]

theorem diskGetPartition_ends_iff_loop :
    (∃ fuel r, diskGetPartition fuel loopDisk 1 [] = .ok r) ↔
      Acyclic loopDisk (fun _ => false) wrap32 ∨
      ∃ n, indexOf 1 0 < (counted (walkDisk loopDisk (fun _ => false) wrap32 n).1).length :=
  diskGetPartition_ends_iff loopDisk (fun _ => false) (fun _ _ => rfl) 1 (by decide) []

/-- The search for the first partition of this disk goes on for ever. -/
theorem loopDisk_never_ends : ¬ ∃ fuel r, diskGetPartition fuel loopDisk 1 [] = .ok r := by
  rintro ⟨fuel, r, hr⟩
  obtain ⟨hends, hcounted⟩ := loopDisk_counted fuel
  rw [diskGetPartition_walk loopDisk (fun _ => false) (fun _ _ => rfl) 1 fuel []] at hr
  dsimp only at hr
  rcases hout : outcome loopDisk 1 _ _ 0 [⟨0, 1⟩] with e | r'
  · rw [hout] at hr
    cases hr
  · rcases (outcome_returns (by decide) 0 loopDisk _ _ [⟨0, 1⟩]).mp ⟨r', hout⟩ with h | h
    · rw [hends] at h
      cases h
    · rw [hcounted] at h
      cases h

end Eokan.PartitionCycles
