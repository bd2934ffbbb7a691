import Eokan.PartitionSearch

/-!
The sums of sector numbers. The code adds 32-bit numbers and widens the result,
so a record or a partition beyond sector 2 ^ 32 is looked for at its start.
-/
namespace Eokan.PartitionSums

open ByteMem CInt Programs Device PartitionTable PartitionWalk PartitionSearch

theorem wrap32_lt (sum : ℕ) : wrap32 sum < 2 ^ 32 := Nat.mod_lt _ (Nat.two_pow_pos 32)

theorem wrap32_eq {sum : ℕ} (h : sum < 2 ^ 32) : wrap32 sum = sum := Nat.mod_eq_of_lt h

theorem mem_requests (sector : ℕ → ℕ) (steps : List Step) (r : Request) :
    r ∈ steps.filterMap (request sector) ↔
      ∃ place, .reads place ∈ steps ∧ r = ⟨sector place.sum, 1⟩ := by
  rw [List.mem_filterMap]
  constructor
  · rintro ⟨step, hmem, hstep⟩
    cases step with
    | reads place => exact ⟨place, hmem, (Option.some.inj hstep).symm⟩
    | counts c => cases hstep
  · rintro ⟨place, hmem, rfl⟩
    exact ⟨.reads place, hmem, rfl⟩

/-- The search returns, with the records read in the sectors that the exact sums
give and with the exact start of the partition. -/
def SearchesExactly (disk : DiskDescr) (no : ℤ) (steps : List Step) (log : Log) : Prop :=
  ∃ fuel, diskGetPartition fuel disk no log =
    .ok ((counted steps)[indexOf no 0]?.map (partOf id disk),
      logged id (upTo (indexOf no 0) steps) (⟨0, 1⟩ :: log))

/-- The sums that the search makes use of are below 2 ^ 32. -/
structure SumsFit (no : ℤ) (steps : List Step) : Prop where
  records : ∀ place, .reads place ∈ upTo (indexOf no 0) steps → place.sum < 2 ^ 32
  start : ∀ c, (counted steps)[indexOf no 0]? = some c → c.start < 2 ^ 32

theorem logged_exact (steps : List Step) (log : Log)
    (h : ∀ place, .reads place ∈ steps → place.sum < 2 ^ 32) :
    logged wrap32 steps log = logged id steps log := by
  have hrequests : steps.filterMap (request wrap32) = steps.filterMap (request id) := by
    apply List.filterMap_congr
    intro step hstep
    cases step with
    | reads place =>
      have hlt := h place hstep
      simp [request, wrap32_eq hlt]
    | counts c => rfl
  unfold logged
  rw [hrequests]

section Sums
variable (disk : DiskDescr) (bad : ℕ → Bool) (hbad : BadSectors disk bad) (no : ℤ)
include hbad

/-- What the code adds up is always below 2 ^ 32. -/
theorem sumsFit_of_exact (steps : List Step) (log : Log)
    (h : SearchesExactly disk no steps log) : SumsFit no steps := by
  obtain ⟨fuel, hrun⟩ := h
  rw [diskGetPartition_outcome disk bad hbad no wrap32 fuel log fun _ _ => rfl] at hrun
  dsimp only at hrun
  obtain ⟨done, found, got, hsame⟩ : ∃ (done : List Step) (found : Option Counted) (got : ℤ),
      outcome disk no (walkDisk disk bad wrap32 fuel).1 (walkDisk disk bad wrap32 fuel).2 0
        (⟨0, 1⟩ :: log) =
        .ok ((found.map (partOf wrap32 disk), got), logged wrap32 done (⟨0, 1⟩ :: log)) := by
    rcases hseek : seek no (walkDisk disk bad wrap32 fuel).1 0 with ⟨done, _ | c, got⟩
    · by_cases hends : (walkDisk disk bad wrap32 fuel).2 = true
      · exact ⟨done, none, got, outcome_none hseek hends⟩
      · rw [outcome_endless hseek hends] at hrun
        cases hrun
    · exact ⟨done, some c, got, outcome_some hseek⟩
  rw [hsame] at hrun
  have hpair := Except.ok.inj hrun
  have hpart : found.map (partOf wrap32 disk) =
      (counted steps)[indexOf no 0]?.map (partOf id disk) := congrArg Prod.fst hpair
  have hlog : logged wrap32 done (⟨0, 1⟩ :: log) =
      logged id (upTo (indexOf no 0) steps) (⟨0, 1⟩ :: log) := congrArg Prod.snd hpair
  refine ⟨fun place hmem => ?_, fun c hc => ?_⟩
  · have hreqs := List.reverse_injective (List.append_cancel_right hlog)
    have hread : (⟨(id place.sum : ℕ), 1⟩ : Request) ∈ done.filterMap (request wrap32) := by
      rw [hreqs]
      exact (mem_requests id _ _).mpr ⟨place, hmem, rfl⟩
    obtain ⟨place', -, heq⟩ := (mem_requests wrap32 _ _).mp hread
    have hsum : place.sum = wrap32 place'.sum := Int.ofNat.inj (congrArg Request.start heq)
    rw [hsum]
    exact wrap32_lt _
  · rw [hc] at hpart
    obtain ⟨c', -, hc'⟩ := Option.map_eq_some_iff.mp hpart
    have hstart : wrap32 c'.start = c.start := congrArg PartDescr.off hc'
    rw [← hstart]
    exact wrap32_lt _

variable (hno : -2 ^ 31 ≤ no ∧ no < 2 ^ 31)
include hno

/-- Where nothing wraps, the exact walk is the one that the code does. -/
theorem exact_of_sumsFit (n : ℕ) (hends : (walkDisk disk bad id n).2 = true) (log : Log)
    (h : SumsFit no (walkDisk disk bad id n).1) :
    SearchesExactly disk no (walkDisk disk bad id n).1 log := by
  obtain ⟨hsteps, hfound⟩ := seek_eq hno 0 (walkDisk disk bad id n).1
  refine ⟨n, ?_⟩
  rw [diskGetPartition_outcome disk bad hbad no id n log fun place hmem => ?_]
  swap
  · rw [hsteps] at hmem
    exact (wrap32_eq (h.records place hmem)).symm
  rw [← logged_exact _ _ h.records, ← hsteps, ← hfound]
  rcases hseek : seek no (walkDisk disk bad id n).1 0 with ⟨done, _ | c, got⟩
  · dsimp only
    rw [outcome_none hseek hends]
    rfl
  · dsimp only
    rw [outcome_some hseek]
    rw [hseek] at hfound
    have hstart := wrap32_eq (h.start c hfound.symm)
    simp [Except.map, partOf, hstart]

/-- On a disk with a finite tree of records the sectors and the start are the
exact sums if and only if no sum reaches 2 ^ 32. -/
theorem searchesExactly_iff (n : ℕ) (hends : (walkDisk disk bad id n).2 = true) (log : Log) :
    SearchesExactly disk no (walkDisk disk bad id n).1 log ↔
      SumsFit no (walkDisk disk bad id n).1 :=
  ⟨sumsFit_of_exact disk bad hbad no _ log, exact_of_sumsFit disk bad hbad no hno n hends log⟩

end Sums

/-- The extended partition starts in the last sector below 2 ^ 32, and the
logical one in the sector behind it. -/
def highDisk : DiskDescr := DiskDescr.ofImage fun b =>
  match b with
  | 450 => 5
  | 454 => 0xff
  | 455 => 0xff
  | 456 => 0xff
  | 457 => 0xff
  | 2199023255490 => 0x83
  | 2199023255494 => 1
  | _ => 0

theorem highDisk_walk : walkDisk highDisk (fun _ => false) id 1 =
    ([.reads ⟨4294967295, 0⟩, .counts ⟨⟨4294967295, 0⟩, ⟨0x83, 1, 0⟩⟩], true) := by
  have hmbr : tableEntries highDisk 0 4 =
      [⟨5, 4294967295, 0⟩, ⟨0, 0, 0⟩, ⟨0, 0, 0⟩, ⟨0, 0, 0⟩] := by decide +kernel
  have hrecord : tableEntries highDisk 4294967295 2 = [⟨0x83, 1, 0⟩, ⟨0, 0, 0⟩] := by
    decide +kernel
  simp [walkDisk, walkRecord, hmbr, hrecord, walkEntries, TableEntry.Extended]

theorem searchesExactly_iff_high :
    SearchesExactly highDisk 1 (walkDisk highDisk (fun _ => false) id 1).1 [] ↔
      SumsFit 1 (walkDisk highDisk (fun _ => false) id 1).1 :=
  searchesExactly_iff highDisk (fun _ => false) (fun _ _ => rfl) 1 (by decide) 1
    (congrArg Prod.snd highDisk_walk) []

/-- The logical partition of this disk is not searched exactly. -/
theorem highDisk_wraps :
    (walkDisk highDisk (fun _ => false) id 1).2 = true ∧
      ¬ SearchesExactly highDisk 1 (walkDisk highDisk (fun _ => false) id 1).1 [] := by
  refine ⟨congrArg Prod.snd highDisk_walk, fun h => ?_⟩
  have hfit := sumsFit_of_exact highDisk (fun _ => false) (fun _ _ => rfl) 1 _ [] h
  rw [highDisk_walk] at hfit
  have hstart := hfit.start ⟨⟨4294967295, 0⟩, ⟨0x83, 1, 0⟩⟩ rfl
  exact absurd hstart (by decide)

end Eokan.PartitionSums
