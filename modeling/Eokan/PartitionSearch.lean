import Eokan.PartitionWalk

/-!
The search for a partition does the steps of the walk over the disk, up to the
partition it looks for.
-/
namespace Eokan.PartitionSearch

open ByteMem CInt Programs Device PartitionTable PartitionWalk

/-- The search for number no: the steps it does, what it finds and its counter. -/
def seek (no : ℤ) : List Step → ℤ → List Step × Option Counted × ℤ
  | [], got => ([], none, got)
  | .reads place :: steps, got =>
    let rest := seek no steps got
    (.reads place :: rest.1, rest.2)
  | .counts c :: steps, got =>
    if int32 (got + 1) = no then ([.counts c], some c, int32 (got + 1))
    else
      let rest := seek no steps (int32 (got + 1))
      (.counts c :: rest.1, rest.2)

theorem seek_append_some {no : ℤ} {steps done : List Step} (steps' : List Step) {got got' : ℤ}
    {c : Counted} (h : seek no steps got = (done, some c, got')) :
    seek no (steps ++ steps') got = (done, some c, got') := by
  induction steps generalizing got done with
  | nil => cases h
  | cons step steps ih =>
    rw [List.cons_append]
    cases step with
    | reads place =>
      rw [seek] at h ⊢
      rcases hrest : seek no steps got with ⟨done', found, got''⟩
      rw [hrest] at h
      cases h
      rw [ih hrest]
    | counts c' =>
      rw [seek] at h ⊢
      by_cases hhit : int32 (got + 1) = no
      · rw [if_pos hhit] at h ⊢
        exact h
      · rw [if_neg hhit] at h ⊢
        rcases hrest : seek no steps (int32 (got + 1)) with ⟨done', found, got''⟩
        rw [hrest] at h
        cases h
        rw [ih hrest]

theorem seek_append_none {no : ℤ} {steps done : List Step} (steps' : List Step) {got got' : ℤ}
    (h : seek no steps got = (done, none, got')) :
    seek no (steps ++ steps') got =
      (done ++ (seek no steps' got').1, (seek no steps' got').2) := by
  induction steps generalizing got done with
  | nil =>
    cases h
    rfl
  | cons step steps ih =>
    rw [List.cons_append]
    cases step with
    | reads place =>
      rw [seek] at h ⊢
      rcases hrest : seek no steps got with ⟨done', found, got''⟩
      rw [hrest] at h
      cases h
      rw [ih hrest]
      rfl
    | counts c =>
      rw [seek] at h ⊢
      by_cases hhit : int32 (got + 1) = no
      · rw [if_pos hhit] at h
        cases h
      · rw [if_neg hhit] at h ⊢
        rcases hrest : seek no steps (int32 (got + 1)) with ⟨done', found, got''⟩
        rw [hrest] at h
        cases h
        rw [ih hrest]
        rfl

/-- The sector that the code takes for a sum. -/
def wrap32 (sum : ℕ) : ℕ := sum % 2 ^ 32

section Effects
variable (sector : ℕ → ℕ)

/-- The read that belongs to a step. -/
def request : Step → Option Request
  | .reads place => some ⟨sector place.sum, 1⟩
  | .counts _ => none

/-- The log after these steps. -/
def logged (steps : List Step) (log : Log) : Log :=
  (steps.filterMap (request sector)).reverse ++ log

/-- The partition of an entry. -/
def partOf (disk : DiskDescr) (c : Counted) : PartDescr := ⟨disk, sector c.start, c.entry.len⟩

theorem logged_append (steps steps' : List Step) (log : Log) :
    logged sector (steps ++ steps') log = logged sector steps' (logged sector steps log) := by
  simp [logged]

end Effects

/-- The outcome of a search over a walk. -/
def outcome (disk : DiskDescr) (no : ℤ) (steps : List Step) (ends : Bool) (got : ℤ) (log : Log) :
    Except Fault ((Option PartDescr × ℤ) × Log) :=
  let sought := seek no steps got
  match sought.2.1 with
  | some c => .ok ((some (partOf wrap32 disk c), sought.2.2), logged wrap32 sought.1 log)
  | none => if ends then .ok ((none, sought.2.2), logged wrap32 sought.1 log) else .error .outOfFuel

section Outcomes
variable {disk : DiskDescr} {no got got' : ℤ} {log : Log} {steps done : List Step} {ends : Bool}
  {c : Counted}

theorem outcome_some (h : seek no steps got = (done, some c, got')) :
    outcome disk no steps ends got log =
      .ok ((some (partOf wrap32 disk c), got'), logged wrap32 done log) := by
  unfold outcome
  rw [h]

theorem outcome_none (h : seek no steps got = (done, none, got')) (hends : ends = true) :
    outcome disk no steps ends got log = .ok ((none, got'), logged wrap32 done log) := by
  unfold outcome
  rw [h]
  exact if_pos hends

theorem outcome_endless (h : seek no steps got = (done, none, got')) (hends : ¬ ends = true) :
    outcome disk no steps ends got log = .error .outOfFuel := by
  unfold outcome
  rw [h]
  exact if_neg hends

theorem outcome_append (rest : List Step) (h : seek no steps got = (done, none, got')) :
    outcome disk no (steps ++ rest) ends got log =
      outcome disk no rest ends got' (logged wrap32 done log) := by
  have happend := seek_append_none rest h
  rcases hrest : seek no rest got' with ⟨done', found, got''⟩
  rw [hrest] at happend
  cases found with
  | some c => rw [outcome_some happend, outcome_some hrest, logged_append]
  | none =>
    by_cases hends : ends = true
    · rw [outcome_none happend hends, outcome_none hrest hends, logged_append]
    · rw [outcome_endless happend hends, outcome_endless hrest hends]

theorem outcome_hit (rest : List Step) (hhit : int32 (got + 1) = no) :
    outcome disk no (.counts c :: rest) ends got log =
      .ok ((some (partOf wrap32 disk c), int32 (got + 1)), log) := by
  have hseek : seek no (.counts c :: rest) got = ([.counts c], some c, int32 (got + 1)) := by
    rw [seek, if_pos hhit]
  exact outcome_some hseek

theorem outcome_miss (rest : List Step) (hmiss : ¬ int32 (got + 1) = no) :
    outcome disk no (.counts c :: rest) ends got log =
      outcome disk no rest ends (int32 (got + 1)) log := by
  have hseek : seek no [.counts c] got = ([.counts c], none, int32 (got + 1)) := by
    rw [seek, if_neg hmiss]
    rfl
  exact outcome_append rest hseek

theorem outcome_reads (place : Place) (rest : List Step) :
    outcome disk no (.reads place :: rest) ends got log =
      outcome disk no rest ends got (⟨wrap32 place.sum, 1⟩ :: log) := by
  have hseek : seek no [.reads place] got = ([.reads place], none, got) := rfl
  exact outcome_append rest hseek

end Outcomes

/-- The records read are in the sectors that the code computes. -/
def Agrees (sector : ℕ → ℕ) (steps : List Step) : Prop :=
  ∀ place, Step.reads place ∈ steps → sector place.sum = wrap32 place.sum

theorem part_of_entry (disk : DiskDescr) (base off : ℕ) (e : TableEntry) :
    allocPartition disk ((base + off + e.off) % 2 ^ 32) e.len =
      partOf wrap32 disk ⟨⟨base, off⟩, e⟩ := by
  simp [allocPartition, partOf, wrap32, Counted.start, Place.sum]

theorem primary_of_entry (disk : DiskDescr) (table : Bytes) (x : ℕ) :
    allocPartition disk (entryAt table x).off (entryAt table x).len =
      partOf wrap32 disk ⟨⟨0, 0⟩, entryAt table x⟩ := by
  have hoff : (entryAt table x).off < 2 ^ 32 := le32_lt _ _
  simp only [allocPartition, partOf, wrap32, Counted.start, Place.sum, Nat.zero_add,
    Nat.mod_eq_of_lt hoff]

section Search
variable {disk : DiskDescr} {no : ℤ} {sector : ℕ → ℕ}
  {follow : ℕ → ℤ → DevM (Option PartDescr × ℤ)} {alloc : TableEntry → PartDescr}
  {followWalk : ℕ → List Step × Bool} {place : Place}

/-- If descending does the steps of the chain, scanning does those of the table.
The induction is on the entries left. -/
theorem scanTable_outcome
    (hfollow : ∀ off got log, Agrees sector (seek no (followWalk off).1 got).1 →
      follow off got log = outcome disk no (followWalk off).1 (followWalk off).2 got log)
    (table : Bytes)
    (halloc : ∀ x, alloc (entryAt table x) = partOf wrap32 disk ⟨place, entryAt table x⟩)
    (n x : ℕ) (got : ℤ) (log : Log) (hagrees : Agrees sector (seek no (walkEntries followWalk place
      ((List.range' x n).map (entryAt table))).1 got).1) :
    scanTable follow alloc no table n x got log =
      let walk := walkEntries followWalk place ((List.range' x n).map (entryAt table))
      outcome disk no walk.1 walk.2 got log := by
  induction n generalizing x got log with
  | zero => rfl
  | succ n ih =>
    rw [List.range'_succ, List.map_cons, walkEntries] at hagrees ⊢
    rw [scanTable]
    by_cases hext : (entryAt table x).Extended
    · have hrun := hfollow (entryAt table x).off got log
      simp only [if_pos hext] at hagrees ⊢
      rcases hseek : seek no (followWalk (entryAt table x).off).1 got with ⟨done, found, got'⟩
      rw [hseek] at hrun
      by_cases hfull : (followWalk (entryAt table x).off).2 = true
      · rw [if_pos hfull] at hagrees ⊢
        cases found with
        | some c =>
          have happend := seek_append_some (walkEntries followWalk place
            ((List.range' (x + 1) n).map (entryAt table))).1 hseek
          dsimp only at hagrees
          rw [happend] at hagrees
          rw [bind_ok ((hrun hagrees).trans (outcome_some hseek)), outcome_some happend]
          rfl
        | none =>
          dsimp only at hagrees
          rw [seek_append_none _ hseek] at hagrees
          have hhere := hrun fun p hp => hagrees p (List.mem_append_left _ hp)
          rw [bind_ok (hhere.trans (outcome_none hseek hfull)), outcome_append _ hseek]
          exact ih (x + 1) got' _ fun p hp => hagrees p (List.mem_append_right _ hp)
      · rw [if_neg hfull] at hagrees ⊢
        rw [hseek] at hagrees
        cases found with
        | some c =>
          rw [bind_ok ((hrun hagrees).trans (outcome_some hseek)), outcome_some hseek]
          rfl
        | none =>
          rw [bind_error ((hrun hagrees).trans (outcome_endless hseek hfull)),
            outcome_endless hseek hfull]
    · simp only [if_neg hext] at hagrees ⊢
      by_cases hfree : (entryAt table x).type = 0
      · rw [if_pos hfree] at hagrees ⊢
        rw [if_neg (by omega)]
        exact ih (x + 1) got log hagrees
      · rw [if_neg hfree] at hagrees ⊢
        rw [if_pos (Nat.pos_of_ne_zero hfree)]
        by_cases hhit : int32 (got + 1) = no
        · rw [if_pos hhit, outcome_hit _ hhit, halloc]
          rfl
        · rw [if_neg hhit, outcome_miss _ hhit]
          refine ih (x + 1) _ log fun p hp => hagrees p ?_
          dsimp only
          rw [seek, if_neg hhit]
          exact List.mem_cons_of_mem _ hp

end Search

section Runs
variable (disk : DiskDescr) (bad : ℕ → Bool) (hbad : BadSectors disk bad) (no : ℤ)
  (sector : ℕ → ℕ)
include hbad

theorem diskRead_record (s : ℕ) (log : Log) :
    ∃ buf, diskRead disk s 1 sectorBuf 0 log =
      .ok ((if bad s then -1 else 0, buf), ⟨s, 1⟩ :: log) ∧
      (bad s = false → ∀ n ≤ 4, (List.range' 0 n).map (entryAt buf) = tableEntries disk s n) := by
  have hfails : disk.fails log ⟨s, 1⟩ = bad s := hbad log s
  have hstart : ((s : ℤ) * 512).toNat = s * 512 := by omega
  cases h : bad s with
  | true => exact ⟨_, if_pos (hfails.trans h), fun hf => nomatch hf⟩
  | false =>
    refine ⟨_, if_neg (by rw [hfails, h]; decide), fun _ n hn => ?_⟩
    rw [hstart]
    exact (tableEntries_eq disk s n hn).symm

/-- Searching a chain does the steps of its walk, with fuel for its depth. -/
theorem parseLogicPartition_outcome (base fuel off : ℕ) (got : ℤ) (log : Log)
    (hagrees : Agrees sector (seek no (walkRecord disk bad sector base fuel off).1 got).1) :
    parseLogicPartition disk no base fuel off got log =
      let walk := walkRecord disk bad sector base fuel off
      outcome disk no walk.1 walk.2 got log := by
  induction fuel generalizing off got log with
  | zero => rfl
  | succ fuel ih =>
    obtain ⟨buf, hread, hentries⟩ := diskRead_record disk bad hbad (wrap32 (base + off)) log
    unfold parseLogicPartition
    change (diskRead disk (wrap32 (base + off)) 1 sectorBuf 0 >>= _) log = _
    rw [bind_ok hread]
    have hsector : sector (base + off) = wrap32 (base + off) := by
      apply hagrees ⟨base, off⟩
      unfold walkRecord
      dsimp only
      split <;> exact List.mem_cons_self
    rw [walkRecord] at hagrees ⊢
    simp only [hsector] at hagrees ⊢
    by_cases hb : bad (wrap32 (base + off)) = true
    · rw [if_pos hb, if_pos hb, if_pos (by decide)]
      rfl
    · rw [if_neg hb] at hagrees ⊢
      rw [if_neg hb, if_neg (by decide), outcome_reads]
      rw [← hentries (Bool.eq_false_of_not_eq_true hb) 2 (by decide)] at hagrees ⊢
      refine scanTable_outcome ih buf (fun x => part_of_entry disk base off _) 2 0 got _
        fun p hp => ?_
      exact hagrees p (List.mem_cons_of_mem _ hp)

/-- The search does the steps of the walk over the disk. -/
theorem diskGetPartition_outcome (fuel : ℕ) (log : Log)
    (hagrees : Agrees sector (seek no (walkDisk disk bad sector fuel).1 0).1) :
    diskGetPartition fuel disk no log =
      let walk := walkDisk disk bad sector fuel
      (outcome disk no walk.1 walk.2 0 (⟨0, 1⟩ :: log)).map fun r => (r.1.1, r.2) := by
  obtain ⟨buf, hread, hentries⟩ := diskRead_record disk bad hbad 0 log
  unfold diskGetPartition diskGetMbrPartition
  change (diskRead disk (0 : ℕ) 1 sectorBuf 0 >>= _) log = _
  rw [bind_ok hread]
  unfold walkDisk at hagrees ⊢
  by_cases hb : bad 0 = true
  · simp only [if_pos hb]
    rfl
  · rw [if_neg hb] at hagrees ⊢
    simp only [if_neg hb]
    rw [if_neg (by decide)]
    rw [← hentries (Bool.eq_false_of_not_eq_true hb) 4 (by decide)] at hagrees ⊢
    have hscan : scanTable (fun off got => parseLogicPartition disk no off fuel 0 got)
        (fun e => allocPartition disk e.off e.len) no buf 4 0 0 (⟨(0 : ℕ), 1⟩ :: log) = _ :=
      scanTable_outcome (fun off => parseLogicPartition_outcome disk bad hbad no sector off fuel 0)
        buf (primary_of_entry disk buf) 4 0 0 (⟨(0 : ℕ), 1⟩ :: log) hagrees
    dsimp only at hscan
    rcases hout : outcome disk no _ _ 0 (⟨(0 : ℕ), 1⟩ :: log) with e | ⟨⟨part, got⟩, log'⟩
    · rw [bind_error (hscan.trans hout)]
      rfl
    · rw [bind_ok (hscan.trans hout)]
      rfl

end Runs

/-- The counted entries among some steps. -/
def counted (steps : List Step) : List Counted :=
  steps.filterMap fun
    | .reads _ => none
    | .counts c => some c

/-- The steps up to the counted entry at index k. -/
def upTo : ℕ → List Step → List Step
  | _, [] => []
  | k, .reads place :: steps => .reads place :: upTo k steps
  | 0, .counts c :: _ => [.counts c]
  | k + 1, .counts c :: steps => .counts c :: upTo k steps

/-- The index of number no, when the counter is at got. It wraps. -/
def indexOf (no got : ℤ) : ℕ := ((no - got - 1) % 2 ^ 32).toNat

theorem indexOf_hit (no got : ℤ) (h : int32 (got + 1) = no) : indexOf no got = 0 :=
  int32_steps_zero h

section Index
variable {no : ℤ} (hno : -2 ^ 31 ≤ no ∧ no < 2 ^ 31) (got : ℤ)
include hno

theorem indexOf_miss (h : ¬ int32 (got + 1) = no) :
    indexOf no got = indexOf no (int32 (got + 1)) + 1 := int32_steps_succ hno h

/-- A search is indexing into the counted entries. -/
theorem seek_eq (steps : List Step) :
    (seek no steps got).1 = upTo (indexOf no got) steps ∧
      (seek no steps got).2.1 = (counted steps)[indexOf no got]? := by
  induction steps generalizing got with
  | nil => exact ⟨rfl, rfl⟩
  | cons step steps ih =>
    cases step with
    | reads place =>
      obtain ⟨hsteps, hfound⟩ := ih got
      rw [seek, upTo, hsteps]
      exact ⟨rfl, hfound⟩
    | counts c =>
      rw [seek]
      by_cases hhit : int32 (got + 1) = no
      · rw [if_pos hhit, indexOf_hit no got hhit]
        exact ⟨rfl, rfl⟩
      · obtain ⟨hsteps, hfound⟩ := ih (int32 (got + 1))
        rw [if_neg hhit, indexOf_miss hno got hhit, upTo]
        dsimp only
        rw [hsteps]
        exact ⟨rfl, hfound⟩

/-- A search returns if it finds the entry or comes to the end of the walk. -/
theorem outcome_returns (disk : DiskDescr) (steps : List Step) (ends : Bool) (log : Log) :
    (∃ r, outcome disk no steps ends got log = .ok r) ↔
      ends = true ∨ indexOf no got < (counted steps).length := by
  have hfound := (seek_eq hno got steps).2
  rcases hseek : seek no steps got with ⟨done, _ | c, got'⟩
  · rw [hseek] at hfound
    have hlength := List.getElem?_eq_none_iff.mp hfound.symm
    by_cases hends : ends = true
    · exact iff_of_true ⟨_, outcome_none hseek hends⟩ (Or.inl hends)
    · refine iff_of_false ?_ (not_or.mpr ⟨hends, Nat.not_lt.mpr hlength⟩)
      rintro ⟨r, hr⟩
      cases hr.symm.trans (outcome_endless hseek hends)
  · rw [hseek] at hfound
    obtain ⟨hlt, -⟩ := List.getElem?_eq_some_iff.mp hfound.symm
    exact iff_of_true ⟨_, outcome_some hseek⟩ (Or.inr hlt)

end Index

end Eokan.PartitionSearch
