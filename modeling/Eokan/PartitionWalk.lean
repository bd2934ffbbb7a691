import Eokan.PartitionTable
import Eokan.Walks
import Mathlib.Data.Set.Finite.Basic
import Mathlib.Order.Interval.Finset.Nat

/-!
The walk over the records of a disk, depth first. It is defined from the disk
content alone and may be endless. Up to a depth it is a list of steps.
-/
namespace Eokan.PartitionWalk

open ByteMem CInt Programs Device PartitionTable Relation Walks

/-- A record, at an offset behind the start of an extended partition. -/
structure Place where
  base : ℕ
  off : ℕ

def Place.sum (p : Place) : ℕ := p.base + p.off

/-- An entry that counts, together with the record that has it. -/
structure Counted where
  place : Place
  entry : TableEntry

def Counted.start (c : Counted) : ℕ := c.place.sum + c.entry.off

inductive Step
  | reads (place : Place)
  | counts (c : Counted)

/-- The steps of a table, and if there is an end to them. An endless chain hides
what comes after it. -/
def walkEntries (follow : ℕ → List Step × Bool) (place : Place) :
    List TableEntry → List Step × Bool
  | [] => ([], true)
  | e :: es =>
    let rest := walkEntries follow place es
    if e.Extended then
      let here := follow e.off
      if here.2 then (here.1 ++ rest.1, rest.2) else here
    else if e.type = 0 then rest
    else (.counts ⟨place, e⟩ :: rest.1, rest.2)

section Walk
variable (disk : DiskDescr) (bad : ℕ → Bool) (sector : ℕ → ℕ)

/-- The steps of the record at off and of the chain behind it, up to n records
deep. The record with a sum is in this sector. -/
def walkRecord (base : ℕ) : ℕ → ℕ → List Step × Bool
  | 0, _ => ([], false)
  | n + 1, off =>
    let s := sector (base + off)
    if bad s then ([.reads ⟨base, off⟩], true)
    else
      let rest := walkEntries (walkRecord base n) ⟨base, off⟩ (tableEntries disk s 2)
      (.reads ⟨base, off⟩ :: rest.1, rest.2)

def walkDisk (n : ℕ) : List Step × Bool :=
  if bad 0 then ([], true)
  else walkEntries (fun off => walkRecord disk bad sector off n 0) ⟨0, 0⟩ (tableEntries disk 0 4)

/-- An extended entry of the record at off leads to the one at off'. -/
def Leads (base off off' : ℕ) : Prop :=
  bad (sector (base + off)) = false ∧
    ∃ e ∈ tableEntries disk (sector (base + off)) 2, e.Extended ∧ e.off = off'

/-- No record that an extended entry of the disk leads to leads back to itself. -/
def Acyclic : Prop :=
  bad 0 = false → ∀ e ∈ tableEntries disk 0 4, e.Extended →
    ¬ MeetsCycle (Leads disk bad sector e.off) 0

theorem walkEntries_ends (follow : ℕ → List Step × Bool) (place : Place) (es : List TableEntry) :
    (walkEntries follow place es).2 = true ↔ ∀ e ∈ es, e.Extended → (follow e.off).2 = true := by
  induction es with
  | nil => simp [walkEntries]
  | cons e es ih =>
    rw [walkEntries, List.forall_mem_cons, ← ih]
    by_cases hext : e.Extended
    · by_cases hfull : (follow e.off).2 = true <;> simp [hext, hfull]
    · by_cases htype : e.type = 0 <;> simp [hext, htype]

theorem walkRecord_ends (base n off : ℕ) :
    (walkRecord disk bad sector base n off).2 = true ↔
      Within (Leads disk bad sector base) n off := by
  induction n generalizing off with
  | zero => simp [walkRecord, Within]
  | succ n ih =>
    unfold walkRecord Within Leads
    cases hbad : bad (sector (base + off)) with
    | true => simp [hbad]
    | false =>
      simp only [hbad, if_neg Bool.false_ne_true, walkEntries_ends, ih, true_and]
      constructor
      · rintro h _ ⟨e, he, hext, rfl⟩
        exact h e he hext
      · exact fun h e he hext => h e.off ⟨e, he, hext, rfl⟩

theorem leads_finite (base : ℕ) (s : ℕ) (h : ReflTransGen (Leads disk bad sector base) 0 s) :
    s ∈ Set.Iio (2 ^ 32) := by
  induction h with
  | refl => exact Nat.two_pow_pos 32
  | tail _ hlast _ =>
    obtain ⟨-, e, he, -, rfl⟩ := hlast
    obtain ⟨x, -, rfl⟩ := List.mem_map.mp he
    exact le32_lt _ _

/-- The walk has an end if and only if it meets no cycle. -/
theorem walkDisk_ends :
    (∃ n, (walkDisk disk bad sector n).2 = true) ↔ Acyclic disk bad sector := by
  unfold walkDisk Acyclic
  cases hbad : bad 0 with
  | true => simp
  | false =>
    simp only [if_neg Bool.false_ne_true, walkEntries_ends, walkRecord_ends, true_imp_iff]
    have hwithin : ∀ base, (∃ n, Within (Leads disk bad sector base) n 0) ↔
        ¬ MeetsCycle (Leads disk bad sector base) 0 := fun base =>
      exists_within_iff (Set.finite_Iio (2 ^ 32)) (leads_finite disk bad sector base)
    constructor
    · rintro ⟨n, hn⟩ e he hext
      exact (hwithin e.off).mp ⟨n, hn e he hext⟩
    · intro h
      have hbound : ∀ es : List TableEntry, (∀ e ∈ es, e.Extended →
          ¬ MeetsCycle (Leads disk bad sector e.off) 0) →
          ∃ n, ∀ e ∈ es, e.Extended → Within (Leads disk bad sector e.off) n 0 := by
        intro es
        induction es with
        | nil => exact fun _ => ⟨0, by simp⟩
        | cons e es ih =>
          intro hes
          obtain ⟨n, hn⟩ := ih fun e' he' => hes e' (List.mem_cons_of_mem e he')
          by_cases hext : e.Extended
          · obtain ⟨m, hm⟩ := (hwithin e.off).mpr (hes e List.mem_cons_self hext)
            refine ⟨max m n, List.forall_mem_cons.mpr ⟨fun _ => ?_, fun e' he' hext' => ?_⟩⟩
            · exact hm.mono (Nat.le_max_left m n)
            · exact (hn e' he' hext').mono (Nat.le_max_right m n)
          · exact ⟨n, List.forall_mem_cons.mpr ⟨fun h => absurd h hext, hn⟩⟩
      exact hbound _ h

end Walk

end Eokan.PartitionWalk
