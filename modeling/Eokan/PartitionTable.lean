import Eokan.Device
import Mathlib.Data.List.Basic

/-!
Partition tables. The MBR holds four entries; an extended entry leads to a
chain of extended boot records with two entries each. The code looks for the
partition of a given number with a counter that it threads through the
recursion. Here its answer is compared with indexing into the list of all
partitions, which is defined from the disk content alone.
-/
namespace Eokan.PartitionTable

open ByteMem CInt Programs Device

structure TableEntry where
  type : ℕ
  off : ℕ
  len : ℕ
  deriving DecidableEq

/-- Entry x of a table sector. The status byte is only printed. -/
def entryAt (table : Bytes) (x : ℕ) : TableEntry where
  type := (table (16 * x + 446 + 4)).toNat
  off := le32 table (16 * x + 446 + 8)
  len := le32 table (16 * x + 446 + 12)

def TableEntry.Extended (e : TableEntry) : Prop := e.type = 0x5 ∨ e.type = 0xf

instance (e : TableEntry) : Decidable e.Extended := by
  unfold TableEntry.Extended
  infer_instance

def allocPartition (disk : DiskDescr) (off len : ℕ) : PartDescr := ⟨disk, off, len⟩

def sectorBuf : Bytes := fun _ => 0

/-- The loop over n entries from entry x on, common to both kinds of table.
`follow` descends into an extended entry, `alloc` is the partition of any
other used entry. -/
def scanTable (follow : ℕ → ℤ → DevM (Option PartDescr × ℤ)) (alloc : TableEntry → PartDescr)
    (no : ℤ) (table : Bytes) : ℕ → ℕ → ℤ → DevM (Option PartDescr × ℤ)
  | 0, _, got => pure (none, got)
  | n + 1, x, got =>
    let e := entryAt table x
    if e.Extended then do
      let (part, got) ← follow e.off got
      match part with
      | some p => pure (some p, got)
      | none => scanTable follow alloc no table n (x + 1) got
    else if 0 < e.type then
      let got := int32 (got + 1)
      if got = no then pure (some (alloc e), got)
      else scanTable follow alloc no table n (x + 1) got
    else scanTable follow alloc no table n (x + 1) got

/-- Sector numbers are 32-bit sums. Nothing bounds the depth of the chain. -/
def parseLogicPartition (disk : DiskDescr) (no : ℤ) (logicOff : ℕ) :
    ℕ → ℕ → ℤ → DevM (Option PartDescr × ℤ)
  | 0, _, _ => fault .outOfFuel
  | fuel + 1, off, got => do
    let (status, xbr) ← diskRead disk ((logicOff + off) % 2 ^ 32 : ℕ) 1 sectorBuf 0
    if status < 0 then pure (none, got)
    else
      scanTable (parseLogicPartition disk no logicOff fuel)
        (fun e => allocPartition disk ((logicOff + off + e.off) % 2 ^ 32) e.len) no xbr 2 0 got

def diskGetMbrPartition (fuel : ℕ) (disk : DiskDescr) (no : ℤ) : DevM (Option PartDescr) := do
  let (status, mbr) ← diskRead disk 0 1 sectorBuf 0
  if status < 0 then pure none
  else do
    let (part, _) ← scanTable (fun off got => parseLogicPartition disk no off fuel 0 got)
      (fun e => allocPartition disk e.off e.len) no mbr 4 0 0
    pure part

def diskGetPartition (fuel : ℕ) (disk : DiskDescr) (no : ℤ) : DevM (Option PartDescr) :=
  diskGetMbrPartition fuel disk no

/-- The loop of the service over the partitions of one disk, n more of them from number
k + 1 on. `get` is how a partition is got, `visit` what is done with it. -/
def mountParts {σ ε : Type} (get : ℤ → Prog σ ε (Option PartDescr))
    (visit : ℕ → PartDescr → Prog σ ε Unit) : ℕ → ℕ → Prog σ ε (List PartDescr)
  | 0, _ => pure []
  | n + 1, k => do
    match ← get (k + 1) with
    | none => pure []
    | some part => do
      visit k part
      let rest ← mountParts get visit n (k + 1)
      pure (part :: rest)

/-- The sectors in bad, and only these, fail to be read. -/
def BadSectors (disk : DiskDescr) (bad : ℕ → Bool) : Prop :=
  ∀ log (s : ℕ), disk.fails log ⟨s, 1⟩ = bad s

/-- The n entries of the table in sector s. -/
def tableEntries (disk : DiskDescr) (s n : ℕ) : List TableEntry :=
  (List.range n).map (entryAt (slice disk.image (s * 512)))

/-- What one entry contributes: an extended one the list it leads to. -/
def listEntry (follow : ℕ → Option (List PartDescr)) (leaf : TableEntry → Option PartDescr)
    (e : TableEntry) : Option (List PartDescr) :=
  if e.Extended then follow e.off
  else if e.type = 0 then some []
  else (leaf e).map fun p => [p]

def listEntries (follow : ℕ → Option (List PartDescr)) (leaf : TableEntry → Option PartDescr) :
    List TableEntry → Option (List PartDescr)
  | [] => some []
  | e :: es =>
    (listEntry follow leaf e).bind fun here =>
      (listEntries follow leaf es).map fun rest => here ++ rest

/-- The partitions of the record at offset off and of the chain behind it, at
most n records deep. There is none when the chain is longer or when a sum of
offsets reaches 2 ^ 32. -/
def logicalList (disk : DiskDescr) (bad : ℕ → Bool) (base : ℕ) :
    ℕ → ℕ → Option (List PartDescr)
  | 0, _ => none
  | n + 1, off =>
    if 2 ^ 32 ≤ base + off then none
    else if bad (base + off) then some []
    else
      listEntries (logicalList disk bad base n)
        (fun e => if 2 ^ 32 ≤ base + off + e.off then none
          else some ⟨disk, base + off + e.off, e.len⟩)
        (tableEntries disk (base + off) 2)

/-- All partitions of the disk, depth first and left to right. -/
def partitionList (disk : DiskDescr) (bad : ℕ → Bool) (n : ℕ) : Option (List PartDescr) :=
  if bad 0 then some []
  else
    listEntries (fun off => logicalList disk bad off n 0) (fun e => some ⟨disk, e.off, e.len⟩)
      (tableEntries disk 0 4)

/-- What the counter does on a list: it stops at the element that makes it no. -/
def countTo (no : ℤ) : List PartDescr → ℤ → Option PartDescr × ℤ
  | [], got => (none, got)
  | p :: ps, got =>
    if int32 (got + 1) = no then (some p, int32 (got + 1)) else countTo no ps (int32 (got + 1))

theorem countTo_append (no : ℤ) (l l' : List PartDescr) (got : ℤ) :
    countTo no (l ++ l') got =
      match countTo no l got with
      | (some p, g) => (some p, g)
      | (none, g) => countTo no l' g := by
  induction l generalizing got with
  | nil => rfl
  | cons p ps ih =>
    simp only [List.cons_append, countTo]
    split
    · rfl
    · exact ih (int32 (got + 1))

/-- The counter wraps, so a number stands for its residue. -/
theorem countTo_eq_getElem (no : ℤ) (hno : -2 ^ 31 ≤ no ∧ no < 2 ^ 31) (l : List PartDescr)
    (got : ℤ) : (countTo no l got).1 = l[((no - got - 1) % 2 ^ 32).toNat]? := by
  induction l generalizing got with
  | nil => rfl
  | cons p ps ih =>
    unfold countTo
    split
    · rename_i hhit
      rw [int32_steps_zero hhit]
      rfl
    · rename_i hmiss
      rw [ih, int32_steps_succ hno hmiss, List.getElem?_cons_succ]

section Scan
variable (no : ℤ) {follow : ℕ → ℤ → DevM (Option PartDescr × ℤ)}
  {alloc : TableEntry → PartDescr} {followList : ℕ → Option (List PartDescr)}
  {leaf : TableEntry → Option PartDescr}

/-- If descending counts through the list of the chain, scanning counts
through the list of the table. The induction is on the entries left. -/
theorem scanTable_counts
    (hfollow : ∀ off l, followList off = some l → ∀ got log,
      Yields (follow off got) log fun r _ => r = countTo no l got)
    (halloc : ∀ e p, leaf e = some p → alloc e = p) (table : Bytes) (n x : ℕ)
    (l : List PartDescr)
    (hl : listEntries followList leaf ((List.range' x n).map (entryAt table)) = some l)
    (got : ℤ) (log : Log) :
    Yields (scanTable follow alloc no table n x got) log fun r _ => r = countTo no l got := by
  induction n generalizing x l got log with
  | zero =>
    obtain rfl : [] = l := Option.some.inj hl
    exact Yields.pure rfl
  | succ n ih =>
    rw [List.range'_succ, List.map_cons, listEntries] at hl
    obtain ⟨here, hhere, hl⟩ := Option.bind_eq_some_iff.mp hl
    obtain ⟨rest, hrest, rfl⟩ := Option.map_eq_some_iff.mp hl
    unfold listEntry at hhere
    unfold scanTable
    rw [countTo_append]
    by_cases hext : (entryAt table x).Extended
    · rw [if_pos hext] at hhere ⊢
      refine Yields.bind (hfollow _ here hhere got log) ?_
      rintro ⟨part, got'⟩ log' heq
      rw [← heq]
      cases part with
      | some p => exact Yields.pure rfl
      | none => exact ih (x + 1) rest hrest got' log'
    · rw [if_neg hext] at hhere ⊢
      by_cases hfree : (entryAt table x).type = 0
      · rw [if_pos hfree] at hhere
        obtain rfl : [] = here := Option.some.inj hhere
        rw [if_neg (by omega)]
        exact ih (x + 1) rest hrest got log
      · rw [if_neg hfree] at hhere
        obtain ⟨p, hleaf, rfl⟩ := Option.map_eq_some_iff.mp hhere
        rw [if_pos (by omega)]
        simp only [countTo]
        by_cases hhit : int32 (got + 1) = no
        · rw [if_pos hhit, if_pos hhit, halloc _ p hleaf]
          exact Yields.pure rfl
        · rw [if_neg hhit, if_neg hhit]
          exact ih (x + 1) rest hrest _ log

end Scan

/-- A table read into the sector buffer has the entries of its sector. -/
theorem entryAt_write (src : Bytes) (x : ℕ) (hx : x < 4) :
    entryAt (write sectorBuf 0 512 src) x = entryAt src x := by
  have hbyte : ∀ j, j < 512 → write sectorBuf 0 512 src (0 + j) = src j :=
    fun j hj => write_at sectorBuf 0 512 src hj
  simp only [Nat.zero_add] at hbyte
  have hoff : le32 (write sectorBuf 0 512 src) (16 * x + 446 + 8) = le32 src (16 * x + 446 + 8) :=
    le32_congr fun j hj => hbyte _ (by omega)
  have hlen : le32 (write sectorBuf 0 512 src) (16 * x + 446 + 12) =
      le32 src (16 * x + 446 + 12) := le32_congr fun j hj => hbyte _ (by omega)
  unfold entryAt
  rw [hoff, hlen, hbyte _ (by omega)]

theorem tableEntries_eq (disk : DiskDescr) (s n : ℕ) (hn : n ≤ 4) :
    tableEntries disk s n = (List.range' 0 n).map
      (entryAt (write sectorBuf 0 512 (slice disk.image (s * 512)))) := by
  unfold tableEntries
  rw [List.range_eq_range']
  refine List.map_congr_left fun x hx => (entryAt_write _ x ?_).symm
  have := (List.mem_range'_1.mp hx).2
  omega

section Listing
variable (disk : DiskDescr) (bad : ℕ → Bool) (hbad : BadSectors disk bad) (no : ℤ)
include hbad

theorem diskRead_table (s : ℕ) (log : Log) :
    Yields (diskRead disk s 1 sectorBuf 0) log fun r _ =>
      (bad s = true ∧ r.1 = -1) ∨
      (bad s = false ∧ r = (0, write sectorBuf 0 512 (slice disk.image (s * 512)))) := by
  have hfails : disk.fails log ⟨s, 1⟩ = bad s := hbad log s
  have hstart : ((s : ℤ) * 512).toNat = s * 512 := by omega
  cases h : bad s with
  | true => exact ⟨_, _, if_pos (hfails.trans h), Or.inl ⟨rfl, rfl⟩⟩
  | false =>
    refine ⟨_, _, if_neg (by rw [hfails, h]; decide), Or.inr ⟨rfl, ?_⟩⟩
    rw [hstart]
    rfl

/-- Searching a chain counts through its list, with fuel for its depth. -/
theorem parseLogicPartition_counts (base : ℕ) (n fuel : ℕ) (hfuel : n ≤ fuel) (off : ℕ)
    (l : List PartDescr) (hl : logicalList disk bad base n off = some l) (got : ℤ) (log : Log) :
    Yields (parseLogicPartition disk no base fuel off got) log
      fun r _ => r = countTo no l got := by
  induction n generalizing fuel off l got log with
  | zero => cases hl
  | succ n ih =>
    obtain ⟨fuel, rfl⟩ : ∃ m, fuel = m + 1 := ⟨fuel - 1, by omega⟩
    unfold logicalList at hl
    by_cases hsum : 2 ^ 32 ≤ base + off
    · rw [if_pos hsum] at hl
      cases hl
    · rw [if_neg hsum] at hl
      unfold parseLogicPartition
      rw [Nat.mod_eq_of_lt (by omega)]
      refine Yields.bind (diskRead_table disk bad hbad (base + off) log) ?_
      rintro ⟨status, xbr⟩ log' (⟨hb, rfl⟩ | ⟨hb, heq⟩)
      · rw [if_pos hb] at hl
        obtain rfl : [] = l := Option.some.inj hl
        exact Yields.pure rfl
      · rw [hb, if_neg (by decide), tableEntries_eq disk _ 2 (by omega)] at hl
        cases heq
        refine scanTable_counts no (ih fuel (by omega)) ?_ _ 2 0 l hl got log'
        intro e p hleaf
        by_cases hstart : 2 ^ 32 ≤ base + off + e.off
        · rw [if_pos hstart] at hleaf
          cases hleaf
        · rw [if_neg hstart] at hleaf
          obtain rfl := Option.some.inj hleaf
          rw [Nat.mod_eq_of_lt (by omega)]
          rfl

theorem diskGetPartition_counts (n fuel : ℕ) (hfuel : n ≤ fuel) (l : List PartDescr)
    (hl : partitionList disk bad n = some l) (log : Log) :
    Yields (diskGetPartition fuel disk no) log fun r _ => r = (countTo no l 0).1 := by
  unfold partitionList at hl
  unfold diskGetPartition diskGetMbrPartition
  refine Yields.bind (diskRead_table disk bad hbad 0 log) ?_
  rintro ⟨status, mbr⟩ log' (⟨hb, rfl⟩ | ⟨hb, heq⟩)
  · rw [if_pos hb] at hl
    obtain rfl : [] = l := Option.some.inj hl
    exact Yields.pure rfl
  · rw [hb, if_neg (by decide), tableEntries_eq disk _ 4 (by omega)] at hl
    cases heq
    refine Yields.bind (scanTable_counts no ?_ ?_ _ 4 0 l hl 0 log') ?_
    · intro off l' hl' got log''
      exact parseLogicPartition_counts disk bad hbad no off n fuel hfuel 0 l' hl' got log''
    · intro e p hleaf
      exact Option.some.inj hleaf
    · rintro _ log'' rfl
      exact Yields.pure rfl

/-- Number k + 1 is the element at index k, and there is none past the end. -/
theorem diskGetPartition_nth (n fuel : ℕ) (hfuel : n ≤ fuel) (l : List PartDescr)
    (hl : partitionList disk bad n = some l) (k : ℕ) (hk : k + 1 < 2 ^ 31) (log : Log) :
    Yields (diskGetPartition fuel disk (k + 1)) log fun r _ => r = l[k]? := by
  refine (diskGetPartition_counts disk bad hbad (k + 1) n fuel hfuel l hl log).mono ?_
  rintro r log' rfl
  rw [countTo_eq_getElem _ (by omega) l 0]
  exact congrArg (fun i => l[i]?) (by omega)

theorem mountParts_visits (visit : ℕ → PartDescr → DevM Unit)
    (hvisit : ∀ k p log, Yields (visit k p) log fun _ _ => True) (n fuel : ℕ) (hfuel : n ≤ fuel)
    (l : List PartDescr) (hl : partitionList disk bad n = some l) (m k : ℕ)
    (hk : k + m < 2 ^ 31) (log : Log) :
    Yields (mountParts (diskGetPartition fuel disk) visit m k) log
      fun r _ => r = (l.drop k).take m := by
  induction m generalizing k log with
  | zero => exact Yields.pure List.take_zero.symm
  | succ m ih =>
    unfold mountParts
    refine Yields.bind (diskGetPartition_nth disk bad hbad n fuel hfuel l hl k (by omega) log) ?_
    rintro part log' rfl
    cases hpart : l[k]? with
    | none =>
      have hlen : l.length ≤ k := List.getElem?_eq_none_iff.mp hpart
      refine Yields.pure ?_
      rw [List.drop_eq_nil_of_le hlen, List.take_nil]
    | some p =>
      obtain ⟨hlt, rfl⟩ := List.getElem?_eq_some_iff.mp hpart
      refine Yields.bind (hvisit k _ log') fun _ log'' _ => ?_
      refine Yields.bind (ih (k + 1) (by omega) log'') ?_
      rintro rest log₃ rfl
      refine Yields.pure ?_
      rw [List.drop_eq_getElem_cons hlt, List.take_succ_cons]

/-- A number from 1 on is answered by that element of the list. The counter is
a 32-bit `int`: a number below 1 is answered only when a list is so long that
the counter wraps round to it. The loop of the service sees each partition
once, up to its limit. -/
theorem diskGetPartition_eq_list (n fuel : ℕ) (hfuel : n ≤ fuel) (l : List PartDescr)
    (hl : partitionList disk bad n = some l) :
    (∀ no : ℤ, -2 ^ 31 ≤ no ∧ no < 2 ^ 31 → ∀ log,
      Yields (diskGetPartition fuel disk no) log fun r _ =>
        (1 ≤ no → r = l[(no - 1).toNat]? ∧ (r = none ↔ l.length < no)) ∧
        (no < 1 → (r = none ↔ l.length < 2 ^ 32 + no))) ∧
    ∀ visit : ℕ → PartDescr → DevM Unit, (∀ k p log, Yields (visit k p) log fun _ _ => True) →
      ∀ log, Yields (mountParts (diskGetPartition fuel disk) visit 16 0) log
        fun r _ => r = l.take 16 := by
  constructor
  · intro no hno log
    refine (diskGetPartition_counts disk bad hbad no n fuel hfuel l hl log).mono ?_
    rintro r log' rfl
    rw [countTo_eq_getElem no hno l 0]
    constructor
    · intro hpos
      have hindex : ((no - 0 - 1) % 2 ^ 32).toNat = (no - 1).toNat := by omega
      rw [hindex, List.getElem?_eq_none_iff]
      exact ⟨rfl, by omega⟩
    · intro hneg
      rw [List.getElem?_eq_none_iff]
      omega
  · intro visit hvisit log
    exact mountParts_visits disk bad hbad visit hvisit n fuel hfuel l hl 16 0 (by omega) log

end Listing

/-- A primary partition, then an extended one with two logical partitions. -/
def mixedDisk : DiskDescr := DiskDescr.ofImage fun b =>
  match b with
  | 450 => 0x83
  | 454 => 1
  | 458 => 2
  | 466 => 0xf
  | 470 => 4
  | 2498 => 0x83
  | 2502 => 1
  | 2506 => 2
  | 2514 => 0x5
  | 2518 => 3
  | 4034 => 0x83
  | 4038 => 1
  | 4042 => 1
  | _ => 0

theorem mixedDisk_list : partitionList mixedDisk (fun _ => false) 2 =
    some [⟨mixedDisk, 1, 2⟩, ⟨mixedDisk, 5, 2⟩, ⟨mixedDisk, 8, 1⟩] := by
  have hentries : tableEntries mixedDisk 0 4 = [⟨0x83, 1, 2⟩, ⟨0xf, 4, 0⟩, ⟨0, 0, 0⟩, ⟨0, 0, 0⟩] ∧
      tableEntries mixedDisk 4 2 = [⟨0x83, 1, 2⟩, ⟨0x5, 3, 0⟩] ∧
      tableEntries mixedDisk 7 2 = [⟨0x83, 1, 1⟩, ⟨0, 0, 0⟩] := by decide +kernel
  simp [partitionList, logicalList, hentries, listEntries, listEntry, TableEntry.Extended]

theorem diskGetPartition_eq_list_mixed :
    Yields (diskGetPartition 2 mixedDisk 3) [] (fun r _ => r = some ⟨mixedDisk, 8, 1⟩) ∧
    Yields (diskGetPartition 2 mixedDisk 4) [] (fun r _ => r = none) ∧
    Yields (diskGetPartition 2 mixedDisk 0) [] (fun r _ => r = none) ∧
    Yields (mountParts (diskGetPartition 2 mixedDisk) (fun _ _ => pure ()) 16 0) []
      (fun r _ => r.length = 3) := by
  have hbad : BadSectors mixedDisk (fun _ => false) := fun _ _ => rfl
  obtain ⟨hnth, hmount⟩ := diskGetPartition_eq_list mixedDisk (fun _ => false) hbad 2 2
    (Nat.le_refl _) _ mixedDisk_list
  refine ⟨(hnth 3 (by decide) []).mono ?_, (hnth 4 (by decide) []).mono ?_,
    (hnth 0 (by decide) []).mono ?_,
    (hmount (fun _ _ => pure ()) (fun _ _ _ => Yields.pure trivial) []).mono ?_⟩
  · exact fun r _ h => (h.1 (by decide)).1
  · exact fun r _ h => (h.1 (by decide)).1
  · exact fun r _ h => (h.2 (by decide)).mpr (by decide)
  · rintro r _ rfl
    rfl

/-- A chain of 32 records: both entries of a record lead to the next one, those
of the last are partitions. -/
def chainByte (s o : ℕ) : UInt8 :=
  if s = 0 then if o = 450 then 0x5 else if o = 454 then 1 else 0
  else if o = 450 ∨ o = 466 then if s < 32 then 0x5 else 0x83
  else if o = 454 ∨ o = 470 then if s < 32 then UInt8.ofNat s else 1
  else 0

def chainDisk : DiskDescr := DiskDescr.ofImage fun b => chainByte (b / 512) (b % 512)

theorem chainDisk_entries :
    tableEntries chainDisk 0 4 = [⟨0x5, 1, 0⟩, ⟨0, 0, 0⟩, ⟨0, 0, 0⟩, ⟨0, 0, 0⟩] ∧
    tableEntries chainDisk 32 2 = [⟨0x83, 1, 0⟩, ⟨0x83, 1, 0⟩] ∧
    ∀ s < 32, 1 ≤ s → tableEntries chainDisk s 2 = [⟨0x5, s, 0⟩, ⟨0x5, s, 0⟩] := by
  decide +kernel

/-- Each record doubles the list of the next one. -/
theorem chainDisk_doubles (m : ℕ) (hm : m < 32) :
    logicalList chainDisk (fun _ => false) 1 (m + 1) (31 - m) =
      some (List.replicate (2 ^ (m + 1)) ⟨chainDisk, 33, 0⟩) := by
  induction m with
  | zero =>
    simp [logicalList, chainDisk_entries.2.1, listEntries, listEntry, TableEntry.Extended]
  | succ m ih =>
    have hnext : logicalList chainDisk (fun _ => false) 1 (m + 1) (1 + (31 - (m + 1))) =
        some (List.replicate (2 ^ (m + 1)) ⟨chainDisk, 33, 0⟩) := by
      rw [show 1 + (31 - (m + 1)) = 31 - m by omega]
      exact ih (by omega)
    have hentries := chainDisk_entries.2.2 (1 + (31 - (m + 1))) (by omega) (by omega)
    have hdouble : 2 ^ (m + 1 + 1) = 2 ^ (m + 1) + 2 ^ (m + 1) := by
      rw [Nat.pow_succ, Nat.mul_two]
    unfold logicalList
    rw [if_neg (by omega), if_neg Bool.false_ne_true, hentries, hdouble,
      ← List.replicate_append_replicate]
    simp only [listEntries, listEntry, TableEntry.Extended, true_or, if_true, hnext,
      Option.bind_some, Option.map_some, List.append_nil]

theorem chainDisk_list (l : List PartDescr)
    (hl : logicalList chainDisk (fun _ => false) 1 32 0 = some l) :
    partitionList chainDisk (fun _ => false) 32 = some l := by
  unfold partitionList
  rw [if_neg Bool.false_ne_true, chainDisk_entries.1]
  simp [listEntries, listEntry, TableEntry.Extended, hl]

/-- Number 0 is found on this disk: its list has 2 ^ 32 elements, and the
counter passes 0 after the last one. -/
theorem chainDisk_zero_found :
    BadSectors chainDisk (fun _ => false) ∧
    ∃ l, partitionList chainDisk (fun _ => false) 32 = some l ∧
      Yields (diskGetPartition 32 chainDisk 0) [] fun r _ => r = some ⟨chainDisk, 33, 0⟩ := by
  have hbad : BadSectors chainDisk (fun _ => false) := fun _ _ => rfl
  have hl := chainDisk_list _ (chainDisk_doubles 31 (by decide))
  refine ⟨hbad, _, hl, ?_⟩
  refine (diskGetPartition_counts chainDisk (fun _ => false) hbad 0 32 32 (Nat.le_refl _) _ hl
    []).mono ?_
  rintro r log' rfl
  rw [countTo_eq_getElem 0 (by decide), List.getElem?_replicate]
  exact if_pos (by decide)

end Eokan.PartitionTable
