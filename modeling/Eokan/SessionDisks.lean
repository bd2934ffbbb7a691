import Eokan.ErrorFree
import Eokan.SessionPairs

/-!
What a session does not depend on: read errors that it does not meet, and the
disk around the partition. A partition that is copied to another disk, or to
another place of the same one, serves the same session.
-/
namespace Eokan.SessionDisks

open ByteMem CInt Programs Device Devread Layout ErrorFree FileNames Sessions Simulations PartPairs
  SessionPairs

/-- The requests that satisfy p, each one with those before it. -/
def requestWatch (p : Log → Request → Prop) : Watch Log where
  after log log' := log <:+ log'
  good log := ∀ request before, request :: before <:+ log → p before request
  refl := List.suffix_refl
  trans := List.IsSuffix.trans
  back h hgood request before hbefore := hgood request before (hbefore.trans h)

section Reads
variable {p : Log → Request → Prop} {sim : Log → Log → Prop} {disk disk' : DiskDescr}

/-- One read of either disk. -/
theorem diskRead_eq (disk : DiskDescr) (start num : ℤ) (buf : Bytes) (dst : ℕ) (log : Log) :
    diskRead disk start num buf dst log =
      .ok (if disk.fails log ⟨start, num⟩
        then (-1, write buf dst (num * 512).toNat (disk.leftover log ⟨start, num⟩))
        else (0, write buf dst (num * 512).toNat (slice disk.image (start * 512).toNat)),
        ⟨start, num⟩ :: log) := by
  unfold diskRead
  dsimp only
  split <;> rfl

/-- A read follows another one if it does so whenever that one is watched. -/
theorem diskRead_simulates {start start' num : ℤ} {buf : Bytes} {dst : ℕ}
    (h : ∀ log log', sim log log' → p log ⟨start, num⟩ →
      ∀ r, diskRead disk start num buf dst log = .ok (r, ⟨start, num⟩ :: log) →
        diskRead disk' start' num buf dst log' = .ok (r, ⟨start', num⟩ :: log') ∧
          sim (⟨start, num⟩ :: log) (⟨start', num⟩ :: log')) :
    Simulates (requestWatch p) sim (diskRead disk start num buf dst)
      (diskRead disk' start' num buf dst) := by
  constructor
  · intro log r log₁ hrun
    rw [diskRead_eq] at hrun
    cases hrun
    exact List.suffix_cons _ log
  · intro log log' r log₁ hsim hrun hgood
    have hlog : log₁ = ⟨start, num⟩ :: log := by
      rw [diskRead_eq] at hrun
      cases hrun
      rfl
    subst hlog
    have hread := hgood ⟨start, num⟩ log (List.suffix_refl _)
    exact ⟨_, h log log' hsim hread r hrun⟩

end Reads

section Failures
variable (api : Conversions) (past : Bytes) (fuel steps : ℕ) (part : PartDescr)

/-- No read of this run failed. -/
def Unfailing (disk : DiskDescr) (log : Log) : Prop :=
  ∀ request before, request :: before <:+ log → disk.fails before request = false

/-- Where a read succeeds it does what it does on the disk without errors. -/
theorem reads_errorFree :
    Reads (requestWatch fun log request => part.disk.fails log request = false) Eq part
      (errorFreePart part) := by
  intro start num buf dst
  apply diskRead_simulates
  rintro log _ rfl hread r hrun
  rw [diskRead_eq, hread] at hrun
  rw [diskRead_eq]
  exact ⟨hrun, rfl⟩

theorem errorFree_reads :
    Reads (requestWatch fun log request => part.disk.fails log request = false) Eq
      (errorFreePart part) part := by
  intro start num buf dst
  apply diskRead_simulates
  rintro log _ rfl hread r hrun
  change part.disk.fails log ⟨int64 (start + part.off), num⟩ = false at hread
  rw [diskRead_eq] at hrun
  rw [diskRead_eq, hread]
  exact ⟨hrun, rfl⟩

/-- Errors that a session does not meet make no difference to it. -/
theorem mountAndServe_unfailing (calls : List Callback) {replies : Option (List Reply)} {log : Log}
    (h : Unfailing part.disk log) :
    mountAndServe api past fuel steps part calls [] = .ok (replies, log) ↔
      mountAndServe api past fuel steps (errorFreePart part) calls [] = .ok (replies, log) := by
  constructor
  · intro hrun
    obtain ⟨_, hrun', rfl⟩ := (mountAndServe_simulates api past fuel steps
      (reads_errorFree part) calls).follows [] [] replies log rfl hrun h
    exact hrun'
  · intro hrun
    obtain ⟨_, hrun', rfl⟩ := (mountAndServe_simulates api past fuel steps
      (errorFree_reads part) calls).follows [] [] replies log rfl hrun h
    exact hrun'

/-- The same partition with an unreadable sector at its end. -/
def scratchedPart : PartDescr :=
  ⟨⟨backslashImage, fun _ q => q.start = (15 : ℤ), fun _ _ => backslashImage⟩, 0, 16⟩

/-- A file is opened, read and closed, and the root is listed. -/
def oneFile : List Callback :=
  [.createFile 0 [separator, 0x66] false, .readFile 0 (fun _ => 0) 4 0, .findFiles [],
    .closeFile 0]

/-- So many calls are served, and all requests are good. -/
def Served (n : ℕ) (good : Request → Prop) (replies : Option (List Reply)) (log : Log) : Prop :=
  replies.map List.length = some n ∧ ∀ q ∈ log, good q

instance (n : ℕ) (good : Request → Prop) [DecidablePred good] (replies : Option (List Reply))
    (log : Log) : Decidable (Served n good replies log) := by
  unfold Served
  infer_instance

/-- The session does not read the last sector. -/
theorem mountAndServe_unfailing_scratched :
    ∃ replies log, replies.map List.length = some 4 ∧
      mountAndServe ascii (fun _ => 0) 1 3 (errorFreePart scratchedPart) oneFile [] =
        .ok (replies, log) := by
  obtain ⟨replies, log, hrun, hlength, hlog⟩ :
      ∃ replies log, mountAndServe ascii (fun _ => 0) 1 3 scratchedPart oneFile [] =
        .ok (replies, log) ∧ Served 4 (·.start ≠ 15) replies log := by
    apply run_of_check
    decide +kernel
  have hunfailing : Unfailing scratchedPart.disk log := by
    intro request before hbefore
    simpa [scratchedPart] using hlog request (hbefore.subset (by simp))
  exact ⟨replies, log, hlength, (mountAndServe_unfailing ascii (fun _ => 0) 1 3 scratchedPart
    oneFile hunfailing).mp hrun⟩

end Failures

section Copies
variable (api : Conversions) (past : Bytes) (fuel steps : ℕ)

/-- The same sectors, seen from the start of the partition. -/
def moved (off off' : ℕ) (q : Request) : Request := ⟨q.start - off + off', q.num⟩

/-- The sectors of the partition are on the other disk as well. They have the
same content there and are read with the same success. -/
structure Copied (part : PartDescr) (disk : DiskDescr) (off : ℕ) : Prop where
  room : part.off + part.length < 2 ^ 63
  room' : off + part.length < 2 ^ 63
  image : ∀ i < part.length * 512, disk.image (off * 512 + i) = part.disk.image (part.off * 512 + i)
  fails : ∀ log q, Inside part q →
    disk.fails (log.map (moved part.off off)) (moved part.off off q) = part.disk.fails log q
  leftover : ∀ log q, Inside part q → part.disk.fails log q = true → ∀ j < (q.num * 512).toNat,
    disk.leftover (log.map (moved part.off off)) (moved part.off off q) j =
      part.disk.leftover log q j

variable {part : PartDescr} {disk : DiskDescr} {off : ℕ} (h : Copied part disk off)
include h

/-- A request inside the partition is moved along with it. -/
theorem Copied.start_eq {start num : ℤ} (hinside : Inside part ⟨int64 (start + part.off), num⟩) :
    (⟨int64 (start + off), num⟩ : Request) =
      moved part.off off ⟨int64 (start + part.off), num⟩ := by
  obtain ⟨hlo, hnum, hhi⟩ := hinside
  have hroom := h.room
  have hroom' := h.room'
  unfold moved
  rw [Request.mk.injEq]
  refine ⟨?_, rfl⟩
  dsimp only at hlo hnum hhi ⊢
  unfold int64 at hlo hhi ⊢
  omega

theorem Copied.slice_eq {q : Request} (hinside : Inside part q) :
    ∀ j < (q.num * 512).toNat, slice disk.image ((moved part.off off q).start * 512).toNat j =
      slice part.disk.image (q.start * 512).toNat j := by
  intro j hj
  obtain ⟨hlo, hnum, hhi⟩ := hinside
  have hplace := h.image ((q.start * 512).toNat - part.off * 512 + j) (by omega)
  have hnew : ((moved part.off off q).start * 512).toNat + j =
      off * 512 + ((q.start * 512).toNat - part.off * 512 + j) := by
    unfold moved
    dsimp only
    omega
  have hold : (q.start * 512).toNat + j =
      part.off * 512 + ((q.start * 512).toNat - part.off * 512 + j) := by omega
  unfold slice
  rw [hnew, hold, hplace]

theorem Copied.read {q : Request} (hinside : Inside part q) (buf : Bytes) (dst : ℕ) (log : Log)
    {r : ℤ × Bytes} (hrun : diskRead part.disk q.start q.num buf dst log = .ok (r, q :: log)) :
    diskRead disk (moved part.off off q).start q.num buf dst (log.map (moved part.off off)) =
      .ok (r, moved part.off off q :: log.map (moved part.off off)) := by
  have hq : (⟨(moved part.off off q).start, q.num⟩ : Request) = moved part.off off q := rfl
  have hq' : (⟨q.start, q.num⟩ : Request) = q := rfl
  rw [diskRead_eq, hq'] at hrun
  rw [diskRead_eq, hq, h.fails log q hinside]
  cases hfails : part.disk.fails log q with
  | true =>
    have hleft := write_congr buf dst _ _ (h.leftover log q hinside hfails)
    rw [hfails] at hrun
    rw [hleft]
    cases hrun
    rfl
  | false =>
    have hdata := write_congr buf dst _ _ (h.slice_eq hinside)
    rw [hfails] at hrun
    cases hrun
    exact congrArg (fun m => Except.ok ((0, m), _)) hdata

theorem Copied.reads :
    Reads (requestWatch fun _ request => Inside part request)
      (fun log log' => log' = log.map (moved part.off off)) part (PartDescr.on part disk off) := by
  intro start num buf dst
  apply diskRead_simulates
  rintro log _ rfl hinside r hrun
  have heq := h.start_eq hinside
  have hstart : int64 (start + off) =
      (moved part.off off ⟨int64 (start + part.off), num⟩).start := congrArg Request.start heq
  refine ⟨?_, ?_⟩
  · change diskRead disk (int64 (start + off)) num buf dst _ =
      .ok (r, ⟨int64 (start + off), num⟩ :: _)
    rw [heq, hstart]
    exact h.read hinside buf dst log hrun
  · exact congrArg (· :: _) heq

/-- A session that stays inside its partition is the same on every copy of it. -/
theorem mountAndServe_copied (calls : List Callback) :
    OnReturn (mountAndServe api past fuel steps part calls) [] fun replies log =>
      (∀ q ∈ log, Inside part q) →
        mountAndServe api past fuel steps (PartDescr.on part disk off) calls [] =
          .ok (replies, log.map (moved part.off off)) := by
  intro replies log hrun hinside
  obtain ⟨_, hrun', rfl⟩ := (mountAndServe_simulates api past fuel steps h.reads calls).follows
    [] [] replies log rfl hrun fun q before hq => hinside q (hq.subset (by simp))
  exact hrun'

omit h

/-- The partition lies five sectors further on another disk. -/
def shiftedDisk : DiskDescr := DiskDescr.ofImage fun b => backslashImage (b - 2560)

theorem copied_shifted : Copied backslashPart shiftedDisk 5 := by
  refine ⟨by decide, by decide, fun i _ => ?_, fun _ _ _ => rfl, fun _ _ _ h => ?_⟩
  · have hplace : 5 * 512 + i - 2560 = 0 * 512 + i := by omega
    simp only [shiftedDisk, DiskDescr.ofImage, backslashPart, hplace]
  · cases h

theorem mountAndServe_copied_shifted :
    ∃ replies log, replies.map List.length = some 4 ∧
      mountAndServe ascii (fun _ => 0) 1 3 (PartDescr.on backslashPart shiftedDisk 5) oneFile [] =
        .ok (replies, log) := by
  obtain ⟨replies, log, hrun, hlength, hlog⟩ :
      ∃ replies log, mountAndServe ascii (fun _ => 0) 1 3 backslashPart oneFile [] =
        .ok (replies, log) ∧
          Served 4 (fun q => 0 ≤ q.start ∧ 1 ≤ q.num ∧ q.start + q.num ≤ 16) replies log := by
    apply run_of_check
    decide +kernel
  refine ⟨replies, _, hlength, mountAndServe_copied ascii (fun _ => 0) 1 3 copied_shifted oneFile
    _ _ hrun fun q hq => ?_⟩
  simpa [Inside, backslashPart] using hlog q hq

end Copies

end Eokan.SessionDisks
