import Eokan.ByteMem
import Eokan.CInt

/-!
The physical disk behind a Windows handle. A handle has a content and a file
position, and each read is a seek followed by a transfer. What the two calls of
Windows do is chosen from outside: a seek may fail, and a transfer may fail or
stop short.
-/
namespace Eokan.PhyDisk

open ByteMem CInt

structure Handle where
  content : Bytes
  position : ℕ

/-- What the handle does in one read: whether the seek succeeds, and the number
of bytes transferred unless the transfer fails. -/
structure Behaviour where
  seeks : Bool
  transfers : Option ℕ

/-- A failing seek leaves the position where it was. -/
def setFilePointerEx (h : Handle) (succeeds : Bool) (distance : ℤ) : Bool × Handle :=
  if succeeds then (true, { h with position := distance.toNat }) else (false, h)

/-- The count goes to the out-parameter. -/
def winReadFile (h : Handle) (transfers : Option ℕ) (buf : Bytes) : Bool × ℕ × Handle × Bytes :=
  match transfers with
  | none => (false, 0, h, buf)
  | some k =>
    (true, k, { h with position := h.position + k }, write buf 0 k (slice h.content h.position))

def diskSeek (h : Handle) (succeeds : Bool) (offset : ℤ) : ℤ × Handle :=
  let (succ, h) := setFilePointerEx h succeeds (int64 (offset * 512))
  (if succ then 0 else -1, h)

/-- The number of bytes asked for, as the `DWORD` that ReadFile takes. -/
def bytesAsked (num : ℤ) : ℤ := uint32 (int64 (num * 512))

/-- Neither the result of the seek nor the count of the transfer is looked at. -/
def phyDiskRead (h : Handle) (behaviour : Behaviour) (start : ℤ) (buf : Bytes) :
    ℤ × Handle × Bytes :=
  let (_, h) := diskSeek h behaviour.seeks start
  let (succ, _, h, buf) := winReadFile h behaviour.transfers buf
  if !succ then (-1, h, buf) else (0, h, buf)

/-- One read of a sequence. -/
structure Call where
  start : ℕ
  num : ℕ
  behaviour : Behaviour

/-- At least one sector is read. A position is never negative, and no more is
transferred than was asked for. -/
structure Call.Allowed (call : Call) : Prop where
  some_sector : 1 ≤ call.num
  seek : call.behaviour.seeks = true → 0 ≤ int64 ((call.start : ℤ) * 512)
  transfer : ∀ k, call.behaviour.transfers = some k → (k : ℤ) ≤ bytesAsked call.num

/-- The handle after a sequence of reads, each into a buffer of its own. -/
def runReads (h : Handle) : List (Call × Bytes) → Handle
  | [] => h
  | (call, buf) :: calls =>
    runReads (phyDiskRead h call.behaviour call.start buf).2.1 calls

/-- The position from which a call transfers. -/
def transferPosition (position : ℕ) (call : Call) : ℕ :=
  if call.behaviour.seeks then (int64 ((call.start : ℤ) * 512)).toNat else position

/-- The position a call leaves. -/
def nextPosition (position : ℕ) (call : Call) : ℕ :=
  transferPosition position call + call.behaviour.transfers.getD 0

/-- Where a sequence of calls leaves the position, whatever the content. -/
def positionAfter (position : ℕ) (calls : List Call) : ℕ := calls.foldl nextPosition position

/-- If the call returns 0, the buffer holds the sectors asked for. -/
def Fills (h : Handle) (call : Call) (buf : Bytes) : Prop :=
  (phyDiskRead h call.behaviour call.start buf).1 = 0 →
    ∀ j, j < call.num * 512 →
      (phyDiskRead h call.behaviour call.start buf).2.2 j = h.content (call.start * 512 + j)

/-- The transfer fails, or it is complete and starts at the sector asked for. -/
def SafeAt (position : ℕ) (call : Call) : Prop :=
  ∀ k, call.behaviour.transfers = some k →
    k = call.num * 512 ∧ transferPosition position call = call.start * 512

theorem phyDiskRead_eq (h : Handle) (call : Call) (buf : Bytes) :
    phyDiskRead h call.behaviour call.start buf =
      match call.behaviour.transfers with
      | none => (-1, { h with position := transferPosition h.position call }, buf)
      | some k => (0, { h with position := transferPosition h.position call + k },
          write buf 0 k (slice h.content (transferPosition h.position call))) := by
  unfold phyDiskRead diskSeek setFilePointerEx winReadFile transferPosition
  cases call.behaviour.seeks <;> cases call.behaviour.transfers <;>
    simp only [Bool.false_eq_true, if_false, if_true, Bool.not_true, Bool.not_false]

/-- Reads never change the content, and the position depends on the calls only. -/
theorem runReads_eq (calls : List (Call × Bytes)) (h : Handle) :
    runReads h calls =
      { h with position := positionAfter h.position (calls.map Prod.fst) } := by
  induction calls generalizing h with
  | nil => rfl
  | cons head calls ih =>
    obtain ⟨call, buf⟩ := head
    have hnext : (phyDiskRead h call.behaviour call.start buf).2.1 =
        { h with position := nextPosition h.position call } := by
      rw [phyDiskRead_eq]
      unfold nextPosition
      cases call.behaviour.transfers with
      | none => rfl
      | some k => rfl
    rw [runReads, ih, hnext]
    rfl

theorem fills_of_safeAt (h : Handle) (call : Call) (hsafe : SafeAt h.position call) (buf : Bytes) :
    Fills h call buf := by
  intro hzero j hj
  rw [phyDiskRead_eq] at hzero ⊢
  cases htransfer : call.behaviour.transfers with
  | none =>
    rw [htransfer] at hzero
    exact absurd (show (-1 : ℤ) = 0 from hzero) (by decide)
  | some k =>
    obtain ⟨rfl, hpos⟩ := hsafe k htransfer
    dsimp only
    rw [hpos]
    exact write_of_mem buf 0 _ _ (Nat.zero_le j) (by omega)

/-- A call that is not safe delivers a wrong byte for some content and buffer. -/
theorem safeAt_of_fills (position : ℕ) (call : Call) (hallowed : call.Allowed)
    (hfills : ∀ content buf, Fills ⟨content, position⟩ call buf) : SafeAt position call := by
  intro k htransfer
  obtain ⟨hnum, -, hmax⟩ := hallowed
  have hasked := hmax k htransfer
  have hbytes : ∀ content buf j, j < call.num * 512 →
      write buf 0 k (slice content (transferPosition position call)) j =
        content (call.start * 512 + j) := by
    intro content buf j hj
    have hread := hfills content buf
    unfold Fills at hread
    rw [phyDiskRead_eq, htransfer] at hread
    exact hread rfl j hj
  have hlen : k = call.num * 512 := by
    refine Nat.le_antisymm ?_ (Nat.le_of_not_lt fun hshort => ?_)
    · unfold bytesAsked uint32 int64 at hasked
      omega
    · -- the first byte that is not transferred stays as it was
      have hbyte := hbytes (fun _ => 1) (fun _ => 0) k hshort
      rw [write_of_ge _ _ _ _ (by omega)] at hbyte
      exact absurd hbyte (by decide)
  refine ⟨hlen, Classical.not_not.mp fun hne => ?_⟩
  have hbyte := hbytes (fun j => if j = call.start * 512 then 1 else 0) (fun _ => 0) 0 (by omega)
  rw [write_of_mem _ _ _ _ (Nat.le_refl 0) (by omega)] at hbyte
  unfold slice at hbyte
  dsimp only at hbyte
  rw [if_neg (by omega), if_pos (by omega)] at hbyte
  exact absurd hbyte (by decide)

/-- After any sequence of reads: which reads that return 0 are right, for all
contents and buffers. -/
theorem phyDiskRead_fills_iff (position : ℕ) (earlier : List Call) (call : Call)
    (hallowed : ∀ c ∈ call :: earlier, c.Allowed) :
    (∀ content bufs buf, bufs.map Prod.fst = earlier →
      Fills (runReads ⟨content, position⟩ bufs) call buf) ↔
        SafeAt (positionAfter position earlier) call := by
  constructor
  · intro h
    refine safeAt_of_fills _ call (hallowed call List.mem_cons_self) fun content buf => ?_
    have hmap : (earlier.map fun c => (c, (fun _ => 0 : Bytes))).map Prod.fst = earlier := by
      rw [List.map_map]
      exact List.map_id earlier
    have hfills := h content _ buf hmap
    rw [runReads_eq, hmap] at hfills
    exact hfills
  · intro hsafe content bufs buf hmap
    rw [runReads_eq, hmap]
    exact fills_of_safeAt _ call hsafe buf

/-- One sector, with or without the seek. -/
def sectorCall (start : ℕ) (seeks : Bool) : Call := ⟨start, 1, seeks, some 512⟩

theorem sectorCall_allowed (start : ℕ) (hstart : start < 2 ^ 31) (seeks : Bool) :
    (sectorCall start seeks).Allowed where
  some_sector := Nat.le_refl 1
  seek _ := by
    change 0 ≤ int64 ((start : ℤ) * 512)
    rw [int64_of_range _ (by omega) (by omega)]
    omega
  transfer k hk := by
    obtain rfl := Option.some.inj hk
    change ((512 : ℕ) : ℤ) ≤ bytesAsked ((1 : ℕ) : ℤ)
    decide +kernel

/-- Sector 0 and then sector 5, which is right if its seek succeeds. -/
theorem phyDiskRead_fills_iff_sector :
    (∀ content bufs buf, bufs.map Prod.fst = [sectorCall 0 true] →
      Fills (runReads ⟨content, 0⟩ bufs) (sectorCall 5 true) buf) ∧
    ¬ ∀ content bufs buf, bufs.map Prod.fst = [sectorCall 0 true] →
      Fills (runReads ⟨content, 0⟩ bufs) (sectorCall 5 false) buf := by
  have hallowed : ∀ seeks, ∀ c ∈ [sectorCall 5 seeks, sectorCall 0 true], c.Allowed := by
    intro seeks c hc
    rcases List.mem_cons.mp hc with rfl | hc
    · exact sectorCall_allowed 5 (by decide) seeks
    · rw [List.mem_singleton.mp hc]
      exact sectorCall_allowed 0 (by decide) true
  constructor
  · refine (phyDiskRead_fills_iff 0 _ _ (hallowed true)).mpr fun k hk => ?_
    obtain rfl := Option.some.inj hk
    exact ⟨rfl, by decide +kernel⟩
  · intro h
    have hsafe := (phyDiskRead_fills_iff 0 _ _ (hallowed false)).mp h
    exact absurd (hsafe 512 rfl).2 (by decide +kernel)

/-- After a read of sector 0, a read of sector 5 whose seek fails returns 0 with
the bytes of sector 1. -/
theorem failed_seek_reads_next_sector :
    ∃ h : Handle,
      h = runReads ⟨fun b => UInt8.ofNat (b / 512), 0⟩ [(sectorCall 0 true, fun _ => 0)] ∧
      (phyDiskRead h ⟨false, some 512⟩ 5 fun _ => 0).1 = 0 ∧
      (phyDiskRead h ⟨false, some 512⟩ 5 fun _ => 0).2.2 0 = 1 ∧ h.content (5 * 512) = 5 :=
  ⟨_, rfl, by decide +kernel, by decide +kernel, by decide +kernel⟩

end Eokan.PhyDisk
