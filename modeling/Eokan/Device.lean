import Eokan.ByteMem
import Eokan.CInt
import Eokan.Programs

/-!
The disk below the file system: its content, the outcome of every read and
what a failing read leaves behind. A run carries the list of the reads issued
so far, latest first. An outcome may depend on that list, so the same sectors
can be readable at one time and unreadable at another.
-/
namespace Eokan.Device

open ByteMem CInt Programs

structure Request where
  start : ℤ
  num : ℤ
  deriving DecidableEq

abbrev Log := List Request

/-- What C leaves undefined, and a loop that outlives the steps allowed to it. -/
inductive Fault
  | badShift
  | divByZero
  | outOfBounds
  | useAfterFree
  | outOfFuel
  deriving DecidableEq

structure DiskDescr where
  image : Bytes
  fails : Log → Request → Bool
  leftover : Log → Request → Bytes

structure PartDescr where
  disk : DiskDescr
  off : ℕ
  length : ℕ

abbrev DevM (α : Type) := Prog Log Fault α

/-- The destination is the memory buf from offset dst on. A failing read may
leave any bytes in the part of it that was asked for. -/
def diskRead (disk : DiskDescr) (start num : ℤ) (buf : Bytes) (dst : ℕ) : DevM (ℤ × Bytes) :=
  fun log =>
    let request : Request := ⟨start, num⟩
    let n := (num * 512).toNat
    if disk.fails log request then
      .ok ((-1, write buf dst n (disk.leftover log request)), request :: log)
    else
      .ok ((0, write buf dst n (slice disk.image (start * 512).toNat)), request :: log)

def partRead (part : PartDescr) (start num : ℤ) (buf : Bytes) (dst : ℕ) : DevM (ℤ × Bytes) :=
  diskRead part.disk (int64 (start + part.off)) num buf dst

/-- A device without read errors. -/
def DiskDescr.NoErrors (disk : DiskDescr) : Prop := ∀ log request, disk.fails log request = false

/-- The disk with this content on which every read succeeds. -/
def DiskDescr.ofImage (image : Bytes) : DiskDescr :=
  ⟨image, fun _ _ => false, fun _ _ => image⟩

theorem noErrors_ofImage (image : Bytes) : (DiskDescr.ofImage image).NoErrors := fun _ _ => rfl

/-- The bytes of a partition, from its first sector on. -/
def PartDescr.bytes (part : PartDescr) : Bytes := slice part.disk.image (part.off * 512)

/-- Whatever the outcome, one request is issued and only its bytes may change. -/
theorem partRead_issues (part : PartDescr) (start num : ℤ) (buf : Bytes) (dst : ℕ) (log : Log) :
    Yields (partRead part start num buf dst) log fun r log' =>
      log' = ⟨int64 (start + part.off), num⟩ :: log ∧
      (r.1 = 0 ∨ r.1 = -1) ∧ ∃ src, r.2 = write buf dst (num * 512).toNat src := by
  unfold partRead diskRead Yields
  by_cases h : part.disk.fails log ⟨int64 (start + part.off), num⟩ = true
  · exact ⟨_, _, if_pos h, rfl, Or.inr rfl, _, rfl⟩
  · exact ⟨_, _, if_neg h, rfl, Or.inl rfl, _, rfl⟩

end Eokan.Device
