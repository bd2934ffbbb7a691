import Mathlib.Algebra.Group.Nat.Defs
import Mathlib.Data.Nat.Notation

/-!
Memory seen from a pointer on: byte j is the byte at offset j. A block has no
end here, so what a caller finds past an array is part of the value and every
write says exactly which offsets it changes.
-/
namespace Eokan.ByteMem

abbrev Bytes := ℕ → UInt8

/-- Copy the first n bytes of src to offset dst. -/
def write (m : Bytes) (dst n : ℕ) (src : Bytes) : Bytes :=
  fun j => if dst ≤ j ∧ j < dst + n then src (j - dst) else m j

def fill (m : Bytes) (dst n : ℕ) (b : UInt8) : Bytes := write m dst n fun _ => b

/-- The memory from offset pos on. -/
def slice (m : Bytes) (pos : ℕ) : Bytes := fun j => m (pos + j)

def le16 (m : Bytes) (o : ℕ) : ℕ := (m o).toNat + 2 ^ 8 * (m (o + 1)).toNat

def le32 (m : Bytes) (o : ℕ) : ℕ := le16 m o + 2 ^ 16 * le16 m (o + 2)

theorem le16_lt (m : Bytes) (o : ℕ) : le16 m o < 2 ^ 16 := by
  have h0 := (m o).toNat_lt
  have h1 := (m (o + 1)).toNat_lt
  unfold le16
  omega

theorem le32_lt (m : Bytes) (o : ℕ) : le32 m o < 2 ^ 32 := by
  have h0 := le16_lt m o
  have h1 := le16_lt m (o + 2)
  unfold le32
  omega

theorem le16_congr {m m' : Bytes} {o o' : ℕ} (h : ∀ j, j < 2 → m (o + j) = m' (o' + j)) :
    le16 m o = le16 m' o' := by
  have h0 := h 0 (by omega)
  have h1 := h 1 (by omega)
  simp only [Nat.add_zero] at h0
  simp only [le16, h0, h1]

theorem le32_congr {m m' : Bytes} {o o' : ℕ} (h : ∀ j, j < 4 → m (o + j) = m' (o' + j)) :
    le32 m o = le32 m' o' := by
  have hlo : le16 m o = le16 m' o' := le16_congr fun j hj => h j (by omega)
  have hhi : le16 m (o + 2) = le16 m' (o' + 2) := by
    refine le16_congr fun j hj => ?_
    simpa only [Nat.add_assoc] using h (2 + j) (by omega)
  simp only [le32, hlo, hhi]

/-- Byte j of a number stored with its low byte first. -/
def byteLe (v j : ℕ) : UInt8 := UInt8.ofNat (v / 2 ^ (8 * j))

/-- Four stored bytes are read as the number they came from. -/
theorem le32_byteLe {m : Bytes} {o v : ℕ} (hv : v < 2 ^ 32)
    (h : ∀ j, j < 4 → m (o + j) = byteLe v j) : le32 m o = v := by
  have hbyte : ∀ j, j < 4 → (m (o + j)).toNat = v / 2 ^ (8 * j) % 2 ^ 8 := by
    intro j hj
    rw [h j hj]
    exact UInt8.toNat_ofNat'
  have h0 := hbyte 0 (by omega)
  have h1 := hbyte 1 (by omega)
  have h2 := hbyte 2 (by omega)
  have h3 := hbyte 3 (by omega)
  simp only [Nat.add_zero, Nat.mul_zero, Nat.reduceMul] at h0 h1 h2 h3
  unfold le32 le16
  rw [Nat.add_assoc o 2 1, h0, h1, h2, h3]
  omega

theorem slice_slice (m : Bytes) (a b : ℕ) : slice (slice m a) b = slice m (a + b) :=
  funext fun j => congrArg m (Nat.add_assoc a b j).symm

section Write
variable (m : Bytes) (dst n : ℕ) (src : Bytes)

theorem write_of_mem {j : ℕ} (hlo : dst ≤ j) (hhi : j < dst + n) :
    write m dst n src j = src (j - dst) := if_pos ⟨hlo, hhi⟩

theorem write_at {j : ℕ} (h : j < n) : write m dst n src (dst + j) = src j := by
  rw [write_of_mem m dst n src (by omega) (by omega)]
  congr 1
  omega

theorem write_of_lt {j : ℕ} (h : j < dst) : write m dst n src j = m j :=
  if_neg fun hc => by omega

theorem write_of_ge {j : ℕ} (h : dst + n ≤ j) : write m dst n src j = m j :=
  if_neg fun hc => by omega

theorem write_outside {j : ℕ} (h : j < dst ∨ dst + n ≤ j) : write m dst n src j = m j := by
  rcases h with h | h
  · exact write_of_lt m dst n src h
  · exact write_of_ge m dst n src h

theorem write_none : write m dst 0 src = m := by
  funext j
  exact if_neg fun hc => by omega

/-- Only the bytes that are copied matter. -/
theorem write_congr {src' : Bytes} (h : ∀ j, j < n → src j = src' j) :
    write m dst n src = write m dst n src' := by
  funext j
  unfold write
  split
  · exact h (j - dst) (by omega)
  · rfl

/-- A piece copied out of a buffer that was filled from its start. -/
theorem write_slice_write {o k : ℕ} (b s : Bytes) (h : o + n ≤ k) :
    write m dst n (slice (write b 0 k s) o) = write m dst n (slice s o) := by
  refine write_congr m dst n _ fun j hj => ?_
  exact write_of_mem b 0 k s (Nat.zero_le _) (by omega)

/-- Two adjacent pieces of one source are one longer piece. -/
theorem write_append (k : ℕ) (s : Bytes) (p : ℕ) :
    write (write m dst n (slice s p)) (dst + n) k (slice s (p + n)) =
      write m dst (n + k) (slice s p) := by
  funext j
  unfold write slice
  split
  · rename_i h
    rw [if_pos (by omega)]
    congr 1
    omega
  · rename_i h
    split
    · rw [if_pos (by omega)]
    · rw [if_neg (by omega)]

end Write

/-- All that happened to m happened to the n bytes from offset dst on. -/
def Frame (m m' : Bytes) (dst n : ℕ) : Prop := ∀ j, j < dst ∨ dst + n ≤ j → m' j = m j

theorem frame_refl (m : Bytes) (dst n : ℕ) : Frame m m dst n := fun _ _ => rfl

theorem frame_write (m : Bytes) (dst n : ℕ) (src : Bytes) :
    Frame m (write m dst n src) dst n := fun _ h => write_outside m dst n src h

theorem Frame.trans {m m' m'' : Bytes} {dst n dst' n' : ℕ} (h : Frame m m' dst n)
    (h' : Frame m' m'' dst' n') (hlo : dst ≤ dst') (hhi : dst' + n' ≤ dst + n) :
    Frame m m'' dst n := by
  intro j hj
  rw [h' j (by omega), h j hj]

theorem Frame.mono {m m' : Bytes} {dst n dst' n' : ℕ} (h : Frame m m' dst n)
    (hlo : dst' ≤ dst) (hhi : dst + n ≤ dst' + n') : Frame m m' dst' n' :=
  fun j hj => h j (by omega)

end Eokan.ByteMem
