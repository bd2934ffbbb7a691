import Eokan.BlockMap

/-!
Reading a range of a file. The loop goes over its file blocks and defers the
read of a block as long as the following blocks continue it on the disk.
Blocks that are not allocated are filled with zeros at once.
-/
namespace Eokan.ReadFile

open ByteMem CInt Programs Device Devread Layout BlockMap

/-- A deferred read. There is one exactly when previous_block_number is not -1:
it holds a sector number that is a multiple of an even number. -/
structure Delayed where
  start : ℤ
  extent : ℤ
  skipfirst : ℤ
  next : ℤ
  buf : ℕ

/-- The blocks of the range are those from `pos / blocksize` up to this one. -/
def blockCount (fs : ExtFilesystem) (pos len : ℤ) : ℤ :=
  int32 (uint32 (len + pos + ext2BlockSize fs - 1) / ext2BlockSize fs)

/-- The bytes before the range in block i. -/
def skipFirst (fs : ExtFilesystem) (pos i : ℤ) : ℤ :=
  if i = pos.tdiv (ext2BlockSize fs) then pos.tmod (ext2BlockSize fs) else 0

/-- The bytes of the range in block i. -/
def blockEnd (fs : ExtFilesystem) (pos len i : ℤ) : ℤ :=
  let blockend : ℤ :=
    if i = blockCount fs pos len - 1 then
      if uint32 (len + pos) % ext2BlockSize fs = 0 then ext2BlockSize fs
      else uint32 (len + pos) % ext2BlockSize fs
    else ext2BlockSize fs
  blockend - skipFirst fs pos i

def spill (fs : ExtFilesystem) (d : Delayed) (buf : Bytes) : DevM (ℤ × Bytes) :=
  vfsDevread fs.devDesc d.start d.skipfirst d.extent buf d.buf

/-- Spill what is deferred, if anything is. -/
def flush (fs : ExtFilesystem) (delayed : Option Delayed) (buf : Bytes) : DevM (Bool × Bytes) :=
  match delayed with
  | none => pure (true, buf)
  | some d => do
    let (status, buf) ← spill fs d buf
    pure (status ≠ 0, buf)

/-- The sector blknr continues the deferred read. -/
def continues (delayed : Option Delayed) (blknr : ℤ) : Bool :=
  match delayed with
  | none => false
  | some d => d.next = blknr

def Delayed.extend (d : Delayed) (blockend : ℤ) : Delayed :=
  { d with extent := int32 (d.extent + blockend), next := int32 (d.next + blockend / 512) }

def startDelayed (blknr blockend skipfirst : ℤ) (dst : ℕ) : Delayed :=
  ⟨blknr, blockend, skipfirst, int32 (blknr + blockend / 512), dst⟩

/-- The loop over n more blocks from block i on, and what follows it. The next
bytes of the range go to offset dst. -/
def readBlocks (fs : ExtFilesystem) (fuel : ℕ) (pos len : ℤ) :
    ℕ → ℤ → Ext2fsNode → Option Delayed → Bytes → ℕ → DevM (ℤ × Ext2fsNode × Bytes)
  | 0, _, node, delayed, buf, _ => do
    let (spilled, buf) ← flush fs delayed buf
    if spilled then pure (int32 len, node, buf)
    else pure (-1, node, buf)
  | n + 1, i, node, delayed, buf, dst => do
    let (blknr, node) ← readAllocatedBlock1 fs fuel node i
    if blknr < 0 then pure (-1, node, buf)
    else
      let blknr := int32 (blknr * blockSectors fs)
      let blockend := blockEnd fs pos len i
      let skipfirst := skipFirst fs pos i
      let size := (ext2BlockSize fs - skipfirst).toNat
      if blknr ≠ 0 ∧ continues delayed blknr then
        readBlocks fs fuel pos len n (i + 1) node (delayed.map fun d => d.extend blockend) buf
          (dst + size)
      else do
        let (spilled, buf) ← flush fs delayed buf
        if !spilled then pure (-1, node, buf)
        else if blknr ≠ 0 then
          readBlocks fs fuel pos len n (i + 1) node
            (some (startDelayed blknr blockend skipfirst dst)) buf (dst + size)
        else
          readBlocks fs fuel pos len n (i + 1) node none (fill buf dst size 0) (dst + size)

/-- The length is cut to the size of the file, whatever the position is. -/
def clampLength (node : Ext2fsNode) (len : ℤ) : ℤ :=
  if (node.inode.size : ℤ) < len then node.inode.size else len

theorem clampLength_eq (node : Ext2fsNode) (len : ℕ) :
    clampLength node len = (min len node.inode.size : ℕ) := by
  unfold clampLength
  split <;> omega

def ext4fsReadFile (fs : ExtFilesystem) (fuel : ℕ) (node : Ext2fsNode) (pos len : ℤ)
    (buf : Bytes) : DevM (ℤ × Ext2fsNode × Bytes) := do
  checkShifts fs
  let len := clampLength node len
  let first := pos.tdiv (ext2BlockSize fs)
  readBlocks fs fuel pos len (blockCount fs pos len - first).toNat first node none buf 0

/-- Whatever happens below it, the loop counts the whole length or fails. -/
theorem readBlocks_result {fs : ExtFilesystem} {fuel n : ℕ} {pos len i : ℤ} {node : Ext2fsNode}
    {delayed : Option Delayed} {buf : Bytes} {dst : ℕ} {log log' : Log}
    {res : ℤ × Ext2fsNode × Bytes}
    (h : readBlocks fs fuel pos len n i node delayed buf dst log = .ok (res, log')) :
    res.1 = int32 len ∨ res.1 = -1 := by
  induction n generalizing i node delayed buf dst log with
  | zero =>
    obtain ⟨⟨spilled, buf'⟩, log₁, -, h⟩ := bind_eq_ok h
    cases spilled with
    | false =>
      cases h
      exact Or.inr rfl
    | true =>
      cases h
      exact Or.inl rfl
  | succ n ih =>
    obtain ⟨⟨blknr, node'⟩, log₁, -, h⟩ := bind_eq_ok h
    dsimp only at h
    split at h
    · cases h
      exact Or.inr rfl
    split at h
    · exact ih h
    obtain ⟨⟨spilled, buf'⟩, log₂, -, h⟩ := bind_eq_ok h
    dsimp only at h
    split at h
    · cases h
      exact Or.inr rfl
    split at h
    · exact ih h
    · exact ih h

theorem ext4fsReadFile_result {fs : ExtFilesystem} {fuel : ℕ} {node : Ext2fsNode} {pos len : ℤ}
    {buf : Bytes} {log log' : Log} {res : ℤ × Ext2fsNode × Bytes}
    (h : ext4fsReadFile fs fuel node pos len buf log = .ok (res, log')) :
    res.1 = int32 (clampLength node len) ∨ res.1 = -1 := by
  obtain ⟨_, log₁, -, h⟩ := bind_eq_ok h
  exact readBlocks_result h

/-- A read changes the caches of the node and not its inode. -/
theorem readBlocks_inode {fs : ExtFilesystem} {fuel n : ℕ} {pos len i : ℤ} {node : Ext2fsNode}
    {delayed : Option Delayed} {buf : Bytes} {dst : ℕ} {log log' : Log}
    {res : ℤ × Ext2fsNode × Bytes}
    (h : readBlocks fs fuel pos len n i node delayed buf dst log = .ok (res, log')) :
    res.2.1.inode = node.inode := by
  induction n generalizing i node delayed buf dst log with
  | zero =>
    obtain ⟨⟨spilled, buf'⟩, log₁, -, h⟩ := bind_eq_ok h
    cases spilled <;> cases h <;> rfl
  | succ n ih =>
    obtain ⟨⟨blknr, node'⟩, log₁, hlookup, h⟩ := bind_eq_ok h
    have hnode : node'.inode = node.inode := readAllocatedBlock1_inode hlookup
    dsimp only at h
    split at h
    · cases h
      exact hnode
    split at h
    · exact (ih h).trans hnode
    obtain ⟨⟨spilled, buf'⟩, log₂, -, h⟩ := bind_eq_ok h
    dsimp only at h
    split at h
    · cases h
      exact hnode
    split at h
    · exact (ih h).trans hnode
    · exact (ih h).trans hnode

theorem ext4fsReadFile_inode {fs : ExtFilesystem} {fuel : ℕ} {node : Ext2fsNode} {pos len : ℤ}
    {buf : Bytes} {log log' : Log} {res : ℤ × Ext2fsNode × Bytes}
    (h : ext4fsReadFile fs fuel node pos len buf log = .ok (res, log')) :
    res.2.1.inode = node.inode := by
  obtain ⟨_, log₁, -, h⟩ := bind_eq_ok h
  exact readBlocks_inode h

section Geometry
variable (fs : ExtFilesystem) (pos n : ℕ)

/-- The first block of a range and the number of the block behind its last one. -/
def firstBlock : ℕ := pos / ext2BlockSize fs

def endBlock : ℕ := (pos + n + ext2BlockSize fs - 1) / ext2BlockSize fs

/-- Block i of the range holds the bytes of the file from here ... -/
def pieceStart (i : ℕ) : ℕ := max pos (i * ext2BlockSize fs)

/-- ... up to here. -/
def pieceEnd (i : ℕ) : ℕ := min (pos + n) ((i + 1) * ext2BlockSize fs)

theorem firstBlock_bounds : firstBlock fs pos * ext2BlockSize fs ≤ pos ∧
    pos < (firstBlock fs pos + 1) * ext2BlockSize fs := by
  have hpos := ext2BlockSize_pos fs
  have hdiv := Nat.div_add_mod pos (ext2BlockSize fs)
  have hmod := Nat.mod_lt pos hpos
  unfold firstBlock
  rw [Nat.add_mul, Nat.mul_comm]
  omega

theorem endBlock_bounds (i : ℕ) (hi : i < endBlock fs pos n) :
    i * ext2BlockSize fs < pos + n ∧
      (i + 1 = endBlock fs pos n → pos + n ≤ (i + 1) * ext2BlockSize fs) ∧
      (i + 1 ≠ endBlock fs pos n → (i + 1) * ext2BlockSize fs < pos + n) := by
  have hpos := ext2BlockSize_pos fs
  have hdiv := Nat.div_add_mod (pos + n + ext2BlockSize fs - 1) (ext2BlockSize fs)
  have hmod := Nat.mod_lt (pos + n + ext2BlockSize fs - 1) hpos
  have hlast : endBlock fs pos n * ext2BlockSize fs =
      ext2BlockSize fs * ((pos + n + ext2BlockSize fs - 1) / ext2BlockSize fs) := by
    unfold endBlock
    rw [Nat.mul_comm]
  have hle : (i + 1) * ext2BlockSize fs ≤ endBlock fs pos n * ext2BlockSize fs :=
    Nat.mul_le_mul_right _ hi
  have hsucc : (i + 1) * ext2BlockSize fs = i * ext2BlockSize fs + ext2BlockSize fs :=
    Nat.succ_mul _ _
  refine ⟨by omega, fun heq => ?_, fun hne => ?_⟩
  · rw [heq]
    omega
  · have hnext : (i + 1 + 1) * ext2BlockSize fs ≤ endBlock fs pos n * ext2BlockSize fs :=
      Nat.mul_le_mul_right _ (by omega)
    rw [Nat.succ_mul] at hnext
    omega

/-- Where the pieces of a range begin and end, relative to their blocks. -/
theorem piece_bounds (i : ℕ) (hfirst : firstBlock fs pos ≤ i) (hi : i < endBlock fs pos n) :
    (i * ext2BlockSize fs ≤ pieceStart fs pos i ∧ pos ≤ pieceStart fs pos i) ∧
    (pieceStart fs pos i ≤ pieceEnd fs pos n i ∧
      pieceStart fs pos i < (i + 1) * ext2BlockSize fs) ∧
    (i * ext2BlockSize fs < pieceEnd fs pos n i ∧
      pieceEnd fs pos n i ≤ (i + 1) * ext2BlockSize fs ∧ pieceEnd fs pos n i ≤ pos + n) ∧
    pieceStart fs pos (i + 1) = (i + 1) * ext2BlockSize fs := by
  have hbounds := firstBlock_bounds fs pos
  obtain ⟨hlt, -, -⟩ := endBlock_bounds fs pos n i hi
  have hsucc : (i + 1) * ext2BlockSize fs = i * ext2BlockSize fs + ext2BlockSize fs :=
    Nat.succ_mul _ _
  have hstart : (firstBlock fs pos + 1) * ext2BlockSize fs ≤ (i + 1) * ext2BlockSize fs :=
    Nat.mul_le_mul_right _ (by omega)
  have hpos := ext2BlockSize_pos fs
  unfold pieceStart pieceEnd
  omega

theorem tdiv_eq_firstBlock : (pos : ℤ).tdiv (ext2BlockSize fs) = firstBlock fs pos := by
  rw [Int.tdiv_eq_ediv_of_nonneg (by omega)]
  exact (Int.natCast_ediv _ _).symm

theorem skipFirst_eq (i : ℕ) (hi : firstBlock fs pos ≤ i) :
    skipFirst fs pos i = (pieceStart fs pos i - i * ext2BlockSize fs : ℕ) := by
  have hbounds := firstBlock_bounds fs pos
  unfold skipFirst pieceStart
  rw [tdiv_eq_firstBlock]
  by_cases hfirst : i = firstBlock fs pos
  · have hmod := Nat.div_add_mod pos (ext2BlockSize fs)
    rw [if_pos (by omega), Int.tmod_eq_emod_of_nonneg (by omega), ← Int.natCast_emod]
    rw [hfirst, Nat.max_eq_left hbounds.1]
    unfold firstBlock
    rw [Nat.mul_comm] at hmod
    omega
  · have hle : (firstBlock fs pos + 1) * ext2BlockSize fs ≤ i * ext2BlockSize fs :=
      Nat.mul_le_mul_right _ (by omega)
    rw [if_neg (by omega), Nat.max_eq_right (by omega), Nat.sub_self]
    rfl

/-- A range below 2 ^ 31 is one whose sums fit 32 bits. -/
theorem sums_fit (hlog : fs.sblock.log2BlockSize ≤ 20) (hmax : pos + n ≤ 2 ^ 31) :
    pos + n + ext2BlockSize fs ≤ 2 ^ 32 := by
  have hbig := ext2BlockSize_le fs hlog
  omega

variable (hsums : pos + n + ext2BlockSize fs ≤ 2 ^ 32)
include hsums

theorem blockCount_eq : blockCount fs pos n = endBlock fs pos n := by
  have hsize := ext2BlockSize_eq fs
  have htwo := two_le_blockSectors fs
  have hsum : (n : ℤ) + pos + ext2BlockSize fs - 1 =
      ((pos + n + ext2BlockSize fs - 1 : ℕ) : ℤ) := by omega
  have hcount : endBlock fs pos n ≤ pos + n + ext2BlockSize fs - 1 := Nat.div_le_self _ _
  have hsmall : endBlock fs pos n < 2 ^ 31 :=
    Nat.div_lt_of_lt_mul (by omega)
  unfold blockCount
  rw [hsum, uint32_of_range _ (by omega) (by omega), ← Int.natCast_ediv]
  change int32 (endBlock fs pos n) = _
  exact int32_of_nat _ (by omega) (by omega)

theorem blockEnd_eq (i : ℕ) (hfirst : firstBlock fs pos ≤ i) (hi : i < endBlock fs pos n) :
    blockEnd fs pos n i = (pieceEnd fs pos n i - pieceStart fs pos i : ℕ) := by
  have hbounds := firstBlock_bounds fs pos
  obtain ⟨hlt, hlast, hmore⟩ := endBlock_bounds fs pos n i hi
  have hsucc : (i + 1) * ext2BlockSize fs = i * ext2BlockSize fs + ext2BlockSize fs :=
    Nat.succ_mul _ _
  have hle : firstBlock fs pos * ext2BlockSize fs ≤ i * ext2BlockSize fs :=
    Nat.mul_le_mul_right _ hfirst
  have hstart : pos < (i + 1) * ext2BlockSize fs := by
    have hfirst' : (firstBlock fs pos + 1) * ext2BlockSize fs ≤ (i + 1) * ext2BlockSize fs :=
      Nat.mul_le_mul_right _ (by omega)
    omega
  have hsize := ext2BlockSize_pos fs
  have hsum : uint32 ((n : ℤ) + pos) = (pos + n : ℕ) := by
    rw [uint32_of_range _ (by omega) (by omega)]
    omega
  unfold blockEnd
  rw [blockCount_eq fs pos n hsums, skipFirst_eq fs pos i hfirst, hsum]
  unfold pieceStart pieceEnd
  by_cases hend : i + 1 = endBlock fs pos n
  · have hpiece := hlast hend
    obtain ⟨r, hr⟩ : ∃ r, pos + n = i * ext2BlockSize fs + r := ⟨pos + n - i * ext2BlockSize fs,
      by omega⟩
    have hmod : (pos + n) % ext2BlockSize fs = r % ext2BlockSize fs := by
      rw [hr, Nat.mul_comm, Nat.mul_add_mod]
    rw [← Int.natCast_emod, hmod, if_pos (by omega), Nat.min_eq_left hpiece]
    dsimp only
    by_cases hfull : r = ext2BlockSize fs
    · rw [hfull, Nat.mod_self, if_pos Int.natCast_zero]
      omega
    · rw [Nat.mod_eq_of_lt (by omega), if_neg (by omega)]
      omega
  · have hpiece := hmore hend
    dsimp only
    rw [if_neg (by omega), Nat.min_eq_right (by omega)]
    omega

end Geometry

end Eokan.ReadFile
