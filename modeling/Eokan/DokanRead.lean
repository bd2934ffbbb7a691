import Eokan.FileContent

/-!
The callbacks for an open file. Windows passes an offset of 64 bits and is told
a size of 64 bits, while the layers below take an offset of 32 bits with a sign.
-/
namespace Eokan.DokanRead

open ByteMem CInt Programs Device Devread Layout BlockMap IndirectCache ReadFile ReadPlan
  DeferredReads FileMaps FileContent

structure Xstat where
  mode : ℕ
  atime : ℕ
  ctime : ℕ
  mtime : ℕ
  dtime : ℕ
  size : ℕ
  sizeHigh : ℕ

def ext4fsFileEntryStat (node : Ext2fsNode) : Xstat where
  mode := node.inode.mode
  atime := node.inode.atime
  ctime := node.inode.ctime
  mtime := node.inode.mtime
  dtime := node.inode.dtime
  size := node.inode.size
  sizeHigh := node.inode.dirAcl

structure FileInformation where
  fileAttributes : ℕ
  fileSizeHigh : ℕ
  fileSizeLow : ℕ

def fileAttributeNormal : ℕ := 0x80

/-- Without an open file the information stays what the caller had there. -/
def getFileInformation (filp : Option Ext2fsNode) (info : FileInformation) : FileInformation :=
  match filp with
  | none => info
  | some node =>
    let stbuf := ext4fsFileEntryStat node
    ⟨fileAttributeNormal, stbuf.sizeHigh, stbuf.size⟩

def FileInformation.size (info : FileInformation) : ℕ :=
  info.fileSizeHigh * 2 ^ 32 + info.fileSizeLow

/-- The handle and the file system of an open file are never null. -/
def ext4fsFileEntryRead (fs : ExtFilesystem) (fuel : ℕ) (filp : Ext2fsNode) (offset : ℤ)
    (buf : Bytes) (len : ℤ) : DevM (ℤ × Ext2fsNode × Bytes) :=
  ext4fsReadFile fs fuel filp offset len buf

def vfsFileRead (fs : ExtFilesystem) (fuel : ℕ) (filp : Ext2fsNode) (offset : ℤ) (buf : Bytes)
    (len : ℤ) : DevM (ℤ × Ext2fsNode × Bytes) :=
  ext4fsFileEntryRead fs fuel filp offset buf len

/-- What a read leaves: its status, the length if one was stored, the file of
the handle and the buffer. -/
structure ReadResult where
  status : ℤ
  readLength : Option ℤ
  filp : Option Ext2fsNode
  buffer : Bytes

/-- The offset is narrowed to an `int`, and the count is stored as unsigned. -/
def readFile (fs : ExtFilesystem) (fuel : ℕ) (filp : Option Ext2fsNode) (buffer : Bytes)
    (bufferLength : ℕ) (offset : ℤ) : DevM ReadResult :=
  match filp with
  | none => pure ⟨0, none, none, buffer⟩
  | some filp => do
    let (nrd, filp, buffer) ← vfsFileRead fs fuel filp (int32 offset) buffer bufferLength
    pure ⟨0, some (uint32 nrd), some filp, buffer⟩

/-- The size Windows is told for an open file. -/
def reportedSize (node : Ext2fsNode) : ℕ := (getFileInformation (some node) ⟨0, 0, 0⟩).size

/-- Every range inside the reported size is read, and read from its place. -/
def ReadsExactly (fs : ExtFilesystem) (fuel : ℕ) (map : ℕ → ℤ) (node : Ext2fsNode) : Prop :=
  ∀ offset len, offset < reportedSize node → offset + len ≤ reportedSize node → len < 2 ^ 32 →
    ∀ buf log, Yields (readFile fs fuel (some node) buf len (offset : ℕ)) log fun r _ =>
      r.status = 0 ∧ r.readLength = some (len : ℤ) ∧
        ∀ j, j < len → r.buffer j = fileByte fs map (offset + j)

/-- A file whose blocks lie inside the partition, each at a place of its own. -/
structure RegularFile (fs : ExtFilesystem) (fuel count : ℕ) (map : ℕ → ℤ) (inode : Ext2Inode)
    (valid : Ext2fsNode → Prop) : Prop where
  realizes : Realizes fs fuel map count valid
  inodes : ∀ node, valid node → node.inode = inode
  inPartition : InPartition fs map count
  noRepeat : NoRepeat map count

theorem reportedSize_eq (node : Ext2fsNode) :
    reportedSize node = node.inode.dirAcl * 2 ^ 32 + node.inode.size := rfl

section Files
variable (fs : ExtFilesystem) (hgood : fs.devDesc.disk.NoErrors)
  (hpart : fs.devDesc.off + fs.devDesc.length < 2 ^ 63)
  (hlog : fs.sblock.log2BlockSize ≤ 20) (fuel : ℕ)

include hgood hpart hlog in
/-- Files of up to 2 ^ 31 bytes are read exactly. -/
theorem readsExactly_small (count : ℕ) (map : ℕ → ℤ) (inode : Ext2Inode)
    (valid : Ext2fsNode → Prop) (hfile : RegularFile fs fuel count map inode valid)
    (node : Ext2fsNode) (hvalid : valid node)
    (hcount : reportedSize node ≤ count * ext2BlockSize fs)
    (hsmall : reportedSize node ≤ 2 ^ 31) : ReadsExactly fs fuel map node := by
  intro offset len hoffset hlen _ buf log
  have hsize : node.inode.size = reportedSize node := by
    rw [reportedSize_eq] at hsmall ⊢
    omega
  have hpos : int32 (offset : ℤ) = offset := int32_of_nat _ (by omega) (by omega)
  have hclamp : clampLength node len = len := if_neg (by omega)
  have hread := ext4fsReadFile_content fs hgood hpart hlog fuel count map valid hfile.realizes
    hfile.inPartition hfile.noRepeat node hvalid offset len (by omega)
    (endBlock_le fs count offset len (by omega)) len hclamp buf log
  unfold readFile
  dsimp only
  rw [hpos]
  refine Yields.bind hread ?_
  rintro ⟨nrd, node', buf'⟩ log' ⟨-, hnrd, hbytes⟩
  have hcounted : uint32 nrd = len := by
    rw [show nrd = int32 len from hnrd, uint32_int32]
    exact uint32_of_range _ (by omega) (by omega)
  exact Yields.pure ⟨rfl, congrArg some hcounted, hbytes⟩

include hlog in
/-- An offset of 2 ^ 31 becomes negative, and so does the index of its block. -/
theorem read_negative_faults (node : Ext2fsNode) (hflags : node.inode.extents = false) (len : ℤ)
    (buf : Bytes) (log : Log) :
    vfsFileRead fs fuel node (-2 ^ 31) buf len log = .error .outOfBounds := by
  have hbig := ext2BlockSize_le fs hlog
  have hsize := ext2BlockSize_eq fs
  have htwo := two_le_blockSectors fs
  have hfirst : (-2 ^ 31 : ℤ).tdiv (ext2BlockSize fs) < 0 := by
    have hquot : 1 ≤ (2 ^ 31 : ℤ) / (ext2BlockSize fs : ℤ) :=
      Int.le_ediv_of_mul_le (by omega) (by omega)
    rw [Int.neg_tdiv, Int.tdiv_eq_ediv_of_nonneg (by decide)]
    omega
  have hcount : 0 ≤ blockCount fs (-2 ^ 31) (clampLength node len) := by
    obtain ⟨hlo, hhi⟩ :=
      uint32_bounds (clampLength node len + -2 ^ 31 + (ext2BlockSize fs : ℤ) - 1)
    have hquot : uint32 (clampLength node len + -2 ^ 31 + (ext2BlockSize fs : ℤ) - 1) /
        (ext2BlockSize fs : ℤ) < 2 ^ 31 :=
      Int.ediv_lt_of_lt_mul (by omega) (by omega)
    have hpos := Int.ediv_nonneg hlo (show 0 ≤ (ext2BlockSize fs : ℤ) by omega)
    unfold blockCount
    rw [int32_of_nat _ hpos hquot]
    exact hpos
  obtain ⟨n, hn⟩ : ∃ n, (blockCount fs (-2 ^ 31) (clampLength node len) -
      (-2 ^ 31 : ℤ).tdiv (ext2BlockSize fs)).toNat = n + 1 :=
    ⟨(blockCount fs (-2 ^ 31) (clampLength node len) -
      (-2 ^ 31 : ℤ).tdiv (ext2BlockSize fs)).toNat - 1, by omega⟩
  unfold vfsFileRead ext4fsFileEntryRead ext4fsReadFile
  refine (bind_ok (lift_ok (if_pos hlog) log)).trans ?_
  rw [hn, readBlocks]
  refine bind_error ?_
  unfold readAllocatedBlock1
  refine (bind_ok (lift_ok (if_pos hlog) log)).trans ?_
  simp only [hflags, Bool.false_eq_true, if_false]
  rw [if_pos (by omega), if_pos hfirst]
  rfl

end Files

/-- Which files are read exactly: those of up to 2 ^ 31 bytes. Of a larger file
with pointers in its inode the byte 2 ^ 31 is not read. -/
theorem readsExactly_iff (fs : ExtFilesystem) (hgood : fs.devDesc.disk.NoErrors)
    (hpart : fs.devDesc.off + fs.devDesc.length < 2 ^ 63)
    (hlog : fs.sblock.log2BlockSize ≤ 20) (fuel count : ℕ) (map : ℕ → ℤ) (inode : Ext2Inode)
    (valid : Ext2fsNode → Prop) (hfile : RegularFile fs fuel count map inode valid)
    (node : Ext2fsNode) (hvalid : valid node)
    (hcount : reportedSize node ≤ count * ext2BlockSize fs) :
    (reportedSize node ≤ 2 ^ 31 → ReadsExactly fs fuel map node) ∧
    (inode.extents = false → ReadsExactly fs fuel map node → reportedSize node ≤ 2 ^ 31) := by
  refine ⟨readsExactly_small fs hgood hpart hlog fuel count map inode valid hfile node hvalid
    hcount, fun hflags h => ?_⟩
  by_contra hlarge
  obtain ⟨r, log, hrun, -⟩ := h (2 ^ 31) 1 (by omega) (by omega) (by decide) (fun _ => 0) []
  have hneg : int32 ((2 ^ 31 : ℕ) : ℤ) = -2 ^ 31 := by decide +kernel
  have hinode := hfile.inodes node hvalid
  have hfault := read_negative_faults fs hlog fuel node (by rw [hinode]; exact hflags) (1 : ℕ)
    (fun _ => 0) []
  unfold readFile at hrun
  dsimp only at hrun
  rw [hneg, bind_error hfault] at hrun
  cases hrun

theorem readsExactly_iff_pair :
    ReadsExactly (smallFs pairImage) 0 (fun i => int32 (pairInode.dirBlock i))
      (freshNode pairInode) :=
  (readsExactly_iff (smallFs pairImage) (noErrors_ofImage _) (by decide) (by decide) 0 2 _
    pairInode (fun node => node.inode = pairInode)
    ⟨realizes_mono (realizes_direct (smallFs pairImage) (by decide) 0 pairInode (by decide +kernel))
      (by decide), fun _ h => h, pairInode_map.1, pairInode_map.2⟩ (freshNode pairInode) rfl
    (by decide +kernel)).1 (by decide +kernel)

/-- A file of 2 ^ 31 + 1 bytes without blocks has a last byte that is not read:
the read goes to block -2097152. -/
theorem large_file_not_read :
    reportedSize (freshNode (holeInode (2 ^ 31 + 1))) = 2 ^ 31 + 1 ∧
    ¬ ∃ r log, readFile (smallFs fun _ => 0) 0 (some (freshNode (holeInode (2 ^ 31 + 1))))
      (fun _ => 0) 1 (2 ^ 31) [] = .ok (r, log) := by
  refine ⟨by decide +kernel, ?_⟩
  rintro ⟨r, log, hrun⟩
  have hneg : int32 (2 ^ 31) = -2 ^ 31 := by decide +kernel
  have hfault := read_negative_faults (smallFs fun _ => 0) (by decide) 0
    (freshNode (holeInode (2 ^ 31 + 1))) (by decide +kernel) (1 : ℕ) (fun _ => 0) []
  unfold readFile at hrun
  dsimp only at hrun
  rw [hneg, bind_error hfault] at hrun
  cases hrun

/-- A read of an open file that comes back without an error. -/
def ReadSucceeds (fs : ExtFilesystem) (fuel : ℕ) (filp : Option Ext2fsNode) (buffer : Bytes)
    (bufferLength : ℕ) (offset : ℤ) (log : Log) : Prop :=
  ∃ node res log', filp = some node ∧
    vfsFileRead fs fuel node (int32 offset) buffer bufferLength log = .ok (res, log') ∧ 0 ≤ res.1

/-- Status 0 comes with a length that was stored, fits the buffer and was read. -/
structure Honest (fs : ExtFilesystem) (fuel : ℕ) (filp : Option Ext2fsNode) (buffer : Bytes)
    (bufferLength : ℕ) (offset : ℤ) (log : Log) (r : ReadResult) : Prop where
  success : r.status = 0 → (∃ n : ℤ, r.readLength = some n ∧ 0 ≤ n ∧ n ≤ bufferLength) ∧
    ReadSucceeds fs fuel filp buffer bufferLength offset log
  failure : ¬ ReadSucceeds fs fuel filp buffer bufferLength offset log → r.status ≠ 0

/-- The status is 0 whatever happens below, so the callback is honest exactly
when there is an open file and its read succeeds. -/
theorem honest_iff (fs : ExtFilesystem) (fuel : ℕ) (filp : Option Ext2fsNode) (buffer : Bytes)
    (bufferLength : ℕ) (hlen : bufferLength < 2 ^ 31) (offset : ℤ) (log log' : Log) (r : ReadResult)
    (h : readFile fs fuel filp buffer bufferLength offset log = .ok (r, log')) :
    Honest fs fuel filp buffer bufferLength offset log r ↔
      ReadSucceeds fs fuel filp buffer bufferLength offset log := by
  cases filp with
  | none =>
    cases h
    exact ⟨fun hh => (hh.success rfl).2, fun ⟨node, res, log', hnone, _⟩ => nomatch hnone⟩
  | some node =>
    obtain ⟨⟨nrd, node', buffer'⟩, log₁, hread, h⟩ := bind_eq_ok h
    cases h
    refine ⟨fun hh => (hh.success rfl).2, fun hsuccess => ⟨fun _ => ⟨⟨uint32 nrd, rfl, ?_⟩,
      hsuccess⟩, fun hfail => absurd hsuccess hfail⟩⟩
    obtain ⟨_, res, log₂, hnode, hread', hpos⟩ := hsuccess
    obtain rfl := Option.some.inj hnode
    cases hread.symm.trans hread'
    have hle : 0 ≤ clampLength node bufferLength ∧
        clampLength node bufferLength ≤ bufferLength := by
      unfold clampLength
      split <;> omega
    rcases ext4fsReadFile_result hread with hres | hres
    · have hcount : nrd = clampLength node bufferLength :=
        hres.trans (int32_of_nat _ hle.1 (by omega))
      rw [hcount, uint32_of_range _ hle.1 (by omega)]
      exact hle
    · change nrd = -1 at hres
      change 0 ≤ nrd at hpos
      omega

/-- When the callback is honest: on any device when the read below it succeeds,
and on a device without errors that is a matter of the blocks of the range. -/
theorem readFile_honest_iff (fs : ExtFilesystem)
    (hpart : fs.devDesc.off + fs.devDesc.length < 2 ^ 63) (hlog : fs.sblock.log2BlockSize ≤ 20)
    (fuel : ℕ) (bufferLength offset : ℕ) (hlen : bufferLength < 2 ^ 31) (hoffset : offset < 2 ^ 31)
    (buffer : Bytes) (log log' : Log) (filp : Option Ext2fsNode) (r : ReadResult)
    (h : readFile fs fuel filp buffer bufferLength offset log = .ok (r, log')) :
    (Honest fs fuel filp buffer bufferLength offset log r ↔
      ReadSucceeds fs fuel filp buffer bufferLength offset log) ∧
    ∀ node map valid, filp = some node → fs.devDesc.disk.NoErrors →
      offset + min bufferLength node.inode.size ≤ 2 ^ 31 →
      Realizes fs fuel map (endBlock fs offset (min bufferLength node.inode.size)) valid →
      valid node →
        (Honest fs fuel filp buffer bufferLength offset log r ↔
          (∀ j, firstBlock fs offset ≤ j →
            j < endBlock fs offset (min bufferLength node.inode.size) →
              Reads fs offset (min bufferLength node.inode.size) map j) ∧
          ShiftOk fs offset (min bufferLength node.inode.size) map
            (endBlock fs offset (min bufferLength node.inode.size))) := by
  have hhonest := honest_iff fs fuel filp buffer bufferLength hlen offset log log' r h
  refine ⟨hhonest, fun node map valid hnode hgood hmax hreal hvalid => hhonest.trans ?_⟩
  subst hnode
  have hpos : int32 (offset : ℤ) = offset := int32_of_nat _ (by omega) (by omega)
  have hsteps : StepsOk fs.devDesc
      (rangePlan fs offset (min bufferLength node.inode.size) map) ↔ _ :=
    rangePlan_ok_iff fs offset (min bufferLength node.inode.size) map hlog _ (Nat.le_refl _)
      (firstBlock_le_endBlock fs offset _)
  refine Iff.trans ?_ hsteps
  obtain ⟨res, log₁, hread, -, hres⟩ := ext4fsReadFile_plan fs hgood hpart hlog fuel offset
    (min bufferLength node.inode.size) hmax map valid hreal bufferLength node
    (clampLength_eq node _)
    hvalid buffer log
  have hcount : res.1 = (outcome (min bufferLength node.inode.size) (runSteps fs.devDesc
    (rangePlan fs offset (min bufferLength node.inode.size) map) buffer)).1 :=
    congrArg Prod.fst hres
  rw [← runSteps_ok_iff _ _ buffer]
  constructor
  · rintro ⟨_, res', log₂, hnode, hread', hsuccess⟩
    obtain rfl := Option.some.inj hnode
    rw [hpos] at hread'
    cases hread.symm.trans hread'
    by_contra hfail
    rw [hcount, outcome, if_neg hfail] at hsuccess
    exact absurd (show (0 : ℤ) ≤ -1 from hsuccess) (by decide)
  · intro hok
    refine ⟨node, res, log₁, rfl, ?_, ?_⟩
    · rw [hpos]
      exact hread
    · rw [hcount, outcome, if_pos hok, int32_of_nat _ (by omega) (by omega)]
      omega

theorem readFile_honest_iff_pair :
    (∀ r log, readFile (smallFs pairImage) 0 (some (freshNode pairInode)) (fun _ => 0) 1500 0 [] =
      .ok (r, log) →
        Honest (smallFs pairImage) 0 (some (freshNode pairInode)) (fun _ => 0) 1500 0 [] r) ∧
    ∀ r log, readFile (smallFs pairImage) 0 none (fun _ => 0) 1500 0 [] = .ok (r, log) →
      ¬ Honest (smallFs pairImage) 0 none (fun _ => 0) 1500 0 [] r := by
  constructor
  · intro r log h
    have hiff := (readFile_honest_iff (smallFs pairImage) (by decide) (by decide) 0 1500 0
      (by decide) (by decide) (fun _ => 0) [] log (some (freshNode pairInode)) r h).2
      (freshNode pairInode) _ _ rfl (noErrors_ofImage _) (by decide +kernel)
      (realizes_mono (realizes_direct (smallFs pairImage) (by decide) 0 pairInode
        (by decide +kernel)) (by decide +kernel)) rfl
    have hend : endBlock (smallFs pairImage) 0
      (min 1500 (freshNode pairInode).inode.size) = 2 := by decide +kernel
    refine hiff.mpr ⟨fun j hlo hhi => reads_of_inPartition (smallFs pairImage) _ pairInode_map.1 0 _
      j hlo hhi (by omega), fun hshift => absurd hshift (by decide)⟩
  · intro r log h hh
    obtain ⟨node, res, log', hnone, -⟩ := (readFile_honest_iff (smallFs pairImage) (by decide)
      (by decide) 0 1500 0 (by decide) (by decide) (fun _ => 0) [] log none r h).1.mp hh
    exact nomatch hnone

/-- Without an open file status 0 comes without a length, and when the sectors of
the file cannot be read it comes with the length 4294967295. -/
theorem readFile_success_without_data :
    (∃ log, readFile (smallFs pairImage) 0 none (fun _ => 0) 8 0 [] =
      .ok (⟨0, none, none, fun _ => 0⟩, log)) ∧
    ∃ r log, readFile { smallFs pairImage with devDesc := ⟨⟨pairImage, fun _ _ => true,
      fun _ _ _ => 0⟩, 0, 16⟩ } 0 (some (freshNode pairInode)) (fun _ => 0) 1024 0 [] =
        .ok (r, log) ∧ r.status = 0 ∧ r.readLength = some (2 ^ 32 - 1) := by
  refine ⟨⟨[], rfl⟩, ?_⟩
  have hrun : (match readFile { smallFs pairImage with devDesc := ⟨⟨pairImage, fun _ _ => true,
      fun _ _ _ => 0⟩, 0, 16⟩ } 0 (some (freshNode pairInode)) (fun _ => 0) 1024 0 [] with
      | .ok (r, _) => decide (r.status = 0 ∧ r.readLength = some (2 ^ 32 - 1))
      | .error _ => false) = true := by decide +kernel
  split at hrun
  · rename_i r log heq
    exact ⟨r, log, heq, of_decide_eq_true hrun⟩
  · exact absurd hrun Bool.false_ne_true

end Eokan.DokanRead
