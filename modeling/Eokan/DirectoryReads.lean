import Eokan.Entries

/-!
What the loop over a directory reads. At each position it finds an entry or
stops, and the entry says where the next position is. The data of a directory
may be anything. If it is a sequence of entries, these are what is found.
-/
namespace Eokan.DirectoryReads

open ByteMem CInt Programs Device Layout ReadFile ReadPlan FileContent Entries

/-- Reads within a file deliver its data, whatever was in the buffer before, and
leave a node as good as it was. -/
structure ReadableFile (fs : ExtFilesystem) (fuel : ℕ) (valid : Ext2fsNode → Prop) (size : ℕ)
    (data : Bytes) : Prop where
  sizes : ∀ node, valid node → node.inode.size = size
  read : ∀ node, valid node → ∀ pos len : ℕ, 1 ≤ len → pos + len ≤ size → ∀ buf log,
    Yields (ext4fsReadFile fs fuel node (int32 pos) len buf) log fun r _ =>
      valid r.2.1 ∧ r.1 = len ∧ ∀ j, j < len → r.2.2 j = data (pos + j)

/-- A file below 2 GiB whose lookups answer as a map is read as its content. -/
theorem readableFile_of_map (fs : ExtFilesystem) (hgood : fs.devDesc.disk.NoErrors)
    (hpart : fs.devDesc.off + fs.devDesc.length < 2 ^ 63) (hlog : fs.sblock.log2BlockSize ≤ 20)
    (fuel count : ℕ) (map : ℕ → ℤ) (valid : Ext2fsNode → Prop)
    (hreal : Realizes fs fuel map count valid) (hin : InPartition fs map count)
    (hrep : NoRepeat map count) (size : ℕ) (hsize : size < 2 ^ 31)
    (hcount : size ≤ count * ext2BlockSize fs)
    (hsizes : ∀ node, valid node → node.inode.size = size) :
    ReadableFile fs fuel valid size (fileByte fs map) := by
  refine ⟨hsizes, fun node hvalid pos len _ hlen buf log => ?_⟩
  have hclamp : clampLength node len = len := by
    have hnode := hsizes node hvalid
    exact if_neg (by omega)
  have hread := ext4fsReadFile_content fs hgood hpart hlog fuel count map valid hreal hin hrep node
    hvalid pos len (by omega) (endBlock_le fs count pos len (by omega)) len hclamp buf log
  rw [int32_of_nat (pos : ℤ) (by omega) (by omega)]
  rwa [int32_of_nat (len : ℤ) (by omega) (by omega)] at hread

/-- A read with this status, and with these bytes if it succeeds. -/
def Delivers (fs : ExtFilesystem) (fuel : ℕ) (valid : Ext2fsNode → Prop) (pos len : ℕ)
    (status : ℤ) (bytes : Bytes) : Prop :=
  ∀ node, valid node → ∀ log,
    Yields (ext4fsReadFile fs fuel node (int32 pos) len fs.past) log fun r _ =>
      valid r.2.1 ∧ r.1 = status ∧ (1 ≤ status → ∀ j, j < len → r.2.2 j = bytes j)

/-- The entry that the loop finds at a position, if its reads succeed. -/
def Looks (fs : ExtFilesystem) (fuel : ℕ) (valid : Ext2fsNode → Prop) (pos : ℕ) :
    Option Entry → Prop
  | some e => ∃ status raw, Delivers fs fuel valid pos 8 status raw ∧ 1 ≤ status ∧
      (Ext2Dirent.inode ⟨raw⟩ = e.inode ∧ Ext2Dirent.direntlen ⟨raw⟩ = e.direntlen ∧
        Ext2Dirent.namelen ⟨raw⟩ = e.name.length ∧ Ext2Dirent.filetype ⟨raw⟩ = e.filetype) ∧
      (e.name ≠ [] → ∃ status' buf, Delivers fs fuel valid (pos + 8) e.name.length status' buf ∧
        1 ≤ status' ∧ ∀ i (hi : i < e.name.length), buf i = e.name[i])
  | none => ∃ status raw, Delivers fs fuel valid pos 8 status raw ∧
      (status < 1 ∨ 1 ≤ status ∧ Ext2Dirent.namelen ⟨raw⟩ ≠ 0 ∧ ∃ status' buf,
        Delivers fs fuel valid (pos + 8) (Ext2Dirent.namelen ⟨raw⟩) status' buf ∧ status' < 1)

/-- The position counts modulo 2 ^ 32. -/
def nextPos (pos : ℕ) (e : Entry) : ℕ := (pos + e.direntlen) % 2 ^ 32

theorem toNat_uint32_add (a b : ℕ) : (uint32 ((a : ℤ) + b)).toNat = (a + b) % 2 ^ 32 := by
  unfold uint32
  omega

/-- From pos to q the loop finds these entries. -/
def Walk (fs : ExtFilesystem) (fuel : ℕ) (valid : Ext2fsNode → Prop) (size : ℕ) :
    ℕ → List Entry → ℕ → Prop
  | pos, [], q => pos = q
  | pos, e :: es, q =>
    pos < size ∧ Looks fs fuel valid pos (some e) ∧ Walk fs fuel valid size (nextPos pos e) es q

/-- Here the loop ends: behind the last byte, or with a read that fails. -/
def Stops (fs : ExtFilesystem) (fuel : ℕ) (valid : Ext2fsNode → Prop) (size pos : ℕ) : Prop :=
  size ≤ pos ∨ Looks fs fuel valid pos none

section Entries
variable {fs : ExtFilesystem} {fuel size : ℕ} {data : Bytes} {valid : Ext2fsNode → Prop}
  (hfile : ReadableFile fs fuel valid size data)
include hfile

theorem delivers_of_readable {pos len : ℕ} (hlen : 1 ≤ len) (hle : pos + len ≤ size) :
    Delivers fs fuel valid pos len len (slice data pos) := by
  intro node hvalid log
  refine (hfile.read node hvalid pos len hlen hle fs.past log).mono ?_
  intro r log' hr
  exact ⟨hr.1, hr.2.1, fun _ => hr.2.2⟩

theorem looks_of_entryAt {pos : ℕ} {e : Entry} (h : EntryAt data pos e)
    (hle : pos + e.direntlen ≤ size) : Looks fs fuel valid pos (some e) := by
  have hfits := h.fits
  refine ⟨8, slice data pos, delivers_of_readable hfile (by omega) (by omega), by decide,
    ⟨h.inode, h.direntlen, h.namelen, h.filetype⟩, fun hname => ?_⟩
  have hpos := List.length_pos_iff.mpr hname
  refine ⟨e.name.length, slice data (pos + 8), delivers_of_readable hfile hpos (by omega),
    by omega, fun i hi => ?_⟩
  exact h.name i hi

/-- The entries that make up the data are found one after the other. -/
theorem walk_of_entries (hsize : size < 2 ^ 32) {pos : ℕ} {es : List Entry}
    (hes : EntriesAt data size pos es) : Walk fs fuel valid size pos es size := by
  induction es generalizing pos with
  | nil => exact hes
  | cons e es ih =>
    obtain ⟨hentry, hrest⟩ := hes
    have hle := entriesAt_le hrest
    have hfits := hentry.fits
    refine ⟨by omega, looks_of_entryAt hfile hentry hle, ?_⟩
    unfold nextPos
    rw [Nat.mod_eq_of_lt (by omega)]
    exact ih hrest

/-- The loop ends behind the last entry. -/
theorem entries_stop {node : Ext2fsNode} (hvalid : valid node) {es : List Entry}
    (hes : EntriesAt data size 0 es) :
    Walk fs fuel valid size 0 es size ∧ Stops fs fuel valid size size :=
  ⟨walk_of_entries hfile (hfile.sizes node hvalid ▸ le32_lt _ _) hes, Or.inl (Nat.le_refl size)⟩

end Entries

end Eokan.DirectoryReads
