import Eokan.NodeRuns

/-!
Directories as sequences of entries, and what a lookup and a listing make of
them. It depends on which inodes can be read, and what they say.
-/
namespace Eokan.Entries

open ByteMem CInt Layout DokanRead NodeHeap Directory NodeRuns

structure Entry where
  inode : ℕ
  direntlen : ℕ
  filetype : ℕ
  name : List UInt8
  deriving DecidableEq

/-- The name as the code sees it. -/
def Entry.cname (e : Entry) : List UInt8 := e.name.takeWhile (· ≠ 0)

/-- The data of a directory has this entry at pos. -/
structure EntryAt (data : Bytes) (pos : ℕ) (e : Entry) : Prop where
  inode : Ext2Dirent.inode ⟨slice data pos⟩ = e.inode
  direntlen : Ext2Dirent.direntlen ⟨slice data pos⟩ = e.direntlen
  namelen : Ext2Dirent.namelen ⟨slice data pos⟩ = e.name.length
  filetype : Ext2Dirent.filetype ⟨slice data pos⟩ = e.filetype
  name : ∀ i (hi : i < e.name.length), data (pos + 8 + i) = e.name[i]
  fits : 8 + e.name.length ≤ e.direntlen

/-- From pos up to its size the directory is these entries. -/
def EntriesAt (data : Bytes) (size : ℕ) : ℕ → List Entry → Prop
  | pos, [] => pos = size
  | pos, e :: es => EntryAt data pos e ∧ EntriesAt data size (pos + e.direntlen) es

instance (data : Bytes) (pos : ℕ) (e : Entry) : Decidable (EntryAt data pos e) :=
  decidable_of_iff (Ext2Dirent.inode ⟨slice data pos⟩ = e.inode ∧
      Ext2Dirent.direntlen ⟨slice data pos⟩ = e.direntlen ∧
      Ext2Dirent.namelen ⟨slice data pos⟩ = e.name.length ∧
      Ext2Dirent.filetype ⟨slice data pos⟩ = e.filetype ∧
      (∀ i (hi : i < e.name.length), data (pos + 8 + i) = e.name[i]) ∧
      8 + e.name.length ≤ e.direntlen)
    ⟨fun ⟨h1, h2, h3, h4, h5, h6⟩ => ⟨h1, h2, h3, h4, h5, h6⟩,
      fun h => ⟨h.inode, h.direntlen, h.namelen, h.filetype, h.name, h.fits⟩⟩

instance (data : Bytes) (size : ℕ) : ∀ pos es, Decidable (EntriesAt data size pos es)
  | pos, [] => inferInstanceAs (Decidable (pos = size))
  | pos, e :: es =>
    have := instDecidableEntriesAt data size (pos + e.direntlen) es
    inferInstanceAs (Decidable (_ ∧ _))

theorem entriesAt_le {data : Bytes} {size pos : ℕ} {es : List Entry}
    (h : EntriesAt data size pos es) : pos ≤ size := by
  induction es generalizing pos with
  | nil => exact Nat.le_of_eq h
  | cons e es ih =>
    have hrest := ih h.2
    omega

/-- The header of an entry is its first eight bytes. -/
theorem dirent_congr {raw raw' : Bytes} (h : ∀ j, j < 8 → raw j = raw' j) :
    Ext2Dirent.inode ⟨raw⟩ = Ext2Dirent.inode ⟨raw'⟩ ∧
      Ext2Dirent.direntlen ⟨raw⟩ = Ext2Dirent.direntlen ⟨raw'⟩ ∧
      Ext2Dirent.namelen ⟨raw⟩ = Ext2Dirent.namelen ⟨raw'⟩ ∧
      Ext2Dirent.filetype ⟨raw⟩ = Ext2Dirent.filetype ⟨raw'⟩ := by
  refine ⟨?_, ?_, ?_, ?_⟩
  · exact le32_congr fun j hj => h (0 + j) (by omega)
  · exact le16_congr fun j hj => h (4 + j) (by omega)
  · exact congrArg UInt8.toNat (h 6 (by decide))
  · exact congrArg UInt8.toNat (h 7 (by decide))

theorem cString_of_name {buf : Bytes} {e : Entry}
    (hbuf : ∀ i (hi : i < e.name.length), buf i = e.name[i]) :
    cString buf e.name.length = e.cname := by
  unfold cString Entry.cname
  rw [map_range_eq hbuf]

section Scan
variable (contents : ℕ → Option Bytes)

/-- The type of an entry is its own, or else that of its inode. -/
def typeOf (e : Entry) : Option FileType :=
  if e.filetype ≠ 0 then some (FileType.ofEntry e.filetype)
  else (contents e.inode).map fun bytes => FileType.ofMode (inodeOf bytes).mode

/-- The node that is made for an entry. Its inode may have been read already. -/
def EntryNode (e : Entry) (node : Ext2fsNode) : Prop :=
  node = unreadNode e.inode ∨
    ∃ bytes, contents e.inode = some bytes ∧ node = readNode e.inode bytes

/-- What a lookup finds. An entry without a type ends it. -/
def lookupScan (name : List UInt8) : List Entry → Option (Entry × FileType)
  | [] => none
  | e :: es =>
    if e.name = [] then lookupScan name es
    else match typeOf contents e with
      | none => none
      | some type => if e.cname = name then some (e, type) else lookupScan name es

/-- The entries that are passed on. -/
def listScan : List Entry → List Entry
  | [] => []
  | e :: es =>
    if e.name = [] then listScan es
    else if contents e.inode = none then []
    else e :: listScan es

/-- What is passed on of an entry: its name, its status and if it is a directory. -/
def callOf (e : Entry) : List UInt8 × Xstat × Bool :=
  let bytes := (contents e.inode).getD fun _ => 0
  (e.cname, ext4fsFileEntryStat (readNode e.inode bytes),
    typeOf contents e = some .directory)

/-- The function gets these entries one after the other. -/
def passOn {α : Type} (f : α → List UInt8 → Xstat → Bool → ℤ × α) (es : List Entry) (a : α) : α :=
  (es.map (callOf contents)).foldl (fun a call => (f a call.1 call.2.1 call.2.2).2) a

end Scan

end Eokan.Entries
