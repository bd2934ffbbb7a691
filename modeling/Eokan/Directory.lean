import Eokan.DokanRead
import Eokan.Inodes
import Eokan.NodeHeap
import Mathlib.Data.List.TakeWhile

/-!
Iterating over a directory, to find a name or to pass every entry on. An entry
gets a node of its own, which is freed again unless it is the one looked for.
-/
namespace Eokan.Directory

open ByteMem CInt Programs Device Layout Inodes ReadFile DokanRead NodeHeap

inductive FileType
  | unknown
  | reg
  | directory
  | symlink
  deriving DecidableEq

/-- The type that a directory entry names itself. -/
def FileType.ofEntry (filetype : ℕ) : FileType :=
  if filetype = 2 then .directory
  else if filetype = 7 then .symlink
  else if filetype = 1 then .reg
  else .unknown

def FileType.ofMode (mode : ℕ) : FileType :=
  let kind := mode &&& 0o170000
  if kind = 0o040000 then .directory
  else if kind = 0o120000 then .symlink
  else if kind = 0o100000 then .reg
  else .unknown

/-- The string in a buffer of n bytes with a zero behind them. -/
def cString (buf : Bytes) (n : ℕ) : List UInt8 := ((List.range n).map buf).takeWhile (· ≠ 0)

theorem map_range_eq {buf : Bytes} {text : List UInt8}
    (hbuf : ∀ i (hi : i < text.length), buf i = text[i]) :
    (List.range text.length).map buf = text := by
  apply List.ext_getElem (by simp)
  intro i hi hi'
  rw [List.getElem_map, List.getElem_range, hbuf i hi']

theorem takeWhile_nul {text : List UInt8} (hnul : 0 ∉ text) : text.takeWhile (· ≠ 0) = text := by
  rw [List.takeWhile_eq_self_iff]
  intro b hb
  exact decide_eq_true fun hzero => hnul (hzero ▸ hb)

/-- A name is looked for, or a function gets every entry together with its data. -/
inductive DirMode (α : Type)
  | lookup (name : List UInt8)
  | list (dirFunc : Option (α → List UInt8 → Xstat → Bool → ℤ × α))

/-- What follows from one entry: the iteration is done, or it goes on unless the
function got something. -/
inductive Visit (α : Type)
  | done (found : Option (ℕ × FileType)) (data : α)
  | next (got : ℤ) (data : α)

section Code
variable (fs : ExtFilesystem)

/-- Read into a buffer. The zeros of a hole may run over its end. That is no fault here, and
what lies behind the end is not looked at. -/
def readFileAt (fuel : ℕ) (ref : NodeRef) (pos len : ℤ) (buf : Bytes) : NodeM (ℤ × Bytes) := do
  let node ← deref ref
  let (status, node, buf) ← device (ext4fsReadFile fs fuel node pos len buf)
  store ref node
  pure (status, buf)

/-- Read the inode of a node into it. -/
def loadInode (ref : NodeRef) : NodeM ℤ := do
  let node ← deref ref
  let (status, inode) ← device (ext4fsReadInode fs node.ino node.inode)
  store ref { node with inode }
  pure status

def needInode (ref : NodeRef) : NodeM Bool := do
  let node ← deref ref
  if node.inodeRead then pure true
  else do
    let status ← loadInode fs ref
    pure (status ≠ 0)

def setInodeRead (ref : NodeRef) : NodeM Unit := do
  let node ← deref ref
  store ref { node with inodeRead := true }

/-- A new node for an entry. -/
def entryNode (dirent : Ext2Dirent) : Ext2fsNode :=
  ⟨⟨fun _ => 0⟩, ⟨none, 0, 0⟩, ⟨none, 0, 0⟩, ⟨none, 0, 0⟩, int32 dirent.inode, false⟩

/-- The type of an entry that does not name it is in its inode. -/
def entryType (fdiro : ℕ) (dirent : Ext2Dirent) : NodeM (Option FileType) :=
  if dirent.filetype ≠ 0 then pure (some (FileType.ofEntry dirent.filetype))
  else do
    let status ← loadInode fs (.alloc fdiro)
    if status = 0 then pure none
    else do
      setInodeRead (.alloc fdiro)
      let node ← deref (.alloc fdiro)
      pure (some (FileType.ofMode node.inode.mode))

variable {α : Type}

def listEntry (fdiro : ℕ) (filename : List UInt8) (type : FileType)
    (dirFunc : Option (α → List UInt8 → Xstat → Bool → ℤ × α)) (data : α) :
    NodeM (Option (ℤ × α)) := do
  let read ← needInode fs (.alloc fdiro)
  if !read then pure none
  else do
    setInodeRead (.alloc fdiro)
    let node ← deref (.alloc fdiro)
    match dirFunc with
    | none => pure (some (0, data))
    | some f => pure (some (f data filename (ext4fsFileEntryStat node) (type = .directory)))

/-- One entry that has a name. -/
def visitEntry (mode : DirMode α) (dirent : Ext2Dirent) (filename : List UInt8) (data : α) :
    NodeM (Visit α) := do
  let fdiro ← allocNode (entryNode dirent)
  match ← entryType fs fdiro dirent with
  | none => do
    free fdiro
    pure (.done none data)
  | some type =>
    match mode with
    | .lookup name =>
      if filename = name then pure (.done (some (fdiro, type)) data)
      else do
        free fdiro
        pure (.next 0 data)
    | .list dirFunc => do
      let listed ← listEntry fs fdiro filename type dirFunc data
      free fdiro
      match listed with
      | none => pure (.done none data)
      | some (got, data) => pure (.next got data)

/-- The loop from byte fpos on. The buffers on the stack hold anything before. -/
def iterateFrom (fuel : ℕ) (dir : NodeRef) (mode : DirMode α) :
    ℕ → ℕ → α → NodeM (Option (ℕ × FileType) × α)
  | 0, _, _ => fault .outOfFuel
  | steps + 1, fpos, data => do
    let diro ← deref dir
    if fpos < diro.inode.size then do
      let (status, raw) ← readFileAt fs fuel dir (int32 fpos) 8 fs.past
      if status < 1 then pure (none, data)
      else do
        let dirent : Ext2Dirent := ⟨raw⟩
        let next := (uint32 (fpos + dirent.direntlen)).toNat
        if dirent.namelen = 0 then iterateFrom fuel dir mode steps next data
        else do
          let (status, filename) ← readFileAt fs fuel dir (int32 (fpos + 8)) dirent.namelen fs.past
          if status < 1 then pure (none, data)
          else do
            match ← visitEntry fs mode dirent (cString filename dirent.namelen) data with
            | .done found data => pure (found, data)
            | .next got data =>
              if got ≠ 0 then pure (none, data) else iterateFrom fuel dir mode steps next data
    else pure (none, data)

def ext4fsIterateDir (fuel steps : ℕ) (dir : NodeRef) (mode : DirMode α) (data : α) :
    NodeM (Option (ℕ × FileType) × α) := do
  let read ← needInode fs dir
  if !read then pure (none, data) else iterateFrom fs fuel dir mode steps 0 data

end Code

end Eokan.Directory
