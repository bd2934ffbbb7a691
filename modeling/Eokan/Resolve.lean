import Eokan.Directory

/-!
From a path to a node. The path is cut at its slashes, each component is looked
up in the directory that the one before it led to, and a symbolic link is
replaced by what its target leads to.
-/
namespace Eokan.Resolve

open ByteMem CInt Programs Device Layout Inodes ReadFile DokanRead NodeHeap Directory

def slash : UInt8 := 0x2f

/-- The components of a path. Slashes in front, behind and in a row do not count. -/
def names (path : List UInt8) : List (List UInt8) := (path.splitOn slash).filter (· ≠ [])

theorem names_nil : names [] = [] := rfl

theorem names_append (path rest : List UInt8) :
    names (path ++ slash :: rest) = names path ++ names rest := by
  unfold names
  rw [List.splitOn_append_cons_self, List.filter_append]

theorem names_slash (path : List UInt8) : names (slash :: path) = names path :=
  names_append [] path

theorem names_single (name : List UInt8) (hne : name ≠ []) (hslash : slash ∉ name) :
    names name = [name] := by
  unfold names
  rw [List.splitOn_eq_singleton hslash]
  simp [hne]

/-- The name up to the first slash, and what follows it. -/
theorem names_component (name rest : List UInt8) (hne : name ≠ []) (hslash : slash ∉ name) :
    names (name ++ slash :: rest) = name :: names rest := by
  rw [names_append, names_single name hne hslash]
  rfl

section Code
variable (fs : ExtFilesystem) (fuel steps : ℕ)

/-- A short target is in the inode. The status of the read of a long one is 0
only for an empty range. The zero behind the target needs a byte as well. -/
def ext4fsReadSymlink (ref : NodeRef) : NodeM (Option (List UInt8)) := do
  let read ← needInode fs ref
  if !read then pure none
  else do
    let diro ← deref ref
    let size := diro.inode.size
    if uint32 (size + 1 : ℕ) = 0 then fault .outOfBounds
    else if size ≤ 60 then pure (some (cString diro.inode.b size))
    else do
      let (status, symlink) ← readFileAt fs fuel ref 0 size (zalloc fs (size + 1))
      if status = 0 then pure none else pure (some (cString symlink size))

/-- What a search sets when it succeeds: the node, its type unless the path has
no component, and the number of links met so far. -/
abbrev Found := NodeRef × Option FileType × ℕ

/-- Look up a name in a directory. -/
def lookupIn (dir : NodeRef) (name : List UInt8) : NodeM (Option (ℕ × FileType)) := do
  let (found, ()) ← ext4fsIterateDir fs fuel steps dir (.lookup name) ()
  pure found

/-- Read the target of a link and free the node of the link. -/
def takeLink (link currroot : NodeRef) : NodeM (Option (List UInt8)) := do
  let symlink ← ext4fsReadSymlink fs fuel link
  ext4fsFreeNode link currroot
  pure symlink

/-- Where the target of a link starts. The directory is not needed any more if
that is the root. -/
def linkStart (symlink : List UInt8) (oldnode currroot : NodeRef) : NodeM NodeRef :=
  if symlink.head? = some slash then do
    ext4fsFreeNode oldnode currroot
    pure .diropen
  else pure oldnode

/-- Follow the link that was found in oldnode. What the target leads to replaces
the node of the link, and its type if it has one. -/
def followLink (follow : List UInt8 → NodeRef → ℕ → NodeM (Option Found))
    (link oldnode currroot : NodeRef) (symlinknest : ℕ) :
    NodeM (Option (NodeRef × NodeRef × FileType × ℕ)) := do
  let symlinknest := symlinknest + 1
  if symlinknest = 8 then do
    ext4fsFreeNode link currroot
    ext4fsFreeNode oldnode currroot
    pure none
  else do
    match ← takeLink fs fuel link currroot with
    | none => do
      ext4fsFreeNode oldnode currroot
      pure none
    | some symlink => do
      let oldnode ← linkStart symlink oldnode currroot
      match ← follow symlink oldnode symlinknest with
      | none => do
        ext4fsFreeNode oldnode currroot
        pure none
      | some (currnode, type, symlinknest) =>
        pure (some (currnode, oldnode, type.getD .symlink, symlinknest))

/-- The loop over the components. A pointer is not handed on once its node is freed. -/
def walk (follow : List UInt8 → NodeRef → ℕ → NodeM (Option Found)) (currroot : NodeRef) :
    List (List UInt8) → NodeRef → FileType → ℕ → NodeM (Option Found)
  | [], currnode, type, symlinknest => do
    let _ ← deref currnode
    pure (some (currnode, some type, symlinknest))
  | name :: next, currnode, type, symlinknest => do
    if type ≠ .directory then do
      ext4fsFreeNode currnode currroot
      pure none
    else do
      match ← lookupIn fs fuel steps currnode name with
      | none => pure none
      | some (entry, .symlink) => do
        match ← followLink fs fuel follow (.alloc entry) currnode currroot symlinknest with
        | none => pure none
        | some (currnode, oldnode, type, symlinknest) => do
          ext4fsFreeNode oldnode currroot
          walk follow currroot next currnode type symlinknest
      | some (entry, type) => do
        ext4fsFreeNode currnode currroot
        walk follow currroot next (.alloc entry) type symlinknest

/-- A link is followed by the same search, one level deeper. -/
def ext4fsFindFile1 : ℕ → List UInt8 → NodeRef → ℕ → NodeM (Option Found)
  | 0, _, _, _ => fault .outOfFuel
  | depth + 1, currpath, currroot, symlinknest =>
    match names currpath with
    | [] => pure (some (currroot, none, symlinknest))
    | name :: next =>
      walk fs fuel steps (ext4fsFindFile1 depth) currroot (name :: next) currroot .directory
        symlinknest

/-- The status, and the node that was found even if its type is not the expected
one. Seven links are followed at most, so eight levels are enough. -/
def ext4fsFindFile (path : List UInt8) (rootnode : NodeRef) (expecttype : FileType) :
    NodeM (Bool × Option NodeRef) := do
  match ← ext4fsFindFile1 fs fuel steps 8 path rootnode 0 with
  | none => pure (false, none)
  | some (foundnode, type, _) =>
    let foundtype := type.getD .directory
    if expecttype = .reg ∧ foundtype ≠ expecttype then pure (false, some foundnode)
    else if expecttype = .directory ∧ foundtype ≠ expecttype then pure (false, some foundnode)
    else pure (true, some foundnode)

def openFail (fdiro : Option NodeRef) : NodeM (Option NodeRef) :=
  match fdiro with
  | none => pure none
  | some node => do
    ext4fsFreeNode node .diropen
    pure none

/-- The node of the handle that is returned. -/
def ext4fsOpen (filename : List UInt8) : NodeM (Option NodeRef) := do
  let (status, fdiro) ← ext4fsFindFile fs fuel steps filename .diropen .reg
  match status, fdiro with
  | true, some node => do
    let read ← needInode fs node
    if !read then openFail fdiro else pure (some node)
  | _, fdiro => openFail fdiro

def ext4fsListFiles {α : Type} (dirname : List UInt8)
    (func : Option (α → List UInt8 → Xstat → Bool → ℤ × α)) (data : α) : NodeM (ℤ × α) := do
  let (status, dirnode) ← ext4fsFindFile fs fuel steps dirname .diropen .directory
  match status, dirnode with
  | true, some dirnode => do
    let (_, data) ← ext4fsIterateDir fs fuel steps dirnode (.list func) data
    ext4fsFreeNode dirnode .diropen
    pure (0, data)
  | _, _ => pure (-1, data)

end Code

end Eokan.Resolve
