import Eokan.DirectoryScan
import Eokan.LinkedNames
import Eokan.Resolve
import Eokan.TypeVisits

/-!
Trees of directories, files and links. What the inodes of a tree say is stated
apart from the nodes that a search makes for them, and as long as nothing fails
a look into a directory or a link gives what the tree says.
-/
namespace Eokan.Trees

open ByteMem CInt Programs Device Layout Inodes ReadFile DokanRead NodeHeap Directory
  DirectoryNodes NodeRuns Entries DirectoryReads EntryVisits DirectoryScan Resolve LinkedNames
  TypeVisits

/-- Inodes by their numbers: the bytes of each one, and the entries of directories. -/
structure Tree where
  root : ℤ
  nodes : Set ℤ
  content : ℤ → Bytes
  entries : ℤ → List Entry

namespace Tree
variable (t : Tree)

def inode (ino : ℤ) : Ext2Inode := inodeOf (t.content ino)

def type (ino : ℤ) : FileType := FileType.ofMode (t.inode ino).mode

/-- The target of a link that has room in the inode. -/
def target (ino : ℤ) : List UInt8 := cString (t.inode ino).b (t.inode ino).size

def child (ino : ℤ) (name : List UInt8) : Option ℤ :=
  ((t.entries ino).find? (·.name = name)).map fun e => int32 e.inode

/-- The names that paths and links are made of. -/
def graph : NameGraph ℤ (List UInt8) where
  root := t.root
  isDir ino := t.type ino = .directory
  child := t.child
  link ino :=
    if t.type ino = .symlink then some ((t.target ino).head? = some slash, names (t.target ino))
    else none

/-- An entry with a name is not deleted, and its type is that of its inode. -/
structure NamedEntry (e : Entry) : Prop where
  live : e.inode ≠ 0
  name : 0 ∉ e.name
  node : int32 e.inode ∈ t.nodes
  filetype : e.filetype = 0 ∨ FileType.ofEntry e.filetype = t.type (int32 e.inode)

structure WellFormed : Prop where
  root : t.root ∈ t.nodes ∧ t.type t.root = .directory
  entries : ∀ ino ∈ t.nodes, t.type ino = .directory → ∀ e ∈ t.entries ino, e.name ≠ [] →
    t.NamedEntry e
  targets : ∀ ino ∈ t.nodes, t.type ino = .symlink →
    (t.inode ino).size ≤ 59 ∧ t.target ino ≠ []

/-- Inodes and directories can be read. The states are those that a node of an
inode may get into, once the inode is read. -/
structure Readable (fs : ExtFilesystem) (fuel steps : ℕ) (states : ℤ → Ext2fsNode → Prop) :
    Prop where
  inodes : ∀ ino ∈ t.nodes, ReadsInode fs ino (t.content ino)
  same : ∀ ino n, states ino n → n.ino = ino ∧ n.inode = t.inode ino
  loaded : ∀ (ino : ℕ) (read : Bool), int32 ino ∈ t.nodes →
    states (int32 ino) { unreadNode ino with inode := t.inode (int32 ino), inodeRead := read }
  dirs : ∀ ino ∈ t.nodes, t.type ino = .directory → ∃ data,
    ReadableFile fs fuel (states ino) (t.inode ino).size data ∧
      EntriesAt data (t.inode ino).size 0 (t.entries ino) ∧ (t.entries ino).length < steps

/-- The inodes as they are read for entries. -/
def contents (ino : ℕ) : Option Bytes := some (t.content (int32 ino))

theorem graph_link_none {ino : ℤ} (htype : t.type ino ≠ .symlink) : t.graph.link ino = none :=
  if_neg htype

theorem graph_link {ino : ℤ} (htype : t.type ino = .symlink) :
    t.graph.link ino = some (decide ((t.target ino).head? = some slash), names (t.target ino)) :=
  if_pos htype

/-- A name without a zero in it is not cut off. -/
theorem cname_eq {e : Entry} (hnul : 0 ∉ e.name) : e.cname = e.name := takeWhile_nul hnul

section Scans
variable {t} {es : List Entry} (hnamed : ∀ e ∈ es, e.name ≠ [] → t.NamedEntry e)
include hnamed

/-- A lookup finds the entry of this name, and its type is that of the inode. -/
theorem lookupScan_eq (name : List UInt8) (hname : name ≠ []) :
    lookupScan t.contents name es =
      (es.find? (·.name = name)).map fun e => (e, t.type (int32 e.inode)) := by
  induction es with
  | nil => rfl
  | cons e es ih =>
    have hrest := ih fun e' he' => hnamed e' (List.mem_cons_of_mem e he')
    rw [lookupScan, hrest]
    by_cases hnil : e.name = []
    · have hother : e.name ≠ name := by
        rw [hnil]
        exact hname.symm
      simp [hnil, hname.symm]
    · obtain ⟨-, hnul, -, hfiletype⟩ := hnamed e List.mem_cons_self hnil
      have htype : typeOf t.contents e = some (t.type (int32 e.inode)) := by
        unfold typeOf
        rcases hfiletype with hzero | hsame
        · rw [if_neg (not_not_intro hzero)]
          rfl
        · by_cases hzero : e.filetype = 0
          · rw [if_neg (not_not_intro hzero)]
            rfl
          · rw [if_pos hzero, hsame]
      rw [if_neg hnil, htype, cname_eq hnul]
      by_cases heq : e.name = name
      · simp [heq]
      · simp [heq]

end Scans

/-- The node is one of the tree, and its inode is read or can be. -/
structure Belongs (fs : ExtFilesystem) (states : ℤ → Ext2fsNode → Prop) (n : Ext2fsNode) :
    Prop where
  node : n.ino ∈ t.nodes
  opens : Openable fs (states n.ino) n

/-- The reference is to a node of this inode. -/
def Stands (fs : ExtFilesystem) (states : ℤ → Ext2fsNode → Prop) (ref : NodeRef) (ino : ℤ)
    (w : World) : Prop :=
  ∃ n, w.get ref = some n ∧ t.Belongs fs states n ∧ n.ino = ino

/-- The nodes of these references still are of the same inodes. -/
def Keeps (fs : ExtFilesystem) (states : ℤ → Ext2fsNode → Prop) (refs : NodeRef → Prop)
    (w w' : World) : Prop :=
  ∀ ref ino, refs ref → t.Stands fs states ref ino w → t.Stands fs states ref ino w'

section Runs
variable {t} {fs : ExtFilesystem} {fuel steps : ℕ} {states : ℤ → Ext2fsNode → Prop}
  (hread : t.Readable fs fuel steps states) {w w' : World} {ref : NodeRef} {ino : ℤ}

theorem Stands.isSome (h : t.Stands fs states ref ino w) : (w.get ref).isSome := by
  obtain ⟨n, hn, -⟩ := h
  rw [hn]
  rfl

theorem Stands.mem (h : t.Stands fs states ref ino w) : ino ∈ t.nodes := by
  obtain ⟨n, -, hbelongs, rfl⟩ := h
  exact hbelongs.node

theorem Keeps.refl (refs : NodeRef → Prop) (w : World) : t.Keeps fs states refs w w :=
  fun _ _ _ h => h

include hread

theorem belongs_of_state {n : Ext2fsNode} (hino : ino ∈ t.nodes) (hn : states ino n) :
    t.Belongs fs states n := by
  obtain ⟨rfl, hinode⟩ := hread.same ino n hn
  refine ⟨hino, ?_⟩
  unfold Openable
  split
  · exact hn
  · refine ⟨t.content n.ino, hread.inodes n.ino hino, ?_⟩
    have hholds : Holds (t.content n.ino) n := Or.inl hinode
    rw [inode_reread hholds]
    change states n.ino { n with inode := t.inode n.ino }
    rw [← hinode]
    exact hn

theorem belongs_of_entry {e : Entry} {n : Ext2fsNode} (hino : int32 e.inode ∈ t.nodes)
    (hn : EntryNode t.contents e n) : t.Belongs fs states n := by
  rcases hn with rfl | ⟨bytes, hbytes, rfl⟩
  · refine ⟨hino, ?_⟩
    unfold Openable
    rw [if_neg (by simp [unreadNode])]
    exact ⟨t.content (int32 e.inode), hread.inodes _ hino, hread.loaded e.inode false hino⟩
  · obtain rfl : t.content (int32 e.inode) = bytes := Option.some.inj hbytes
    exact belongs_of_state hread hino (hread.loaded e.inode true hino)

/-- The node of a directory or a link has been read, and no other has changed. -/
theorem Passed.keeps (hpassed : Passed (states ino) ref w w')
    (href : t.Stands fs states ref ino w) : t.Keeps fs states (fun _ => True) w w' := by
  rintro r i - ⟨n, hn, hbelongs, hi⟩
  by_cases hr : r = ref
  · subst hr
    obtain ⟨m, hm, -, hino⟩ := href
    obtain ⟨n', hn', hstate⟩ := hpassed.self
    rw [hn] at hm
    cases hm
    obtain ⟨hino', -⟩ := hread.same ino n' hstate
    exact ⟨n', hn', belongs_of_state hread (hino ▸ hbelongs.node) hstate,
      hino'.trans (hino.symm.trans hi)⟩
  · refine ⟨n, ?_, hbelongs, hi⟩
    rw [hpassed.other r hr (hn ▸ rfl), hn]

omit hread in
/-- Freeing a node leaves the others as they are. -/
theorem ext4fsFreeNode_keeps (node currroot : NodeRef) (hnode : (w.get node).isSome) :
    Yields (ext4fsFreeNode node currroot) w fun _ w' =>
      t.Keeps fs states (fun ref => ref ≠ node ∨ ref = currroot ∨ ref = .diropen) w w' := by
  cases node with
  | diropen => exact Yields.pure (Keeps.refl _ w)
  | alloc id =>
    by_cases hroot : NodeRef.alloc id = currroot
    · have hkept : ext4fsFreeNode (.alloc id) currroot = pure () := if_neg (not_not_intro hroot)
      rw [hkept]
      exact Yields.pure (Keeps.refl _ w)
    · have hfreed : ext4fsFreeNode (.alloc id) currroot = free id := if_pos hroot
      rw [hfreed]
      refine ⟨(), w.remove id, if_pos hnode, ?_⟩
      rintro ref ino href ⟨n, hn, hbelongs⟩
      refine ⟨n, ?_, hbelongs⟩
      rw [get_remove_of_ne w ref id ?_, hn]
      rintro rfl
      rcases href with hne | hcurr | hdiropen
      · exact hne rfl
      · exact hroot hcurr
      · cases hdiropen

variable (hwf : t.WellFormed)
include hwf

/-- Looking a name up in a directory. -/
theorem lookupIn_child (hdir : t.Stands fs states ref ino w) (htype : t.type ino = .directory)
    (name : List UInt8) (hname : name ≠ []) :
    Yields (lookupIn fs fuel steps ref name) w fun r w' =>
      t.Keeps fs states (fun _ => True) w w' ∧
      match t.child ino name with
      | none => r = none
      | some found => ∃ id, r = some (id, t.type found) ∧ id ∉ w.live ∧
          t.Stands fs states (.alloc id) found w' := by
  obtain ⟨n, hn, hbelongs, rfl⟩ := hdir
  have hnode := hbelongs.node
  obtain ⟨data, hfile, hentries, hsteps⟩ := hread.dirs n.ino hnode htype
  have hnamed := hwf.entries n.ino hnode htype
  obtain ⟨node, hvalid⟩ := hbelongs.opens.exists_valid
  obtain ⟨hwalk, hstop⟩ := entries_stop hfile hvalid hentries
  have hinos : ∀ e ∈ t.entries n.ino, e.name ≠ [] → InodeIs fs e.inode (t.contents e.inode) :=
    fun e he hne => hread.inodes _ (hnamed e he hne).node
  have hrun := ext4fsIterateDir_lookup hfile.sizes hinos hwalk hstop hsteps hn hbelongs.opens name
  obtain ⟨⟨found, u⟩, w', hresult, hpassed, hfinds⟩ := hrun
  have hleaves := (ext4fsIterateDir_safely fs w fuel steps ref (.lookup name) () (hn ▸ rfl)).2
    _ _ hresult
  refine ⟨found, w', ?_, Passed.keeps hread hpassed ⟨n, hn, hbelongs, rfl⟩, ?_⟩
  · unfold lookupIn
    rw [bind_ok hresult]
    rfl
  rw [lookupScan_eq hnamed name hname] at hfinds
  unfold Tree.child
  cases hfind : (t.entries n.ino).find? (·.name = name) with
  | none =>
    rw [hfind] at hfinds
    exact hfinds
  | some e =>
    rw [hfind] at hfinds
    obtain ⟨id, node, rfl, hget, hentry⟩ := hfinds
    have hmem := List.mem_of_find?_eq_some hfind
    have heq : e.name = name := by simpa using List.find?_some hfind
    have hino := (hnamed e hmem (heq ▸ hname)).node
    refine ⟨id, rfl, hleaves.2.1, node, hget, belongs_of_entry hread hino hentry, ?_⟩
    rcases hentry with rfl | ⟨bytes, -, rfl⟩ <;> rfl

/-- Reading the target of a link. -/
theorem takeLink_target (hlink : t.Stands fs states ref ino w) (htype : t.type ino = .symlink)
    (currroot : NodeRef) :
    Yields (takeLink fs fuel ref currroot) w fun r w' =>
      r = some (t.target ino) ∧
        t.Keeps fs states (fun r => r ≠ ref ∨ r = currroot ∨ r = .diropen) w w' := by
  obtain ⟨hsize, -⟩ := hwf.targets ino hlink.mem htype
  obtain ⟨n, hn, hbelongs, hino⟩ := hlink
  have hread' := needInode_openable hn hbelongs.opens
  rw [hino] at hread'
  obtain ⟨_, w₁, hneed, rfl, hpassed⟩ := hread'
  obtain ⟨m, hm, hstate⟩ := hpassed.self
  obtain ⟨-, hinode⟩ := hread.same ino m hstate
  have hroom : uint32 (((t.inode ino).size + 1 : ℕ) : ℤ) ≠ 0 := by
    rw [uint32_of_range _ (by omega) (by omega)]
    omega
  have hsymlink : ext4fsReadSymlink fs fuel ref w = .ok (some (t.target ino), w₁) := by
    unfold ext4fsReadSymlink
    rw [bind_ok hneed, if_neg (by decide), bind_ok (deref_run hm)]
    dsimp only
    rw [hinode, if_neg hroom, if_pos (by omega)]
    rfl
  obtain ⟨_, w₂, hfree, hkept⟩ := @ext4fsFreeNode_keeps t fs states w₁ ref currroot (hm ▸ rfl)
  refine ⟨some (t.target ino), w₂, ?_, rfl, fun r i hr hstands => ?_⟩
  · unfold takeLink
    rw [bind_ok hsymlink, bind_ok hfree]
    rfl
  · exact hkept r i hr (Passed.keeps hread hpassed ⟨n, hn, hbelongs, hino⟩ r i trivial hstands)

end Runs

end Tree

end Eokan.Trees
