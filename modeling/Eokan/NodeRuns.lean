import Eokan.Directory
import Eokan.InodeReads

/-!
What the parts of an iteration over a directory do to the nodes, when the reads
they make succeed or fail as expected.
-/
namespace Eokan.NodeRuns

open ByteMem CInt Programs Device Layout Inodes ReadFile DokanRead NodeHeap Directory

/-- One node changes, and no other. -/
structure Changed (ref : NodeRef) (node : Ext2fsNode) (w w' : World) : Prop where
  self : w'.get ref = some node
  other : ∀ r, r ≠ ref → w'.get r = w.get r

theorem Changed.refl {ref : NodeRef} {node : Ext2fsNode} {w : World} (h : w.get ref = some node) :
    Changed ref node w w := ⟨h, fun _ _ => rfl⟩

theorem Changed.trans {ref : NodeRef} {node node' : Ext2fsNode} {w w' w'' : World}
    (h : Changed ref node w w') (h' : Changed ref node' w' w'') : Changed ref node' w w'' :=
  ⟨h'.self, fun r hr => (h'.other r hr).trans (h.other r hr)⟩

/-- The nodes that were there before are there as they were. -/
def Same (w w' : World) : Prop := ∀ ref, (w.get ref).isSome → w'.get ref = w.get ref

theorem Same.refl (w : World) : Same w w := fun _ _ => rfl

theorem ne_next {w : World} {ref : NodeRef} (href : (w.get ref).isSome) : ref ≠ .alloc w.next := by
  rintro rfl
  exact Nat.lt_irrefl _ (live_lt w _ href)

/-- Whatever happens to a new node, the older ones are as they were. -/
theorem same_of_add {node node' : Ext2fsNode} {w w' : World}
    (hchanged : Changed (.alloc w.next) node (w.add node') w') : Same w w' := fun ref href => by
  rw [hchanged.other ref (ne_next href), get_add_of_some w ref node' href]

/-- The older nodes are as they were when the new one is gone again. -/
theorem same_of_remove {node node' : Ext2fsNode} {w w' : World}
    (hchanged : Changed (.alloc w.next) node (w.add node') w') : Same w (w'.remove w.next) := by
  intro ref href
  rw [get_remove_of_ne w' ref _ (ne_next href)]
  exact same_of_add hchanged ref href

/-- The node of an entry is gone again, and the older ones are as they were. -/
theorem free_yields {node node' : Ext2fsNode} {w w' : World}
    (hchanged : Changed (.alloc w.next) node (w.add node') w') :
    Yields (free w.next) w' fun _ w'' => Same w w'' := by
  have hthere : (w'.get (.alloc w.next)).isSome := hchanged.self ▸ rfl
  exact ⟨(), w'.remove w.next, if_pos hthere, same_of_remove hchanged⟩

/-- The node of a directory may be another one, as long as it is valid. -/
structure Passed (valid : Ext2fsNode → Prop) (dir : NodeRef) (w w' : World) : Prop where
  self : ∃ node, w'.get dir = some node ∧ valid node
  other : ∀ ref, ref ≠ dir → (w.get ref).isSome → w'.get ref = w.get ref

theorem Passed.trans {valid : Ext2fsNode → Prop} {dir : NodeRef} {w w' w'' : World}
    (h : Passed valid dir w w') (h' : Passed valid dir w' w'') : Passed valid dir w w'' := by
  refine ⟨h'.self, fun ref hne href => ?_⟩
  have heq := h.other ref hne href
  rw [h'.other ref hne (heq ▸ href), heq]

theorem Passed.of_changed {valid : Ext2fsNode → Prop} {dir : NodeRef} {w w' : World}
    {node : Ext2fsNode} (h : Changed dir node w w') (hvalid : valid node) :
    Passed valid dir w w' :=
  ⟨⟨node, h.self, hvalid⟩, fun ref hne _ => h.other ref hne⟩

theorem Passed.of_same {valid : Ext2fsNode → Prop} {dir : NodeRef} {w w' w'' : World}
    (h : Passed valid dir w w') (h' : Same w' w'') : Passed valid dir w w'' := by
  obtain ⟨node, hnode, hvalid⟩ := h.self
  refine ⟨⟨node, ?_, hvalid⟩, fun ref hne href => ?_⟩
  · rw [h' dir (hnode ▸ rfl), hnode]
  · have heq := h.other ref hne href
    rw [h' ref (heq ▸ href), heq]

theorem device_run {α : Type} {x : DevM α} {w : World} {a : α} {log : Log}
    (h : x w.log = .ok (a, log)) : device x w = .ok (a, w.withLog log) := by
  unfold device
  rw [h]

theorem device_fails {α : Type} {x : DevM α} {w : World} {e : Fault} (h : x w.log = .error e) :
    device x w = .error e := by
  unfold device
  rw [h]

section Steps
variable {fs : ExtFilesystem} {w : World} {ref : NodeRef} {node : Ext2fsNode}
  (hnode : w.get ref = some node)
include hnode

theorem deref_run : deref ref w = .ok (node, w) := by
  unfold deref
  rw [hnode]

theorem store_run (node' : Ext2fsNode) (log : Log) :
    store ref node' (w.withLog log) = .ok ((), (w.withLog log).set ref node') :=
  if_pos (by rw [get_withLog, hnode]; rfl)

theorem changed_set (node' : Ext2fsNode) (log : Log) :
    Changed ref node' w ((w.withLog log).set ref node') := by
  refine ⟨?_, fun r hr => ?_⟩
  · exact get_set_self _ ref node' (by rw [get_withLog, hnode]; rfl)
  · rw [get_set_of_ne _ ref r node' hr, get_withLog]

theorem setInodeRead_yields :
    Yields (setInodeRead ref) w fun _ w' => Changed ref { node with inodeRead := true } w w' := by
  unfold Yields setInodeRead
  rw [bind_ok (deref_run hnode)]
  exact ⟨(), _, store_run hnode _ w.log, changed_set hnode _ w.log⟩

theorem readFileAt_run {fuel : ℕ} {pos len : ℤ} {buf buf' : Bytes} {status : ℤ}
    {node' : Ext2fsNode} {log : Log}
    (h : ext4fsReadFile fs fuel node pos len buf w.log = .ok ((status, node', buf'), log)) :
    readFileAt fs fuel ref pos len buf w =
      .ok ((status, buf'), (w.withLog log).set ref node') := by
  unfold readFileAt
  rw [bind_ok (deref_run hnode), bind_ok (device_run h)]
  dsimp only
  rw [bind_ok (store_run hnode node' log)]
  rfl

theorem loadInode_run {status : ℤ} {inode : Ext2Inode} {log : Log}
    (h : ext4fsReadInode fs node.ino node.inode w.log = .ok ((status, inode), log)) :
    loadInode fs ref w = .ok (status, (w.withLog log).set ref { node with inode }) := by
  unfold loadInode
  rw [bind_ok (deref_run hnode), bind_ok (device_run h)]
  dsimp only
  rw [bind_ok (store_run hnode _ log)]
  rfl

theorem readFileAt_yields {fuel : ℕ} {pos len : ℤ} {buf : Bytes}
    {post : ℤ × Ext2fsNode × Bytes → Log → Prop}
    (hread : Yields (ext4fsReadFile fs fuel node pos len buf) w.log post) :
    Yields (readFileAt fs fuel ref pos len buf) w fun r w' =>
      ∃ node' log, post (r.1, node', r.2) log ∧ Changed ref node' w w' := by
  obtain ⟨⟨status, node', buf'⟩, log, hrun, hpost⟩ := hread
  exact ⟨_, _, readFileAt_run hnode hrun, node', log, hpost, changed_set hnode node' log⟩

theorem loadInode_yields {post : ℤ × Ext2Inode → Log → Prop}
    (hread : Yields (ext4fsReadInode fs node.ino node.inode) w.log post) :
    Yields (loadInode fs ref) w fun status w' =>
      ∃ inode log, post (status, inode) log ∧ Changed ref { node with inode } w w' := by
  obtain ⟨⟨status, inode⟩, log, hrun, hpost⟩ := hread
  exact ⟨_, _, loadInode_run hnode hrun, inode, log, hpost, changed_set hnode _ log⟩

end Steps

/-- What reading inode number ino gives: these bytes, or no success. -/
def InodeIs (fs : ExtFilesystem) (ino : ℕ) : Option Bytes → Prop
  | some bytes => ReadsInode fs (int32 ino) bytes
  | none => InodeUnreadable fs (int32 ino)

/-- Without read errors there is an answer for every number. -/
theorem exists_contents (fs : ExtFilesystem) (hgood : fs.devDesc.disk.NoErrors)
    (hlog : fs.sblock.log2BlockSize ≤ 20) (hgroup : fs.sblock.inodesPerGroup ≠ 0)
    (hsize : fs.inodesz ≠ 0) (hfits : fs.inodesz ≤ ext2BlockSize fs) :
    ∃ contents : ℕ → Option Bytes, ∀ ino, InodeIs fs ino (contents ino) := by
  have hone : ∀ ino : ℕ, ∃ content, InodeIs fs ino content := by
    intro ino
    rcases InodeReads.inode_decided fs hgood hlog hgroup hsize hfits (int32 ino) with
      ⟨bytes, hbytes⟩ | hunreadable
    · exact ⟨some bytes, hbytes⟩
    · exact ⟨none, hunreadable⟩
  choose contents hcontents using hone
  exact ⟨contents, hcontents⟩

/-- An inode that was read into a new node. -/
def inodeOf (bytes : Bytes) : Ext2Inode := ⟨write (fun _ => 0) 0 128 bytes⟩

/-- A new node, before and after its inode was read. -/
def unreadNode (ino : ℕ) : Ext2fsNode :=
  ⟨⟨fun _ => 0⟩, ⟨none, 0, 0⟩, ⟨none, 0, 0⟩, ⟨none, 0, 0⟩, int32 ino, false⟩

def readNode (ino : ℕ) (bytes : Bytes) : Ext2fsNode :=
  { unreadNode ino with inode := inodeOf bytes, inodeRead := true }

section Inodes
variable {fs : ExtFilesystem} {w : World} {ref : NodeRef} {ino : ℕ}
  (hnode : w.get ref = some (unreadNode ino))
include hnode

theorem loadInode_some {bytes : Bytes} (hino : InodeIs fs ino (some bytes)) :
    Yields (loadInode fs ref) w fun status w' =>
      status = 1 ∧ Changed ref { unreadNode ino with inode := inodeOf bytes } w w' := by
  refine (loadInode_yields hnode (hino _ w.log)).mono ?_
  rintro status w' ⟨⟨raw⟩, log, ⟨hstatus, hraw⟩, hchanged⟩
  refine ⟨hstatus, ?_⟩
  have hinode : (⟨raw⟩ : Ext2Inode) = inodeOf bytes := congrArg Ext2Inode.mk hraw
  rwa [hinode] at hchanged

theorem loadInode_none (hino : InodeIs fs ino none) :
    Yields (loadInode fs ref) w fun status w' => status = 0 ∧ ∃ node, Changed ref node w w' := by
  refine (loadInode_yields hnode (hino _ w.log)).mono ?_
  rintro status w' ⟨inode, log, hstatus, hchanged⟩
  exact ⟨hstatus, _, hchanged⟩

end Inodes

end Eokan.NodeRuns
