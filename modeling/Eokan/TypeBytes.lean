import Eokan.SymlinkReads
import Eokan.TwoRuns

/-!
Two file systems that differ in the type bytes of directory entries. Where they
do the byte is 0 in one of them, and says the same as the mode of the inode in
the other. Whatever else is read is the same, so the runs on both keep nodes that
correspond to each other, although one may have read an inode that the other has
not.
-/
namespace Eokan.TypeBytes

open ByteMem CInt Programs TwoRuns Device Layout Inodes ReadFile DokanRead NodeHeap Directory
  NodeRuns SymlinkReads

/-- The inodes that are met in the two file systems: those that entries lead to,
those that are searched or listed and those whose targets are read. The places
are the positions of entries. The states are those of the nodes of an inode, in
the one and in the other, once it is read. -/
structure Pairing where
  tree : Set ℤ
  dirs : Set ℤ
  links : Set ℤ
  content : ℤ → Bytes
  places : ℤ → Set ℕ
  states : ℤ → Ext2fsNode → Ext2fsNode → Prop

namespace Pairing
variable (p : Pairing)

def inode (ino : ℤ) : Ext2Inode := inodeOf (p.content ino)

/-- The inodes as they are read for entries. -/
def contents (ino : ℕ) : Option Bytes := some (p.content (int32 ino))

/-- The type of an entry: its own, or else that of its inode. -/
def typeOf (d : Ext2Dirent) : FileType :=
  if d.filetype ≠ 0 then FileType.ofEntry d.filetype
  else FileType.ofMode (p.inode (int32 d.inode)).mode

end Pairing

/-- The type byte is 0 in one entry and agrees with the mode in the other. -/
def TypeHidden (mode filetype filetype' : ℕ) : Prop :=
  filetype = 0 ∧ filetype' ≠ 0 ∧ FileType.ofEntry filetype' = FileType.ofMode mode

/-- What an entry with a name leads to, and how its types may differ. -/
structure NamedAlike (p : Pairing) (d d' : Ext2Dirent) : Prop where
  tree : int32 d.inode ∈ p.tree
  dir : p.typeOf d = .directory → int32 d.inode ∈ p.dirs
  link : p.typeOf d = .symlink → int32 d.inode ∈ p.links
  filetype : d'.filetype = d.filetype ∨
    TypeHidden (p.inode (int32 d.inode)).mode d.filetype d'.filetype ∨
    TypeHidden (p.inode (int32 d.inode)).mode d'.filetype d.filetype

/-- The entries at a place of a directory differ in their types only. -/
structure EntriesAlike (p : Pairing) (ino : ℤ) (pos : ℕ) (d d' : Ext2Dirent) : Prop where
  inode : d'.inode = d.inode
  direntlen : d'.direntlen = d.direntlen
  namelen : d'.namelen = d.namelen
  next : (uint32 (pos + d.direntlen)).toNat ∈ p.places ino
  named : d.namelen ≠ 0 → NamedAlike p d d'

/-- Two reads with the same status, and with the same bytes if it is one of these. -/
def SameRead (p : Pairing) (ino : ℤ) (used : ℤ → Prop) (len : ℕ)
    (r r' : ℤ × Ext2fsNode × Bytes) : Prop :=
  r'.1 = r.1 ∧ p.states ino r.2.1 r'.2.1 ∧ (used r.1 → ∀ j, j < len → r'.2.2 j = r.2.2 j)

/-- Two reads of an entry. If they succeed the reads of the name are the same. -/
def EntryRead (fs fs' : ExtFilesystem) (fuel : ℕ) (p : Pairing) (ino : ℤ) (pos : ℕ)
    (r r' : ℤ × Ext2fsNode × Bytes) : Prop :=
  r'.1 = r.1 ∧ p.states ino r.2.1 r'.2.1 ∧ (1 ≤ r.1 → EntriesAlike p ino pos ⟨r.2.2⟩ ⟨r'.2.2⟩ ∧
    (Ext2Dirent.namelen ⟨r.2.2⟩ ≠ 0 → ∀ log log',
      Alike (fun s _ s' _ => SameRead p ino (1 ≤ ·) (Ext2Dirent.namelen ⟨r.2.2⟩) s s')
        (ext4fsReadFile fs fuel r.2.1 (int32 (pos + 8)) (Ext2Dirent.namelen ⟨r.2.2⟩) fs.past log)
        (ext4fsReadFile fs' fuel r'.2.1 (int32 (pos + 8)) (Ext2Dirent.namelen ⟨r.2.2⟩) fs'.past
          log')))

/-- The file systems differ only in type bytes, and these are read for no other
purpose: inodes, names, targets and the rest of an entry are the same in both. -/
structure DifferInTypes (fs fs' : ExtFilesystem) (fuel : ℕ) (p : Pairing) : Prop where
  inodes : ∀ ino ∈ p.tree, ReadsInode fs ino (p.content ino) ∧ ReadsInode fs' ino (p.content ino)
  loaded : ∀ (ino : ℕ) (read read' : Bool), int32 ino ∈ p.tree → p.states (int32 ino)
    { unreadNode ino with inode := p.inode (int32 ino), inodeRead := read }
    { unreadNode ino with inode := p.inode (int32 ino), inodeRead := read' }
  same : ∀ ino n n', p.states ino n n' →
    (n.ino = ino ∧ n.inode = p.inode ino) ∧ n'.ino = ino ∧ n'.inode = p.inode ino
  start : ∀ ino ∈ p.dirs, 0 ∈ p.places ino
  entries : ∀ ino ∈ p.dirs, ∀ n n', p.states ino n n' → ∀ pos ∈ p.places ino,
    pos < (p.inode ino).size → ∀ log log',
    Alike (fun r _ r' _ => EntryRead fs fs' fuel p ino pos r r')
      (ext4fsReadFile fs fuel n (int32 pos) 8 fs.past log)
      (ext4fsReadFile fs' fuel n' (int32 pos) 8 fs'.past log')
  targets : ∀ ino ∈ p.links, 60 < (p.inode ino).size → ∀ n n', p.states ino n n' → ∀ log log',
    Alike (fun r _ r' _ => SameRead p ino (· ≠ 0) (p.inode ino).size r r')
      (ext4fsReadFile fs fuel n 0 (p.inode ino).size (zalloc fs ((p.inode ino).size + 1)) log)
      (ext4fsReadFile fs' fuel n' 0 (p.inode ino).size (zalloc fs' ((p.inode ino).size + 1)) log')

/-- A node that was made for an entry, before its inode is read or after. -/
def Fresh (p : Pairing) (ino : ℕ) (n : Ext2fsNode) : Prop :=
  n = unreadNode ino ∨ n = readNode ino (p.content (int32 ino))

/-- Nodes of one inode in the two runs. -/
def NodesAlike (p : Pairing) (n n' : Ext2fsNode) : Prop :=
  (n.ino ∈ p.tree ∧ n'.ino = n.ino) ∧
    (p.states n.ino n n' ∨ ∃ ino, Fresh p ino n ∧ Fresh p ino n')

/-- The same nodes are there in both runs. -/
structure Worlds (p : Pairing) (w w' : World) : Prop where
  next : w'.next = w.next
  nodes : ∀ ref, Option.Rel (NodesAlike p) (w.get ref) (w'.get ref)

def Older (w : World) (ref : NodeRef) : Prop := ∀ id, ref = .alloc id → id < w.next

/-- Both runs have gone on from w. The nodes from before that are left are those
of the same inodes. -/
structure Onward (p : Pairing) (w s s' : World) : Prop where
  worlds : Worlds p s s'
  next : w.next ≤ s.next
  inos : ∀ ref n, Older w ref → s.get ref = some n → ∃ m, w.get ref = some m ∧ m.ino = n.ino

/-- The inode of this node is one of these, as long as the node is there. -/
def At (inos : Set ℤ) (ref : NodeRef) (w : World) : Prop :=
  Older w ref ∧ ∀ n, w.get ref = some n → n.ino ∈ inos

section Worlds
variable {p : Pairing} {w w' s s' t t' : World} {ref : NodeRef} {n n' m m' : Ext2fsNode}

theorem Onward.refl (hw : Worlds p w w') : Onward p w w w' :=
  ⟨hw, Nat.le_refl _, fun _ n _ hn => ⟨n, hn, rfl⟩⟩

theorem Onward.trans (h : Onward p w s s') (h' : Onward p s t t') : Onward p w t t' := by
  refine ⟨h'.worlds, h.next.trans h'.next, fun ref n hold hn => ?_⟩
  obtain ⟨m, hm, hino⟩ := h'.inos ref n (fun id hid => (hold id hid).trans_le h.next) hn
  obtain ⟨m', hm', hino'⟩ := h.inos ref m hold hm
  exact ⟨m', hm', hino'.trans hino⟩

theorem At.onward {inos : Set ℤ} (h : At inos ref w) (hs : Onward p w s s') : At inos ref s := by
  refine ⟨fun id hid => (h.1 id hid).trans_le hs.next, fun n hn => ?_⟩
  obtain ⟨m, hm, hino⟩ := hs.inos ref n h.1 hn
  rw [← hino]
  exact h.2 m hm

theorem older_of_get (hn : w.get ref = some n) : Older w ref := by
  rintro id rfl
  exact live_lt w id (by rw [mem_live, hn]; rfl)

/-- A reference is to nodes of both runs or of none. -/
theorem Worlds.cases (hw : Worlds p w w') (ref : NodeRef) :
    (w.get ref = none ∧ w'.get ref = none) ∨
      ∃ n n', w.get ref = some n ∧ w'.get ref = some n' ∧ NodesAlike p n n' := by
  have h := hw.nodes ref
  cases hn : w.get ref with
  | none =>
    rw [hn] at h
    cases hn' : w'.get ref with
    | none => exact Or.inl ⟨rfl, rfl⟩
    | some n' =>
      rw [hn'] at h
      cases h
  | some n =>
    rw [hn] at h
    cases hn' : w'.get ref with
    | none =>
      rw [hn'] at h
      cases h
    | some n' =>
      rw [hn'] at h
      cases h with
      | some h => exact Or.inr ⟨n, n', rfl, rfl, h⟩

theorem Worlds.isSome (hw : Worlds p w w') (hn : (w.get ref).isSome) : (w'.get ref).isSome := by
  rcases hw.cases ref with ⟨hnone, -⟩ | ⟨_, n', -, hn', -⟩
  · rw [hnone] at hn
    cases hn
  · rw [hn']
    rfl

/-- A node has changed in both runs, but it is still one of the same inode. -/
theorem Onward.changed (hw : Worlds p w w') (hn : w.get ref = some n) (hs : Changed ref m w s)
    (hnext : s.next = w.next) (hs' : Changed ref m' w' s') (hnext' : s'.next = w'.next)
    (hino : m.ino = n.ino) (hm : NodesAlike p m m') : Onward p w s s' := by
  refine ⟨⟨?_, fun r => ?_⟩, Nat.le_of_eq hnext.symm, fun r k hold hk => ?_⟩
  · rw [hnext, hnext', hw.next]
  · by_cases hr : r = ref
    · rw [hr, hs.self, hs'.self]
      exact Option.Rel.some hm
    · rw [hs.other r hr, hs'.other r hr]
      exact hw.nodes r
  · by_cases hr : r = ref
    · rw [hr, hs.self] at hk
      cases hk
      exact ⟨n, hr ▸ hn, hino.symm⟩
    · rw [hs.other r hr] at hk
      exact ⟨k, hk, rfl⟩

theorem changed_set (hn : (w.get ref).isSome) (n : Ext2fsNode) (log : Log) :
    Changed ref n w ((w.withLog log).set ref n) := by
  refine ⟨get_set_self _ ref n ?_, fun r hr => ?_⟩
  · rw [get_withLog]
    exact hn
  · rw [get_set_of_ne _ ref r n hr, get_withLog]

theorem Onward.set (hw : Worlds p w w') (hn : w.get ref = some n) (hino : m.ino = n.ino)
    (hm : NodesAlike p m m') (log log' : Log) :
    Onward p w ((w.withLog log).set ref m) ((w'.withLog log').set ref m') := by
  have hsome : (w.get ref).isSome := hn ▸ rfl
  have hnext : ∀ (w : World) log k, ((w.withLog log).set ref k).next = w.next :=
    fun w log k => next_set (w.withLog log) ref k
  exact Onward.changed hw hn (changed_set hsome m log) (hnext w log m)
    (changed_set (hw.isSome hsome) m' log') (hnext w' log' m') hino hm

theorem get_add_of_ne (ref : NodeRef) (h : ref ≠ .alloc w.next) :
    (w.add n).get ref = w.get ref := by
  cases ref with
  | diropen => rfl
  | alloc id => exact if_neg fun heq => h (congrArg NodeRef.alloc heq)

theorem Onward.add (hw : Worlds p w w') (hn : NodesAlike p n n') :
    Onward p w (w.add n) (w'.add n') := by
  refine ⟨⟨?_, fun r => ?_⟩, Nat.le_succ _, fun r k hold hk => ?_⟩
  · rw [next_add, next_add, hw.next]
  · by_cases hr : r = .alloc w.next
    · have hself := get_add_self w' n'
      rw [hw.next] at hself
      rw [hr, get_add_self, hself]
      exact Option.Rel.some hn
    · rw [get_add_of_ne r hr, get_add_of_ne r (hw.next.symm ▸ hr)]
      exact hw.nodes r
  · have hr : r ≠ .alloc w.next := fun heq => Nat.lt_irrefl _ (hold _ heq)
    rw [get_add_of_ne r hr] at hk
    exact ⟨k, hk, rfl⟩

/-- A node is freed in both runs, whatever it has become. -/
theorem Onward.remove (hw : Worlds p w w') {id : ℕ}
    (hs : ∀ r, r ≠ .alloc id → s.get r = w.get r) (hnext : s.next = w.next)
    (hs' : ∀ r, r ≠ .alloc id → s'.get r = w'.get r) (hnext' : s'.next = w'.next) :
    Onward p w (s.remove id) (s'.remove id) := by
  have hgone : ∀ w : World, (w.remove id).get (.alloc id) = none := fun w => if_pos rfl
  refine ⟨⟨?_, fun r => ?_⟩, Nat.le_of_eq hnext.symm, fun r k hold hk => ?_⟩
  · rw [next_remove, next_remove, hnext, hnext', hw.next]
  · by_cases hr : r = .alloc id
    · rw [hr, hgone, hgone]
      exact Option.Rel.none
    · rw [get_remove_of_ne s r id hr, get_remove_of_ne s' r id hr, hs r hr, hs' r hr]
      exact hw.nodes r
  · by_cases hr : r = .alloc id
    · rw [hr, hgone] at hk
      cases hk
    · rw [get_remove_of_ne s r id hr, hs r hr] at hk
      exact ⟨k, hk, rfl⟩

end Worlds

end Eokan.TypeBytes
