import Eokan.DirectoryNodes
import Eokan.EntryVisits
import Eokan.TypeBytes

/-!
One entry, read and visited in both of the file systems. A visit that finds the
type in the entry leaves the inode unread, one that does not has read it. What
follows is the same.
-/
namespace Eokan.TypeVisits

open ByteMem CInt Programs TwoRuns Device Layout Inodes ReadFile DokanRead NodeHeap Directory
  DirectoryNodes NodeRuns Entries EntryVisits SymlinkReads TypeBytes

variable {fs fs' : ExtFilesystem} {fuel : ℕ} {p : Pairing} (h : DifferInTypes fs fs' fuel p)
  {w w' : World} (hw : Worlds p w w')

section Nodes

theorem deref_none {ref : NodeRef} (hnone : w.get ref = none) :
    deref ref w = .error .useAfterFree := by
  unfold deref
  rw [hnone]

include hw

/-- Both runs use a freed node, or both nodes are there. -/
theorem deref_alike (ref : NodeRef) : Alike (fun n s n' s' => (s = w ∧ s' = w') ∧
    (w.get ref = some n ∧ w'.get ref = some n') ∧ NodesAlike p n n')
    (deref ref w) (deref ref w') := by
  rcases hw.cases ref with ⟨hnone, hnone'⟩ | ⟨n, n', hn, hn', halike⟩
  · exact Alike.error (deref_none hnone) (deref_none hnone')
  · rw [deref_run hn, deref_run hn']
    exact ⟨⟨rfl, rfl⟩, ⟨hn, hn'⟩, halike⟩

theorem free_alike (id : ℕ) :
    Alike (fun _ s _ s' => Onward p w s s') (free id w) (free id w') := by
  have hfreed : ∀ w : World, w.nodes id = none → free id w = .error .useAfterFree := by
    intro w hnone
    exact if_neg (by rw [hnone]; exact Bool.false_ne_true)
  have hfree : ∀ (w : World) n, w.nodes id = some n → free id w = .ok ((), w.remove id) := by
    intro w n hn
    exact if_pos (by rw [hn]; rfl)
  rcases hw.cases (.alloc id) with ⟨hnone, hnone'⟩ | ⟨n, n', hn, hn', -⟩
  · exact Alike.error (hfreed w hnone) (hfreed w' hnone')
  · rw [hfree w n hn, hfree w' n' hn']
    exact Onward.remove hw (fun _ _ => rfl) rfl (fun _ _ => rfl) rfl

theorem ext4fsFreeNode_alike (node currroot : NodeRef) :
    Alike (fun _ s _ s' => Onward p w s s') (ext4fsFreeNode node currroot w)
      (ext4fsFreeNode node currroot w') := by
  cases node with
  | diropen => exact Alike.pure (Onward.refl hw)
  | alloc id =>
    exact Alike.ite (fun _ => free_alike hw id) fun _ => Alike.pure (Onward.refl hw)

end Nodes

section Inodes
variable {ref : NodeRef} {n : Ext2fsNode} {bytes : Bytes}

/-- The node with this inode in it. -/
def withInode (n : Ext2fsNode) (inode : Ext2Inode) : Ext2fsNode := { n with inode }

/-- The inode of the node is there, or the node is new. -/
def Holds (bytes : Bytes) (n : Ext2fsNode) : Prop :=
  n.inode = inodeOf bytes ∨ (n.inodeRead = false ∧ n.inode = ⟨fun _ => 0⟩)

/-- An inode that is read once more is the same. -/
theorem inode_reread (hholds : Holds bytes n) :
    (⟨write n.inode.raw 0 128 bytes⟩ : Ext2Inode) = inodeOf bytes := by
  rcases hholds with hinode | ⟨-, hinode⟩
  · rw [hinode]
    apply congrArg Ext2Inode.mk
    funext j
    by_cases hj : j < 128
    · rw [write_of_mem _ 0 128 bytes (Nat.zero_le j) (by omega)]
      exact (write_of_mem _ 0 128 bytes (Nat.zero_le j) (by omega)).symm
    · exact write_of_ge _ 0 128 bytes (by omega)
  · rw [hinode]
    rfl

theorem set_same (hn : w.get ref = some n) : w.set ref n = w := by
  cases ref with
  | diropen =>
    cases hn
    rfl
  | alloc id =>
    have hnodes :
        (fun j => if j = id then (w.nodes j).map fun _ => n else w.nodes j) = w.nodes := by
      funext j
      by_cases hj : j = id
      · have hid : w.nodes id = some n := hn
        rw [if_pos hj, hj, hid]
        rfl
      · exact if_neg hj
    unfold World.set
    simp only [hnodes]

variable (hn : w.get ref = some n) (hholds : Holds bytes n) (hino : ReadsInode fs n.ino bytes)
include hn

include hholds hino

theorem loadInode_loads : ∃ log, loadInode fs ref w =
    .ok (1, (w.withLog log).set ref (withInode n (inodeOf bytes))) := by
  obtain ⟨⟨status, inode⟩, log, hrun, hstatus, hraw⟩ := hino n.inode w.log
  obtain rfl : status = 1 := hstatus
  have hinode : inode = inodeOf bytes :=
    (congrArg Ext2Inode.mk hraw).trans (inode_reread hholds)
  refine ⟨log, ?_⟩
  rw [loadInode_run hn hrun, hinode]
  rfl

theorem needInode_loads : ∃ log, needInode fs ref w =
    .ok (true, (w.withLog log).set ref (withInode n (inodeOf bytes))) := by
  cases hread : n.inodeRead with
  | true =>
    have hinode : n.inode = inodeOf bytes := by
      rcases hholds with hinode | ⟨hunread, -⟩
      · exact hinode
      · rw [hread] at hunread
        cases hunread
    refine ⟨w.log, ?_⟩
    have hsame : (w.withLog w.log).set ref (withInode n (inodeOf bytes)) = w := by
      rw [← hinode]
      exact set_same hn
    rw [hsame]
    exact needInode_read hn hread
  | false =>
    obtain ⟨log, hload⟩ := loadInode_loads hn hholds hino
    refine ⟨log, ?_⟩
    unfold needInode
    rw [bind_ok (deref_run hn), if_neg (by simp [hread]), bind_ok hload, pure_run]
    exact congrArg (fun read => Except.ok (read, _)) (by decide)

end Inodes

/-- The nodes behind a reference have been read, in both runs. -/
def Loaded (p : Pairing) (ino : ℤ) (ref : NodeRef) (w w' : World) : Prop :=
  ∃ n n', w.get ref = some n ∧ w'.get ref = some n' ∧ p.states ino n n'

section Pairs
include h

/-- Nodes that correspond to each other still do when their inodes are read. -/
theorem load_nodes {n n' : Ext2fsNode} (halike : NodesAlike p n n') :
    (Holds (p.content n.ino) n ∧ Holds (p.content n.ino) n') ∧
      p.states n.ino (withInode n (p.inode n.ino)) (withInode n' (p.inode n.ino)) := by
  obtain ⟨⟨htree, -⟩, hstates | ⟨ino, hn, hn'⟩⟩ := halike
  · obtain ⟨⟨-, hinode⟩, -, hinode'⟩ := h.same _ _ _ hstates
    have hsame : ∀ m : Ext2fsNode, m.inode = p.inode n.ino → withInode m (p.inode n.ino) = m := by
      intro m hm
      rw [← hm]
      rfl
    refine ⟨⟨Or.inl hinode, Or.inl hinode'⟩, ?_⟩
    rw [hsame n hinode, hsame n' hinode']
    exact hstates
  · have hino : n.ino = int32 ino := by rcases hn with rfl | rfl <;> rfl
    rw [hino] at htree ⊢
    have hone : ∀ m, Fresh p ino m → Holds (p.content (int32 ino)) m ∧
        ∃ read, withInode m (p.inode (int32 ino)) =
          { unreadNode ino with inode := p.inode (int32 ino), inodeRead := read } := by
      rintro m (rfl | rfl)
      · exact ⟨Or.inr ⟨rfl, rfl⟩, false, rfl⟩
      · exact ⟨Or.inl rfl, true, rfl⟩
    obtain ⟨hholds, read, hm⟩ := hone n hn
    obtain ⟨hholds', read', hm'⟩ := hone n' hn'
    refine ⟨⟨hholds, hholds'⟩, ?_⟩
    rw [hm, hm']
    exact h.loaded ino read read' htree

include hw

theorem needInode_alike (ref : NodeRef) : Alike (fun r s r' s' => (r = true ∧ r' = true) ∧
    Onward p w s s' ∧ ∃ n, w.get ref = some n ∧ Loaded p n.ino ref s s')
    (needInode fs ref w) (needInode fs' ref w') := by
  rcases hw.cases ref with ⟨hnone, hnone'⟩ | ⟨n, n', hn, hn', halike⟩
  · exact Alike.error (bind_error (deref_none hnone)) (bind_error (deref_none hnone'))
  obtain ⟨⟨hholds, hholds'⟩, hstates⟩ := load_nodes h halike
  obtain ⟨htree, hino⟩ := halike.1
  obtain ⟨hreads, hreads'⟩ := h.inodes _ htree
  have hread' : ReadsInode fs' n'.ino (p.content n.ino) := hino.symm ▸ hreads'
  obtain ⟨log, hrun⟩ := needInode_loads hn hholds hreads
  obtain ⟨log', hrun'⟩ := needInode_loads hn' hholds' hread'
  rw [hrun, hrun']
  have hsame : (withInode n (p.inode n.ino)).ino = n.ino := rfl
  have hpair : NodesAlike p (withInode n (p.inode n.ino)) (withInode n' (p.inode n.ino)) :=
    ⟨⟨htree, hino⟩, Or.inl hstates⟩
  refine ⟨⟨rfl, rfl⟩, Onward.set hw hn hsame hpair log log', n, hn, ?_⟩
  refine ⟨_, _, get_set_self _ ref _ ?_, get_set_self _ ref _ ?_, hstates⟩
  · rw [get_withLog, hn]
    rfl
  · rw [get_withLog, hn']
    rfl

/-- Reads of files that end alike, in nodes that correspond to each other. -/
theorem readFileAt_alike {ino : ℤ} {ref : NodeRef} {n n' : Ext2fsNode}
    (hn : w.get ref = some n) (hn' : w'.get ref = some n') (hnodes : p.states ino n n')
    (htree : ino ∈ p.tree) {pos len : ℤ} {buf buf' : Bytes}
    {post : ℤ × Ext2fsNode × Bytes → ℤ × Ext2fsNode × Bytes → Prop}
    (hstates : ∀ r r', post r r' → p.states ino r.2.1 r'.2.1)
    (hread : ∀ log log', Alike (fun r _ r' _ => post r r')
      (ext4fsReadFile fs fuel n pos len buf log) (ext4fsReadFile fs' fuel n' pos len buf' log')) :
    Alike (fun r s r' s' => Onward p w s s' ∧ ∃ n n',
        (s.get ref = some n ∧ s'.get ref = some n') ∧ post (r.1, n, r.2) (r'.1, n', r'.2))
      (readFileAt fs fuel ref pos len buf w) (readFileAt fs' fuel ref pos len buf' w') := by
  have halike := hread w.log w'.log
  rcases hrun : ext4fsReadFile fs fuel n pos len buf w.log with e | ⟨⟨status, m, data⟩, log⟩ <;>
    rcases hrun' : ext4fsReadFile fs' fuel n' pos len buf' w'.log with
      e' | ⟨⟨status', m', data'⟩, log'⟩ <;> rw [hrun, hrun'] at halike
  · obtain rfl : e = e' := halike
    exact Alike.error (readFileAt_fails hn hrun) (readFileAt_fails hn' hrun')
  · exact halike.elim
  · exact halike.elim
  · rw [readFileAt_run hn hrun, readFileAt_run hn' hrun']
    have hm := hstates _ _ halike
    obtain ⟨⟨hino, -⟩, hino', -⟩ := h.same _ _ _ hm
    obtain ⟨⟨hold, -⟩, -⟩ := h.same _ _ _ hnodes
    dsimp only at hino hino'
    refine ⟨Onward.set hw hn (hino.trans hold.symm) ⟨⟨hino ▸ htree, hino'.trans hino.symm⟩,
      Or.inl (hino ▸ hm)⟩ log log', m, m', ⟨get_set_self _ ref m ?_, get_set_self _ ref m' ?_⟩,
      halike⟩
    · rw [get_withLog, hn]
      rfl
    · rw [get_withLog, hn']
      rfl

end Pairs

section Entries

theorem typeOf_eq {d d' : Ext2Dirent} (hinode : d'.inode = d.inode)
    (hnamed : NamedAlike p d d') : p.typeOf d' = p.typeOf d := by
  unfold Pairing.typeOf
  rw [hinode]
  rcases hnamed.filetype with hsame | ⟨hzero, hne, htype⟩ | ⟨hzero, hne, htype⟩
  · rw [hsame]
  · rw [if_pos hne, if_neg (not_not_intro hzero), htype]
  · rw [if_neg (not_not_intro hzero), if_pos hne, htype]

/-- An entry of which only the inode and the type matter. -/
def entryOf (d : Ext2Dirent) : Entry := ⟨d.inode, d.direntlen, d.filetype, []⟩

theorem typeOf_entryOf (p : Pairing) (d : Ext2Dirent) :
    typeOf p.contents (entryOf d) = some (p.typeOf d) := by
  unfold typeOf Pairing.typeOf entryOf
  split <;> rfl

theorem fresh_of_entryNode {d : Ext2Dirent} {n : Ext2fsNode}
    (hn : EntryNode p.contents (entryOf d) n) : Fresh p d.inode n := by
  rcases hn with rfl | ⟨bytes, hbytes, rfl⟩
  · exact Or.inl rfl
  · obtain rfl := Option.some.inj hbytes
    exact Or.inr rfl

section OneRun
variable {d : Ext2Dirent} {id : ℕ} {n : Ext2fsNode}
  (hino : ReadsInode fs (int32 d.inode) (p.content (int32 d.inode)))
  (hn : w.get (.alloc id) = some n)
include hino hn

/-- What one of the runs makes of the type. -/
theorem entryType_kept (hunread : n = unreadNode d.inode) :
    Yields (entryType fs id d) w fun r s => r = some (p.typeOf d) ∧
      (∃ m, Changed (.alloc id) m w s ∧ Fresh p d.inode m) ∧ s.next = w.next := by
  subst hunread
  obtain ⟨r, s, hrun, hr, m, hchanged, hentry⟩ := @entryType_yields fs p.contents w id
    (entryOf d) hino d rfl hn
  rw [typeOf_entryOf] at hr
  subst hr
  have hkept := (entryType_safely fs w id (by rw [mem_live, hn]; rfl) d).2 _ s hrun
  exact ⟨_, s, hrun, rfl, ⟨m, hchanged, fresh_of_entryNode (hentry rfl)⟩, hkept.next⟩

variable {α : Type}

theorem listEntry_kept (hfresh : Fresh p d.inode n) (filename : List UInt8) (type : FileType)
    (dirFunc : Option (α → List UInt8 → Xstat → Bool → ℤ × α)) (data : α) :
    Yields (listEntry fs id filename type dirFunc data) w fun r s =>
      r = some (callFunc dirFunc data filename
        (ext4fsFileEntryStat (readNode d.inode (p.content (int32 d.inode))))
        (type = .directory)) ∧
      (∃ m, Changed (.alloc id) m w s) ∧ s.next = w.next := by
  have hentry : EntryNode p.contents (entryOf d) n := by
    rcases hfresh with rfl | rfl
    · exact Or.inl rfl
    · exact Or.inr ⟨_, rfl, rfl⟩
  obtain ⟨r, s, hrun, hchanged, hr⟩ := @listEntry_yields fs p.contents w id
    (entryOf d) hino α filename type n hn hentry dirFunc data
  have hkept := (listEntry_safely fs w id (by rw [mem_live, hn]; rfl) filename type dirFunc
    data).2 r s hrun
  exact ⟨r, s, hrun, hr, hchanged, hkept.next⟩

end OneRun

theorem nodesAlike_of_fresh {ino : ℕ} {n n' : Ext2fsNode} (htree : int32 ino ∈ p.tree)
    (hn : Fresh p ino n) (hn' : Fresh p ino n') : n.ino = int32 ino ∧ NodesAlike p n n' := by
  have hino : ∀ m, Fresh p ino m → m.ino = int32 ino := by
    rintro m (rfl | rfl) <;> rfl
  refine ⟨hino n hn, ⟨?_, ?_⟩, Or.inr ⟨ino, hn, hn'⟩⟩
  · rw [hino n hn]
    exact htree
  · rw [hino n hn, hino n' hn']

/-- What is known of an entry that was found and of the node that it got. -/
def FoundAt (p : Pairing) (found : Option (ℕ × FileType)) (s : World) : Prop :=
  ∀ id type, found = some (id, type) →
    (type = .directory → At p.dirs (.alloc id) s) ∧ (type = .symlink → At p.links (.alloc id) s)

theorem FoundAt.none (s : World) : FoundAt p none s := fun _ _ hnone => nomatch hnone

/-- What a visit returned, as the found entry if there is one. -/
def foundBy {α : Type} : Visit α → Option (ℕ × FileType)
  | .done found _ => found
  | .next _ _ => none

section Visits
variable {α : Type} (hw : Worlds p w w')
include hw

/-- What two visits have in common. They leave the older nodes as they were. -/
def VisitsAlike (p : Pairing) (w w' : World) (r : Visit α) (s : World) (r' : Visit α)
    (s' : World) : Prop :=
  r' = r ∧ Onward p w s s' ∧ (Same w s ∧ Same w' s') ∧ FoundAt p (foundBy r) s

/-- The nodes of the entry go again in both runs, and nothing is found. -/
theorem dropped_alike {n n' k k' : Ext2fsNode} {s s' : World} {r : Visit α}
    (hs : Changed (.alloc w.next) n (w.add k) s) (hnext : s.next = (w.add k).next)
    (hs' : Changed (.alloc w.next) n' (w'.add k') s') (hnext' : s'.next = (w'.add k').next)
    (hadd : Onward p w (w.add k) (w'.add k')) (hr : foundBy r = none) :
    Alike (VisitsAlike p w w')
      ((do free w.next; pure r : NodeM (Visit α)) s)
      ((do free w.next; pure r : NodeM (Visit α)) s') := by
  have hfree : ∀ (s : World) m, s.get (.alloc w.next) = some m →
      free w.next s = .ok ((), s.remove w.next) :=
    fun s m hget => if_pos (by rw [show s.nodes w.next = some m from hget]; rfl)
  rw [bind_ok (hfree s n hs.self), bind_ok (hfree s' n' hs'.self)]
  refine Alike.pure ⟨rfl, hadd.trans (Onward.remove hadd.worlds hs.other hnext hs'.other hnext'),
    ⟨same_of_remove hs, ?_⟩, hr ▸ FoundAt.none _⟩
  rw [← hw.next] at hs' ⊢
  exact same_of_remove hs'

/-- The two visits of an entry. -/
theorem visitEntry_alike (h : DifferInTypes fs fs' fuel p) (mode : DirMode α)
    {d d' : Ext2Dirent} (hinode : d'.inode = d.inode) (hnamed : NamedAlike p d d')
    (filename : List UInt8) (data : α) :
    Alike (VisitsAlike p w w')
      (visitEntry fs mode d filename data w) (visitEntry fs' mode d' filename data w') := by
  obtain ⟨hreads, hreads'⟩ := h.inodes _ hnamed.tree
  have hnew : ∀ w : World, (w.add (unreadNode d.inode)).get (.alloc w.next) =
      some (unreadNode d.inode) := fun w => get_add_self w _
  have hunread := nodesAlike_of_fresh hnamed.tree (Or.inl rfl) (Or.inl rfl)
  have hadd := Onward.add hw hunread.2
  have hentry : entryNode d' = unreadNode d.inode := congrArg unreadNode hinode
  apply Alike.bind (show Alike (fun id s id' s' => (id = w.next ∧ id' = w.next) ∧
      s = w.add (unreadNode d.inode) ∧ s' = w'.add (unreadNode d.inode))
      (allocNode (entryNode d) w) (allocNode (entryNode d') w') from
    ⟨⟨rfl, hw.next⟩, rfl, congrArg w'.add hentry⟩)
  rintro _ _ _ _ ⟨⟨rfl, rfl⟩, rfl, rfl⟩
  have hone := entryType_kept hreads (hnew w) rfl
  have htwo := @entryType_kept fs' p _ d' w.next _ (hinode.symm ▸ hreads') (hw.next ▸ hnew w')
    (congrArg unreadNode hinode.symm)
  apply Alike.bind (Alike.of_yields hone htwo)
  rintro _ s _ s' ⟨⟨rfl, ⟨m, hm, hfresh⟩, hnext⟩, rfl, ⟨m', hm', hfresh'⟩, hnext'⟩
  rw [typeOf_eq hinode hnamed]
  rw [hinode] at hfresh'
  obtain ⟨hino, halike⟩ := nodesAlike_of_fresh hnamed.tree hfresh hfresh'
  have honward := hadd.trans (Onward.changed hadd.worlds (hnew w) hm hnext hm' hnext' hino halike)
  have hsame' : Changed (.alloc w'.next) m' (w'.add (unreadNode d.inode)) s' := hw.next.symm ▸ hm'
  cases mode with
  | lookup name =>
    apply Alike.ite
    · intro _
      refine Alike.pure ⟨rfl, honward, ⟨same_of_add hm, same_of_add hsame'⟩,
        fun id type hfound => ?_⟩
      obtain ⟨rfl, rfl⟩ := Prod.mk.inj (Option.some.inj hfound)
      have hat : ∀ inos : Set ℤ, int32 d.inode ∈ inos → At inos (.alloc w.next) s := by
        refine fun inos hin => ⟨older_of_get hm.self, fun k hk => ?_⟩
        rw [hm.self] at hk
        cases hk
        rwa [hino]
      exact ⟨fun htype => hat _ (hnamed.dir htype), fun htype => hat _ (hnamed.link htype)⟩
    · intro _
      exact dropped_alike hw hm hnext hm' hnext' hadd rfl
  | list dirFunc =>
    apply Alike.bind (Alike.of_yields
      (listEntry_kept hreads hm.self hfresh filename _ dirFunc data)
      (listEntry_kept hreads' hm'.self hfresh' filename _ dirFunc data))
    rintro _ t _ t' ⟨⟨rfl, ⟨k, hk⟩, hnext₁⟩, rfl, ⟨k', hk'⟩, hnext₁'⟩
    exact dropped_alike hw (hm.trans hk) (hnext₁.trans hnext) (hm'.trans hk')
      (hnext₁'.trans hnext') hadd rfl

end Visits

end Entries

end Eokan.TypeVisits
