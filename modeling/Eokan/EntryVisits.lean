import Eokan.Entries

/-!
One visit of an entry. It gets a node of its own, which is freed again unless
it is the one looked for.
-/
namespace Eokan.EntryVisits

open ByteMem CInt Programs Layout DokanRead NodeHeap Directory NodeRuns Entries

/-- What a lookup returns. -/
def Finds (contents : ℕ → Option Bytes) (found : Option (ℕ × FileType)) (w : World) :
    Option (Entry × FileType) → Prop
  | none => found = none
  | some (e, type) => ∃ id node, found = some (id, type) ∧ w.get (.alloc id) = some node ∧
      EntryNode contents e node

section Visits
variable {fs : ExtFilesystem} {contents : ℕ → Option Bytes} {w : World} {id : ℕ} {e : Entry}
  (hino : InodeIs fs e.inode (contents e.inode))
include hino

theorem entryType_yields {dirent : Ext2Dirent} (htype : dirent.filetype = e.filetype)
    (hnode : w.get (.alloc id) = some (unreadNode e.inode)) :
    Yields (entryType fs id dirent) w fun r w' =>
      r = typeOf contents e ∧ ∃ node, Changed (.alloc id) node w w' ∧
        (r.isSome → EntryNode contents e node) := by
  unfold entryType typeOf
  rw [htype]
  by_cases hzero : e.filetype = 0
  · rw [if_neg (not_not_intro hzero), if_neg (not_not_intro hzero)]
    cases hbytes : contents e.inode with
    | none =>
      rw [hbytes] at hino
      apply Yields.bind (loadInode_none hnode hino)
      rintro status w' ⟨hstatus, node, hchanged⟩
      rw [if_pos hstatus]
      exact Yields.pure ⟨rfl, node, hchanged, fun h => nomatch h⟩
    | some bytes =>
      rw [hbytes] at hino
      apply Yields.bind (loadInode_some hnode hino)
      rintro status w₁ ⟨rfl, hchanged⟩
      rw [if_neg (by decide)]
      apply Yields.bind (setInodeRead_yields hchanged.self)
      intro _ w₂ hread
      unfold Yields
      rw [bind_ok (deref_run hread.self)]
      exact ⟨_, w₂, rfl, rfl, _, hchanged.trans hread, fun _ => Or.inr ⟨bytes, hbytes, rfl⟩⟩
  · rw [if_pos hzero, if_pos hzero]
    exact Yields.pure ⟨rfl, _, Changed.refl hnode, fun _ => Or.inl rfl⟩

variable {α : Type} {filename : List UInt8} {type : FileType}

theorem needInode_entry {node : Ext2fsNode} (hnode : w.get (.alloc id) = some node)
    (hentry : EntryNode contents e node) :
    Yields (needInode fs (.alloc id)) w fun read w' =>
      match contents e.inode with
      | none => read = false ∧ ∃ node', Changed (.alloc id) node' w w'
      | some bytes => read = true ∧ ∃ node', Changed (.alloc id) node' w w' ∧
          { node' with inodeRead := true } = readNode e.inode bytes := by
  unfold Yields needInode
  rw [bind_ok (deref_run hnode)]
  rcases hentry with rfl | ⟨bytes, hbytes, rfl⟩
  · rw [if_neg (by simp [unreadNode])]
    cases hbytes : contents e.inode with
    | none =>
      rw [hbytes] at hino
      apply Yields.bind (loadInode_none hnode hino)
      rintro status w' ⟨rfl, hchanged⟩
      exact Yields.pure ⟨rfl, hchanged⟩
    | some bytes =>
      rw [hbytes] at hino
      apply Yields.bind (loadInode_some hnode hino)
      rintro status w' ⟨rfl, hchanged⟩
      exact Yields.pure ⟨rfl, _, hchanged, rfl⟩
  · rw [if_pos (show (readNode e.inode bytes).inodeRead = true from rfl), hbytes]
    exact ⟨true, w, rfl, rfl, _, Changed.refl hnode, rfl⟩

/-- What the function of a listing makes of an entry, if there is a function. -/
def callFunc (dirFunc : Option (α → List UInt8 → Xstat → Bool → ℤ × α)) (data : α)
    (filename : List UInt8) (st : Xstat) (isDir : Bool) : ℤ × α :=
  match dirFunc with
  | none => (0, data)
  | some f => f data filename st isDir

/-- An entry is passed on once its inode is read. -/
theorem listEntry_yields {node : Ext2fsNode} (hnode : w.get (.alloc id) = some node)
    (hentry : EntryNode contents e node)
    (dirFunc : Option (α → List UInt8 → Xstat → Bool → ℤ × α)) (data : α) :
    Yields (listEntry fs id filename type dirFunc data) w fun r w' =>
      (∃ node', Changed (.alloc id) node' w w') ∧
      r = (contents e.inode).map fun bytes => callFunc dirFunc data filename
        (ext4fsFileEntryStat (readNode e.inode bytes)) (type = .directory) := by
  apply Yields.bind (needInode_entry hino hnode hentry)
  intro read w₁ hread
  cases hbytes : contents e.inode with
  | none =>
    rw [hbytes] at hread
    obtain ⟨rfl, hchanged⟩ := hread
    exact Yields.pure ⟨hchanged, rfl⟩
  | some bytes =>
    rw [hbytes] at hread
    obtain ⟨rfl, node', hchanged, hloaded⟩ := hread
    rw [if_neg (by decide)]
    apply Yields.bind (setInodeRead_yields hchanged.self)
    intro _ w₂ hset
    rw [hloaded] at hset
    unfold Yields
    rw [bind_ok (deref_run hset.self)]
    cases dirFunc with
    | none => exact ⟨_, w₂, rfl, ⟨_, hchanged.trans hset⟩, rfl⟩
    | some f => exact ⟨_, w₂, rfl, ⟨_, hchanged.trans hset⟩, rfl⟩

/-- What a visit does in a lookup. -/
theorem visitEntry_lookup {dirent : Ext2Dirent} (hinode : dirent.inode = e.inode)
    (htype : dirent.filetype = e.filetype) (name : List UInt8) (data : α) :
    Yields (visitEntry fs (.lookup name) dirent filename data) w fun r w' =>
      Same w w' ∧
      match typeOf contents e with
      | none => r = .done none data
      | some type =>
        if filename = name then ∃ id node, r = .done (some (id, type)) data ∧
          w'.get (.alloc id) = some node ∧ EntryNode contents e node
        else r = .next 0 data := by
  have hadd : (w.add (entryNode dirent)).get (.alloc w.next) = some (unreadNode e.inode) := by
    rw [get_add_self, ← hinode]
    rfl
  apply Yields.bind (show Yields (allocNode (entryNode dirent)) w
    fun id w' => id = w.next ∧ w' = w.add (entryNode dirent) from ⟨_, _, rfl, rfl, rfl⟩)
  rintro _ _ ⟨rfl, rfl⟩
  apply Yields.bind (entryType_yields hino htype hadd)
  rintro _ w₁ ⟨rfl, node, hchanged, hentry⟩
  cases htypeOf : typeOf contents e with
  | none =>
    apply Yields.bind (free_yields hchanged)
    intro _ w₂ hsame
    exact Yields.pure ⟨hsame, rfl⟩
  | some type =>
    rw [htypeOf] at hentry
    dsimp only
    by_cases hname : filename = name
    · rw [if_pos hname]
      refine Yields.pure ⟨same_of_add hchanged, ?_⟩
      rw [if_pos hname]
      exact ⟨w.next, node, rfl, hchanged.self, hentry rfl⟩
    · rw [if_neg hname]
      apply Yields.bind (free_yields hchanged)
      intro _ w₂ hsame
      refine Yields.pure ⟨hsame, ?_⟩
      rw [if_neg hname]

/-- What a visit does in a listing. -/
theorem visitEntry_list {dirent : Ext2Dirent} (hinode : dirent.inode = e.inode)
    (htype : dirent.filetype = e.filetype) (f : α → List UInt8 → Xstat → Bool → ℤ × α) (data : α) :
    Yields (visitEntry fs (.list (some f)) dirent filename data) w fun r w' =>
      Same w w' ∧
      match contents e.inode with
      | none => r = .done none data
      | some bytes =>
        let called := f data filename (ext4fsFileEntryStat (readNode e.inode bytes))
          (typeOf contents e = some .directory)
        r = .next called.1 called.2 := by
  have hadd : (w.add (entryNode dirent)).get (.alloc w.next) = some (unreadNode e.inode) := by
    rw [get_add_self, ← hinode]
    rfl
  apply Yields.bind (show Yields (allocNode (entryNode dirent)) w
    fun id w' => id = w.next ∧ w' = w.add (entryNode dirent) from ⟨_, _, rfl, rfl, rfl⟩)
  rintro _ _ ⟨rfl, rfl⟩
  apply Yields.bind (entryType_yields hino htype hadd)
  rintro _ w₁ ⟨rfl, node, hchanged, hentry⟩
  cases htypeOf : typeOf contents e with
  | none =>
    have hnone : contents e.inode = none := by
      unfold typeOf at htypeOf
      split at htypeOf
      · cases htypeOf
      · exact Option.map_eq_none_iff.mp htypeOf
    rw [hnone]
    apply Yields.bind (free_yields hchanged)
    intro _ w₂ hsame
    exact Yields.pure ⟨hsame, rfl⟩
  | some type =>
    rw [htypeOf] at hentry
    apply Yields.bind (listEntry_yields hino hchanged.self (hentry rfl) (some f) data)
    rintro _ w₂ ⟨⟨node', hchanged'⟩, rfl⟩
    apply Yields.bind (free_yields (hchanged.trans hchanged'))
    intro _ w₃ hsame
    cases hbytes : contents e.inode with
    | none => exact Yields.pure ⟨hsame, rfl⟩
    | some bytes =>
      refine Yields.pure ⟨hsame, ?_⟩
      simp only [Option.some.injEq]

end Visits

end Eokan.EntryVisits
