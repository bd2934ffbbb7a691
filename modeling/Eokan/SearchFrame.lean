import Eokan.Resolve

/-!
What a search leaves alone. Whatever the disk holds and whichever reads fail, a
search from the root changes no node that was allocated before it, and a node
that it hands on is a new one or that of the root.
-/
namespace Eokan.SearchFrame

open ByteMem CInt Programs Device Layout Inodes ReadFile DokanRead NodeHeap Directory Resolve

/-- The allocated nodes of the world `first` are as they were. -/
structure Later (first w : World) : Prop where
  next : first.next ≤ w.next
  nodes : ∀ id, id < first.next → w.nodes id = first.nodes id

/-- The node of the root, or one that was not allocated yet. -/
def Young (first : World) : NodeRef → Prop
  | .diropen => True
  | .alloc id => first.next ≤ id

theorem Later.refl (w : World) : Later w w := ⟨Nat.le_refl _, fun _ _ => rfl⟩

section Worlds
variable {first w : World} (h : Later first w)
include h

theorem Later.withLog (log : Log) : Later first (w.withLog log) := ⟨h.next, h.nodes⟩

theorem Later.set {ref : NodeRef} (href : Young first ref) (node : Ext2fsNode) :
    Later first (w.set ref node) := by
  cases ref with
  | diropen => exact ⟨h.next, h.nodes⟩
  | alloc id =>
    refine ⟨h.next, fun j hj => ?_⟩
    have hne : j ≠ id := Nat.ne_of_lt (Nat.lt_of_lt_of_le hj href)
    simp [World.set, hne, h.nodes j hj]

theorem Later.add (node : Ext2fsNode) : Later first (w.add node) := by
  refine ⟨Nat.le_succ_of_le h.next, fun j hj => ?_⟩
  have hne : j ≠ w.next := Nat.ne_of_lt (Nat.lt_of_lt_of_le hj h.next)
  simp [World.add, hne, h.nodes j hj]

theorem Later.remove {id : ℕ} (hid : first.next ≤ id) : Later first (w.remove id) := by
  refine ⟨h.next, fun j hj => ?_⟩
  have hne : j ≠ id := Nat.ne_of_lt (Nat.lt_of_lt_of_le hj hid)
  simp [World.remove, hne, h.nodes j hj]

end Worlds

/-- If x returns, the first nodes are as they were. -/
def Leaves {α : Type} (first : World) (x : NodeM α) (post : α → Prop) : Prop :=
  ∀ w, Later first w → OnReturn x w fun a w' => Later first w' ∧ post a

section Rules
variable {α β : Type} {first : World}

theorem Leaves.pure {a : α} {post : α → Prop} (h : post a) :
    Leaves first (Pure.pure a : NodeM α) post :=
  fun _ hw => OnReturn.pure ⟨hw, h⟩

theorem Leaves.fault (e : Fault) {post : α → Prop} :
    Leaves first (Programs.fault e : NodeM α) post :=
  fun _ _ => OnReturn.fault e

theorem Leaves.bind {x : NodeM α} {f : α → NodeM β} {mid : α → Prop} {post : β → Prop}
    (hx : Leaves first x mid) (hf : ∀ a, mid a → Leaves first (f a) post) :
    Leaves first (x >>= f) post := by
  intro w hw
  exact (hx w hw).bind fun a w' ha => hf a ha.2 w' ha.1

theorem Leaves.mono {x : NodeM α} {post post' : α → Prop} (hx : Leaves first x post)
    (h : ∀ a, post a → post' a) : Leaves first x post' :=
  fun w hw => (hx w hw).mono fun a _ hpost => ⟨hpost.1, h a hpost.2⟩

end Rules

section Basic
variable {first : World} {ref : NodeRef}

theorem device_leaves {α : Type} (x : DevM α) :
    Leaves first (device x) fun _ => True := by
  intro w hw a w' hrun
  unfold device at hrun
  split at hrun
  · cases hrun
    exact ⟨hw.withLog _, trivial⟩
  · cases hrun

theorem deref_leaves : Leaves first (deref ref) fun _ => True := by
  intro w hw a w' hrun
  unfold deref at hrun
  split at hrun
  · cases hrun
    exact ⟨hw, trivial⟩
  · cases hrun

theorem store_leaves (href : Young first ref) (node : Ext2fsNode) :
    Leaves first (store ref node) fun _ => True := by
  intro w hw a w' hrun
  unfold store at hrun
  split at hrun
  · cases hrun
    exact ⟨hw.set href node, trivial⟩
  · cases hrun

theorem allocNode_leaves (node : Ext2fsNode) :
    Leaves first (allocNode node) fun id => first.next ≤ id := by
  intro w hw a w' hrun
  cases hrun
  exact ⟨hw.add node, hw.next⟩

theorem free_leaves {id : ℕ} (hid : first.next ≤ id) :
    Leaves first (free id) fun _ => True := by
  intro w hw a w' hrun
  unfold free at hrun
  split at hrun
  · cases hrun
    exact ⟨hw.remove hid, trivial⟩
  · cases hrun

theorem ext4fsFreeNode_leaves (href : Young first ref) (currroot : NodeRef) :
    Leaves first (ext4fsFreeNode ref currroot) fun _ => True := by
  cases ref with
  | diropen => exact Leaves.pure trivial
  | alloc id =>
    unfold ext4fsFreeNode
    dsimp only
    split
    · exact free_leaves href
    · exact Leaves.pure trivial

end Basic

section Directories
variable (fs : ExtFilesystem) {first : World} {ref : NodeRef} (href : Young first ref)
include href

theorem readFileAt_leaves (fuel : ℕ) (pos len : ℤ) (buf : Bytes) :
    Leaves first (readFileAt fs fuel ref pos len buf) fun _ => True := by
  apply deref_leaves.bind
  intro node _
  apply (device_leaves _).bind
  intro r _
  apply (store_leaves href _).bind
  intro _ _
  exact Leaves.pure trivial

theorem loadInode_leaves : Leaves first (loadInode fs ref) fun _ => True := by
  apply deref_leaves.bind
  intro node _
  apply (device_leaves _).bind
  intro r _
  apply (store_leaves href _).bind
  intro _ _
  exact Leaves.pure trivial

theorem needInode_leaves : Leaves first (needInode fs ref) fun _ => True := by
  apply deref_leaves.bind
  intro node _
  split
  · exact Leaves.pure trivial
  · apply (loadInode_leaves fs href).bind
    intro _ _
    exact Leaves.pure trivial

omit fs in
theorem setInodeRead_leaves : Leaves first (setInodeRead ref) fun _ => True :=
  deref_leaves.bind fun _ _ => store_leaves href _

end Directories

section Entries
variable (fs : ExtFilesystem) {first : World} {α : Type}

theorem entryType_leaves {id : ℕ} (hid : first.next ≤ id) (dirent : Ext2Dirent) :
    Leaves first (entryType fs id dirent) fun _ => True := by
  have href : Young first (.alloc id) := hid
  unfold entryType
  split
  · exact Leaves.pure trivial
  apply (loadInode_leaves fs href).bind
  intro status _
  split
  · exact Leaves.pure trivial
  apply (setInodeRead_leaves href).bind
  intro _ _
  apply deref_leaves.bind
  intro node _
  exact Leaves.pure trivial

theorem listEntry_leaves {id : ℕ} (hid : first.next ≤ id) (filename : List UInt8)
    (type : FileType) (dirFunc : Option (α → List UInt8 → Xstat → Bool → ℤ × α)) (data : α) :
    Leaves first (listEntry fs id filename type dirFunc data) fun _ => True := by
  have href : Young first (.alloc id) := hid
  apply (needInode_leaves fs href).bind
  intro read _
  split
  · exact Leaves.pure trivial
  apply (setInodeRead_leaves href).bind
  intro _ _
  apply deref_leaves.bind
  intro node _
  cases dirFunc <;> exact Leaves.pure trivial

/-- A node that is handed on is a new one. -/
def NewEntry (first : World) (found : Option (ℕ × FileType)) : Prop :=
  ∀ id type, found = some (id, type) → first.next ≤ id

theorem visitEntry_leaves (mode : DirMode α) (dirent : Ext2Dirent) (filename : List UInt8)
    (data : α) :
    Leaves first (visitEntry fs mode dirent filename data) fun visit =>
      ∀ found data', visit = .done found data' → NewEntry first found := by
  apply (allocNode_leaves _).bind
  intro id hid
  apply (entryType_leaves fs hid dirent).bind
  intro type _
  cases type with
  | none =>
    apply (free_leaves hid).bind
    intro _ _
    exact Leaves.pure (by simp [NewEntry])
  | some type =>
    cases mode with
    | lookup name =>
      dsimp only
      split
      · exact Leaves.pure (by simp_all [NewEntry])
      · apply (free_leaves hid).bind
        intro _ _
        exact Leaves.pure (by simp)
    | list dirFunc =>
      apply (listEntry_leaves fs hid filename type dirFunc data).bind
      intro listed _
      apply (free_leaves hid).bind
      intro _ _
      cases listed <;> exact Leaves.pure (by simp [NewEntry])

variable {dir : NodeRef} (hdir : Young first dir)
include hdir

theorem iterateFrom_leaves (fuel steps : ℕ) (mode : DirMode α) (fpos : ℕ) (data : α) :
    Leaves first (iterateFrom fs fuel dir mode steps fpos data) fun r => NewEntry first r.1 := by
  induction steps generalizing fpos data with
  | zero => exact Leaves.fault _
  | succ steps ih =>
    have hnone : ∀ data : α, NewEntry first (none, data).1 := by simp [NewEntry]
    apply deref_leaves.bind
    intro diro _
    split
    · apply (readFileAt_leaves fs hdir fuel _ _ _).bind
      intro (status, raw) _
      dsimp only
      split
      · exact Leaves.pure (hnone data)
      · split
        · exact ih _ _
        · apply (readFileAt_leaves fs hdir fuel _ _ _).bind
          intro (status', filename) _
          dsimp only
          split
          · exact Leaves.pure (hnone data)
          · apply (visitEntry_leaves fs mode _ _ data).bind
            intro visit hvisit
            cases visit with
            | done found data' => exact Leaves.pure (hvisit found data' rfl)
            | next got data' =>
              dsimp only
              split
              · exact Leaves.pure (hnone data')
              · exact ih _ _
    · exact Leaves.pure (hnone data)

theorem ext4fsIterateDir_leaves (fuel steps : ℕ) (mode : DirMode α) (data : α) :
    Leaves first (ext4fsIterateDir fs fuel steps dir mode data) fun r => NewEntry first r.1 := by
  apply (needInode_leaves fs hdir).bind
  intro read _
  split
  · exact Leaves.pure (by simp [NewEntry])
  · exact iterateFrom_leaves fs hdir fuel steps mode 0 data

end Entries

/-- A node that a search comes to is a new one or that of the root, which is
never taken for a regular file. -/
structure Arrives (first : World) (node : NodeRef) (type : FileType) : Prop where
  young : Young first node
  root : node = .diropen → type ≠ .reg

def YoungFound (first : World) (found : Option Found) : Prop :=
  ∀ node type nest, found = some (node, type, nest) →
    Young first node ∧ (node = .diropen → type ≠ some .reg)

/-- A search from a node that is not an older one. -/
def FollowLeaves (first : World) (follow : List UInt8 → NodeRef → ℕ → NodeM (Option Found)) :
    Prop :=
  ∀ path start nest, Young first start → Leaves first (follow path start nest) (YoungFound first)

section Links
variable (fs : ExtFilesystem) (fuel steps : ℕ) {first : World}

theorem ext4fsReadSymlink_leaves {ref : NodeRef} (href : Young first ref) :
    Leaves first (ext4fsReadSymlink fs fuel ref) fun _ => True := by
  apply (needInode_leaves fs href).bind
  intro read _
  split
  · exact Leaves.pure trivial
  apply deref_leaves.bind
  intro diro _
  dsimp only
  split
  · exact Leaves.fault _
  split
  · exact Leaves.pure trivial
  apply (readFileAt_leaves fs href fuel _ _ _).bind
  intro (status, symlink) _
  dsimp only
  split <;> exact Leaves.pure trivial

theorem takeLink_leaves {link : NodeRef} (hlink : Young first link) (currroot : NodeRef) :
    Leaves first (takeLink fs fuel link currroot) fun _ => True := by
  apply (ext4fsReadSymlink_leaves fs fuel hlink).bind
  intro symlink _
  apply (ext4fsFreeNode_leaves hlink currroot).bind
  intro _ _
  exact Leaves.pure trivial

theorem linkStart_leaves (symlink : List UInt8) {oldnode : NodeRef} (hold : Young first oldnode)
    (currroot : NodeRef) :
    Leaves first (linkStart symlink oldnode currroot) (Young first) := by
  unfold linkStart
  split
  · apply (ext4fsFreeNode_leaves hold currroot).bind
    intro _ _
    exact Leaves.pure trivial
  · exact Leaves.pure hold

variable {follow : List UInt8 → NodeRef → ℕ → NodeM (Option Found)}
  (hfollow : FollowLeaves first follow)
include hfollow

theorem followLink_leaves {link oldnode : NodeRef} (hlink : Young first link)
    (hold : Young first oldnode) (currroot : NodeRef) (nest : ℕ) :
    Leaves first (followLink fs fuel follow link oldnode currroot nest) fun found =>
      ∀ node start type k, found = some (node, start, type, k) →
        Arrives first node type ∧ Young first start := by
  unfold followLink
  dsimp only
  split
  · apply (ext4fsFreeNode_leaves hlink currroot).bind
    intro _ _
    apply (ext4fsFreeNode_leaves hold currroot).bind
    intro _ _
    exact Leaves.pure (by simp)
  apply (takeLink_leaves fs fuel hlink currroot).bind
  intro symlink _
  cases symlink with
  | none =>
    apply (ext4fsFreeNode_leaves hold currroot).bind
    intro _ _
    exact Leaves.pure (by simp)
  | some symlink =>
    apply (linkStart_leaves symlink hold currroot).bind
    intro start hstart
    apply (hfollow symlink start _ hstart).bind
    intro found hfound
    cases found with
    | none =>
      apply (ext4fsFreeNode_leaves hstart currroot).bind
      intro _ _
      exact Leaves.pure (by simp)
    | some found =>
      obtain ⟨node, type, k⟩ := found
      obtain ⟨hyoung, hroot⟩ := hfound node type k rfl
      apply Leaves.pure
      intro node' start' type' k' h
      cases h
      refine ⟨⟨hyoung, fun hnode => ?_⟩, hstart⟩
      cases type with
      | none => simp
      | some type => simpa using hroot hnode

theorem walk_leaves (currroot : NodeRef) (path : List (List UInt8)) {currnode : NodeRef}
    {type : FileType} (harrives : Arrives first currnode type) (nest : ℕ) :
    Leaves first (walk fs fuel steps follow currroot path currnode type nest)
      (YoungFound first) := by
  induction path generalizing currnode type nest with
  | nil =>
    apply deref_leaves.bind
    intro _ _
    apply Leaves.pure
    intro node type' k h
    cases h
    exact ⟨harrives.young, by simpa using harrives.root⟩
  | cons name next ih =>
    have hcurr := harrives.young
    rw [walk]
    split
    · apply (ext4fsFreeNode_leaves hcurr currroot).bind
      intro _ _
      exact Leaves.pure (by simp [YoungFound])
    apply ((ext4fsIterateDir_leaves fs hcurr fuel steps (.lookup name) ()).bind
      fun r hr => Leaves.pure hr : Leaves first (lookupIn fs fuel steps currnode name)
        (NewEntry first)).bind
    intro found hfound
    rcases found with _ | ⟨entry, type'⟩
    · exact Leaves.pure (by simp [YoungFound])
    have hentry : Young first (.alloc entry) := hfound entry type' rfl
    -- an entry that is no link is walked on from
    have hother : Leaves first (do
        ext4fsFreeNode currnode currroot
        walk fs fuel steps follow currroot next (.alloc entry) type' nest) (YoungFound first) :=
      (ext4fsFreeNode_leaves hcurr currroot).bind fun _ _ => ih ⟨hentry, by simp⟩ _
    cases type' with
    | symlink =>
      apply (followLink_leaves fs fuel hfollow hentry hcurr currroot nest).bind
      intro res hres
      cases res with
      | none => exact Leaves.pure (by simp [YoungFound])
      | some res =>
        obtain ⟨node, start, type, k⟩ := res
        obtain ⟨hnode, hstart⟩ := hres node start type k rfl
        apply (ext4fsFreeNode_leaves hstart currroot).bind
        intro _ _
        exact ih hnode _
    | unknown => exact hother
    | reg => exact hother
    | directory => exact hother

end Links

section Searches
variable (fs : ExtFilesystem) (fuel steps : ℕ) {first : World}

theorem ext4fsFindFile1_leaves (depth : ℕ) :
    FollowLeaves first (ext4fsFindFile1 fs fuel steps depth) := by
  induction depth with
  | zero => exact fun _ _ _ _ => Leaves.fault _
  | succ depth ih =>
    intro path start nest hstart
    rw [ext4fsFindFile1]
    cases names path with
    | nil =>
      apply Leaves.pure
      intro node type k h
      cases h
      exact ⟨hstart, by simp⟩
    | cons name next => exact walk_leaves fs fuel steps ih start _ ⟨hstart, by simp⟩ _

/-- A node of the result is a new one or that of the root. -/
def YoungNode (first : World) (found : Option NodeRef) : Prop :=
  ∀ node, found = some node → Young first node

theorem ext4fsFindFile_leaves (path : List UInt8) (expecttype : FileType) :
    Leaves first (ext4fsFindFile fs fuel steps path .diropen expecttype) fun r =>
      YoungNode first r.2 ∧ (expecttype = .reg → r ≠ (true, some .diropen)) := by
  apply (ext4fsFindFile1_leaves fs fuel steps 8 path .diropen 0 trivial).bind
  intro found hfound
  cases found with
  | none => exact Leaves.pure (by simp [YoungNode])
  | some found =>
    obtain ⟨node, type, k⟩ := found
    obtain ⟨hyoung, hroot⟩ := hfound node type k rfl
    have hnode : YoungNode first (some node) := by simpa [YoungNode] using hyoung
    dsimp only
    split
    · exact Leaves.pure ⟨hnode, by simp⟩
    split
    · exact Leaves.pure ⟨hnode, by simp⟩
    · -- a regular file was found, so it is not the root
      refine Leaves.pure ⟨hnode, fun hreg h => ?_⟩
      cases h
      cases type with
      | none => simp_all
      | some type => simp_all

/-- The node of a handle is a new one. -/
def NewNode (first : World) (filp : Option NodeRef) : Prop :=
  ∀ node, filp = some node → ∃ id, node = .alloc id ∧ first.next ≤ id

theorem openFail_leaves {found : Option NodeRef} (hfound : YoungNode first found) :
    Leaves first (openFail found) (NewNode first) := by
  cases found with
  | none => exact Leaves.pure (by simp [NewNode])
  | some node =>
    apply (ext4fsFreeNode_leaves (hfound node rfl) .diropen).bind
    intro _ _
    exact Leaves.pure (by simp [NewNode])

/-- An open leaves the older nodes alone, and its handle gets a new one. -/
theorem ext4fsOpen_leaves (filename : List UInt8) :
    Leaves first (ext4fsOpen fs fuel steps filename) (NewNode first) := by
  apply (ext4fsFindFile_leaves fs fuel steps filename .reg).bind
  intro (status, found) ⟨hfound, hroot⟩
  cases status with
  | false => exact openFail_leaves hfound
  | true =>
    cases found with
    | none => exact openFail_leaves hfound
    | some node =>
      have hyoung := hfound node rfl
      apply (needInode_leaves fs hyoung).bind
      intro read _
      split
      · exact openFail_leaves hfound
      · cases node with
        | diropen => exact absurd rfl (hroot rfl)
        | alloc id =>
          apply Leaves.pure
          intro node' h
          cases h
          exact ⟨id, rfl, hyoung⟩

theorem ext4fsListFiles_leaves {α : Type} (dirname : List UInt8)
    (func : Option (α → List UInt8 → Xstat → Bool → ℤ × α)) (data : α) :
    Leaves first (ext4fsListFiles fs fuel steps dirname func data) fun _ => True := by
  apply (ext4fsFindFile_leaves fs fuel steps dirname .directory).bind
  intro (status, found) ⟨hfound, _⟩
  cases status with
  | false => exact Leaves.pure trivial
  | true =>
    cases found with
    | none => exact Leaves.pure trivial
    | some node =>
      apply (ext4fsIterateDir_leaves fs (hfound node rfl) fuel steps (.list func) data).bind
      intro r _
      apply (ext4fsFreeNode_leaves (hfound node rfl) .diropen).bind
      intro _ _
      exact Leaves.pure trivial

end Searches

end Eokan.SearchFrame
