import Eokan.Directory
import Eokan.ReadFaults

/-!
The nodes that an iteration over a directory allocates. Whatever the disk holds
and whichever reads fail, no node is left but the one that was looked for.
-/
namespace Eokan.DirectoryNodes

open ByteMem CInt Programs Device Layout Inodes ReadFile DokanRead NodeHeap Directory ReadFaults

/-- A node is used that is not there any more, or not yet. -/
def FreedUse (e : Fault) : Prop := e = .useAfterFree

/-- The same nodes are there, perhaps with other content. -/
structure Kept (w w' : World) : Prop where
  live : w'.live = w.live
  next : w'.next = w.next

theorem Kept.refl (w : World) : Kept w w := ⟨rfl, rfl⟩

theorem Kept.trans {w w' w'' : World} (h : Kept w w') (h' : Kept w' w'') : Kept w w'' :=
  ⟨h'.live.trans h.live, h'.next.trans h.next⟩

theorem kept_set (w : World) (ref : NodeRef) (node : Ext2fsNode) : Kept w (w.set ref node) :=
  ⟨live_set w ref node, next_set w ref node⟩

theorem isSome_get_of_live {w w' : World} (h : w'.live = w.live) (ref : NodeRef)
    (href : (w.get ref).isSome) : (w'.get ref).isSome := by
  cases ref with
  | diropen => rfl
  | alloc id =>
    rw [← mem_live] at href ⊢
    rw [h]
    exact href

section Basic
variable (w : World) (ref : NodeRef) (href : (w.get ref).isSome)

theorem device_safely {α : Type} (x : DevM α) (hx : Avoids FreedUse x) :
    Safely FreedUse (device x) w fun _ w' => Kept w w' := by
  unfold Safely OnReturn device
  cases hrun : x w.log with
  | error e =>
    refine ⟨fun e' h => ?_, fun a w' h => ?_⟩
    · cases h
      exact hx w.log e hrun
    · cases h
  | ok p =>
    refine ⟨fun e' h => ?_, fun a w' h => ?_⟩
    · cases h
    · cases h
      exact ⟨rfl, rfl⟩

include href

theorem deref_safely : Safely FreedUse (deref ref) w fun _ w' => w' = w := by
  obtain ⟨node, hnode⟩ := Option.isSome_iff_exists.mp href
  apply Safely.of_yields
  refine ⟨node, w, ?_, rfl⟩
  unfold deref
  rw [hnode]

theorem store_safely (node : Ext2fsNode) :
    Safely FreedUse (store ref node) w fun _ w' => Kept w w' := by
  apply Safely.of_yields
  exact ⟨(), w.set ref node, if_pos href, kept_set w ref node⟩

end Basic

section Inodes
variable (fs : ExtFilesystem) (w : World) (ref : NodeRef) (href : (w.get ref).isSome)
include href

theorem readFileAt_safely (fuel : ℕ) (pos len : ℤ) (buf : Bytes) :
    Safely FreedUse (readFileAt fs fuel ref pos len buf) w fun _ w' => Kept w w' := by
  apply Safely.bind (deref_safely w ref href)
  rintro node w' rfl
  apply Safely.bind (device_safely w' _ (ext4fsReadFile_avoids fs FreedUse
    (fun h => by cases h) (fun h => by cases h) (fun h => by cases h) fuel node pos len buf))
  intro r w₁ hkept
  apply Safely.bind (store_safely w₁ ref (isSome_get_of_live hkept.live ref href) _)
  intro _ w₂ hkept'
  exact Safely.pure (hkept.trans hkept')

theorem loadInode_safely : Safely FreedUse (loadInode fs ref) w fun _ w' => Kept w w' := by
  apply Safely.bind (deref_safely w ref href)
  rintro node w' rfl
  apply Safely.bind (device_safely w' _ (ext4fsReadInode_avoids fs FreedUse
    (fun h => by cases h) (fun h => by cases h) _ _))
  intro r w₁ hkept
  apply Safely.bind (store_safely w₁ ref (isSome_get_of_live hkept.live ref href) _)
  intro _ w₂ hkept'
  exact Safely.pure (hkept.trans hkept')

theorem needInode_safely : Safely FreedUse (needInode fs ref) w fun _ w' => Kept w w' := by
  apply Safely.bind (deref_safely w ref href)
  rintro node w' rfl
  split
  · exact Safely.pure (Kept.refl w')
  · apply Safely.bind (loadInode_safely fs w' ref href)
    intro _ w₁ hkept
    exact Safely.pure hkept

theorem setInodeRead_safely : Safely FreedUse (setInodeRead ref) w fun _ w' => Kept w w' := by
  apply Safely.bind (deref_safely w ref href)
  rintro node w' rfl
  exact store_safely w' ref href _

end Inodes

section Entries
variable (fs : ExtFilesystem) (w : World)

theorem entryType_safely (id : ℕ) (hid : id ∈ w.live) (dirent : Ext2Dirent) :
    Safely FreedUse (entryType fs id dirent) w fun _ w' => Kept w w' := by
  unfold entryType
  split
  · exact Safely.pure (Kept.refl w)
  apply Safely.bind (loadInode_safely fs w (.alloc id) hid)
  intro status w₁ hkept
  split
  · exact Safely.pure hkept
  have hid₁ := isSome_get_of_live hkept.live (.alloc id) hid
  apply Safely.bind (setInodeRead_safely w₁ _ hid₁)
  intro _ w₂ hkept'
  apply Safely.bind (deref_safely w₂ _ (isSome_get_of_live hkept'.live _ hid₁))
  rintro node w₃ rfl
  exact Safely.pure (hkept.trans hkept')

variable {α : Type}

theorem listEntry_safely (id : ℕ) (hid : id ∈ w.live) (filename : List UInt8) (type : FileType)
    (dirFunc : Option (α → List UInt8 → Xstat → Bool → ℤ × α)) (data : α) :
    Safely FreedUse (listEntry fs id filename type dirFunc data) w fun _ w' => Kept w w' := by
  apply Safely.bind (needInode_safely fs w (.alloc id) hid)
  intro read w₁ hkept
  split
  · exact Safely.pure hkept
  have hid₁ := isSome_get_of_live hkept.live (.alloc id) hid
  apply Safely.bind (setInodeRead_safely w₁ _ hid₁)
  intro _ w₂ hkept'
  apply Safely.bind (deref_safely w₂ _ (isSome_get_of_live hkept'.live _ hid₁))
  rintro node w₃ rfl
  cases dirFunc with
  | none => exact Safely.pure (hkept.trans hkept')
  | some f => exact Safely.pure (hkept.trans hkept')

theorem free_safely (id : ℕ) (hid : id ∈ w.live) :
    Safely FreedUse (free id) w fun _ w' => w' = w.remove id :=
  Safely.of_yields ⟨(), w.remove id, if_pos hid, rfl⟩

/-- An entry leaves no node but the one that was looked for. -/
def VisitLeaves (mode : DirMode α) (w : World) (r : Visit α) (w' : World) : Prop :=
  match r with
  | .done (some (id, _)) _ =>
    (∃ name, mode = .lookup name) ∧ id ∉ w.live ∧ w'.live = insert id w.live
  | .done none _ => w'.live = w.live
  | .next _ _ => w'.live = w.live

theorem visitEntry_safely (mode : DirMode α) (dirent : Ext2Dirent) (filename : List UInt8)
    (data : α) :
    Safely FreedUse (visitEntry fs mode dirent filename data) w (VisitLeaves mode w) := by
  have hnew : w.next ∉ w.live := fun h => Nat.lt_irrefl _ (live_lt w _ h)
  have hadd : (w.add (entryNode dirent)).live = insert w.next w.live := live_add w _
  -- freeing the node of the entry brings the old nodes back
  have hfreed : ∀ w' : World, w'.live = insert w.next w.live →
      (w'.remove w.next).live = w.live := by
    intro w' h
    rw [live_remove, h, Set.insert_sdiff_self_of_notMem hnew]
  apply Safely.bind (Safely.of_yields ⟨w.next, _, rfl, ⟨rfl, rfl⟩⟩ :
    Safely FreedUse (allocNode (entryNode dirent)) w
      fun id w' => id = w.next ∧ w' = w.add (entryNode dirent))
  rintro _ _ ⟨rfl, rfl⟩
  have hid : w.next ∈ (w.add (entryNode dirent)).live := hadd ▸ Set.mem_insert _ _
  apply Safely.bind (entryType_safely fs _ w.next hid dirent)
  intro r w₁ hkept
  have hlive := hkept.live.trans hadd
  have hid₁ : w.next ∈ w₁.live := hlive ▸ Set.mem_insert _ _
  cases r with
  | none =>
    apply Safely.bind (free_safely w₁ _ hid₁)
    rintro _ _ rfl
    exact Safely.pure (hfreed w₁ hlive)
  | some type =>
    cases mode with
    | lookup name =>
      dsimp only
      split
      · exact Safely.pure ⟨⟨name, rfl⟩, hnew, hlive⟩
      · apply Safely.bind (free_safely w₁ _ hid₁)
        rintro _ _ rfl
        exact Safely.pure (hfreed w₁ hlive)
    | list dirFunc =>
      apply Safely.bind (listEntry_safely fs w₁ _ hid₁ filename type dirFunc data)
      intro listed w₂ hkept'
      have hlive' := hkept'.live.trans hlive
      apply Safely.bind (free_safely w₂ _ (hlive' ▸ Set.mem_insert _ _))
      rintro _ _ rfl
      cases listed with
      | none => exact Safely.pure (hfreed w₂ hlive')
      | some r => exact Safely.pure (hfreed w₂ hlive')

/-- What an iteration over a directory leaves: the node that was found, if any. -/
def IterationLeaves (mode : DirMode α) (w : World) (r : Option (ℕ × FileType) × α) (w' : World) :
    Prop :=
  match r.1 with
  | some (id, _) => (∃ name, mode = .lookup name) ∧ id ∉ w.live ∧ w'.live = insert id w.live
  | none => w'.live = w.live

theorem iterationLeaves_congr {mode : DirMode α} {w w₁ w' : World} (h : w₁.live = w.live)
    {r : Option (ℕ × FileType) × α} (hr : IterationLeaves mode w₁ r w') :
    IterationLeaves mode w r w' := by
  unfold IterationLeaves at hr ⊢
  rwa [h] at hr

theorem iterateFrom_safely (fuel steps : ℕ) (dir : NodeRef) (mode : DirMode α) (fpos : ℕ)
    (data : α) (hdir : (w.get dir).isSome) :
    Safely FreedUse (iterateFrom fs fuel dir mode steps fpos data) w (IterationLeaves mode w) := by
  induction steps generalizing w fpos data with
  | zero => exact Safely.fault fun h => by cases h
  | succ steps ih =>
    -- the rest of the loop, from a world with the same nodes
    have hrest : ∀ w' : World, w'.live = w.live → ∀ fpos data,
        Safely FreedUse (iterateFrom fs fuel dir mode steps fpos data) w'
          (IterationLeaves mode w) :=
      fun w' h fpos data => (ih w' fpos data (isSome_get_of_live h dir hdir)).mono
        fun r w'' => iterationLeaves_congr h
    apply Safely.bind (deref_safely w dir hdir)
    intro diro w' hw
    rw [hw]
    split
    · apply Safely.bind (readFileAt_safely fs w dir hdir fuel _ _ _)
      rintro ⟨status, raw⟩ w₁ hkept
      have hdir₁ := isSome_get_of_live hkept.live dir hdir
      dsimp only
      split
      · exact Safely.pure hkept.live
      split
      · exact hrest w₁ hkept.live _ _
      apply Safely.bind (readFileAt_safely fs w₁ dir hdir₁ fuel _ _ _)
      rintro ⟨status', filename⟩ w₂ hkept'
      have hlive := hkept'.live.trans hkept.live
      split
      · exact Safely.pure hlive
      apply Safely.bind (visitEntry_safely fs w₂ mode _ _ data)
      intro visit w₃ hvisit
      cases visit with
      | done found data =>
        apply Safely.pure
        apply iterationLeaves_congr hlive
        cases found with
        | none => exact hvisit
        | some r => exact hvisit
      | next got data =>
        dsimp only
        split
        · exact Safely.pure (hvisit.trans hlive)
        · exact hrest w₃ (hvisit.trans hlive) _ _
    · exact Safely.pure (rfl : w.live = w.live)

/-- Iterating uses no freed node and leaves at most the one that is returned. -/
theorem ext4fsIterateDir_safely (fuel steps : ℕ) (dir : NodeRef) (mode : DirMode α) (data : α)
    (hdir : (w.get dir).isSome) :
    Safely FreedUse (ext4fsIterateDir fs fuel steps dir mode data) w (IterationLeaves mode w) := by
  apply Safely.bind (needInode_safely fs w dir hdir)
  intro read w₁ hkept
  split
  · exact Safely.pure hkept.live
  · exact (iterateFrom_safely fs w₁ fuel steps dir mode 0 data
      (isSome_get_of_live hkept.live dir hdir)).mono fun r w' => iterationLeaves_congr hkept.live

end Entries

end Eokan.DirectoryNodes
