import Eokan.Resolve
import Mathlib.Data.List.TakeWhile

/-!
Cutting a path at its slashes, as the loop does it: the path is rewritten in
place, and whether a name is the last one depends on what is left behind the
slashes that follow it. Where slashes are added or removed, the search is the
same.
-/
namespace Eokan.PathTokens

open Programs Device Layout NodeHeap Directory Resolve

/-- The name up to the next slash, and what is behind the slashes there. -/
def cutName (name : List UInt8) : List UInt8 × Option (List UInt8) :=
  match name.dropWhile (· ≠ slash) with
  | [] => (name, none)
  | _ :: next => (name.takeWhile (· ≠ slash), some (next.dropWhile (· = slash)))

theorem cutName_lt {name next : List UInt8} (h : (cutName name).2 = some next) :
    next.length < name.length := by
  unfold cutName at h
  split at h
  · cases h
  · rename_i c rest hrest
    obtain rfl := Option.some.inj h
    have hone := List.length_dropWhile_le (fun b : UInt8 => decide (b ≠ slash)) name
    have htwo := List.length_dropWhile_le (fun b : UInt8 => decide (b = slash)) rest
    rw [hrest, List.length_cons] at hone
    omega

theorem names_skip (path : List UInt8) : names (path.dropWhile (· = slash)) = names path := by
  induction path with
  | nil => rfl
  | cons c path ih =>
    by_cases hc : c = slash
    · subst hc
      rw [List.dropWhile_cons_of_pos (by decide), ih, names_slash]
    · rw [List.dropWhile_cons_of_neg (by simpa using hc)]

theorem skip_head (path : List UInt8) : (path.dropWhile (· = slash)).head? ≠ some slash := by
  intro h
  have hnot := List.head?_dropWhile_not (fun b : UInt8 => decide (b = slash)) path
  rw [h] at hnot
  exact absurd hnot (by decide)

/-- What the loop cuts off is the first component, and the rest has the others. -/
theorem names_cut {name : List UInt8} (hne : name ≠ []) (hhead : name.head? ≠ some slash) :
    names name = (cutName name).1 :: names ((cutName name).2.getD []) := by
  unfold cutName
  split
  · rename_i hall
    have hslash : slash ∉ name := by
      intro hmem
      have hnot := List.dropWhile_eq_nil_iff.mp hall slash hmem
      exact absurd hnot (by decide)
    rw [names_single name hne hslash]
    rfl
  · rename_i c rest hrest
    have hc : c = slash := by
      have hnot := List.head?_dropWhile_not (fun b : UInt8 => decide (b ≠ slash)) name
      rw [hrest] at hnot
      simpa using hnot
    have hsplit : name = name.takeWhile (· ≠ slash) ++ slash :: rest := by
      subst hc
      rw [← hrest, List.takeWhile_append_dropWhile]
    have hfront : name.takeWhile (· ≠ slash) ≠ [] := by
      intro hnil
      rw [hnil, List.nil_append] at hsplit
      rw [hsplit] at hhead
      exact hhead rfl
    have hslash : slash ∉ name.takeWhile (· ≠ slash) := by
      intro hmem
      have hnot := List.mem_takeWhile_imp hmem
      exact absurd hnot (by decide)
    calc names name = names (name.takeWhile (· ≠ slash) ++ slash :: rest) := congrArg names hsplit
      _ = name.takeWhile (· ≠ slash) :: names rest := names_component _ _ hfront hslash
      _ = _ := by rw [Option.getD_some, names_skip]

/-- Behind the slashes there is no other slash. -/
theorem cut_head {name next : List UInt8} (h : (cutName name).2 = some next) :
    next.head? ≠ some slash := by
  unfold cutName at h
  split at h
  · cases h
  · obtain rfl := Option.some.inj h
    exact skip_head _

section Code
variable (fs : ExtFilesystem) (fuel steps : ℕ)

/-- One round of the loop: the name is looked up, and a link is followed. -/
def findName (follow : List UInt8 → NodeRef → ℕ → NodeM (Option Found)) (currroot : NodeRef)
    (name : List UInt8) (currnode : NodeRef) (type : FileType) (symlinknest : ℕ) :
    NodeM (Option (NodeRef × FileType × ℕ)) := do
  if type ≠ .directory then do
    ext4fsFreeNode currnode currroot
    pure none
  else do
    match ← lookupIn fs fuel steps currnode name with
    | none => pure none
    | some (entry, .symlink) => do
      match ← followLink fs fuel follow (.alloc entry) currnode currroot symlinknest with
      | none => pure none
      | some (currnode, oldnode, type, symlinknest) => do
        ext4fsFreeNode oldnode currroot
        pure (some (currnode, type, symlinknest))
    | some (entry, type) => do
      ext4fsFreeNode currnode currroot
      pure (some (.alloc entry, type, symlinknest))

/-- The loop over the path. It ends when nothing is left behind the slashes. -/
def findNames (follow : List UInt8 → NodeRef → ℕ → NodeM (Option Found)) (currroot : NodeRef)
    (path : List UInt8) (currnode : NodeRef) (type : FileType) (symlinknest : ℕ) :
    NodeM (Option Found) := do
  match ← findName fs fuel steps follow currroot (cutName path).1 currnode type symlinknest with
  | none => pure none
  | some (currnode, type, symlinknest) =>
    match _h : (cutName path).2 with
    | none | some [] => do
      let _ ← deref currnode
      pure (some (currnode, some type, symlinknest))
    | some (c :: next) => findNames follow currroot (c :: next) currnode type symlinknest
termination_by path.length
decreasing_by exact cutName_lt _h

/-- The slashes in front of a path are skipped, and without a name the search is over. -/
def findPath : ℕ → List UInt8 → NodeRef → ℕ → NodeM (Option Found)
  | 0, _, _, _ => fault .outOfFuel
  | depth + 1, currpath, currroot, symlinknest =>
    match currpath.dropWhile (· = slash) with
    | [] => pure (some (currroot, none, symlinknest))
    | name => findNames fs fuel steps (findPath depth) currroot name currroot .directory symlinknest

theorem walk_cons (follow : List UInt8 → NodeRef → ℕ → NodeM (Option Found)) (currroot : NodeRef)
    (name : List UInt8) (next : List (List UInt8)) (currnode : NodeRef) (type : FileType)
    (symlinknest : ℕ) :
    walk fs fuel steps follow currroot (name :: next) currnode type symlinknest =
    (do match ← findName fs fuel steps follow currroot name currnode type symlinknest with
        | none => pure none
        | some (currnode, type, symlinknest) =>
          walk fs fuel steps follow currroot next currnode type symlinknest) := by
  rw [walk, findName]
  split
  · simp only [bind_assoc, pure_bind]
  · simp only [bind_assoc]
    congr 1
    funext found
    rcases found with _ | ⟨entry, type'⟩
    · simp only [pure_bind]
    · cases type' <;> simp only [bind_assoc, pure_bind]
      congr 1
      funext r
      rcases r with _ | ⟨c, o, t, k⟩
      · simp only [pure_bind]
      · simp only [bind_assoc, pure_bind]

/-- The loop over the bytes is the walk over the components. -/
theorem findNames_eq (follow : List UInt8 → NodeRef → ℕ → NodeM (Option Found))
    (currroot : NodeRef) (path : List UInt8) (hne : path ≠ []) (hhead : path.head? ≠ some slash)
    (currnode : NodeRef) (type : FileType) (symlinknest : ℕ) :
    findNames fs fuel steps follow currroot path currnode type symlinknest =
      walk fs fuel steps follow currroot (names path) currnode type symlinknest := by
  induction hlen : path.length using Nat.strong_induction_on generalizing path currnode type
    symlinknest with
  | _ len ih =>
    rw [findNames, names_cut hne hhead, walk_cons]
    congr 1
    funext found
    rcases found with _ | ⟨currnode', type', symlinknest'⟩
    · rfl
    · dsimp only
      split
      · rename_i hnext
        rw [hnext]
        rfl
      · rename_i hnext
        rw [hnext]
        rfl
      · rename_i c next hnext
        rw [hnext]
        exact ih _ (hlen ▸ cutName_lt hnext) _ (by simp) (cut_head hnext) _ _ _ rfl

theorem findPath_eq (depth : ℕ) : findPath fs fuel steps depth =
    ext4fsFindFile1 fs fuel steps depth := by
  induction depth with
  | zero => rfl
  | succ depth ih =>
    funext currpath currroot symlinknest
    rw [findPath, ext4fsFindFile1, ih]
    have hskip := names_skip currpath
    split
    · rename_i hnil
      rw [hnil] at hskip
      rw [← hskip]
      rfl
    · rename_i hcons
      have hhead := skip_head currpath
      have hcut := names_cut hcons hhead
      rw [findNames_eq fs fuel steps _ _ _ hcons hhead, ← hskip, hcut]

end Code

/-- One slash more: in front, behind, or next to a slash. -/
inductive SlashAdded : List UInt8 → List UInt8 → Prop
  | front (path : List UInt8) : SlashAdded path (slash :: path)
  | back (path : List UInt8) : SlashAdded path (path ++ [slash])
  | beside (before after : List UInt8) :
    SlashAdded (before ++ slash :: after) (before ++ slash :: slash :: after)

/-- Slashes are added and removed. -/
abbrev SlashVariant : List UInt8 → List UInt8 → Prop := Relation.EqvGen SlashAdded

theorem names_added {path path' : List UInt8} (h : SlashAdded path path') :
    names path' = names path := by
  cases h with
  | front path => exact names_slash path
  | back path => rw [names_append, names_nil, List.append_nil]
  | beside before after => rw [names_append, names_append, names_slash]

theorem names_variant {path path' : List UInt8} (h : SlashVariant path path') :
    names path = names path' := by
  induction h with
  | rel path path' hadded => exact (names_added hadded).symm
  | refl path => rfl
  | symm path path' _ ih => exact ih.symm
  | trans path path' path'' _ _ ih ih' => exact ih.trans ih'

/-- The loop finds the same for all of these paths, whatever links are met. -/
theorem findPath_slashes (fs : ExtFilesystem) (fuel steps : ℕ) {path path' : List UInt8}
    (h : SlashVariant path path') (depth : ℕ) :
    findPath fs fuel steps depth path = findPath fs fuel steps depth path' := by
  rw [findPath_eq]
  cases depth with
  | zero => rfl
  | succ depth =>
    funext currroot symlinknest
    rw [ext4fsFindFile1, ext4fsFindFile1, names_variant h]

/-- Status, node and type are those of the path without the slashes. -/
theorem ext4fsFindFile_slashes (fs : ExtFilesystem) (fuel steps : ℕ) {path path' : List UInt8}
    (h : SlashVariant path path') (rootnode : NodeRef) (expecttype : FileType) :
    findPath fs fuel steps 8 path rootnode 0 = findPath fs fuel steps 8 path' rootnode 0 ∧
      ext4fsFindFile fs fuel steps path rootnode expecttype =
        ext4fsFindFile fs fuel steps path' rootnode expecttype := by
  have hfound := findPath_slashes fs fuel steps h 8
  refine ⟨by rw [hfound], ?_⟩
  rw [findPath_eq] at hfound
  unfold ext4fsFindFile
  rw [hfound]

end Eokan.PathTokens
