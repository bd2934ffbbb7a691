import Mathlib.Data.Nat.Notation

/-!
Names in a graph of directories and links. A path is followed one name after the
other, and what a link stands for is followed in its place. Only so many links
are followed, so cycles do no harm.
-/
namespace Eokan.LinkedNames

/-- A directory has children with names. A link stands for a list of names, which
are followed from the root or from the directory that holds the link. -/
structure NameGraph (ν α : Type) where
  root : ν
  isDir : ν → Bool
  child : ν → α → Option ν
  link : ν → Option (Bool × List α)

variable {ν α : Type}

namespace NameGraph
variable (g : NameGraph ν α)

/-- Where the names of a link start that is in this directory. -/
def start (fromRoot : Bool) (dir : ν) : ν := if fromRoot then g.root else dir

/-- Follow names up to a link. Its names come before those behind the link. -/
def walk (follow : ν → List α → Option (ν × ℕ)) (left : ℕ) : ν → List α → Option (ν × ℕ)
  | node, [] => some (node, left)
  | node, name :: rest =>
    if g.isDir node then
      match g.child node name with
      | none => none
      | some found =>
        match g.link found with
        | none => walk follow left found rest
        | some (fromRoot, names) => follow (g.start fromRoot node) (names ++ rest)
    else none

/-- What names lead to, and the number of links that are left to be followed. -/
def resolve : ℕ → ν → List α → Option (ν × ℕ)
  | 0 => g.walk (fun _ _ => none) 0
  | left + 1 => g.walk (resolve left) (left + 1)

/-- Names lead to a node, and some of the links are left. -/
inductive Leads : ℕ → ν → List α → ν × ℕ → Prop
  | here (left : ℕ) (node : ν) : Leads left node [] (node, left)
  | child {left : ℕ} {node found : ν} {name : α} {rest : List α} {r : ν × ℕ}
      (hdir : g.isDir node = true) (hchild : g.child node name = some found)
      (hlink : g.link found = none) (hrest : Leads left found rest r) :
      Leads left node (name :: rest) r
  | link {left : ℕ} {node found : ν} {name : α} {fromRoot : Bool} {target rest : List α}
      {r : ν × ℕ} (hdir : g.isDir node = true) (hchild : g.child node name = some found)
      (hlink : g.link found = some (fromRoot, target))
      (hrest : Leads left (g.start fromRoot node) (target ++ rest) r) :
      Leads (left + 1) node (name :: rest) r

section Resolve
variable (left : ℕ) (node : ν) (name : α) (rest : List α)

@[simp] theorem resolve_nil : g.resolve left node [] = some (node, left) := by
  cases left <;> rfl

variable {g node name}

theorem resolve_file (hdir : g.isDir node = false) : g.resolve left node (name :: rest) = none := by
  cases left <;> simp [resolve, walk, hdir]

theorem resolve_missing (hchild : g.child node name = none) :
    g.resolve left node (name :: rest) = none := by
  cases left <;> simp [resolve, walk, hchild]

variable {found : ν} (hdir : g.isDir node = true) (hchild : g.child node name = some found)
include hdir hchild

theorem resolve_child (hlink : g.link found = none) :
    g.resolve left node (name :: rest) = g.resolve left found rest := by
  cases left <;> simp [resolve, walk, hdir, hchild, hlink]

variable {fromRoot : Bool} {target : List α} (hlink : g.link found = some (fromRoot, target))
include hlink

/-- No link is followed any more. -/
theorem resolve_exhausted : g.resolve 0 node (name :: rest) = none := by
  simp [resolve, walk, hdir, hchild, hlink]

theorem resolve_splice : g.resolve (left + 1) node (name :: rest) =
    g.resolve left (g.start fromRoot node) (target ++ rest) := by
  cases left <;> simp [resolve, walk, hdir, hchild, hlink]

end Resolve

variable {g}

theorem leads_of_resolve {left : ℕ} {node : ν} {names : List α} {r : ν × ℕ}
    (h : g.resolve left node names = some r) : g.Leads left node names r := by
  induction left using Nat.strongRecOn generalizing node names with
  | _ left ihleft =>
    induction names generalizing node with
    | nil =>
      obtain rfl : (node, left) = r := by simpa using h
      exact Leads.here left node
    | cons name rest ih =>
      cases hdir : g.isDir node with
      | false => simp [resolve_file, hdir] at h
      | true =>
        cases hchild : g.child node name with
        | none => simp [resolve_missing, hchild] at h
        | some found =>
          cases hlink : g.link found with
          | none =>
            rw [resolve_child left rest hdir hchild hlink] at h
            exact Leads.child hdir hchild hlink (ih h)
          | some target =>
            cases left with
            | zero => simp [resolve_exhausted rest hdir hchild hlink] at h
            | succ left =>
              rw [resolve_splice left rest hdir hchild hlink] at h
              exact Leads.link hdir hchild hlink (ihleft left (Nat.lt_succ_self left) h)

theorem resolve_eq_some_iff {left : ℕ} {node : ν} {names : List α} {r : ν × ℕ} :
    g.resolve left node names = some r ↔ g.Leads left node names r := by
  refine ⟨leads_of_resolve, fun h => ?_⟩
  induction h with
  | here left node => exact resolve_nil g left node
  | child hdir hchild hlink _ ih => rw [resolve_child _ _ hdir hchild hlink, ih]
  | link hdir hchild hlink _ ih => rw [resolve_splice _ _ hdir hchild hlink, ih]

/-- The names of a path can be followed in two parts. -/
theorem resolve_append (left : ℕ) (node : ν) (names rest : List α) :
    g.resolve left node (names ++ rest) =
      (g.resolve left node names).bind fun r => g.resolve r.2 r.1 rest := by
  induction left using Nat.strongRecOn generalizing node names with
  | _ left ihleft =>
    induction names generalizing node with
    | nil => simp
    | cons name names ih =>
      rw [List.cons_append]
      cases hdir : g.isDir node with
      | false => simp [resolve_file, hdir]
      | true =>
        cases hchild : g.child node name with
        | none => simp [resolve_missing, hchild]
        | some found =>
          cases hlink : g.link found with
          | none =>
            rw [resolve_child _ _ hdir hchild hlink, resolve_child _ _ hdir hchild hlink, ih]
          | some target =>
            cases left with
            | zero => simp [resolve_exhausted _ hdir hchild hlink]
            | succ left =>
              rw [resolve_splice _ _ hdir hchild hlink, resolve_splice _ _ hdir hchild hlink,
                ← List.append_assoc, ihleft left (Nat.lt_succ_self left)]

theorem Leads.le {left : ℕ} {node : ν} {names : List α} {r : ν × ℕ}
    (h : g.Leads left node names r) : r.2 ≤ left := by
  induction h with
  | here left node => exact Nat.le_refl left
  | child _ _ _ _ ih => exact ih
  | link _ _ _ _ ih => exact Nat.le_succ_of_le ih

variable (g)

/-- A link without names leads to where its names would start. -/
def Bare (node : ν) : Bool := (g.link node).any fun target => target.2.isEmpty

/-- The graph in which no directory holds a link without names. -/
def withoutBare : NameGraph ν α :=
  { g with child := fun node name => (g.child node name).filter fun found => !g.Bare found }

variable {g}

@[simp] theorem withoutBare_isDir : g.withoutBare.isDir = g.isDir := rfl
@[simp] theorem withoutBare_link : g.withoutBare.link = g.link := rfl
@[simp] theorem withoutBare_start : g.withoutBare.start = g.start := rfl

theorem withoutBare_child {node found : ν} {name : α} (hchild : g.child node name = some found)
    (hbare : g.Bare found = false) : g.withoutBare.child node name = some found := by
  simp [withoutBare, hchild, hbare]

theorem withoutBare_bare {node found : ν} {name : α} (hchild : g.child node name = some found)
    (hbare : g.Bare found = true) : g.withoutBare.child node name = none := by
  simp [withoutBare, hchild, hbare]

theorem withoutBare_missing {node : ν} {name : α} (hchild : g.child node name = none) :
    g.withoutBare.child node name = none := by
  simp [withoutBare, hchild]

/-- What can be reached without such links is reached in the same way with them. -/
theorem Leads.of_withoutBare {left : ℕ} {node : ν} {names : List α} {r : ν × ℕ}
    (h : g.withoutBare.Leads left node names r) : g.Leads left node names r := by
  induction h with
  | here left node => exact Leads.here left node
  | child hdir hchild hlink _ ih =>
    exact Leads.child hdir (Option.filter_eq_some_iff.mp hchild).1 hlink ih
  | link hdir hchild hlink _ ih =>
    exact Leads.link hdir (Option.filter_eq_some_iff.mp hchild).1 hlink ih

theorem resolve_of_withoutBare {left : ℕ} {node : ν} {names : List α} {r : ν × ℕ}
    (h : g.withoutBare.resolve left node names = some r) : g.resolve left node names = some r :=
  resolve_eq_some_iff.mpr (leads_of_resolve h).of_withoutBare

end NameGraph

end Eokan.LinkedNames
