import Eokan.Layout
import Mathlib.Data.Set.Lattice
import Mathlib.Order.CompletePartialOrder

/-!
The nodes of a mounted file system. The node of the root is part of it, every
other node is allocated and freed by hand. A world is what a run can change:
the reads issued, the root node, and the allocated nodes under numbers that are
never used twice.
-/
namespace Eokan.NodeHeap

open ByteMem CInt Programs Device Layout

inductive NodeRef
  | diropen
  | alloc (id : ℕ)
  deriving DecidableEq

structure World where
  log : Log
  diropen : Ext2fsNode
  nodes : ℕ → Option Ext2fsNode
  next : ℕ
  fresh : ∀ id, next ≤ id → nodes id = none

abbrev NodeM (α : Type) := Prog World Fault α

namespace World

def get (w : World) : NodeRef → Option Ext2fsNode
  | .diropen => some w.diropen
  | .alloc id => w.nodes id

/-- Only a node that is there is overwritten. -/
def set (w : World) (ref : NodeRef) (node : Ext2fsNode) : World :=
  match ref with
  | .diropen => { w with diropen := node }
  | .alloc id =>
    { w with
      nodes := fun j => if j = id then (w.nodes j).map fun _ => node else w.nodes j
      fresh := fun j hj => by simp [w.fresh j hj] }

def add (w : World) (node : Ext2fsNode) : World :=
  { w with
    nodes := fun j => if j = w.next then some node else w.nodes j
    next := w.next + 1
    fresh := fun j hj => by
      rw [if_neg (by omega)]
      exact w.fresh j (by omega) }

def remove (w : World) (id : ℕ) : World :=
  { w with
    nodes := fun j => if j = id then none else w.nodes j
    fresh := fun j hj => by simp [w.fresh j hj] }

def withLog (w : World) (log : Log) : World := { w with log }

/-- The numbers of the allocated nodes. -/
def live (w : World) : Set ℕ := {id | (w.nodes id).isSome}

end World

/-- After a mount no node is allocated. -/
def World.mounted (root : Ext2fsNode) (log : Log) : World :=
  ⟨log, root, fun _ => none, 0, fun _ _ => rfl⟩

/-- The layers below know nothing of nodes that are allocated. -/
def device {α : Type} (x : DevM α) : NodeM α := fun w =>
  match x w.log with
  | .ok (a, log) => .ok (a, w.withLog log)
  | .error e => .error e

def deref (ref : NodeRef) : NodeM Ext2fsNode := fun w =>
  match w.get ref with
  | some node => .ok (node, w)
  | none => .error .useAfterFree

def store (ref : NodeRef) (node : Ext2fsNode) : NodeM Unit := fun w =>
  if (w.get ref).isSome then .ok ((), w.set ref node) else .error .useAfterFree

def allocNode (node : Ext2fsNode) : NodeM ℕ := fun w => .ok (w.next, w.add node)

def free (id : ℕ) : NodeM Unit := fun w =>
  if (w.nodes id).isSome then .ok ((), w.remove id) else .error .useAfterFree

/-- The root node and the node that a search started from are not freed. -/
def ext4fsFreeNode (node currroot : NodeRef) : NodeM Unit :=
  match node with
  | .diropen => pure ()
  | .alloc id => if node ≠ currroot then free id else pure ()

section Worlds
variable (w : World) (ref other : NodeRef) (node : Ext2fsNode) (id : ℕ) (log : Log)

@[simp] theorem live_withLog : (w.withLog log).live = w.live := rfl
@[simp] theorem get_withLog : (w.withLog log).get ref = w.get ref := by cases ref <;> rfl
@[simp] theorem next_withLog : (w.withLog log).next = w.next := rfl
@[simp] theorem next_set : (w.set ref node).next = w.next := by cases ref <;> rfl
@[simp] theorem next_add : (w.add node).next = w.next + 1 := rfl
@[simp] theorem next_remove : (w.remove id).next = w.next := rfl
@[simp] theorem log_set : (w.set ref node).log = w.log := by cases ref <;> rfl
@[simp] theorem log_add : (w.add node).log = w.log := rfl
@[simp] theorem log_remove : (w.remove id).log = w.log := rfl

theorem mem_live : id ∈ w.live ↔ (w.get (.alloc id)).isSome := Iff.rfl

theorem live_lt (h : id ∈ w.live) : id < w.next := by
  by_contra hle
  have hnone := w.fresh id (by omega)
  rw [mem_live, World.get, hnone] at h
  cases h

@[simp] theorem live_set : (w.set ref node).live = w.live := by
  cases ref with
  | diropen => rfl
  | alloc id =>
    ext j
    change ((if j = id then (w.nodes j).map _ else w.nodes j).isSome ↔ (w.nodes j).isSome)
    split
    · simp
    · rfl

@[simp] theorem live_add : (w.add node).live = insert w.next w.live := by
  ext j
  change ((if j = w.next then some node else w.nodes j).isSome ↔ j = w.next ∨ (w.nodes j).isSome)
  split <;> simp [*]

@[simp] theorem live_remove : (w.remove id).live = w.live \ {id} := by
  ext j
  change ((if j = id then none else w.nodes j).isSome ↔ (w.nodes j).isSome ∧ j ≠ id)
  split <;> simp [*]

theorem get_set_self (h : (w.get ref).isSome) : (w.set ref node).get ref = some node := by
  cases ref with
  | diropen => rfl
  | alloc id =>
    obtain ⟨old, hold⟩ := Option.isSome_iff_exists.mp h
    change (if id = id then (w.nodes id).map _ else w.nodes id) = some node
    rw [if_pos rfl, show w.nodes id = some old from hold]
    rfl

theorem get_set_of_ne (h : other ≠ ref) : (w.set ref node).get other = w.get other := by
  cases ref with
  | diropen =>
    cases other with
    | diropen => exact absurd rfl h
    | alloc id => rfl
  | alloc id =>
    cases other with
    | diropen => rfl
    | alloc j =>
      have hj : j ≠ id := fun heq => h (heq ▸ rfl)
      exact if_neg hj

theorem get_add_self : (w.add node).get (.alloc w.next) = some node := if_pos rfl

theorem get_add_of_some (h : (w.get ref).isSome) : (w.add node).get ref = w.get ref := by
  cases ref with
  | diropen => rfl
  | alloc id =>
    have hlt := live_lt w id h
    exact if_neg (by omega)

theorem get_remove_of_ne (h : ref ≠ .alloc id) : (w.remove id).get ref = w.get ref := by
  cases ref with
  | diropen => rfl
  | alloc j =>
    have hj : j ≠ id := fun heq => h (heq ▸ rfl)
    exact if_neg hj

end Worlds

end Eokan.NodeHeap
