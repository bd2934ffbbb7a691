import Eokan.PathTokens
import Eokan.Trees

/-!
A search in a tree compared with following the names of its path in the graph of
the tree. The two differ where a link has no names: its target is nothing but
slashes, the search takes it to the root, and leaves the type of the link there.
-/
namespace Eokan.TreeSearch

open ByteMem CInt Programs Device Layout Inodes ReadFile DokanRead NodeHeap Directory
  DirectoryNodes NodeRuns Entries DirectoryReads DirectoryScan Resolve PathTokens LinkedNames Trees
open Tree NameGraph

/-- What a search comes to in a tree. If it strays the tree has a directory there,
which it does not know. -/
inductive Comes (t : Tree) (fs : ExtFilesystem) (states : ℤ → Ext2fsNode → Prop) (left : ℕ)
    (ino : ℤ) (path : List (List UInt8)) (w : World) : Option (NodeRef × FileType × ℕ) → Prop
  | fails (hnone : t.graph.withoutBare.resolve left ino path = none) :
      Comes t fs states left ino path w none
  | arrives {node : NodeRef} {found : ℤ} {k rest : ℕ} (hk : k + rest = 7)
      (hsome : t.graph.withoutBare.resolve left ino path = some (found, rest))
      (hnode : t.Stands fs states node found w) :
      Comes t fs states left ino path w (some (node, t.type found, k))
  | strays {k rest : ℕ} (hk : k + rest = 7)
      (hnone : t.graph.withoutBare.resolve left ino path = none)
      (hroot : t.graph.resolve left ino path = some (t.root, rest)) :
      Comes t fs states left ino path w (some (.diropen, .symlink, k))

/-- The node is the one of the root or none of these. -/
def New (t : Tree) (fs : ExtFilesystem) (states : ℤ → Ext2fsNode → Prop) (refs : NodeRef → Prop)
    (w : World) (node : NodeRef) : Prop :=
  node = .diropen ∨ ∀ ref ino, refs ref → t.Stands fs states ref ino w → node ≠ ref

/-- What is left when a search goes on from this node. -/
def Spared (node currroot ref : NodeRef) : Prop := ref ≠ node ∨ ref = currroot ∨ ref = .diropen

/-- Following paths from directories of the tree. -/
def Follows (t : Tree) (fs : ExtFilesystem) (states : ℤ → Ext2fsNode → Prop) (depth : ℕ)
    (follow : List UInt8 → NodeRef → ℕ → NodeM (Option Found)) : Prop :=
  ∀ path start ino k left w, 8 ≤ depth + k → k + left = 7 → t.Stands fs states start ino w →
    t.type ino = .directory → t.Stands fs states .diropen t.root w →
    Yields (follow path start k) w fun r w' =>
      t.Keeps fs states (fun _ => True) w w' ∧
      (names path = [] → r = some (start, none, k)) ∧
      (names path ≠ [] → ∃ found, r = found.map (fun f => (f.1, some f.2.1, f.2.2)) ∧
        Comes t fs states left ino (names path) w' found ∧
        ∀ node type k, found = some (node, type, k) → New t fs states (fun _ => True) w node)

theorem names_ne (path : List UInt8) : ∀ name ∈ names path, name ≠ [] := by
  intro name hname
  simpa using (List.mem_filter.mp hname).2

/-- A target without names is nothing but slashes. -/
theorem head_of_names_nil {path : List UInt8} (hne : path ≠ []) (hnames : names path = []) :
    path.head? = some slash := by
  by_contra hhead
  rw [names_cut hne hhead] at hnames
  cases hnames

variable {t : Tree} {fs : ExtFilesystem} {fuel steps : ℕ} {states : ℤ → Ext2fsNode → Prop}
  {left k : ℕ} {ino found : ℤ} {name : List UInt8} {path : List (List UInt8)} {w w' : World}
  {r : Option (NodeRef × FileType × ℕ)}

theorem Comes.onward {refs : NodeRef → Prop} (h : Comes t fs states left ino path w r)
    (hkeeps : t.Keeps fs states refs w w')
    (hrefs : ∀ node type k, r = some (node, type, k) → refs node) :
    Comes t fs states left ino path w' r := by
  cases h with
  | fails hnone => exact Comes.fails hnone
  | arrives hk hsome hnode => exact Comes.arrives hk hsome (hkeeps _ _ (hrefs _ _ _ rfl) hnode)
  | strays hk hnone hroot => exact Comes.strays hk hnone hroot

/-- The first name of a path leads to where the others are followed. -/
theorem Comes.cons {rest : ℕ} (hname : t.graph.withoutBare.resolve left ino [name] =
      some (found, rest)) (h : Comes t fs states rest found path w r) :
    Comes t fs states left ino (name :: path) w r := by
  have hwithout : t.graph.withoutBare.resolve left ino (name :: path) =
      t.graph.withoutBare.resolve rest found path := by
    rw [← List.singleton_append, resolve_append, hname, Option.bind_some]
  have hwith : t.graph.resolve left ino (name :: path) = t.graph.resolve rest found path := by
    rw [← List.singleton_append, resolve_append, resolve_of_withoutBare hname, Option.bind_some]
  cases h with
  | fails hnone => exact Comes.fails (hwithout.trans hnone)
  | arrives hk hsome hnode => exact Comes.arrives hk (hwithout.trans hsome) hnode
  | strays hk hnone hroot => exact Comes.strays hk (hwithout.trans hnone) (hwith.trans hroot)

theorem Comes.fails_cons (hname : t.graph.withoutBare.resolve left ino [name] = none) :
    Comes t fs states left ino (name :: path) w none := by
  apply Comes.fails
  rw [← List.singleton_append, resolve_append, hname, Option.bind_none]

section Names

theorem resolve_one_missing (hchild : t.child ino name = none) :
    t.graph.withoutBare.resolve left ino [name] = none :=
  resolve_missing left [] (withoutBare_missing hchild)

variable (hchild : t.child ino name = some found)
include hchild

theorem resolve_one_bare (htype : t.type found = .symlink) (hnames : names (t.target found) = []) :
    t.graph.withoutBare.resolve left ino [name] = none := by
  have hbare : t.graph.Bare found = true := by simp [Bare, t.graph_link htype, hnames]
  exact resolve_missing left [] (withoutBare_bare hchild hbare)

variable (hdir : t.type ino = .directory)
include hdir

theorem resolve_one_file (htype : t.type found ≠ .symlink) :
    t.graph.withoutBare.resolve left ino [name] = some (found, left) := by
  have hisDir : t.graph.withoutBare.isDir ino = true := decide_eq_true hdir
  have hlink := t.graph_link_none htype
  have hbare : t.graph.Bare found = false := by simp [Bare, hlink]
  rw [resolve_child left [] hisDir (withoutBare_child hchild hbare) hlink, resolve_nil]

variable (htype : t.type found = .symlink)
include htype

/-- An eighth link is not followed. -/
theorem resolve_one_last : t.graph.withoutBare.resolve 0 ino [name] = none := by
  have hisDir : t.graph.withoutBare.isDir ino = true := decide_eq_true hdir
  cases hbare : t.graph.Bare found with
  | true => exact resolve_missing 0 [] (withoutBare_bare hchild hbare)
  | false =>
    exact resolve_exhausted [] hisDir (withoutBare_child hchild hbare) (t.graph_link htype)

/-- What a link leads to is what its target leads to. -/
theorem resolve_one_link :
    t.graph.resolve (left + 1) ino [name] = t.graph.resolve left
      (t.graph.start ((t.target found).head? = some slash) ino) (names (t.target found)) := by
  have hisDir : t.graph.isDir ino = true := decide_eq_true hdir
  rw [resolve_splice left [] hisDir hchild (t.graph_link htype), List.append_nil]

theorem Comes.link (hnames : names (t.target found) ≠ [])
    (h : Comes t fs states left (t.graph.start ((t.target found).head? = some slash) ino)
      (names (t.target found)) w r) : Comes t fs states (left + 1) ino [name] w r := by
  have hisDir : t.graph.withoutBare.isDir ino = true := decide_eq_true hdir
  have hwith := @resolve_one_link t left ino found name hchild hdir htype
  have hbare : t.graph.Bare found = false := by simp [Bare, t.graph_link htype, hnames]
  have hwithout : t.graph.withoutBare.resolve (left + 1) ino [name] =
      t.graph.withoutBare.resolve left (t.graph.start ((t.target found).head? = some slash) ino)
        (names (t.target found)) := by
    rw [resolve_splice left [] hisDir (withoutBare_child hchild hbare) (t.graph_link htype),
      List.append_nil, withoutBare_start]
  cases h with
  | fails hnone => exact Comes.fails (hwithout.trans hnone)
  | arrives hk hsome hnode => exact Comes.arrives hk (hwithout.trans hsome) hnode
  | strays hk hnone hroot => exact Comes.strays hk (hwithout.trans hnone) (hwith.trans hroot)

end Names

end Eokan.TreeSearch
