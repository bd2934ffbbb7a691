import Eokan.TreeRuns

/-!
Trees without links. A path leads to what its names lead to, and what is opened
or listed is found there.
-/
namespace Eokan.PlainTrees

open ByteMem CInt Programs Device Layout Inodes DokanRead NodeHeap Directory DirectoryNodes NodeRuns
  Entries DirectoryReads DirectoryScan Resolve LinkedNames Trees TreeSearch TreeRuns
open Tree
open NameGraph hiding walk

/-- The inode that names lead to when there are no links. -/
def lookupPath (t : Tree) : ℤ → List (List UInt8) → Option ℤ
  | ino, [] => some ino
  | ino, name :: rest =>
    if t.type ino = .directory then (t.child ino name).bind fun found => lookupPath t found rest
    else none

theorem lookupPath_append (t : Tree) (ino : ℤ) (path rest : List (List UInt8)) :
    lookupPath t ino (path ++ rest) =
      (lookupPath t ino path).bind fun found => lookupPath t found rest := by
  induction path generalizing ino with
  | nil => rfl
  | cons name path ih =>
    rw [List.cons_append, lookupPath, lookupPath]
    split
    · cases t.child ino name with
      | none => rfl
      | some found => exact ih found
    · rfl

/-- No node is a link. -/
def Plain (t : Tree) : Prop := ∀ ino ∈ t.nodes, t.type ino ≠ .symlink

section Names
variable {t : Tree} (hwf : t.WellFormed) {ino : ℤ} (hino : ino ∈ t.nodes)
include hwf hino

theorem child_mem (hdir : t.type ino = .directory) {name : List UInt8} (hname : name ≠ [])
    {found : ℤ} (hchild : t.child ino name = some found) : found ∈ t.nodes := by
  unfold Tree.child at hchild
  obtain ⟨e, hfind, rfl⟩ := Option.map_eq_some_iff.mp hchild
  have heq : e.name = name := by simpa using List.find?_some hfind
  exact (hwf.entries ino hino hdir e (List.mem_of_find?_eq_some hfind) (heq ▸ hname)).node

variable (hplain : Plain t) {path : List (List UInt8)} (hpath : ∀ name ∈ path, name ≠ [])
include hplain hpath

/-- Without links all of them are left, and none of them is without names. -/
theorem resolve_plain (left : ℕ) :
    t.graph.resolve left ino path = (lookupPath t ino path).map (·, left) ∧
      t.graph.withoutBare.resolve left ino path = (lookupPath t ino path).map (·, left) := by
  induction path generalizing ino with
  | nil => exact ⟨resolve_nil _ left ino, resolve_nil _ left ino⟩
  | cons name path ih =>
    rw [lookupPath]
    by_cases hdir : t.type ino = .directory
    · rw [if_pos hdir]
      cases hchild : t.child ino name with
      | none =>
        exact ⟨resolve_missing left path hchild,
          resolve_missing left path (withoutBare_missing hchild)⟩
      | some found =>
        have hfound := child_mem hwf hino hdir (hpath name List.mem_cons_self) hchild
        have hlink := t.graph_link_none (hplain found hfound)
        have hbare : t.graph.Bare found = false := by simp [Bare, hlink]
        have hisDir : t.graph.isDir ino = true := decide_eq_true hdir
        obtain ⟨hwith, hwithout⟩ := ih hfound fun n hn => hpath n (List.mem_cons_of_mem name hn)
        constructor
        · rw [resolve_child left path hisDir hchild hlink]
          exact hwith
        · have hisDir' : t.graph.withoutBare.isDir ino = true := hisDir
          rw [resolve_child left path hisDir' (withoutBare_child hchild hbare) hlink]
          exact hwithout
    · rw [if_neg hdir]
      have hfile : t.graph.isDir ino = false := decide_eq_false hdir
      have hfile' : t.graph.withoutBare.isDir ino = false := hfile
      exact ⟨resolve_file left path hfile, resolve_file left path hfile'⟩

omit hplain in
theorem lookupPath_mem {found : ℤ} (h : lookupPath t ino path = some found) : found ∈ t.nodes := by
  induction path generalizing ino with
  | nil =>
    cases h
    exact hino
  | cons name path ih =>
    rw [lookupPath] at h
    split at h
    · obtain ⟨next, hchild, hrest⟩ := Option.bind_eq_some_iff.mp h
      exact ih (child_mem hwf hino ‹_› (hpath name List.mem_cons_self) hchild)
        (fun n hn => hpath n (List.mem_cons_of_mem name hn)) hrest
    · cases h

end Names

section Runs
variable {t : Tree} {fs : ExtFilesystem} {fuel steps : ℕ} {states : ℤ → Ext2fsNode → Prop}
  (hread : t.Readable fs fuel steps states) (hwf : t.WellFormed) (hplain : Plain t) {w : World}
  (hroot : t.Stands fs states .diropen t.root w) (path : List UInt8)
include hread hwf hplain hroot

theorem findFile1_plain :
    Yields (ext4fsFindFile1 fs fuel steps 8 path .diropen 0) w fun r w' =>
      match lookupPath t t.root (names path) with
      | none => r = none
      | some found => ∃ node type k, r = some (node, type, k) ∧
          type.getD .directory = t.type found ∧ t.Stands fs states node found w' := by
  refine (findFile1_follows hread hwf 8 path .diropen t.root 0 7 w (by decide) rfl hroot hwf.root.2
    hroot).mono ?_
  rintro r w' ⟨hkeeps, hbare, hnamed⟩
  by_cases hnames : names path = []
  · rw [hnames, hbare hnames]
    exact ⟨.diropen, none, 0, rfl, hwf.root.2.symm, hkeeps _ _ trivial hroot⟩
  obtain ⟨found, rfl, hcomes, -⟩ := hnamed hnames
  obtain ⟨hwith, hwithout⟩ := resolve_plain hwf hwf.root.1 hplain (names_ne path) 7
  cases hlookup : lookupPath t t.root (names path) with
  | none =>
    rw [hlookup] at hwith hwithout
    cases hcomes with
    | fails hnone => rfl
    | arrives hk hsome hnode => simp [hsome] at hwithout
    | strays hk hnone hstray => simp [hstray] at hwith
  | some ino =>
    rw [hlookup] at hwithout
    cases hcomes with
    | fails hnone => simp [hnone] at hwithout
    | arrives hk hsome hnode =>
      rw [hsome] at hwithout
      cases hwithout
      exact ⟨_, _, _, rfl, rfl, hnode⟩
    | strays hk hnone hstray => simp [hnone] at hwithout

theorem ext4fsFindFile_plain {expecttype : FileType}
    (hexpect : expecttype = .reg ∨ expecttype = .directory) :
    Yields (ext4fsFindFile fs fuel steps path .diropen expecttype) w fun r w' =>
      match lookupPath t t.root (names path) with
      | none => r = (false, none)
      | some found => ∃ node, r = (decide (t.type found = expecttype), some node) ∧
          t.Stands fs states node found w' := by
  unfold ext4fsFindFile
  apply Yields.bind (findFile1_plain hread hwf hplain hroot path)
  intro r w₁ hr
  cases hlookup : lookupPath t t.root (names path) with
  | none =>
    rw [hlookup] at hr
    obtain rfl : r = none := hr
    exact Yields.pure rfl
  | some found =>
    rw [hlookup] at hr
    obtain ⟨node, type, k, rfl, htype, hnode⟩ := hr
    dsimp only
    rw [htype]
    by_cases hsame : t.type found = expecttype
    · rw [if_neg fun h => h.2 hsame, if_neg fun h => h.2 hsame]
      exact Yields.pure ⟨node, by rw [decide_eq_true hsame], hnode⟩
    · have hfalse : Yields (Pure.pure (false, some node) : NodeM _) w₁ fun r w' =>
          ∃ node', r = (decide (t.type found = expecttype), some node') ∧
            t.Stands fs states node' found w' :=
        Yields.pure ⟨node, by rw [decide_eq_false hsame], hnode⟩
      rcases hexpect with hreg | hdir
      · rwa [if_pos ⟨hreg, hsame⟩]
      · rwa [if_neg fun h => by rw [hdir] at h; exact absurd h.1 (by decide), if_pos ⟨hdir, hsame⟩]

/-- A regular file is opened with its inode, and nothing else is. -/
theorem ext4fsOpen_plain :
    Yields (ext4fsOpen fs fuel steps path) w fun r w' =>
      match lookupPath t t.root (names path) with
      | none => r = none
      | some found =>
        if t.type found = .reg then ∃ node, r = some node ∧ t.Stands fs states node found w'
        else r = none := by
  apply Yields.bind (ext4fsFindFile_plain hread hwf hplain hroot path (Or.inl rfl))
  rintro r w₁ hr
  cases hlookup : lookupPath t t.root (names path) with
  | none =>
    rw [hlookup] at hr
    cases hr
    exact Yields.pure rfl
  | some found =>
    rw [hlookup] at hr
    obtain ⟨node, rfl, hnode⟩ := hr
    by_cases htype : t.type found = .reg
    · simp only [htype, decide_true, if_true]
      obtain ⟨n, hn, hbelongs, rfl⟩ := id hnode
      apply Yields.bind (needInode_openable hn hbelongs.opens)
      rintro _ w₂ ⟨rfl, hpassed⟩
      exact Yields.pure ⟨node, rfl, Passed.keeps hread hpassed hnode _ _ trivial hnode⟩
    · simp only [htype, decide_false, if_false]
      apply Yields.bind (@ext4fsFreeNode_keeps t fs states w₁ node .diropen hnode.isSome)
      intro _ w₂ _
      exact Yields.pure rfl

omit hread hwf hplain hroot in
/-- Every entry with a name is passed on. -/
theorem listScan_contents (es : List Entry) :
    listScan t.contents es = es.filter (·.name ≠ []) := by
  induction es with
  | nil => rfl
  | cons e es ih =>
    rw [listScan, ih]
    by_cases hname : e.name = []
    · simp [hname]
    · simp [hname, Tree.contents]

/-- The entries of a directory are listed in their order. -/
theorem ext4fsListFiles_plain {ino : ℤ} (hlookup : lookupPath t t.root (names path) = some ino)
    (hdir : t.type ino = .directory) {α : Type} (f : α → List UInt8 → Xstat → Bool → ℤ × α)
    (hf : ∀ a name st isDir, (f a name st isDir).1 = 0) (a : α) :
    Yields (ext4fsListFiles fs fuel steps path (some f) a) w fun r _ =>
      r = (0, passOn t.contents f ((t.entries ino).filter (·.name ≠ [])) a) := by
  apply Yields.bind (ext4fsFindFile_plain hread hwf hplain hroot path (Or.inr rfl))
  intro r w₁ hr
  rw [hlookup] at hr
  obtain ⟨dirnode, rfl, hnode⟩ := hr
  simp only [hdir, decide_true]
  have hmem := hnode.mem
  obtain ⟨n, hn, hbelongs, rfl⟩ := hnode
  obtain ⟨data, hfile, hentries, hsteps⟩ := hread.dirs n.ino hmem hdir
  obtain ⟨node, hvalid⟩ := hbelongs.opens.exists_valid
  obtain ⟨hwalk, hstop⟩ := entries_stop hfile hvalid hentries
  have hinos : ∀ e ∈ t.entries n.ino, e.name ≠ [] → InodeIs fs e.inode (t.contents e.inode) :=
    fun e he hne => hread.inodes _ (hwf.entries n.ino hmem hdir e he hne).node
  apply Yields.bind (ext4fsIterateDir_list hfile.sizes hinos hwalk hstop hsteps hn hbelongs.opens f
    hf a)
  rintro r w₂ ⟨hpassed, rfl⟩
  obtain ⟨m, hm, -⟩ := hpassed.self
  apply Yields.bind (@ext4fsFreeNode_keeps t fs states w₂ dirnode .diropen (hm ▸ rfl))
  intro _ w₃ _
  rw [listScan_contents]
  exact Yields.pure rfl

end Runs

end Eokan.PlainTrees
