import Eokan.PlainTrees

/-!
Opening and listing in a tree that may have links. A path leads to at most one
inode, and after every search the node of the root still is that of the root.
-/
namespace Eokan.TreeOpens

open ByteMem CInt Programs Device Layout Inodes DokanRead NodeHeap Directory DirectoryNodes NodeRuns
  Entries DirectoryReads DirectoryScan Resolve LinkedNames Trees TreeSearch TreeRuns PlainTrees
open Tree
open NameGraph hiding walk

/-- The inode that a path leads to from the root, over at most seven links. -/
def foundAt (t : Tree) (path : List UInt8) : Option ℤ :=
  (t.graph.withoutBare.resolve 7 t.root (names path)).map Prod.fst

/-- The regular file that a path leads to. -/
def fileAt (t : Tree) (path : List UInt8) : Option ℤ :=
  (foundAt t path).filter fun ino => t.type ino = .reg

/-- The directory that a path leads to. -/
def directoryAt (t : Tree) (path : List UInt8) : Option ℤ :=
  (foundAt t path).filter fun ino => t.type ino = .directory

section Runs
variable {t : Tree} {fs : ExtFilesystem} {fuel steps : ℕ} {states : ℤ → Ext2fsNode → Prop}
  (hread : t.Readable fs fuel steps states) (hwf : t.WellFormed) {w : World}
  (hroot : t.Stands fs states .diropen t.root w) (path : List UInt8)
include hread hwf hroot

/-- A path without an inode ends the search, or has it stray to the root. -/
theorem findFile1_found :
    Yields (ext4fsFindFile1 fs fuel steps 8 path .diropen 0) w fun r w' =>
      t.Stands fs states .diropen t.root w' ∧
      match foundAt t path with
      | none => r = none ∨ ∃ k, r = some (.diropen, some .symlink, k)
      | some ino => ∃ node type k, r = some (node, type, k) ∧
          type.getD .directory = t.type ino ∧ t.Stands fs states node ino w' := by
  refine (findFile1_follows hread hwf 8 path .diropen t.root 0 7 w (by decide) rfl hroot hwf.root.2
    hroot).mono fun r w' ⟨hkeeps, hbare, hnamed⟩ => ?_
  have hroot' := hkeeps _ _ trivial hroot
  refine ⟨hroot', ?_⟩
  unfold foundAt
  by_cases hnames : names path = []
  · rw [hnames, resolve_nil, hbare hnames]
    exact ⟨.diropen, none, 0, rfl, hwf.root.2.symm, hroot'⟩
  obtain ⟨found, rfl, hcomes, -⟩ := hnamed hnames
  cases hcomes with
  | fails hnone =>
    rw [hnone]
    exact Or.inl rfl
  | arrives hk hsome hnode =>
    rw [hsome]
    exact ⟨_, _, _, rfl, rfl, hnode⟩
  | strays hk hnone _ =>
    rw [hnone]
    exact Or.inr ⟨_, rfl⟩

theorem ext4fsFindFile_found {expecttype : FileType}
    (hexpect : expecttype = .reg ∨ expecttype = .directory) :
    Yields (ext4fsFindFile fs fuel steps path .diropen expecttype) w fun r w' =>
      t.Stands fs states .diropen t.root w' ∧
      match foundAt t path with
      | none => r = (false, none) ∨ r = (false, some .diropen)
      | some ino => ∃ node, r = (decide (t.type ino = expecttype), some node) ∧
          t.Stands fs states node ino w' := by
  have htypes : ∀ type : FileType, type ≠ expecttype → ∀ node : NodeRef,
      (if expecttype = .reg ∧ type ≠ expecttype then Pure.pure (false, some node)
        else if expecttype = .directory ∧ type ≠ expecttype then Pure.pure (false, some node)
        else Pure.pure (true, some node) : NodeM _) = Pure.pure (false, some node) := by
    intro type htype node
    rcases hexpect with hreg | hdir
    · rw [if_pos ⟨hreg, htype⟩]
    · rw [if_neg fun h => by rw [hdir] at h; exact absurd h.1 (by decide), if_pos ⟨hdir, htype⟩]
  refine Yields.bind (findFile1_found hread hwf hroot path) fun r w₁ ⟨hroot₁, hr⟩ => ?_
  cases hfound : foundAt t path with
  | none =>
    rw [hfound] at hr
    rcases hr with rfl | ⟨k, rfl⟩
    · exact Yields.pure ⟨hroot₁, Or.inl rfl⟩
    · have hlink : FileType.symlink ≠ expecttype := by
        rcases hexpect with rfl | rfl <;> decide
      dsimp only [Option.getD]
      rw [htypes .symlink hlink .diropen]
      exact Yields.pure ⟨hroot₁, Or.inr rfl⟩
  | some ino =>
    rw [hfound] at hr
    obtain ⟨node, type, k, rfl, htype, hnode⟩ := hr
    dsimp only
    rw [htype]
    by_cases hsame : t.type ino = expecttype
    · rw [if_neg fun h => h.2 hsame, if_neg fun h => h.2 hsame]
      exact Yields.pure ⟨hroot₁, node, by rw [decide_eq_true hsame], hnode⟩
    · rw [htypes (t.type ino) hsame node]
      exact Yields.pure ⟨hroot₁, node, by rw [decide_eq_false hsame], hnode⟩

omit hread hwf in
/-- Giving up leaves the root where it is. -/
theorem openFail_found {fdiro : Option NodeRef} (hlive : ∀ node, fdiro = some node →
    (w.get node).isSome) :
    Yields (openFail fdiro) w fun r w' => t.Stands fs states .diropen t.root w' ∧ r = none := by
  cases fdiro with
  | none => exact Yields.pure ⟨hroot, rfl⟩
  | some node =>
    refine Yields.bind (@ext4fsFreeNode_keeps t fs states w node .diropen (hlive node rfl))
      fun _ w₁ hkept => ?_
    exact Yields.pure ⟨hkept _ _ (Or.inr (Or.inl rfl)) hroot, rfl⟩

/-- A regular file is opened with its inode read, and nothing else is. -/
theorem ext4fsOpen_found :
    Yields (ext4fsOpen fs fuel steps path) w fun r w' =>
      t.Stands fs states .diropen t.root w' ∧
      match fileAt t path with
      | none => r = none
      | some ino => ino ∈ t.nodes ∧ t.type ino = .reg ∧
          ∃ node n, r = some node ∧ w'.get node = some n ∧ states ino n := by
  refine Yields.bind (ext4fsFindFile_found hread hwf hroot path (Or.inl rfl))
    fun r w₁ ⟨hroot₁, hr⟩ => ?_
  unfold fileAt
  cases hfound : foundAt t path with
  | none =>
    rw [hfound] at hr
    rcases hr with rfl | rfl
    · exact openFail_found hroot₁ (by simp)
    · refine openFail_found hroot₁ fun node hnode => ?_
      cases hnode
      rfl
  | some ino =>
    rw [hfound] at hr
    obtain ⟨node, rfl, hnode⟩ := hr
    by_cases htype : t.type ino = .reg
    · simp only [htype, decide_true, Option.filter_some, if_true]
      have hmem := hnode.mem
      obtain ⟨n, hn, hbelongs, rfl⟩ := id hnode
      refine Yields.bind (needInode_openable hn hbelongs.opens) fun read w₂ ⟨hread₂, hpassed⟩ => ?_
      subst hread₂
      obtain ⟨m, hm, hstate⟩ := hpassed.self
      exact Yields.pure ⟨Passed.keeps hread hpassed hnode _ _ trivial hroot₁, hmem, trivial, node,
        m, rfl, hm, hstate⟩
    · simp only [htype, decide_false, Option.filter_some, Bool.false_eq_true, if_false]
      refine openFail_found hroot₁ fun node' hnode' => ?_
      cases hnode'
      exact hnode.isSome

/-- The entries of a directory are listed in their order, and nothing else is listed. -/
theorem ext4fsListFiles_found {α : Type} (f : α → List UInt8 → Xstat → Bool → ℤ × α)
    (hf : ∀ a name st isDir, (f a name st isDir).1 = 0) (a : α) :
    Yields (ext4fsListFiles fs fuel steps path (some f) a) w fun r w' =>
      t.Stands fs states .diropen t.root w' ∧
      r.2 = match directoryAt t path with
        | none => a
        | some ino => passOn t.contents f ((t.entries ino).filter (·.name ≠ [])) a := by
  refine Yields.bind (ext4fsFindFile_found hread hwf hroot path (Or.inr rfl))
    fun r w₁ ⟨hroot₁, hr⟩ => ?_
  unfold directoryAt
  cases hfound : foundAt t path with
  | none =>
    rw [hfound] at hr
    rcases hr with rfl | rfl
    · exact Yields.pure ⟨hroot₁, rfl⟩
    · exact Yields.pure ⟨hroot₁, rfl⟩
  | some ino =>
    rw [hfound] at hr
    obtain ⟨dirnode, rfl, hnode⟩ := hr
    by_cases htype : t.type ino = .directory
    · simp only [htype, decide_true, Option.filter_some, if_true]
      have hmem := hnode.mem
      have hstands := hnode
      obtain ⟨n, hn, hbelongs, rfl⟩ := hnode
      obtain ⟨data, hfile, hentries, hsteps⟩ := hread.dirs n.ino hmem htype
      obtain ⟨node, hvalid⟩ := hbelongs.opens.exists_valid
      obtain ⟨hwalk, hstop⟩ := entries_stop hfile hvalid hentries
      have hinos : ∀ e ∈ t.entries n.ino, e.name ≠ [] →
          InodeIs fs e.inode (t.contents e.inode) :=
        fun e he hne => hread.inodes _ (hwf.entries n.ino hmem htype e he hne).node
      refine Yields.bind (ext4fsIterateDir_list hfile.sizes hinos hwalk hstop hsteps hn
        hbelongs.opens f hf a) fun r w₂ ⟨hpassed, hlisted⟩ => ?_
      subst hlisted
      have hroot₂ := Passed.keeps hread hpassed hstands _ _ trivial hroot₁
      obtain ⟨m, hm, -⟩ := hpassed.self
      refine Yields.bind (@ext4fsFreeNode_keeps t fs states w₂ dirnode .diropen (hm ▸ rfl))
        fun _ w₃ hkept => ?_
      rw [listScan_contents]
      exact Yields.pure ⟨hkept _ _ (Or.inr (Or.inl rfl)) hroot₂, rfl⟩
    · simp only [htype, decide_false, Option.filter_some, Bool.false_eq_true, if_false]
      exact Yields.pure ⟨hroot₁, rfl⟩

end Runs

end Eokan.TreeOpens
