import Eokan.TreeRuns
import Eokan.TreesOnDisk

/-!
The search from the root against the graph of the tree. They agree but for paths
that need a link whose target is nothing but slashes.
-/
namespace Eokan.Agreement

open ByteMem CInt Programs Device Layout InodeReads Mount FileContent NodeHeap Directory NodeRuns
  Entries Resolve LinkedNames Trees TreesOnDisk TreeSearch TreeRuns
open NameGraph hiding walk

section Search
variable {t : Tree} {fs : ExtFilesystem} {fuel steps : ℕ} {states : ℤ → Ext2fsNode → Prop}
  (hread : t.Readable fs fuel steps states) (hwf : t.WellFormed)

/-- The search and the graph of the tree agree: both fail, or both lead to the
same inode, with the type that it has. -/
def Agrees (t : Tree) (path : List UInt8) (r : Option Found) (w : World) : Prop :=
  match t.graph.resolve 7 t.root (names path), r with
  | none, none => True
  | some (ino, _), some (node, type, _) =>
    (∃ n, w.get node = some n ∧ n.ino = ino) ∧ type.getD .directory = t.type ino
  | _, _ => False

include hread hwf

theorem findFile1_judged {w : World} (hroot : t.Stands fs states .diropen t.root w)
    (path : List UInt8) :
    Yields (ext4fsFindFile1 fs fuel steps 8 path .diropen 0) w fun r w' =>
      Agrees t path r w' ↔ (t.graph.resolve 7 t.root (names path) = none ∨
        (t.graph.withoutBare.resolve 7 t.root (names path)).isSome) := by
  refine (findFile1_follows hread hwf 8 path .diropen t.root 0 7 w (by decide) rfl hroot hwf.root.2
    hroot).mono ?_
  rintro r w' ⟨hkeeps, hbare, hnamed⟩
  unfold Agrees
  by_cases hnames : names path = []
  · obtain ⟨n, hn, -, hino⟩ := hkeeps _ _ trivial hroot
    rw [hbare hnames, hnames, resolve_nil, resolve_nil]
    exact iff_of_true ⟨⟨n, hn, hino⟩, hwf.root.2.symm⟩ (Or.inr rfl)
  obtain ⟨found, rfl, hcomes, -⟩ := hnamed hnames
  cases hcomes with
  | fails hnone =>
    rw [hnone]
    cases t.graph.resolve 7 t.root (names path) with
    | none => exact iff_of_true trivial (Or.inl rfl)
    | some p => exact iff_of_false (fun h => h) (by simp)
  | arrives hk hsome hnode =>
    obtain ⟨n, hn, -, hino⟩ := hnode
    rw [hsome, resolve_of_withoutBare hsome]
    exact iff_of_true ⟨⟨n, hn, hino⟩, rfl⟩ (Or.inr rfl)
  | strays hk hnone hstray =>
    rw [hnone, hstray]
    refine iff_of_false (fun h => ?_) (by simp)
    have htype : FileType.symlink = t.type t.root := h.2
    rw [hwf.root.2] at htype
    cases htype

/-- They agree if the path leads nowhere, or somewhere without links that have
nothing but slashes as targets. -/
theorem ext4fsFindFile1_agrees_iff {w : World} (hroot : t.Stands fs states .diropen t.root w)
    (path : List UInt8) :
    Yields (ext4fsFindFile1 fs fuel steps 8 path .diropen 0) w (Agrees t path) ↔
      (t.graph.resolve 7 t.root (names path) = none ∨
        (t.graph.withoutBare.resolve 7 t.root (names path)).isSome) :=
  (findFile1_judged hread hwf hroot path).iff_of

end Search

/-- A root with a link l, the target of which is a slash, and a file f. -/
def slashImage : Bytes := fun b =>
  match b with
  | 1044 => 1
  | 1064 => 8
  | 1080 => 0x53
  | 1081 => 0xef
  | 2056 => 3
  | 3201 => 0x41
  | 3205 => 4
  | 3240 => 4
  | 3329 => 0xa1
  | 3332 => 1
  | 3368 => 0x2f
  | 3457 => 0x81
  | 4096 => 3
  | 4100 => 12
  | 4102 => 1
  | 4103 => 7
  | 4104 => 0x6c
  | 4108 => 4
  | 4112 => 0xf4
  | 4113 => 3
  | 4114 => 1
  | 4115 => 1
  | 4116 => 0x66
  | _ => 0

def slashPart : PartDescr := ⟨DiskDescr.ofImage slashImage, 0, 16⟩

def slashEntries : List Entry := [⟨3, 12, 7, [0x6c]⟩, ⟨4, 1012, 1, [0x66]⟩]

def slashTree (fs : ExtFilesystem) : Tree := flatTree fs slashEntries

def SlashMount (fs : ExtFilesystem) (_ : Ext2fsNode) (_ : Log) : Prop :=
  FlatRoot fs (slashTree fs) slashEntries ∧
  (slashTree fs).graph.resolve 7 2 [[0x6c]] = some (2, 6) ∧
  (slashTree fs).graph.withoutBare.resolve 7 2 [[0x6c]] = none

instance (fs : ExtFilesystem) (root : Ext2fsNode) (log : Log) :
    Decidable (SlashMount fs root log) := by
  unfold SlashMount
  infer_instance

theorem slashPart_mounts :
    ∃ fs root log, ext4fsMount (fun _ => 0) slashPart [] = .ok (some (fs, root), log) ∧
      SlashMount fs root log := by
  apply mount_of_check
  decide +kernel

/-- The path l leads to the root, by that link alone. -/
theorem ext4fsFindFile1_agrees_iff_slash :
    ∃ fs root log, ext4fsMount (fun _ => 0) slashPart [] = .ok (some (fs, root), log) ∧
      (Yields (ext4fsFindFile1 fs 1 3 8 [0x6c] .diropen 0) (World.mounted root log)
          (Agrees (slashTree fs) [0x6c]) ↔
        ((slashTree fs).graph.resolve 7 2 (names [0x6c]) = none ∨
          ((slashTree fs).graph.withoutBare.resolve 7 2 (names [0x6c])).isSome)) := by
  obtain ⟨fs, root, log, hmount, hslash⟩ := slashPart_mounts
  have hread := flatTree_readable hslash.1 (ext4fsMount_mounted _ _ _ _ _ _ hmount) 1
    (by decide : 2 < 3)
  exact ⟨fs, root, log, hmount, ext4fsFindFile1_agrees_iff hread (flatTree_wellFormed hslash.1)
    (stands_mounted hread rfl (Or.inl rfl) hmount) [0x6c]⟩

/-- There the search gives the root the type of a link. -/
theorem slash_link_disagrees :
    ∃ fs root log, ext4fsMount (fun _ => 0) slashPart [] = .ok (some (fs, root), log) ∧
      ((slashTree fs).WellFormed ∧ (slashTree fs).Readable fs 1 3 (NodeOf (slashTree fs)) ∧
        (slashTree fs).Stands fs (NodeOf (slashTree fs)) .diropen 2 (World.mounted root log)) ∧
      ¬ Yields (ext4fsFindFile1 fs 1 3 8 [0x6c] .diropen 0) (World.mounted root log)
        (Agrees (slashTree fs) [0x6c]) := by
  obtain ⟨fs, root, log, hmount, hslash⟩ := slashPart_mounts
  obtain ⟨hflat, hwith, hwithout⟩ := hslash
  have hwf : (slashTree fs).WellFormed := flatTree_wellFormed hflat
  have hread : (slashTree fs).Readable fs 1 3 (NodeOf (slashTree fs)) :=
    flatTree_readable hflat (ext4fsMount_mounted _ _ _ _ _ _ hmount) 1 (by decide : 2 < 3)
  have hstands := stands_mounted hread rfl (Or.inl rfl) hmount
  refine ⟨fs, root, log, hmount, ⟨hwf, hread, hstands⟩, fun hagrees => ?_⟩
  have hnames : names [0x6c] = [[0x6c]] := by decide
  have hcond := (findFile1_judged hread hwf hstands [0x6c]).iff_of.mp hagrees
  have hroot : (slashTree fs).root = 2 := rfl
  rw [hnames, hroot, hwith, hwithout] at hcond
  rcases hcond with hnone | hsome
  · cases hnone
  · cases hsome

end Eokan.Agreement
