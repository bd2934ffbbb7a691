import Eokan.DevreadOutcome
import Eokan.DokanRead
import Eokan.ErrorFree
import Eokan.NodeRuns
import Eokan.Resolve
import Mathlib.Data.List.TakeWhile

/-!
Reading the target of a symbolic link from a device whose reads may fail. The
status of the read of a long target is compared with 0, which is not the status
of a failed read.
-/
namespace Eokan.SymlinkReads

open ByteMem CInt Programs Device Devread DevreadOutcome Layout BlockMap IndirectCache Inodes
  ReadFile ReadPlan FileMaps FileContent DokanRead NodeHeap Directory NodeRuns Resolve ErrorFree

/-- A string without a zero is read back exactly when its bytes are there. -/
theorem cString_eq_iff {buf : Bytes} {target : List UInt8} (hnul : 0 ∉ target) :
    cString buf target.length = target ↔ ∀ i (h : i < target.length), buf i = target[i] := by
  have hlen : ((List.range target.length).map buf).length = target.length := by simp
  constructor
  · intro heq i hi
    have hstarts : target <+: (List.range target.length).map buf := by
      have h := List.takeWhile_prefix (fun b : UInt8 => decide (b ≠ 0))
        (l := (List.range target.length).map buf)
      rwa [show List.takeWhile _ _ = target from heq] at h
    have hall := hstarts.eq_of_length hlen.symm
    have hget := List.getElem_map (f := buf) (l := List.range target.length) (i := i)
      (h := by simpa using hi)
    rw [List.getElem_range] at hget
    rw [← hget]
    exact List.getElem_of_eq hall.symm _
  · intro hbuf
    unfold cString
    rw [map_range_eq hbuf, takeWhile_nul hnul]

section Runs
variable {fs : ExtFilesystem} {fuel : ℕ} {w : World} {ref : NodeRef} {node : Ext2fsNode}
  (hnode : w.get ref = some node)
include hnode

theorem needInode_read (hread : node.inodeRead = true) : needInode fs ref w = .ok (true, w) := by
  unfold needInode
  rw [bind_ok (deref_run hnode), if_pos hread]
  rfl

theorem needInode_run (hread : node.inodeRead = false) {status : ℤ} {inode : Ext2Inode} {log : Log}
    (h : ext4fsReadInode fs node.ino node.inode w.log = .ok ((status, inode), log)) :
    needInode fs ref w =
      .ok (decide (status ≠ 0), (w.withLog log).set ref { node with inode }) := by
  unfold needInode
  rw [bind_ok (deref_run hnode), if_neg (by simp [hread]), bind_ok (loadInode_run hnode h)]
  rfl

theorem needInode_fails (hread : node.inodeRead = false) {e : Fault}
    (h : ext4fsReadInode fs node.ino node.inode w.log = .error e) :
    needInode fs ref w = .error e := by
  unfold needInode
  rw [bind_ok (deref_run hnode), if_neg (by simp [hread])]
  unfold loadInode
  apply bind_error
  rw [bind_ok (deref_run hnode), bind_error (device_fails h)]

theorem readFileAt_fails {pos len : ℤ} {buf : Bytes} {e : Fault}
    (h : ext4fsReadFile fs fuel node pos len buf w.log = .error e) :
    readFileAt fs fuel ref pos len buf w = .error e := by
  unfold readFileAt
  rw [bind_ok (deref_run hnode), bind_error (device_fails h)]

end Runs

section Targets
variable {fs : ExtFilesystem} {fuel : ℕ} {w w₁ : World} {ref : NodeRef} {node : Ext2fsNode}
  (hneed : needInode fs ref w = .ok (true, w₁)) (hnode : w₁.get ref = some node)
include hneed hnode

/-- With the inode at hand its size decides where the target is. -/
theorem symlink_run : ext4fsReadSymlink fs fuel ref w =
    (if uint32 (node.inode.size + 1 : ℕ) = 0 then fault .outOfBounds
      else if node.inode.size ≤ 60 then pure (some (cString node.inode.b node.inode.size))
      else do
        let (status, symlink) ← readFileAt fs fuel ref 0 node.inode.size
          (zalloc fs (node.inode.size + 1))
        if status = 0 then pure none else pure (some (cString symlink node.inode.size)) :
      NodeM (Option (List UInt8))) w₁ := by
  unfold ext4fsReadSymlink
  rw [bind_ok hneed, if_neg (by simp), bind_ok (deref_run hnode)]

theorem symlink_short (hsize : node.inode.size ≤ 60) : ext4fsReadSymlink fs fuel ref w =
    .ok (some (cString node.inode.b node.inode.size), w₁) := by
  have hfits : uint32 ((node.inode.size + 1 : ℕ) : ℤ) ≠ 0 := by
    rw [uint32_of_range _ (by omega) (by omega)]
    omega
  rw [symlink_run hneed hnode, if_neg hfits, if_pos hsize]
  rfl

/-- The length of the range is never 0, so its read is taken for a success. -/
theorem symlink_long (hsize : 61 ≤ node.inode.size)
    (hfits : uint32 ((node.inode.size + 1 : ℕ) : ℤ) ≠ 0) {status : ℤ} {node' : Ext2fsNode}
    {buf : Bytes} {log : Log}
    (h : ext4fsReadFile fs fuel node 0 node.inode.size (zalloc fs (node.inode.size + 1)) w₁.log =
      .ok ((status, node', buf), log)) : ext4fsReadSymlink fs fuel ref w =
    .ok (some (cString buf node.inode.size), (w₁.withLog log).set ref node') := by
  have hlt : node.inode.size < 2 ^ 32 := le32_lt node.inode.raw 4
  have hstatus : status ≠ 0 := by
    have hresult := ext4fsReadFile_result h
    rw [clampLength_eq, Nat.min_self] at hresult
    rcases hresult with hlen | hfail
    · have hcount : status = int32 node.inode.size := hlen
      have hwrap := uint32_eq_iff (node.inode.size : ℤ) 0
      rw [uint32_of_range _ (by omega) (by omega), uint32_zero, int32_zero] at hwrap
      rw [hcount]
      exact fun hzero => absurd (hwrap.mpr hzero) (by omega)
    · have hcount : status = -1 := hfail
      omega
  rw [symlink_run hneed hnode, if_neg hfits, if_neg (by omega), bind_ok (readFileAt_run hnode h)]
  dsimp only
  rw [if_neg hstatus]
  rfl

/-- Once there is an inode, a target is returned unless the run does not return. -/
theorem symlink_returns {r : Option (List UInt8)} {w' : World}
    (h : ext4fsReadSymlink fs fuel ref w = .ok (r, w')) :
    ∃ target, r = some target ∧ w₁.log <:+ w'.log ∧
      (61 ≤ node.inode.size → ∃ res, ext4fsReadFile fs fuel node 0 node.inode.size
        (zalloc fs (node.inode.size + 1)) w₁.log = .ok (res, w'.log)) := by
  rcases Nat.lt_or_ge 60 node.inode.size with hlong | hshort
  · have hrun := @symlink_run fs fuel w w₁ ref node hneed hnode
    by_cases hfits : uint32 ((node.inode.size + 1 : ℕ) : ℤ) = 0
    · rw [hrun, if_pos hfits] at h
      cases h
    · cases hread : ext4fsReadFile fs fuel node 0 node.inode.size
          (zalloc fs (node.inode.size + 1)) w₁.log with
      | error e =>
        rw [hrun, if_neg hfits, if_neg (by omega), bind_error (readFileAt_fails hnode hread)] at h
        cases h
      | ok res =>
        obtain ⟨⟨status, node', buf⟩, log⟩ := res
        rw [symlink_long hneed hnode hlong hfits hread] at h
        cases h
        rw [log_set]
        exact ⟨_, rfl, (ext4fsReadFile_twin fs fuel node 0 _ _).grows _ _ _ hread,
          fun _ => ⟨_, rfl⟩⟩
  · rw [symlink_short hneed hnode hshort] at h
    cases h
    exact ⟨_, rfl, List.suffix_refl _, fun hlong => absurd hlong (by omega)⟩

end Targets

/-- A target of up to 59 bytes is in the inode, a longer one in the blocks. -/
structure LinkTarget (fs : ExtFilesystem) (fuel : ℕ) (node : Ext2fsNode) (target : List UInt8) :
    Prop where
  nonzero : 0 ∉ target
  length : target.length = node.inode.size
  short : node.inode.size ≤ 59 → ∀ i (h : i < target.length), node.inode.b i = target[i]
  long : 60 ≤ node.inode.size → ∃ count map valid,
    RegularFile fs fuel count map node.inode valid ∧ valid node ∧
      node.inode.size ≤ count * ext2BlockSize fs ∧
      ∀ i (h : i < target.length), fileByte fs map i = target[i]

/-- The inode of a node, after it is read without an error if that is needed. -/
def InodeLeft (fs : ExtFilesystem) (node : Ext2fsNode) (log : Log) (inode : Ext2Inode)
    (log' : Log) : Prop :=
  if node.inodeRead then inode = node.inode ∧ log' = log
  else ext4fsReadInode (errorFree fs) node.ino node.inode log = .ok ((1, inode), log')

/-- The result is the target or none, and none after a failed read. -/
def ReadsTarget (fs : ExtFilesystem) (fuel : ℕ) (ref : NodeRef) (w : World)
    (target : List UInt8) : Prop :=
  Yields (ext4fsReadSymlink fs fuel ref) w fun r w' => (r = some target ∨ r = none) ∧
    (¬ Clean fs.devDesc.disk w.log w'.log → r = none)

/-- No read of the blocks of the target fails. -/
def BlocksRead (fs : ExtFilesystem) (fuel : ℕ) (node : Ext2fsNode) (log : Log) : Prop :=
  Yields (ext4fsReadFile (errorFree fs) fuel node 0 node.inode.size
    (zalloc fs (node.inode.size + 1))) log fun _ log' => Clean fs.devDesc.disk log log'

section Exact
variable {fs : ExtFilesystem} {fuel : ℕ} {w w₁ : World} {ref : NodeRef} {node : Ext2fsNode}

/-- Without a failure the node is as it would be without read errors. -/
theorem needInode_left (hnode : w.get ref = some node) {inode : Ext2Inode} {log : Log}
    (hleft : InodeLeft fs node w.log inode log) (hclean : Clean fs.devDesc.disk w.log log) :
    ∃ w₁ node₁, needInode fs ref w = .ok (true, w₁) ∧ w₁.get ref = some node₁ ∧ w₁.log = log ∧
      node₁ = { node with inode } := by
  unfold InodeLeft at hleft
  split at hleft
  · rename_i hread
    obtain ⟨rfl, rfl⟩ := hleft
    exact ⟨w, node, needInode_read hnode hread, hnode, rfl, rfl⟩
  · rename_i hread
    have hrun := ((ext4fsReadInode_twin fs node.ino node.inode).agrees _ _ _ hclean).mpr hleft
    have hsome : ((w.withLog log).get ref).isSome := by
      rw [get_withLog, hnode]
      rfl
    refine ⟨_, _, needInode_run hnode (Bool.eq_false_iff.mpr hread) hrun,
      get_set_self _ ref _ hsome, ?_, rfl⟩
    rw [log_set]
    rfl

theorem not_unreadable {inode : Ext2Inode} {log : Log} (hread : node.inodeRead = false)
    (hleft : InodeLeft fs node w.log inode log) (hclean : Clean fs.devDesc.disk w.log log) :
    ¬ ∃ inode' log', ext4fsReadInode fs node.ino node.inode w.log = .ok ((0, inode'), log') := by
  rintro ⟨inode', log', hinode⟩
  unfold InodeLeft at hleft
  rw [hread] at hleft
  have hrun := ((ext4fsReadInode_twin fs node.ino node.inode).agrees _ _ _ hclean).mpr hleft
  cases hrun.symm.trans hinode

/-- After a failed read of the inode the result is none only if that was noticed. -/
theorem readsTarget_failed (hnode : w.get ref = some node) (hread : node.inodeRead = false)
    {inode : Ext2Inode} {log : Log}
    (hleft : ext4fsReadInode (errorFree fs) node.ino node.inode w.log = .ok ((1, inode), log))
    (hfail : ¬ Clean fs.devDesc.disk w.log log) (target : List UInt8) :
    ReadsTarget fs fuel ref w target ↔
      ∃ inode' log', ext4fsReadInode fs node.ino node.inode w.log = .ok ((0, inode'), log') := by
  have htwin := ext4fsReadInode_twin fs node.ino node.inode
  constructor
  · rintro ⟨r, w', hrun, -, hnone⟩
    cases hinode : ext4fsReadInode fs node.ino node.inode w.log with
    | error e =>
      unfold ext4fsReadSymlink at hrun
      rw [bind_error (needInode_fails hnode hread hinode)] at hrun
      cases hrun
    | ok res =>
      obtain ⟨⟨status, inode'⟩, log'⟩ := res
      by_cases hstatus : status = 0
      · subst hstatus
        exact ⟨inode', log', rfl⟩
      · exfalso
        have hdirty : ¬ Clean fs.devDesc.disk w.log log' := by
          intro hclean
          cases ((htwin.agrees _ _ _ hclean).mp hinode).symm.trans hleft
          exact hfail hclean
        have hneed := needInode_run hnode hread hinode
        rw [decide_eq_true hstatus] at hneed
        have hsome : ((w.withLog log').get ref).isSome := by
          rw [get_withLog, hnode]
          rfl
        obtain ⟨t, rfl, hgrown, -⟩ := symlink_returns hneed (get_set_self _ ref _ hsome) hrun
        rw [log_set] at hgrown
        have hclean : Clean fs.devDesc.disk w.log w'.log := by
          by_contra hdirty'
          exact nomatch hnone hdirty'
        exact hdirty (hclean.split (htwin.grows _ _ _ hinode) hgrown).1
  · rintro ⟨inode', log', hinode⟩
    have hneed := needInode_run hnode hread hinode
    have hrun : ext4fsReadSymlink fs fuel ref w =
        .ok (none, (w.withLog log').set ref { node with inode := inode' }) := by
      unfold ext4fsReadSymlink
      rw [bind_ok hneed]
      rfl
    exact ⟨none, _, hrun, Or.inr rfl, fun _ => rfl⟩

end Exact

section Exact
variable (fs : ExtFilesystem) (hpart : fs.devDesc.off + fs.devDesc.length < 2 ^ 63)
  (hlog : fs.sblock.log2BlockSize ≤ 20) (fuel : ℕ)
include hpart hlog

/-- A read of the blocks that does not fail delivers a long target. -/
theorem readFile_target (node : Ext2fsNode) (hmax : node.inode.size < 2 ^ 31 - 65536)
    (hlong : 60 ≤ node.inode.size) (target : List UInt8)
    (htarget : LinkTarget (errorFree fs) fuel node target) (buf : Bytes) (log : Log) :
    Yields (ext4fsReadFile (errorFree fs) fuel node 0 node.inode.size buf) log fun r _ =>
      cString r.2.2 node.inode.size = target := by
  obtain ⟨count, map, valid, hfile, hvalid, hcount, hbytes⟩ := htarget.long hlong
  have hclamp : clampLength node node.inode.size = node.inode.size := if_neg (by omega)
  refine (ext4fsReadFile_content (errorFree fs) (noErrors_ofImage _) hpart hlog fuel count map valid
    hfile.realizes hfile.inPartition hfile.noRepeat node hvalid 0 node.inode.size (by omega)
    (endBlock_le (errorFree fs) count 0 _ (by omega)) _ hclamp buf log).mono ?_
  rintro r log' ⟨-, -, hread⟩
  rw [← htarget.length]
  refine (cString_eq_iff htarget.nonzero).mpr fun i hi => ?_
  rw [hread i (htarget.length ▸ hi), Nat.zero_add, hbytes i hi]

/-- Reading a link of any size from a device with any failures: exactly when it
gives the target, or none if anything failed. -/
theorem ext4fsReadSymlink_exact_iff (w : World) (ref : NodeRef) (node : Ext2fsNode)
    (hnode : w.get ref = some node) (inode : Ext2Inode) (log : Log)
    (hleft : InodeLeft fs node w.log inode log) (hmax : inode.size < 2 ^ 31 - 65536)
    (target : List UInt8) (htarget : LinkTarget (errorFree fs) fuel { node with inode } target) :
    ReadsTarget fs fuel ref w target ↔
      (node.inodeRead = false ∧
        ∃ inode' log', ext4fsReadInode fs node.ino node.inode w.log = .ok ((0, inode'), log')) ∨
      (Clean fs.devDesc.disk w.log log ∧
        (inode.size ≤ 59 ∨
          (inode.size = 60 ∧ ∀ i (h : i < target.length), inode.b i = target[i]) ∨
          (61 ≤ inode.size ∧ BlocksRead fs fuel { node with inode } log))) := by
  by_cases hclean : Clean fs.devDesc.disk w.log log
  · obtain ⟨w₁, node₁, hneed, hnode₁, rfl, rfl⟩ := needInode_left hnode hleft hclean
    have htwin := ext4fsReadFile_twin fs fuel { node with inode } 0 inode.size
      (zalloc fs (inode.size + 1))
    constructor
    · rintro ⟨r, w', hrun, hexact, hnone⟩
      refine Or.inr ⟨hclean, ?_⟩
      obtain ⟨t, rfl, hgrown, hread⟩ := symlink_returns hneed hnode₁ hrun
      have hclean' : Clean fs.devDesc.disk w.log w'.log := by
        by_contra hdirty
        exact nomatch hnone hdirty
      rcases Nat.lt_or_ge 60 inode.size with hlong | hshort
      · obtain ⟨res, hres⟩ := hread hlong
        have hrest := (hclean'.split hclean.grown hgrown).2
        exact Or.inr (Or.inr ⟨hlong, res, w'.log, (htwin.agrees _ _ _ hrest).mp hres, hrest⟩)
      · rw [symlink_short hneed hnode₁ hshort] at hrun
        cases hrun
        have hstring : cString inode.b inode.size = target := by
          rcases hexact with heq | heq
          · exact Option.some.inj heq
          · exact nomatch heq
        rw [show inode.size = target.length from htarget.length.symm] at hstring
        have hbytes := (cString_eq_iff htarget.nonzero).mp hstring
        by_cases h60 : inode.size = 60
        · exact Or.inr (Or.inl ⟨h60, hbytes⟩)
        · exact Or.inl (by omega)
    · intro hcond
      have hshort : inode.size ≤ 60 → (∀ i (h : i < target.length), inode.b i = target[i]) →
          ReadsTarget fs fuel ref w target := by
        intro hsize hbytes
        have hstring := (cString_eq_iff htarget.nonzero).mpr hbytes
        rw [show target.length = inode.size from htarget.length] at hstring
        refine ⟨_, w₁, symlink_short hneed hnode₁ hsize, Or.inl (congrArg some hstring), ?_⟩
        exact fun hdirty => absurd hclean hdirty
      rcases hcond with ⟨hread, hinode⟩ | ⟨-, h59 | ⟨h60, hbytes⟩ | ⟨hlong, hblocks⟩⟩
      · exact absurd hinode (not_unreadable hread hleft hclean)
      · exact hshort (by omega) (htarget.short h59)
      · exact hshort (by omega) hbytes
      · obtain ⟨⟨status, node', buf⟩, log₂, hread, hrest⟩ := hblocks
        have hrun := (htwin.agrees _ _ _ hrest).mpr hread
        have hfits : uint32 ((inode.size + 1 : ℕ) : ℤ) ≠ 0 := by
          rw [uint32_of_range _ (by omega) (by omega)]
          omega
        have hstring := (readFile_target fs hpart hlog fuel { node with inode } hmax
          (show 60 ≤ inode.size by omega) target htarget _ _).of_ok hread
        refine ⟨_, _, symlink_long hneed hnode₁ hlong hfits hrun, Or.inl (congrArg some hstring),
          ?_⟩
        rw [log_set]
        exact fun hdirty => absurd (hclean.trans hrest) hdirty
  · have hunread : node.inodeRead = false := by
      by_contra hread
      unfold InodeLeft at hleft
      rw [if_pos (Bool.eq_true_of_not_eq_false hread)] at hleft
      exact hclean (hleft.2 ▸ Clean.refl _)
    unfold InodeLeft at hleft
    rw [hunread] at hleft
    rw [readsTarget_failed hnode hunread hleft hclean target]
    constructor
    · exact fun h => Or.inl ⟨hunread, h⟩
    · rintro (⟨-, h⟩ | ⟨h, -⟩)
      · exact h
      · exact absurd h hclean

end Exact

/-- An inode of this size with these bytes in its block area. -/
def linkInode (size : ℕ) (b : Bytes) : Ext2Inode :=
  ⟨fun j => if 40 ≤ j then b (j - 40) else if 4 ≤ j ∧ j < 8 then byteLe size (j - 4) else 0⟩

/-- The one block of a link. -/
def onlyBlock (block : ℕ) : Bytes := fun i => if i = 0 then UInt8.ofNat block else 0

/-- A disk full of the letter a, of which sector 6 cannot be read. -/
def brokenFs : ExtFilesystem :=
  { smallFs fun _ => 97 with devDesc := ⟨oneBadSector (fun _ => 97) 6, 0, 16⟩ }

section Links
variable (size : ℕ) (b : Bytes)

theorem linkInode_size (hsize : size < 2 ^ 32) : (linkInode size b).size = size := by
  refine le32_byteLe hsize fun j hj => ?_
  unfold linkInode
  dsimp only
  rw [if_neg (by omega), if_pos (by omega), Nat.add_sub_cancel_left]

theorem linkInode_b : (linkInode size b).b = b := by
  funext i
  change (if 40 ≤ 40 + i then b (40 + i - 40) else _) = b i
  rw [if_pos (by omega), Nat.add_sub_cancel_left]

theorem linkInode_extents : (linkInode size b).extents = false := by
  have hflags : (linkInode size b).flags = 0 := by
    unfold Ext2Inode.flags le32 le16 linkInode
    simp
  unfold Ext2Inode.extents
  rw [hflags]
  rfl

end Links

theorem brokenFs_target (block size : ℕ) (hblock : block = 3 ∨ block = 4) (hlong : 60 ≤ size)
    (hmax : size ≤ 1024) :
    LinkTarget (errorFree brokenFs) 0 (freshNode (linkInode size (onlyBlock block)))
      (List.replicate size 97) := by
  have hsize := linkInode_size size (onlyBlock block) (by omega)
  have hpointer : (linkInode size (onlyBlock block)).dirBlock 0 = block := by
    unfold Ext2Inode.dirBlock
    rw [linkInode_b]
    rcases hblock with rfl | rfl
    · decide +kernel
    · decide +kernel
  have hreal := realizes_direct (errorFree brokenFs) (by decide) 0
    (linkInode size (onlyBlock block)) (linkInode_extents size (onlyBlock block))
  have hone := realizes_mono hreal (show 1 ≤ 12 by decide)
  refine ⟨?_, ?_, fun h => ?_, fun _ => ⟨1, _, _, ⟨hone, ?_, ?_, ?_⟩, rfl, ?_, ?_⟩⟩
  · simp
  · rw [List.length_replicate]
    exact hsize.symm
  · change (linkInode size (onlyBlock block)).size ≤ 59 at h
    omega
  · exact fun node hnode => hnode
  · intro i hi
    obtain rfl : i = 0 := by omega
    dsimp only
    rw [hpointer]
    rcases hblock with rfl | rfl
    · decide +kernel
    · decide +kernel
  · exact fun i hi => absurd hi (by omega)
  · change (linkInode size (onlyBlock block)).size ≤ _
    rw [hsize]
    exact hmax
  · intro i hi
    have hfirst : i / ext2BlockSize (errorFree brokenFs) = 0 := by
      rw [List.length_replicate] at hi
      exact Nat.div_eq_of_lt (show i < 1024 by omega)
    rw [List.getElem_replicate]
    unfold fileByte
    have hmapped : int32 ((linkInode size (onlyBlock block)).dirBlock 0 : ℤ) ≠ 0 := by
      rw [hpointer]
      rcases hblock with rfl | rfl
      · decide +kernel
      · decide +kernel
    have hbytes : ∀ q, (errorFree brokenFs).devDesc.bytes q = 97 := fun _ => rfl
    rw [hfirst, hbytes]
    exact if_neg hmapped

/-- A target of 61 bytes in block 4, which can be read. -/
theorem ext4fsReadSymlink_exact_iff_long :
    ReadsTarget brokenFs 0 .diropen
      (World.mounted (freshNode (linkInode 61 (onlyBlock 4))) []) (List.replicate 61 97) := by
  have hread : (match ext4fsReadFile (errorFree brokenFs) 0
      (freshNode (linkInode 61 (onlyBlock 4))) 0 61 (zalloc (errorFree brokenFs) 62) [] with
      | .ok (_, log) => decide (log = [⟨8, 1⟩])
      | .error _ => false) = true := by
    decide +kernel
  have hblocks : BlocksRead brokenFs 0 (freshNode (linkInode 61 (onlyBlock 4))) [] := by
    split at hread
    · rename_i res log hrun
      obtain rfl := of_decide_eq_true hread
      refine ⟨res, _, hrun, List.suffix_cons _ _, fun request before hbefore _ => ?_⟩
      obtain rfl := List.mem_singleton.mp (hbefore.subset List.mem_cons_self)
      rfl
    · exact absurd hread Bool.false_ne_true
  refine (ext4fsReadSymlink_exact_iff brokenFs (by decide) (by decide) 0 _ .diropen
    (freshNode (linkInode 61 (onlyBlock 4))) rfl (linkInode 61 (onlyBlock 4)) [] ⟨rfl, rfl⟩
    (by decide +kernel) (List.replicate 61 97)
    (brokenFs_target 4 61 (Or.inr rfl) (by decide) (by decide))).mpr ?_
  exact Or.inr ⟨Clean.refl _, Or.inr (Or.inr ⟨by decide +kernel, hblocks⟩)⟩

/-- A target of 60 bytes is looked for in the inode, and the block pointers are
returned. A target of 61 bytes is returned although its block cannot be read. -/
theorem symlink_not_exact :
    (LinkTarget (errorFree brokenFs) 0 (freshNode (linkInode 60 (onlyBlock 3)))
        (List.replicate 60 97) ∧
      ¬ ReadsTarget brokenFs 0 .diropen (World.mounted (freshNode (linkInode 60 (onlyBlock 3))) [])
        (List.replicate 60 97)) ∧
    LinkTarget (errorFree brokenFs) 0 (freshNode (linkInode 61 (onlyBlock 3)))
        (List.replicate 61 97) ∧
      ¬ ReadsTarget brokenFs 0 .diropen (World.mounted (freshNode (linkInode 61 (onlyBlock 3))) [])
        (List.replicate 61 97) := by
  refine ⟨⟨brokenFs_target 3 60 (Or.inl rfl) (by decide) (by decide), ?_⟩,
    brokenFs_target 3 61 (Or.inl rfl) (by decide) (by decide), ?_⟩
  · rintro ⟨r, w', hrun, hexact, -⟩
    have hshort : (ext4fsReadSymlink brokenFs 0 .diropen
        (World.mounted (freshNode (linkInode 60 (onlyBlock 3))) [])).map Prod.fst =
          .ok (some [3]) := by decide +kernel
    rw [hrun] at hshort
    obtain rfl : r = some [3] := Except.ok.inj hshort
    revert hexact
    decide
  · rintro ⟨r, w', hrun, -, hnone⟩
    have hfailed : (ext4fsReadSymlink brokenFs 0 .diropen
        (World.mounted (freshNode (linkInode 61 (onlyBlock 3))) [])).map
          (fun p => (p.1.isSome, p.2.log)) = .ok (true, [⟨6, 1⟩]) := by decide +kernel
    rw [hrun] at hfailed
    obtain ⟨hsome, hlog⟩ := Prod.mk.inj (Except.ok.inj hfailed)
    have hdirty : ¬ Clean brokenFs.devDesc.disk [] w'.log := by
      rw [hlog]
      exact fun hclean => absurd (hclean.read ⟨6, 1⟩ [] (List.suffix_refl _) (List.suffix_refl _))
        (by decide)
    rw [hnone hdirty] at hsome
    cases hsome

end Eokan.SymlinkReads
