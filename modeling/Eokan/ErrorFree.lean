import Eokan.Inodes
import Eokan.ReadFile

/-!
A device next to the one with the same content and without read errors. As long
as no read fails, a run does on the one what it does on the other.
-/
namespace Eokan.ErrorFree

open ByteMem CInt Programs Device Devread Layout BlockMap Inodes ReadFile

/-- The requests between these logs did not fail. -/
structure Clean (disk : DiskDescr) (log log' : Log) : Prop where
  grown : log <:+ log'
  read : ∀ request before, request :: before <:+ log' → log <:+ before →
    disk.fails before request = false

/-- Both programs only add to the log, and without a failure they do the same. -/
structure Twin (disk : DiskDescr) {α : Type} (x y : DevM α) : Prop where
  grows : ∀ log a log', x log = .ok (a, log') → log <:+ log'
  grows_twin : ∀ log a log', y log = .ok (a, log') → log <:+ log'
  agrees : ∀ log a log', Clean disk log log' → (x log = .ok (a, log') ↔ y log = .ok (a, log'))

section Rules
variable {disk : DiskDescr} {α β : Type}

theorem Clean.refl (log : Log) : Clean disk log log := by
  refine ⟨List.suffix_refl log, fun request before h h' => ?_⟩
  have hlt := (h.length_le).trans h'.length_le
  rw [List.length_cons] at hlt
  omega

theorem Clean.split {log log' log'' : Log} (h : Clean disk log log'') (hone : log <:+ log')
    (htwo : log' <:+ log'') : Clean disk log log' ∧ Clean disk log' log'' :=
  ⟨⟨hone, fun request before hbefore => h.read request before (hbefore.trans htwo)⟩,
    ⟨htwo, fun request before hbefore hlog' => h.read request before hbefore (hone.trans hlog')⟩⟩

theorem Clean.trans {log log' log'' : Log} (h : Clean disk log log') (h' : Clean disk log' log'') :
    Clean disk log log'' := by
  refine ⟨h.grown.trans h'.grown, fun request before hbefore hlog => ?_⟩
  rcases List.suffix_or_suffix_of_suffix hbefore h'.grown with hearly | hlate
  · exact h.read request before hearly hlog
  · rcases List.suffix_cons_iff.mp hlate with rfl | hlate
    · exact h.read request before (List.suffix_refl _) hlog
    · exact h'.read request before hbefore hlate

theorem Twin.pure (a : α) : Twin disk (Pure.pure a : DevM α) (Pure.pure a) := by
  have hgrows : ∀ log b log', (Pure.pure a : DevM α) log = .ok (b, log') → log <:+ log' := by
    intro log b log' h
    cases h
    exact List.suffix_refl log
  exact ⟨hgrows, hgrows, fun _ _ _ _ => Iff.rfl⟩

theorem Twin.fault (e : Fault) : Twin disk (fault e : DevM α) (fault e) :=
  ⟨fun _ _ _ h => (nomatch h), fun _ _ _ h => (nomatch h), fun _ _ _ _ => Iff.rfl⟩

theorem Twin.lift (z : Except Fault α) : Twin disk (liftM z : DevM α) (liftM z) := by
  cases z with
  | error e => exact Twin.fault e
  | ok a => exact Twin.pure a

theorem Twin.ite {c : Prop} [Decidable c] {x y x' y' : DevM α} (h : c → Twin disk x y)
    (h' : ¬ c → Twin disk x' y') : Twin disk (if c then x else x') (if c then y else y') := by
  split
  · exact h ‹c›
  · exact h' ‹¬ c›

theorem Twin.bind {x y : DevM α} {f g : α → DevM β} (hx : Twin disk x y)
    (hf : ∀ a, Twin disk (f a) (g a)) : Twin disk (x >>= f) (y >>= g) := by
  refine ⟨fun log b log'' h => ?_, fun log b log'' h => ?_, fun log b log'' hclean => ⟨?_, ?_⟩⟩
  · obtain ⟨a, log', hrun, hrest⟩ := bind_eq_ok h
    exact (hx.grows log a log' hrun).trans ((hf a).grows log' b log'' hrest)
  · obtain ⟨a, log', hrun, hrest⟩ := bind_eq_ok h
    exact (hx.grows_twin log a log' hrun).trans ((hf a).grows_twin log' b log'' hrest)
  · intro h
    obtain ⟨a, log', hrun, hrest⟩ := bind_eq_ok h
    obtain ⟨hone, htwo⟩ := hclean.split (hx.grows log a log' hrun)
      ((hf a).grows log' b log'' hrest)
    rw [bind_ok ((hx.agrees log a log' hone).mp hrun)]
    exact ((hf a).agrees log' b log'' htwo).mp hrest
  · intro h
    obtain ⟨a, log', hrun, hrest⟩ := bind_eq_ok h
    obtain ⟨hone, htwo⟩ := hclean.split (hx.grows_twin log a log' hrun)
      ((hf a).grows_twin log' b log'' hrest)
    rw [bind_ok ((hx.agrees log a log' hone).mpr hrun)]
    exact ((hf a).agrees log' b log'' htwo).mpr hrest

end Rules

/-- The partition on a device with the same content and without read errors. -/
def errorFreePart (part : PartDescr) : PartDescr :=
  { part with disk := DiskDescr.ofImage part.disk.image }

section Reads
variable (part : PartDescr)

theorem partRead_twin (start num : ℤ) (buf : Bytes) (dst : ℕ) :
    Twin part.disk (partRead part start num buf dst)
      (partRead (errorFreePart part) start num buf dst) := by
  have hadds : ∀ (disk : DiskDescr) (log : Log) r log', diskRead disk (int64 (start + part.off)) num
      buf dst log = .ok (r, log') → log' = ⟨int64 (start + part.off), num⟩ :: log := by
    intro disk log r log' h
    unfold diskRead at h
    dsimp only at h
    split at h <;> cases h <;> rfl
  have hgrows : ∀ (disk : DiskDescr) (log : Log) r log', diskRead disk (int64 (start + part.off))
      num buf dst log = .ok (r, log') → log <:+ log' := by
    intro disk log r log' h
    rw [hadds disk log r log' h]
    exact List.suffix_cons _ log
  have hsame : ∀ (log : Log), part.disk.fails log ⟨int64 (start + part.off), num⟩ = false →
      diskRead part.disk (int64 (start + part.off)) num buf dst log =
        diskRead (errorFreePart part).disk (int64 (start + part.off)) num buf dst log := by
    intro log hread
    unfold diskRead
    dsimp only
    rw [hread]
    rfl
  refine ⟨hgrows part.disk, hgrows (errorFreePart part).disk, fun log r log' hclean => ?_⟩
  have hread : ∀ disk, diskRead disk (int64 (start + part.off)) num buf dst log = .ok (r, log') →
      part.disk.fails log ⟨int64 (start + part.off), num⟩ = false := by
    intro disk h
    obtain rfl := hadds disk log r log' h
    exact hclean.read _ log (List.suffix_refl _) (List.suffix_refl _)
  constructor
  · intro h
    exact (hsame log (hread part.disk h)).symm.trans h
  · intro h
    exact (hsame log (hread (errorFreePart part).disk h)).trans h

theorem readRest_twin (sector byteLen : ℤ) (buf : Bytes) (dst : ℕ) :
    Twin part.disk (readRest part sector byteLen buf dst)
      (readRest (errorFreePart part) sector byteLen buf dst) := by
  apply Twin.ite
  · intro _
    exact Twin.pure _
  · intro _
    apply Twin.bind (partRead_twin part _ _ _ _)
    intro r
    exact Twin.ite (fun _ => Twin.pure _) fun _ => Twin.pure _

theorem readAligned_twin (sector byteLen : ℤ) (buf : Bytes) (dst : ℕ) :
    Twin part.disk (readAligned part sector byteLen buf dst)
      (readAligned (errorFreePart part) sector byteLen buf dst) := by
  apply Twin.ite
  · intro _
    exact Twin.pure _
  · intro _
    apply Twin.ite
    · intro _
      exact Twin.bind (partRead_twin part _ _ _ _) fun _ => Twin.pure _
    · intro _
      apply Twin.bind (partRead_twin part _ _ _ _)
      intro r
      exact Twin.ite (fun _ => Twin.pure _) fun _ => readRest_twin part _ _ _ _

theorem vfsDevread_twin (sector byteOffset byteLen : ℤ) (buf : Bytes) (dst : ℕ) :
    Twin part.disk (vfsDevread part sector byteOffset byteLen buf dst)
      (vfsDevread (errorFreePart part) sector byteOffset byteLen buf dst) := by
  apply Twin.ite
  · intro _
    exact Twin.pure _
  · intro _
    apply Twin.ite
    · intro _
      apply Twin.bind (partRead_twin part _ _ _ _)
      intro r
      exact Twin.ite (fun _ => Twin.pure _) fun _ => readAligned_twin part _ _ _ _
    · intro _
      exact readAligned_twin part _ _ _ _

end Reads

/-- The file system on such a device. -/
def errorFree (fs : ExtFilesystem) : ExtFilesystem :=
  { fs with devDesc := errorFreePart fs.devDesc }

section FileSystem
variable (fs : ExtFilesystem)

theorem ext4fsBlockgroup_twin (group : ℤ) :
    Twin fs.devDesc.disk (ext4fsBlockgroup fs group) (ext4fsBlockgroup (errorFree fs) group) := by
  apply Twin.bind (Twin.lift (checkShifts fs))
  intro _
  exact Twin.bind (vfsDevread_twin fs.devDesc _ _ _ _ _) fun _ => Twin.pure _

theorem ext4fsReadInode_twin (ino : ℤ) (inode : Ext2Inode) :
    Twin fs.devDesc.disk (ext4fsReadInode fs ino inode)
      (ext4fsReadInode (errorFree fs) ino inode) := by
  apply Twin.ite (fun _ => Twin.fault _)
  intro _
  apply Twin.bind (ext4fsBlockgroup_twin fs _)
  intro r
  apply Twin.ite (fun _ => Twin.pure _)
  intro _
  apply Twin.ite (fun _ => Twin.fault _)
  intro _
  apply Twin.ite (fun _ => Twin.fault _)
  intro _
  apply Twin.bind (vfsDevread_twin fs.devDesc _ _ _ _ _)
  intro r'
  exact Twin.ite (fun _ => Twin.pure _) fun _ => Twin.pure _

theorem refill_twin (cache : IndirCache) (test load : ℕ) :
    Twin fs.devDesc.disk (refill fs cache test load) (refill (errorFree fs) cache test load) := by
  apply Twin.ite
  · intro _
    apply Twin.bind (vfsDevread_twin fs.devDesc _ _ _ _ _)
    intro r
    exact Twin.ite (fun _ => Twin.pure _) fun _ => Twin.pure _
  · intro _
    exact Twin.pure _

/-- Both descents read the nodes of the extent tree in the same places. -/
theorem getExtentBlock_twin (f : ℤ) (fuel : ℕ) (node buf : Bytes) :
    Twin fs.devDesc.disk (getExtentBlock fs f fuel node buf)
      (getExtentBlock (errorFree fs) f fuel node buf) := by
  induction fuel generalizing node buf with
  | zero => exact Twin.fault _
  | succ fuel ih =>
    unfold getExtentBlock
    apply Twin.ite (fun _ => Twin.pure _)
    intro _
    apply Twin.ite (fun _ => Twin.pure _)
    intro _
    apply Twin.ite (fun _ => Twin.pure _)
    intro _
    apply Twin.bind (vfsDevread_twin fs.devDesc _ _ _ _ _)
    intro r
    exact Twin.ite (fun _ => ih _ _) fun _ => Twin.pure _

theorem readTables_twin (node : Ext2fsNode) (f : ℕ) :
    Twin fs.devDesc.disk (readIndirect fs node f) (readIndirect (errorFree fs) node f) ∧
      Twin fs.devDesc.disk (readDoubleIndirect fs node f)
        (readDoubleIndirect (errorFree fs) node f) ∧
      Twin fs.devDesc.disk (readTripleIndirect fs node f)
        (readTripleIndirect (errorFree fs) node f) := by
  refine ⟨?_, ?_, ?_⟩
  · apply Twin.bind (refill_twin fs _ _ _)
    intro r
    exact Twin.ite (fun _ => Twin.pure _) fun _ => Twin.pure _
  · apply Twin.bind (refill_twin fs _ _ _)
    intro r
    apply Twin.ite (fun _ => Twin.pure _)
    intro _
    apply Twin.bind (refill_twin fs _ _ _)
    intro r'
    exact Twin.ite (fun _ => Twin.pure _) fun _ => Twin.pure _
  · apply Twin.bind (refill_twin fs _ _ _)
    intro r
    apply Twin.ite (fun _ => Twin.pure _)
    intro _
    apply Twin.ite (fun _ => Twin.fault _)
    intro _
    apply Twin.bind (refill_twin fs _ _ _)
    intro r'
    apply Twin.ite (fun _ => Twin.pure _)
    intro _
    apply Twin.bind (refill_twin fs _ _ _)
    intro r''
    exact Twin.ite (fun _ => Twin.pure _) fun _ => Twin.pure _

theorem readAllocatedBlock1_twin (fuel : ℕ) (node : Ext2fsNode) (f : ℤ) :
    Twin fs.devDesc.disk (readAllocatedBlock1 fs fuel node f)
      (readAllocatedBlock1 (errorFree fs) fuel node f) := by
  obtain ⟨hsingle, hdouble, htriple⟩ := readTables_twin fs node f.toNat
  apply Twin.bind (Twin.lift (checkShifts fs))
  intro _
  apply Twin.ite
  · intro _
    refine Twin.bind (Twin.bind (getExtentBlock_twin fs f fuel _ _) fun r => ?_) fun _ =>
      Twin.pure _
    cases r <;> exact Twin.pure _
  intro _
  apply Twin.ite
  · intro _
    exact Twin.ite (fun _ => Twin.fault _) fun _ => Twin.pure _
  intro _
  apply Twin.ite (fun _ => hsingle)
  intro _
  exact Twin.ite (fun _ => hdouble) fun _ => htriple

theorem flush_twin (delayed : Option Delayed) (buf : Bytes) :
    Twin fs.devDesc.disk (flush fs delayed buf) (flush (errorFree fs) delayed buf) := by
  cases delayed with
  | none => exact Twin.pure _
  | some d => exact Twin.bind (vfsDevread_twin fs.devDesc _ _ _ _ _) fun _ => Twin.pure _

theorem readBlocks_twin (fuel : ℕ) (pos len : ℤ) (n : ℕ) (i : ℤ) (node : Ext2fsNode)
    (delayed : Option Delayed) (buf : Bytes) (dst : ℕ) :
    Twin fs.devDesc.disk (readBlocks fs fuel pos len n i node delayed buf dst)
      (readBlocks (errorFree fs) fuel pos len n i node delayed buf dst) := by
  induction n generalizing i node delayed buf dst with
  | zero =>
    apply Twin.bind (flush_twin fs _ _)
    intro r
    exact Twin.ite (fun _ => Twin.pure _) fun _ => Twin.pure _
  | succ n ih =>
    apply Twin.bind (readAllocatedBlock1_twin fs fuel node i)
    intro r
    apply Twin.ite (fun _ => Twin.pure _)
    intro _
    apply Twin.ite (fun _ => ih _ _ _ _ _)
    intro _
    apply Twin.bind (flush_twin fs _ _)
    intro r'
    apply Twin.ite (fun _ => Twin.pure _)
    intro _
    exact Twin.ite (fun _ => ih _ _ _ _ _) fun _ => ih _ _ _ _ _

theorem ext4fsReadFile_twin (fuel : ℕ) (node : Ext2fsNode) (pos len : ℤ) (buf : Bytes) :
    Twin fs.devDesc.disk (ext4fsReadFile fs fuel node pos len buf)
      (ext4fsReadFile (errorFree fs) fuel node pos len buf) := by
  apply Twin.bind (Twin.lift (checkShifts fs))
  intro _
  exact readBlocks_twin fs fuel _ _ _ _ _ _ _ _

end FileSystem

end Eokan.ErrorFree
