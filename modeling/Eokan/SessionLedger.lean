import Eokan.SessionHandles

/-!
The nodes that a session loses. A node that no handle has and that is allocated
all the same stays so for ever. A session loses no node just if each of its calls
is tidy.
-/
namespace Eokan.SessionLedger

open ByteMem CInt Programs Device Layout DokanRead NodeHeap NodeRuns Directory DirectoryNodes
  Resolve NodeLedger FileNames Sessions SessionHandles

/-- The nodes that are behind a handle. -/
def heldNodes (contexts : Contexts) : Set ℕ := {id | ∃ handle, contexts handle = some (.alloc id)}

/-- Nodes that nothing leads to any more. -/
def lost (contexts : Contexts) (w : World) : Set ℕ := w.live \ heldNodes contexts

section Conditions
variable (api : Conversions) (fs : ExtFilesystem) (fuel steps : ℕ)

/-- A handle that gets a file had none before, and a path is looked for without
a node being forgotten. -/
def TidyCall (call : Callback) (contexts : Contexts) (w : World) : Prop :=
  match call with
  | .createFile handle fileName isDirectory =>
    contexts handle = none ∧ (isDirectory = false →
      TidyFind fs fuel steps 8 (getFilePath api maxPath fileName) .diropen 0 w)
  | .openDirectory handle => contexts handle = none
  | .findFiles fileName =>
    TidyFind fs fuel steps 8 (getFilePath api maxPath fileName) .diropen 0 w ∧
      ListsDirectory fs fuel steps (getFilePath api maxPath fileName) w
  | _ => True

/-- Each call is tidy when its turn comes. -/
def TidyCalls : List Callback → Contexts → World → Prop
  | [], _, _ => True
  | call :: calls, contexts, w =>
    TidyCall api fs fuel steps call contexts w ∧
      OnReturn (callback api fs fuel steps call contexts) w fun r w' => TidyCalls calls r.2 w'

end Conditions

/-- Nothing is lost, or something is and the step was not tidy. -/
def Loses (tidy : Prop) (before after : Set ℕ) : Prop :=
  (tidy ∧ after = before) ∨ (¬ tidy ∧ before ⊂ after)

theorem Loses.refl {tidy : Prop} (h : tidy) (ids : Set ℕ) : Loses tidy ids ids := Or.inl ⟨h, rfl⟩

theorem Loses.congr {tidy tidy' : Prop} {before after : Set ℕ} (h : tidy ↔ tidy')
    (hloses : Loses tidy before after) : Loses tidy' before after := by
  rwa [Loses, ← h]

theorem Loses.subset {tidy : Prop} {before after : Set ℕ} (h : Loses tidy before after) :
    before ⊆ after := by
  rcases h with ⟨-, rfl⟩ | ⟨-, hlost⟩
  · exact Set.Subset.rfl
  · exact hlost.subset

/-- What was lost once is never found again. -/
theorem Loses.trans {tidy tidy' : Prop} {before mid after : Set ℕ} (h : Loses tidy before mid)
    (h' : Loses tidy' mid after) : Loses (tidy ∧ tidy') before after := by
  rcases h with ⟨htidy, rfl⟩ | ⟨htidy, hlost⟩
  · exact h'.congr (by simp [htidy])
  · exact Or.inr ⟨fun hboth => htidy hboth.1, hlost.trans_subset h'.subset⟩

theorem Loses.eq_iff {tidy : Prop} {before after : Set ℕ} (h : Loses tidy before after) :
    after = before ↔ tidy := by
  rcases h with ⟨htidy, heq⟩ | ⟨htidy, hlost⟩
  · simp [htidy, heq]
  · simp [htidy, hlost.ne']

section Tables
variable {contexts : Contexts} {w w' : World} (h : Held contexts w)
include h

theorem heldNodes_subset : heldNodes contexts ⊆ w.live := by
  rintro id ⟨handle, hnode⟩
  obtain ⟨id', heq, hid⟩ := h.live handle _ hnode
  cases heq
  exact hid

theorem heldBy_handle_subset (handle : ℕ) : heldBy (contexts handle) ⊆ heldNodes contexts := by
  intro id hid
  cases hnode : contexts handle with
  | none => simp [hnode, heldBy] at hid
  | some node =>
    obtain ⟨id', rfl, -⟩ := h.live handle node hnode
    obtain rfl : id = id' := by simpa [hnode, heldBy] using hid
    exact ⟨handle, hnode⟩

theorem heldBy_handle_eq_empty (handle : ℕ) :
    heldBy (contexts handle) = ∅ ↔ contexts handle = none := by
  cases hnode : contexts handle with
  | none => simp [heldBy]
  | some node =>
    obtain ⟨id, rfl, -⟩ := h.live handle node hnode
    simp [heldBy]

omit h in
theorem mem_heldBy (filp : Option NodeRef) (id : ℕ) :
    id ∈ heldBy filp ↔ filp = some (.alloc id) := by
  rcases filp with _ | ⟨_ | id'⟩
  · simp [heldBy]
  · simp [heldBy]
  · simp [heldBy, eq_comm]

/-- A handle gets another node, or none. -/
theorem heldNodes_update (handle : ℕ) (filp : Option NodeRef) :
    heldNodes (Function.update contexts handle filp) =
      heldNodes contexts \ heldBy (contexts handle) ∪ heldBy filp := by
  ext id
  simp only [heldNodes, Set.mem_union, Set.mem_sdiff, Set.mem_ofPred_eq, mem_heldBy]
  constructor
  · rintro ⟨other, hnode⟩
    by_cases hother : other = handle
    · subst hother
      exact Or.inr (by simpa using hnode)
    · have hold : contexts other = some (.alloc id) := by simpa [hother] using hnode
      exact Or.inl ⟨⟨other, hold⟩, fun hboth => hother (h.apart other handle _ hold hboth)⟩
  · rintro (⟨⟨other, hnode⟩, hne⟩ | hnode)
    · have hother : other ≠ handle := by
        rintro rfl
        exact hne hnode
      exact ⟨other, by simpa [hother] using hnode⟩
    · exact ⟨handle, by simpa using hnode⟩

/-- The node that a handle had is lost when it gets another one. -/
theorem lost_update (handle : ℕ) {filp : Option NodeRef} (hlive : w'.live = w.live ∪ heldBy filp)
    (hnew : Disjoint w.live (heldBy filp)) :
    lost (Function.update contexts handle filp) w' =
      lost contexts w ∪ heldBy (contexts handle) := by
  have hold := (heldBy_handle_subset h handle).trans (heldNodes_subset h)
  unfold lost
  rw [heldNodes_update h, hlive]
  ext id
  have hapart : id ∈ w.live → id ∉ heldBy filp := fun hid => Set.disjoint_left.mp hnew hid
  have hsub : id ∈ heldBy (contexts handle) → id ∈ w.live := fun hid => hold hid
  simp only [Set.mem_union, Set.mem_sdiff]
  tauto

/-- So nothing is lost just if the handle had no node. -/
theorem loses_update (handle : ℕ) {filp : Option NodeRef} (hlive : w'.live = w.live ∪ heldBy filp)
    (hnew : Disjoint w.live (heldBy filp)) :
    Loses (contexts handle = none) (lost contexts w)
      (lost (Function.update contexts handle filp) w') := by
  rw [lost_update h handle hlive hnew]
  by_cases hnone : contexts handle = none
  · exact Or.inl ⟨hnone, by simp [hnone, heldBy]⟩
  · refine Or.inr ⟨hnone, Set.ssubset_iff_subset_ne.mpr ⟨Set.subset_union_left, fun heq => ?_⟩⟩
    have hsub : heldBy (contexts handle) ⊆ lost contexts w := heq ▸ Set.subset_union_right
    have hempty : heldBy (contexts handle) = ∅ := by
      apply Set.eq_empty_of_forall_notMem
      intro id hid
      exact (hsub hid).2 (heldBy_handle_subset h handle hid)
    exact hnone ((heldBy_handle_eq_empty h handle).mp hempty)

/-- A node was allocated that no handle gets. -/
theorem lost_ssubset (hlost : w.live ⊂ w'.live) : lost contexts w ⊂ lost contexts w' := by
  obtain ⟨id, hid, hnot⟩ := Set.exists_of_ssubset hlost
  refine Set.ssubset_iff_of_subset (Set.sdiff_subset_sdiff_left hlost.subset) |>.mpr
    ⟨id, ⟨hid, fun hheld => hnot (heldNodes_subset h hheld)⟩, fun hold => hnot hold.1⟩

end Tables

section Calls
variable (api : Conversions) (fs : ExtFilesystem) (fuel steps : ℕ) {contexts : Contexts}
  {w : World} (h : Held contexts w)
include h

theorem createFile_loses (handle : ℕ) (fileName : List UInt16) (isDirectory : Bool) :
    OnReturn (callback api fs fuel steps (.createFile handle fileName isDirectory) contexts) w
      fun r w' => Loses
        (TidyCall api fs fuel steps (.createFile handle fileName isDirectory) contexts w)
        (lost contexts w) (lost r.2 w') := by
  intro r w' hrun
  obtain ⟨⟨status, filp⟩, w₁, hcreate, hpure⟩ := bind_eq_ok hrun
  cases hpure
  cases isDirectory with
  | true =>
    cases hcreate
    exact (loses_update h handle (by simp [heldBy]) (by simp [heldBy])).congr
      (by simp [TidyCall])
  | false =>
    obtain ⟨filp', w₂, hopen, hpure⟩ := bind_eq_ok hcreate
    cases hpure
    have hjudged := ext4fsOpen_judged fs fuel steps (getFilePath api maxPath fileName) w
    rw [hopen] at hjudged
    rcases hjudged with ⟨htidy, hlive, hnew⟩ | ⟨htidy, rfl, hlive⟩
    · exact (loses_update h handle hlive hnew).congr (by simp [TidyCall, htidy])
    · have hcleared : Loses (contexts handle = none) (lost contexts w)
          (lost (Function.update contexts handle none) w) :=
        loses_update h handle (by simp [heldBy]) (by simp [heldBy])
      have hforgotten : Loses False (lost (Function.update contexts handle none) w)
          (lost (Function.update contexts handle none) w') :=
        Or.inr ⟨not_false, lost_ssubset (h.clear handle) hlive⟩
      exact (hcleared.trans hforgotten).congr (by simp [TidyCall, htidy])

theorem findFiles_loses (fileName : List UInt16) :
    OnReturn (callback api fs fuel steps (.findFiles fileName) contexts) w fun r w' =>
      Loses (TidyCall api fs fuel steps (.findFiles fileName) contexts w)
        (lost contexts w) (lost r.2 w') := by
  intro r w' hrun
  obtain ⟨_, w₁, hfind, hpure⟩ := bind_eq_ok hrun
  cases hpure
  obtain ⟨_, w₂, hlist, hpure⟩ := bind_eq_ok hfind
  cases hpure
  have hjudged := ext4fsListFiles_judged fs fuel steps (getFilePath api maxPath fileName)
    (some (listAllFiles api fun found data => found ++ [data])) [] w
  rw [hlist] at hjudged
  rcases hjudged with ⟨htidy, hlive⟩ | ⟨htidy, hlive⟩
  · exact Or.inl ⟨htidy, by simp [lost, hlive]⟩
  · exact Or.inr ⟨htidy, lost_ssubset h hlive⟩

theorem closeFile_loses (handle : ℕ) :
    OnReturn (closeFile handle contexts) w fun r w' => lost r.2 w' = lost contexts w := by
  unfold closeFile
  split
  · exact OnReturn.pure rfl
  · rename_i filp hfilp
    intro r w' hrun
    obtain ⟨_, w₁, hclose, hpure⟩ := bind_eq_ok hrun
    cases hpure
    obtain ⟨id, rfl, hid⟩ := h.live handle filp hfilp
    have hfree : ext4fsFreeNode (.alloc id) .diropen w = .ok ((), w.remove id) := if_pos hid
    cases hfree.symm.trans hclose
    unfold lost
    rw [heldNodes_update h, hfilp, live_remove]
    ext id'
    simp only [heldBy, Set.union_empty, Set.mem_sdiff, Set.mem_singleton_iff]
    have hheld : id' = id → id' ∈ heldNodes contexts := by
      rintro rfl
      exact ⟨handle, hfilp⟩
    tauto

/-- One call loses a node just if it is not tidy. -/
theorem callback_loses (call : Callback) :
    OnReturn (callback api fs fuel steps call contexts) w fun r w' =>
      Loses (TidyCall api fs fuel steps call contexts w) (lost contexts w) (lost r.2 w') := by
  cases call with
  | createFile handle fileName isDirectory =>
    exact createFile_loses api fs fuel steps h handle fileName isDirectory
  | openDirectory handle =>
    exact OnReturn.pure (loses_update h handle (by simp [heldBy]) (by simp [heldBy]))
  | closeFile handle =>
    exact (closeFile_loses h handle).mono fun _ _ heq => Or.inl ⟨trivial, heq⟩
  | readFile handle buffer bufferLength offset =>
    refine (readHandle_live fs fuel h handle buffer bufferLength offset).bind
      fun r w' hlive => OnReturn.pure (Or.inl ⟨trivial, ?_⟩)
    simp [lost, hlive]
  | getFileInformation handle info =>
    refine (statHandle_held handle info).bind fun r w' heq => OnReturn.pure ?_
    exact Or.inl ⟨trivial, by simp [heq]⟩
  | findFiles fileName => exact findFiles_loses api fs fuel steps h fileName
  | getVolumeInformation volumeNameSize =>
    intro r w' hrun
    obtain ⟨_, w₁, hvolume, hpure⟩ := bind_eq_ok hrun
    obtain ⟨log, rfl⟩ := device_eq_ok hvolume
    cases hpure
    exact Or.inl ⟨trivial, by simp [lost]⟩
  | getDiskFreeSpace => exact OnReturn.pure (Loses.refl trivial _)
  | ignored function => exact OnReturn.pure (Loses.refl trivial _)

/-- A tidy call uses no freed node. -/
theorem callback_tidy (call : Callback) (htidy : TidyCall api fs fuel steps call contexts w) :
    ∀ e, callback api fs fuel steps call contexts w = .error e → ¬ FreedUse e := by
  intro e hrun
  by_cases hsearch : call.Searches
  · cases call with
    | createFile handle fileName isDirectory =>
      obtain rfl : isDirectory = false := hsearch
      have hjudged := ext4fsOpen_judged fs fuel steps (getFilePath api maxPath fileName) w
      have hopen : ext4fsOpen fs fuel steps (getFilePath api maxPath fileName) w = .error e := by
        rcases bind_eq_error hrun with hcreate | ⟨_, _, _, hpure⟩
        · rcases bind_eq_error hcreate with hopen | ⟨_, _, _, hpure⟩
          · exact hopen
          · cases hpure
        · cases hpure
      rw [hopen] at hjudged
      exact fun hfreed => hjudged.mp hfreed (htidy.2 rfl)
    | findFiles fileName =>
      have hjudged := ext4fsListFiles_judged fs fuel steps (getFilePath api maxPath fileName)
        (some (listAllFiles api fun found data => found ++ [data])) [] w
      rcases bind_eq_error hrun with hfind | ⟨_, _, _, hpure⟩
      · rcases bind_eq_error hfind with hlist | ⟨_, _, _, hpure⟩
        · rw [hlist] at hjudged
          exact fun hfreed => hjudged.mp hfreed htidy
        · cases hpure
      · cases hpure
    | _ => cases hsearch
  · exact (callback_safely api fs fuel steps h call hsearch).1 e hrun

end Calls

section Sessions
variable (api : Conversions) (fs : ExtFilesystem) (fuel steps : ℕ)

/-- What a session loses, and when. -/
theorem serve_loses (calls : List Callback) {contexts : Contexts} {w : World}
    (h : Held contexts w) :
    OnReturn (serve api fs fuel steps calls contexts) w fun r w' =>
      Loses (TidyCalls api fs fuel steps calls contexts w) (lost contexts w) (lost r.2 w') := by
  induction calls generalizing contexts w with
  | nil => exact OnReturn.pure (Loses.refl trivial _)
  | cons call calls ih =>
    intro r w₂ hrun
    obtain ⟨⟨reply, contexts₁⟩, w₁, hcallback, hrun⟩ := bind_eq_ok hrun
    obtain ⟨⟨replies, contexts₂⟩, w₃, hserve, hpure⟩ := bind_eq_ok hrun
    cases hpure
    have hheld := (callback_held api fs fuel steps h call _ _ hcallback).1
    have hfirst := callback_loses api fs fuel steps h call _ _ hcallback
    refine (hfirst.trans (ih hheld _ _ hserve)).congr (and_congr_right fun _ => ?_)
    constructor
    · intro htidy r' w' hrun'
      cases hcallback.symm.trans hrun'
      exact htidy
    · intro hnext
      exact hnext _ _ hcallback

theorem serve_tidy (calls : List Callback) {contexts : Contexts} {w : World}
    (h : Held contexts w) (htidy : TidyCalls api fs fuel steps calls contexts w) :
    Safely FreedUse (serve api fs fuel steps calls contexts) w fun _ _ => True := by
  induction calls generalizing contexts w with
  | nil => exact Safely.pure trivial
  | cons call calls ih =>
    have hcallback : Safely FreedUse (callback api fs fuel steps call contexts) w fun r w' =>
        Held r.2 w' ∧ TidyCalls api fs fuel steps calls r.2 w' :=
      ⟨callback_tidy api fs fuel steps h call htidy.1, fun r w' hrun =>
        ⟨(callback_held api fs fuel steps h call _ _ hrun).1, htidy.2 r w' hrun⟩⟩
    apply hcallback.bind
    intro r w' hr
    exact (ih hr.1 hr.2).bind fun _ _ _ => Safely.pure trivial

/-- The allocated nodes are those behind the handles as long as each call of the
session was tidy, and no longer. Until then no freed node is used. A node that is
allocated and behind no handle stays so, whatever is called after. -/
theorem session_accounted (root : Ext2fsNode) (log : Log) (calls : List Callback) :
    (TidyCalls api fs fuel steps calls noContexts (World.mounted root log) →
      Safely FreedUse (serve api fs fuel steps calls noContexts) (World.mounted root log)
        fun r w => w.live = heldNodes r.2) ∧
    OnReturn (serve api fs fuel steps calls noContexts) (World.mounted root log) fun r w =>
      (w.live = heldNodes r.2 ↔
        TidyCalls api fs fuel steps calls noContexts (World.mounted root log)) ∧
      ∀ more, OnReturn (serve api fs fuel steps more r.2) w fun r' w' =>
        lost r.2 w ⊆ lost r'.2 w' := by
  have hheld := held_mounted root log
  have hiff : OnReturn (serve api fs fuel steps calls noContexts) (World.mounted root log)
      fun r w => w.live = heldNodes r.2 ↔
        TidyCalls api fs fuel steps calls noContexts (World.mounted root log) := by
    intro r w hrun
    have hnone : lost noContexts (World.mounted root log) = ∅ := by
      simp [lost, World.mounted, World.live]
    have hloses := serve_loses api fs fuel steps calls hheld r w hrun
    have hsub := heldNodes_subset (serve_held api fs fuel steps calls hheld r w hrun).1
    rw [hnone] at hloses
    rw [← hloses.eq_iff, lost, Set.sdiff_eq_empty]
    exact ⟨fun heq => heq.le, fun hle => hle.antisymm hsub⟩
  refine ⟨fun htidy => ⟨(serve_tidy api fs fuel steps calls hheld htidy).1, ?_⟩, ?_⟩
  · exact hiff.mono fun r w hr => hr.mpr htidy
  · intro r w hrun
    refine ⟨hiff r w hrun, fun more r' w' hmore => ?_⟩
    have hlater := (serve_held api fs fuel steps calls hheld r w hrun).1
    exact (serve_loses api fs fuel steps more hlater r' w' hmore).subset

end Sessions

end Eokan.SessionLedger
