import Eokan.NodeLedger
import Eokan.NodeRuns
import Eokan.SearchFrame
import Eokan.Sessions

/-!
The handles of a session. Every handle has a node of its own, whatever the disk
holds and whichever reads fail, so a call for one handle leaves the others alone.
A node that was freed can only be met while a path is looked for.
-/
namespace Eokan.SessionHandles

open ByteMem CInt Programs Device Layout Mount ReadFile DokanRead NodeHeap NodeRuns Directory
  DirectoryNodes ReadFaults Resolve NodeLedger SearchFrame FileNames VolumeLabel Sessions

/-- The file of a handle is an allocated node, and no two handles share one. -/
structure Held (contexts : Contexts) (w : World) : Prop where
  live : ∀ handle node, contexts handle = some node → ∃ id, node = .alloc id ∧ id ∈ w.live
  apart : ∀ handle handle' node, contexts handle = some node → contexts handle' = some node →
    handle = handle'

/-- A handle keeps its node, and that is as it was. -/
def Untouched (handle : ℕ) (contexts contexts' : Contexts) (w w' : World) : Prop :=
  contexts' handle = contexts handle ∧
    ∀ node, contexts handle = some node → w'.get node = w.get node

/-- All handles but one are left alone. -/
def Isolated (handle : Option ℕ) (contexts contexts' : Contexts) (w w' : World) : Prop :=
  ∀ other, handle ≠ some other → Untouched other contexts contexts' w w'

theorem Untouched.refl (handle : ℕ) (contexts : Contexts) (w : World) :
    Untouched handle contexts contexts w w := ⟨rfl, fun _ _ => rfl⟩

theorem Untouched.trans {handle : ℕ} {contexts contexts' contexts'' : Contexts} {w w' w'' : World}
    (h : Untouched handle contexts contexts' w w')
    (h' : Untouched handle contexts' contexts'' w' w'') :
    Untouched handle contexts contexts'' w w'' := by
  refine ⟨h'.1.trans h.1, fun node hnode => ?_⟩
  rw [h'.2 node (h.1.trans hnode), h.2 node hnode]

theorem Held.isSome {contexts : Contexts} {w : World} (h : Held contexts w) {handle : ℕ}
    {node : NodeRef} (hnode : contexts handle = some node) : (w.get node).isSome := by
  obtain ⟨id, rfl, hid⟩ := h.live handle node hnode
  exact hid

theorem isolated_refl (handle : Option ℕ) (contexts : Contexts) (w : World) :
    Isolated handle contexts contexts w w := fun other _ => Untouched.refl other contexts w

section Tables
variable {contexts : Contexts} {w w' : World} (h : Held contexts w)
include h

/-- The older nodes are as they were, and they are allocated. -/
theorem Held.later (hlater : Later w w') : Held contexts w' ∧
    ∀ handle node, contexts handle = some node → w'.get node = w.get node := by
  have hsame : ∀ handle node, contexts handle = some node → w'.get node = w.get node := by
    intro handle node hnode
    obtain ⟨id, rfl, hid⟩ := h.live handle node hnode
    exact hlater.nodes id (live_lt w id hid)
  refine ⟨⟨fun handle node hnode => ?_, h.apart⟩, hsame⟩
  obtain ⟨id, rfl, hid⟩ := h.live handle node hnode
  refine ⟨id, rfl, ?_⟩
  rw [mem_live, hsame handle _ hnode]
  exact hid

/-- A handle gets a node that no other handle has. -/
theorem Held.update (handle : ℕ) {filp : Option NodeRef}
    (hlive : ∀ node, filp = some node → ∃ id, node = .alloc id ∧ id ∈ w.live)
    (hnew : ∀ node, filp = some node → ∀ other, contexts other ≠ some node) :
    Held (Function.update contexts handle filp) w := by
  constructor
  · intro other node hnode
    by_cases hother : other = handle
    · subst hother
      exact hlive node (by simpa using hnode)
    · exact h.live other node (by simpa [hother] using hnode)
  · intro other other' node hnode hnode'
    by_cases hone : other = handle <;> by_cases htwo : other' = handle
    · rw [hone, htwo]
    · subst hone
      exact absurd (by simpa [htwo] using hnode') (hnew node (by simpa using hnode) other')
    · subst htwo
      exact absurd (by simpa [hone] using hnode) (hnew node (by simpa using hnode') other)
    · exact h.apart other other' node (by simpa [hone] using hnode) (by simpa [htwo] using hnode')

/-- A handle without a file. -/
theorem Held.clear (handle : ℕ) : Held (Function.update contexts handle none) w :=
  h.update handle (by simp) (by simp)

end Tables

theorem isolated_update (handle : ℕ) (contexts : Contexts) (filp : Option NodeRef) {w w' : World}
    (hsame : ∀ other node, other ≠ handle → contexts other = some node →
      w'.get node = w.get node) :
    Isolated (some handle) contexts (Function.update contexts handle filp) w w' := by
  intro other hother
  have hne : other ≠ handle := fun heq => hother (by rw [heq])
  exact ⟨by simp [hne], fun node => hsame other node hne⟩

theorem device_eq_ok {α : Type} {x : DevM α} {w w' : World} {a : α}
    (h : device x w = .ok (a, w')) : ∃ log, w' = w.withLog log := by
  unfold device at h
  split at h
  · cases h
    exact ⟨_, rfl⟩
  · cases h

theorem deref_eq_ok {ref : NodeRef} {w w' : World} {node : Ext2fsNode}
    (h : deref ref w = .ok (node, w')) : w.get ref = some node ∧ w' = w := by
  unfold deref at h
  split at h
  · rename_i hget
    cases h
    exact ⟨hget, rfl⟩
  · cases h

section Reading
variable {fs : ExtFilesystem} {fuel : ℕ} {node : NodeRef} {file : Ext2fsNode} {w : World}
  (hget : w.get node = some file) {buffer : Bytes} {bufferLength : ℕ} {offset : ℤ}
include hget

theorem readHandle_run {r : ReadResult} {log : Log}
    (hread : readFile fs fuel (some file) buffer bufferLength offset w.log = .ok (r, log)) :
    readHandle fs fuel (some node) buffer bufferLength offset w =
      .ok (.read r.status r.readLength r.buffer, (w.withLog log).set node (r.filp.getD file)) := by
  unfold readHandle
  dsimp only
  rw [bind_ok (deref_run hget), bind_ok (device_run hread), bind_ok (store_run hget _ log)]
  rfl

/-- A read that returns was one of the file behind the handle. -/
theorem readHandle_eq_ok {reply : Reply} {w' : World}
    (hrun : readHandle fs fuel (some node) buffer bufferLength offset w = .ok (reply, w')) :
    ∃ r log, readFile fs fuel (some file) buffer bufferLength offset w.log = .ok (r, log) ∧
      reply = .read r.status r.readLength r.buffer ∧
      w' = (w.withLog log).set node (r.filp.getD file) := by
  cases hread : readFile fs fuel (some file) buffer bufferLength offset w.log with
  | error e =>
    have hfails : readHandle fs fuel (some node) buffer bufferLength offset w = .error e :=
      (bind_ok (deref_run hget)).trans (bind_error (device_fails hread))
    cases hfails.symm.trans hrun
  | ok p =>
    cases (readHandle_run hget hread).symm.trans hrun
    exact ⟨p.1, p.2, rfl, rfl, rfl⟩

end Reading

section Calls
variable (api : Conversions) (fs : ExtFilesystem) (fuel steps : ℕ) {contexts : Contexts}
  {w : World} (h : Held contexts w)

/-- The node of an open file is allocated. -/
theorem ext4fsOpen_live (filename : List UInt8) :
    OnReturn (ext4fsOpen fs fuel steps filename) w fun filp w' =>
      ∀ id, filp = some (.alloc id) → id ∈ w'.live := by
  intro filp w' hrun id hid
  have hjudged := ext4fsOpen_judged fs fuel steps filename w
  rw [hrun] at hjudged
  subst hid
  rcases hjudged with ⟨-, hlive, -⟩ | ⟨-, hnone, -⟩
  · rw [hlive]
    exact Or.inr rfl
  · cases hnone

include h

theorem createFile_held (handle : ℕ) (fileName : List UInt16) (isDirectory : Bool) :
    OnReturn (callback api fs fuel steps (.createFile handle fileName isDirectory) contexts) w
      fun r w' => Held r.2 w' ∧ Isolated (some handle) contexts r.2 w w' := by
  intro r w' hrun
  obtain ⟨⟨status, filp⟩, w₁, hcreate, hrest⟩ := bind_eq_ok hrun
  cases hrest
  unfold createFile at hcreate
  split at hcreate
  · cases hcreate
    exact ⟨h.clear handle, isolated_update _ _ _ fun _ _ _ _ => rfl⟩
  · obtain ⟨filp', w₂, hopen, hpure⟩ := bind_eq_ok hcreate
    cases hpure
    obtain ⟨hlater, hnew⟩ := ext4fsOpen_leaves fs fuel steps _ w (Later.refl w) _ _ hopen
    have hlive := ext4fsOpen_live fs fuel steps _ _ _ hopen
    obtain ⟨hheld, hsame⟩ := h.later hlater
    refine ⟨hheld.update handle (fun node hnode => ?_) fun node hnode other hother => ?_,
      isolated_update _ _ _ fun other node _ => hsame other node⟩
    · obtain ⟨id, rfl, -⟩ := hnew node hnode
      exact ⟨id, rfl, hlive id hnode⟩
    · obtain ⟨id, rfl, hid⟩ := hnew node hnode
      obtain ⟨id', heq, hold⟩ := h.live other _ hother
      cases heq
      exact absurd (live_lt w id hold) (by omega)

theorem closeFile_held (handle : ℕ) :
    OnReturn (closeFile handle contexts) w fun r w' =>
      Held r.2 w' ∧ Isolated (some handle) contexts r.2 w w' := by
  unfold closeFile
  split
  · exact OnReturn.pure ⟨h, isolated_refl _ _ _⟩
  · rename_i filp hfilp
    intro r w' hrun
    obtain ⟨_, w₁, hclose, hpure⟩ := bind_eq_ok hrun
    cases hpure
    obtain ⟨id, rfl, hid⟩ := h.live handle filp hfilp
    have hfree : ext4fsFreeNode (.alloc id) .diropen w = .ok ((), w.remove id) := if_pos hid
    cases hfree.symm.trans hclose
    have hsame : ∀ other node, other ≠ handle → contexts other = some node →
        (w.remove id).get node = w.get node := by
      intro other node hother hnode
      apply get_remove_of_ne
      rintro rfl
      exact hother (h.apart other handle _ hnode hfilp)
    refine ⟨⟨fun other node hnode => ?_, (h.clear handle).apart⟩, isolated_update _ _ _ hsame⟩
    by_cases hother : other = handle
    · simp [hother] at hnode
    · have hold : contexts other = some node := by simpa [hother] using hnode
      obtain ⟨id', rfl, hid'⟩ := h.live other node hold
      exact ⟨id', rfl, by rw [mem_live, hsame other _ hother hold]; exact hid'⟩

/-- A read allocates nothing and frees nothing. -/
theorem readHandle_live (handle : ℕ) (buffer : Bytes) (bufferLength : ℕ) (offset : ℤ) :
    OnReturn (readHandle fs fuel (contexts handle) buffer bufferLength offset) w
      fun _ w' => w'.live = w.live := by
  intro r w' hrun
  cases hfilp : contexts handle with
  | none =>
    rw [hfilp] at hrun
    cases hrun
    rfl
  | some filp =>
    rw [hfilp] at hrun
    obtain ⟨file, hget⟩ := Option.isSome_iff_exists.mp (h.isSome hfilp)
    obtain ⟨r₁, log, -, -, rfl⟩ := readHandle_eq_ok hget hrun
    simp

theorem readHandle_held (handle : ℕ) (buffer : Bytes) (bufferLength : ℕ) (offset : ℤ) :
    OnReturn (readHandle fs fuel (contexts handle) buffer bufferLength offset) w fun _ w' =>
      Held contexts w' ∧ Isolated (some handle) contexts contexts w w' := by
  unfold readHandle
  split
  · intro r w' hrun
    obtain ⟨r₁, w₁, hread, hpure⟩ := bind_eq_ok hrun
    cases hread
    cases hpure
    exact ⟨h, isolated_refl _ _ _⟩
  · rename_i filp hfilp
    intro r w' hrun
    obtain ⟨file, hget⟩ := Option.isSome_iff_exists.mp (h.isSome hfilp)
    obtain ⟨r₁, log, -, -, rfl⟩ := readHandle_eq_ok hget hrun
    have hchanged := changed_set hget (r₁.filp.getD file) log
    refine ⟨⟨fun other node' hother => ?_, h.apart⟩, fun other hother => ⟨rfl, ?_⟩⟩
    · obtain ⟨id, rfl, hid⟩ := h.live other node' hother
      exact ⟨id, rfl, by simpa using hid⟩
    · intro node' hnode'
      apply hchanged.other
      rintro rfl
      exact hother (congrArg some (h.apart handle other _ hfilp hnode'))

omit h in
theorem statHandle_held (handle : ℕ) (info : FileInformation) :
    OnReturn (statHandle (contexts handle) info) w fun _ w' => w' = w := by
  unfold statHandle
  split
  · exact OnReturn.pure rfl
  · intro r w' hrun
    obtain ⟨node, w₁, hderef, hpure⟩ := bind_eq_ok hrun
    cases hpure
    exact (deref_eq_ok hderef).2

theorem findFiles_held (fileName : List UInt16) :
    OnReturn (callback api fs fuel steps (.findFiles fileName) contexts) w fun r w' =>
      Held r.2 w' ∧ Isolated none contexts r.2 w w' := by
  intro r w' hrun
  obtain ⟨_, w₁, hfind, hpure⟩ := bind_eq_ok hrun
  cases hpure
  obtain ⟨_, w₂, hlist, hpure⟩ := bind_eq_ok hfind
  cases hpure
  have hlater := (ext4fsListFiles_leaves fs fuel steps _ _ _ w (Later.refl w) _ _ hlist).1
  obtain ⟨hheld, hsame⟩ := h.later hlater
  exact ⟨hheld, fun other _ => ⟨rfl, hsame other⟩⟩

/-- One call leaves the handles well, and the other ones as they were. -/
theorem callback_held (call : Callback) :
    OnReturn (callback api fs fuel steps call contexts) w fun r w' =>
      Held r.2 w' ∧ Isolated call.handle contexts r.2 w w' := by
  cases call with
  | createFile handle fileName isDirectory =>
    exact createFile_held api fs fuel steps h handle fileName isDirectory
  | openDirectory handle =>
    exact OnReturn.pure ⟨h.clear handle, isolated_update _ _ _ fun _ _ _ _ => rfl⟩
  | closeFile handle => exact closeFile_held h handle
  | readFile handle buffer bufferLength offset =>
    exact (readHandle_held fs fuel h handle buffer bufferLength offset).bind fun _ _ hr =>
      OnReturn.pure hr
  | getFileInformation handle info =>
    refine (statHandle_held handle info).bind fun _ w' hr => ?_
    subst hr
    exact OnReturn.pure ⟨h, isolated_refl _ _ _⟩
  | findFiles fileName => exact findFiles_held api fs fuel steps h fileName
  | getVolumeInformation volumeNameSize =>
    intro r w' hrun
    obtain ⟨_, w₁, hvolume, hpure⟩ := bind_eq_ok hrun
    obtain ⟨log, rfl⟩ := device_eq_ok hvolume
    cases hpure
    exact ⟨⟨fun other node hother => by simpa using h.live other node hother, h.apart⟩,
      fun _ _ => ⟨rfl, fun node _ => get_withLog w node log⟩⟩
  | getDiskFreeSpace => exact OnReturn.pure ⟨h, isolated_refl _ _ _⟩
  | ignored function => exact OnReturn.pure ⟨h, isolated_refl _ _ _⟩

end Calls

section Freed
variable (api : Conversions) (fs : ExtFilesystem) (fuel steps : ℕ) {contexts : Contexts}
  {w : World} (h : Held contexts w)

/-- Nothing that the device does makes a node go away. -/
theorem readFile_avoids (filp : Option Ext2fsNode) (buffer : Bytes) (bufferLength : ℕ)
    (offset : ℤ) : Avoids FreedUse (readFile fs fuel filp buffer bufferLength offset) := by
  cases filp with
  | none => exact Avoids.pure _
  | some filp =>
    apply Avoids.bind (ext4fsReadFile_avoids fs FreedUse (by simp [FreedUse]) (by simp [FreedUse])
      (by simp [FreedUse]) fuel filp _ _ _)
    intro r
    exact Avoids.pure _

theorem getVolumeInformation_fails (volumeNameSize : ℕ) :
    ∀ e, getVolumeInformation api fs volumeNameSize = .error e → ¬ FreedUse e := by
  intro e h
  unfold getVolumeInformation at h
  cases hlabel : vfsLabel none fs (fun _ => 0) maxPath with
  | ok r =>
    rw [hlabel] at h
    cases h
  | error e' =>
    rw [hlabel] at h
    cases h
    unfold vfsLabel ext4fsLabel at hlabel
    cases hstring : labelString (labelSblock none fs) with
    | ok text =>
      rw [hstring] at hlabel
      cases hlabel
    | error e' =>
      rw [hstring] at hlabel
      cases hlabel
      unfold labelString nameString at hstring
      split at hstring
      · dsimp only at hstring
        split at hstring
        · cases hstring
        · cases hstring
          simp [FreedUse]
      · cases hstring

include h

theorem readHandle_safely (handle : ℕ) (buffer : Bytes) (bufferLength : ℕ) (offset : ℤ) :
    Safely FreedUse (readHandle fs fuel (contexts handle) buffer bufferLength offset) w
      fun _ _ => True := by
  unfold readHandle
  split
  · apply Safely.bind (device_safely w _ (readFile_avoids fs fuel _ _ _ _))
    intro _ _ _
    exact Safely.pure trivial
  · rename_i filp hfilp
    have href := h.isSome hfilp
    apply Safely.bind (deref_safely w filp href)
    rintro node w' rfl
    apply Safely.bind (device_safely w' _ (readFile_avoids fs fuel _ _ _ _))
    intro r w₁ hkept
    apply Safely.bind (store_safely w₁ filp (isSome_get_of_live hkept.live filp href) _)
    intro _ _ _
    exact Safely.pure trivial

theorem statHandle_safely (handle : ℕ) (info : FileInformation) :
    Safely FreedUse (statHandle (contexts handle) info) w fun _ _ => True := by
  unfold statHandle
  split
  · exact Safely.pure trivial
  · rename_i filp hfilp
    apply Safely.bind (deref_safely w filp (h.isSome hfilp))
    intro _ _ _
    exact Safely.pure trivial

theorem closeFile_safely (handle : ℕ) :
    Safely FreedUse (closeFile handle contexts) w fun _ _ => True := by
  unfold closeFile
  split
  · exact Safely.pure trivial
  · rename_i filp hfilp
    obtain ⟨id, rfl, hid⟩ := h.live handle filp hfilp
    have hfree : Yields (ext4fsFreeNode (.alloc id) .diropen) w fun _ _ => True :=
      ⟨(), w.remove id, if_pos hid, trivial⟩
    apply (Safely.of_yields hfree).bind
    intro _ _ _
    exact Safely.pure trivial

/-- A call that looks for no path uses no node that was freed. -/
theorem callback_safely (call : Callback) (hcall : ¬ call.Searches) :
    Safely FreedUse (callback api fs fuel steps call contexts) w fun _ _ => True := by
  cases call with
  | createFile handle fileName isDirectory =>
    obtain rfl : isDirectory = true := by simpa [Callback.Searches] using hcall
    exact Safely.pure trivial
  | openDirectory handle => exact Safely.pure trivial
  | closeFile handle => exact closeFile_safely h handle
  | readFile handle buffer bufferLength offset =>
    exact (readHandle_safely fs fuel h handle buffer bufferLength offset).bind fun _ _ _ =>
      Safely.pure trivial
  | getFileInformation handle info =>
    exact (statHandle_safely h handle info).bind fun _ _ _ => Safely.pure trivial
  | findFiles fileName => exact absurd trivial hcall
  | getDiskFreeSpace => exact Safely.pure trivial
  | getVolumeInformation volumeNameSize =>
    apply Safely.bind (device_safely w _ (Avoids.lift (getVolumeInformation_fails api fs _)))
    intro _ _ _
    exact Safely.pure trivial
  | ignored function => exact Safely.pure trivial

end Freed

section Sessions
variable (api : Conversions) (fs : ExtFilesystem) (fuel steps : ℕ)

theorem serve_held (calls : List Callback) {contexts : Contexts} {w : World}
    (h : Held contexts w) :
    OnReturn (serve api fs fuel steps calls contexts) w fun r w' => Held r.2 w' ∧
      ∀ handle, (∀ call ∈ calls, call.handle ≠ some handle) →
        Untouched handle contexts r.2 w w' := by
  induction calls generalizing contexts w with
  | nil => exact OnReturn.pure ⟨h, fun handle _ => Untouched.refl handle contexts w⟩
  | cons call calls ih =>
    refine (callback_held api fs fuel steps h call).bind fun r w₁ ⟨hheld, hisolated⟩ => ?_
    refine (ih hheld).bind fun r' w₂ ⟨hheld', hsame⟩ => ?_
    refine OnReturn.pure ⟨hheld', fun handle hother => ?_⟩
    have hfirst := hisolated handle (hother call (by simp))
    exact hfirst.trans (hsame handle fun call' hcall => hother call' (by simp [hcall]))

/-- A freed node is met by a call that looks for a path, and by no other one. -/
theorem serve_freed (calls : List Callback) {contexts : Contexts} {w : World}
    (h : Held contexts w) {e : Fault} (he : FreedUse e)
    (hrun : serve api fs fuel steps calls contexts w = .error e) :
    ∃ before call after r w', calls = before ++ call :: after ∧ call.Searches ∧
      serve api fs fuel steps before contexts w = .ok (r, w') ∧
      callback api fs fuel steps call r.2 w' = .error e := by
  induction calls generalizing contexts w with
  | nil => cases hrun
  | cons call calls ih =>
    rcases bind_eq_error hrun with hcall | ⟨⟨reply, contexts₁⟩, w₁, hcall, hrest⟩
    · refine ⟨[], call, calls, ([], contexts), w, rfl, ?_, rfl, hcall⟩
      by_contra hnot
      exact (callback_safely api fs fuel steps h call hnot).1 e hcall he
    · have hheld := (callback_held api fs fuel steps h call _ _ hcall).1
      rcases bind_eq_error hrest with hfails | ⟨_, _, _, hpure⟩
      · obtain ⟨before, call', after, r, w', rfl, hsearch, hbefore, hafter⟩ := ih hheld hfails
        exact ⟨call :: before, call', after, (reply :: r.1, r.2), w', rfl, hsearch,
          (bind_ok hcall).trans (bind_ok hbefore), hafter⟩
      · cases hpure

/-- No handle has a file yet. -/
theorem held_mounted (root : Ext2fsNode) (log : Log) :
    Held noContexts (World.mounted root log) :=
  ⟨by simp [noContexts], by simp [noContexts]⟩

/-- Handles that are not called keep their files as they are, bit for bit. -/
theorem serve_isolates (root : Ext2fsNode) (log : Log) (before calls : List Callback) :
    OnReturn (serve api fs fuel steps before noContexts) (World.mounted root log) fun r w =>
      Held r.2 w ∧ OnReturn (serve api fs fuel steps calls r.2) w fun r' w' =>
        ∀ handle, (∀ call ∈ calls, call.handle ≠ some handle) →
          Untouched handle r.2 r'.2 w w' := by
  refine (serve_held api fs fuel steps before (held_mounted root log)).mono fun r w ⟨hheld, _⟩ => ?_
  exact ⟨hheld, (serve_held api fs fuel steps calls hheld).mono fun _ _ h => h.2⟩

/-- Whatever the disk holds, only a search can come across a freed node. -/
theorem session_freed (root : Ext2fsNode) (log : Log) (calls : List Callback)
    (hrun : serve api fs fuel steps calls noContexts (World.mounted root log) =
      .error .useAfterFree) :
    ∃ before call after r w, calls = before ++ call :: after ∧ call.Searches ∧
      serve api fs fuel steps before noContexts (World.mounted root log) = .ok (r, w) ∧
      callback api fs fuel steps call r.2 w = .error .useAfterFree :=
  serve_freed api fs fuel steps calls (held_mounted root log) rfl hrun

end Sessions

/-- The root has a directory d, and d has a link l whose target is empty. -/
def emptyLinkImage : Bytes := fun b =>
  match b with
  | 1044 => 1
  | 1064 => 8
  | 1080 => 0x53
  | 1081 => 0xef
  | 2056 => 3
  | 3201 => 0x41
  | 3205 => 4
  | 3240 => 4
  | 3329 => 0x41
  | 3333 => 4
  | 3368 => 5
  | 3457 => 0xa1
  | 4096 => 3
  | 4101 => 4
  | 4102 => 1
  | 4103 => 2
  | 4104 => 0x64
  | 5120 => 4
  | 5125 => 4
  | 5126 => 1
  | 5127 => 7
  | 5128 => 0x6c
  | _ => 0

def emptyLinkPart : PartDescr := ⟨DiskDescr.ofImage emptyLinkImage, 0, 16⟩

/-- The path d/l, between two calls that look for no path. -/
def openEmptyLink : List Callback :=
  [.openDirectory 1, .createFile 0 [separator, 0x64, separator, 0x6c] false, .closeFile 0]

theorem session_freed_emptyLink :
    ∃ fs root log, ext4fsMount (fun _ => 0) emptyLinkPart [] = .ok (some (fs, root), log) ∧
      ∃ before call after r w, openEmptyLink = before ++ call :: after ∧ call.Searches ∧
        serve ascii fs 2 4 before noContexts (World.mounted root log) = .ok (r, w) ∧
        callback ascii fs 2 4 call r.2 w = .error .useAfterFree := by
  have hmount : ∃ fs root log, ext4fsMount (fun _ => 0) emptyLinkPart [] =
      .ok (some (fs, root), log) ∧ (match serve ascii fs 2 4 openEmptyLink noContexts
        (World.mounted root log) with
        | .ok _ => false
        | .error e => decide (e = .useAfterFree)) = true := by
    apply mount_of_check
    decide +kernel
  obtain ⟨fs, root, log, hmount, hcheck⟩ := hmount
  refine ⟨fs, root, log, hmount, session_freed ascii fs 2 4 root log openEmptyLink ?_⟩
  split at hcheck
  · cases hcheck
  · rename_i e hrun
    rw [hrun, of_decide_eq_true hcheck]

end Eokan.SessionHandles
