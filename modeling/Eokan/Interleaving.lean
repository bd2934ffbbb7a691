import Eokan.SessionDisks
import Eokan.SessionHandles
import Eokan.UnknownSearch

/-!
Calls for different handles may come in any order, and what they do to the memory that the
code never wrote is not known. On a disk whose sectors are either good or bad, what a
handle gets depends on the calls for it alone, if its reads look at nothing else.
-/
namespace Eokan.Interleaving

open ByteMem CInt Programs TwoRuns Device Devread Layout Mount ReadFile DokanRead NodeHeap NodeRuns
  Directory DirectoryNodes Resolve FileNames Sessions SessionHandles Simulations PartPairs
  SessionDisks UnknownMemory UnknownReads UnknownSearch

/-- The outcome of a read does not depend on those before it. -/
def Steady (disk : DiskDescr) : Prop :=
  ∀ log log' request, disk.fails log request = disk.fails log' request ∧
    disk.leftover log request = disk.leftover log' request

/-- A call, the memory that its buffers lie in, and what happened to the memory of the
nodes before it. -/
structure Turn (fs : ExtFilesystem) where
  call : Callback
  memory : Bytes
  disturb : World → World
  same : ∀ w, SameWorld fs w (disturb w)

def disturbed {fs : ExtFilesystem} (turn : Turn fs) : NodeM Unit := fun w =>
  .ok ((), turn.disturb w)

/-- The calls of a session, each in its own memory. -/
def serveTurns (api : Conversions) (fs : ExtFilesystem) (fuel steps : ℕ) :
    List (Turn fs) → Contexts → NodeM (List Reply × Contexts)
  | [], contexts => pure ([], contexts)
  | turn :: turns, contexts => do
    disturbed turn
    let (reply, contexts) ← callback api (onMemory fs turn.memory) fuel steps turn.call contexts
    let (replies, contexts) ← serveTurns api fs fuel steps turns contexts
    pure (reply :: replies, contexts)

/-- A call to which nothing happens. -/
def quiet (fs : ExtFilesystem) (call : Callback) : Turn fs := ⟨call, fs.past, id, SameWorld.refl fs⟩

/-- If nothing happens the session is the one of the code. -/
theorem serveTurns_quiet (api : Conversions) (fs : ExtFilesystem) (fuel steps : ℕ)
    (calls : List Callback) :
    serveTurns api fs fuel steps (calls.map (quiet fs)) = serve api fs fuel steps calls := by
  induction calls with
  | nil => rfl
  | cons call calls ih =>
    funext contexts
    rw [List.map_cons, serveTurns, serve, ih]
    rfl

/-- The file behind a handle. -/
def fileOf (contexts : Contexts) (w : World) (handle : ℕ) : Option Ext2fsNode :=
  (contexts handle).bind w.get

/-- The replies to the calls that are made for this handle. -/
def repliesOf (handle : ℕ) : List Callback → List Reply → List Reply
  | call :: calls, reply :: replies =>
    if call.handle = some handle then reply :: repliesOf handle calls replies
    else repliesOf handle calls replies
  | _, _ => []

/-- If the call is a read, its lookups look at nothing that other calls may change. -/
def ReadStays (fs : ExtFilesystem) (inode : Ext2Inode) : Callback → Prop
  | .readFile _ _ bufferLength offset =>
    0 ≤ int32 offset ∧
      StaysInside fs inode (int32 offset).toNat (min bufferLength inode.size)
  | _ => True

instance (fs : ExtFilesystem) (inode : Ext2Inode) (call : Callback) :
    Decidable (ReadStays fs inode call) := by
  unfold ReadStays
  split <;> infer_instance

theorem ReadStays.congr {fs : ExtFilesystem} {inode inode' : Ext2Inode} {call : Callback}
    (h : ReadStays fs inode call) (hinode : SameInode inode inode') :
    ReadStays fs inode' call := by
  unfold ReadStays at h ⊢
  rw [sameInode_size hinode]
  split
  · exact ⟨h.1, h.2.congr hinode⟩
  · trivial

section Reads
variable {fs : ExtFilesystem} (hsteady : Steady fs.devDesc.disk)
include hsteady

theorem reads_steady : Reads (requestWatch fun _ _ => True) (fun _ _ => True) fs.devDesc
    (PartDescr.on fs.devDesc fs.devDesc.disk fs.devDesc.off) := by
  intro start num buf dst
  apply diskRead_simulates
  intro log log' _ _ r hrun
  obtain ⟨hfails, hleft⟩ := hsteady log log' ⟨int64 (start + fs.devDesc.off), num⟩
  rw [diskRead_eq, hfails, hleft] at hrun
  change diskRead fs.devDesc.disk (int64 (start + fs.devDesc.off)) num buf dst log' = _ ∧ True
  rw [diskRead_eq]
  cases hrun
  exact ⟨rfl, trivial⟩

/-- A read gives the same at any time. -/
theorem readFile_steady {fuel : ℕ} {filp : Option Ext2fsNode} {buffer : Bytes}
    {bufferLength : ℕ} {offset : ℤ} {log log₁ : Log} {r : ReadResult}
    (h : readFile fs fuel filp buffer bufferLength offset log = .ok (r, log₁)) (log' : Log) :
    ∃ log₂, readFile fs fuel filp buffer bufferLength offset log' = .ok (r, log₂) := by
  obtain ⟨log₂, hrun, -⟩ := (readFile_simulates (reads_steady hsteady) fuel filp buffer
    bufferLength offset).follows log log' r log₁ trivial h fun _ _ _ => trivial
  exact ⟨log₂, hrun⟩

end Reads

section Files
variable {fs : ExtFilesystem} (hlog : fs.sblock.log2BlockSize ≤ 20) (hblksz : fs.blksz = 0)
  (hsteady : Steady fs.devDesc.disk)
include hlog hblksz hsteady

/-- A read of one file gives the same at any time and in any memory. -/
theorem readFile_same {fuel : ℕ} (memory : Bytes) {file file' : Ext2fsNode}
    (h : SameNode fs file file') {buffer : Bytes} {bufferLength : ℕ} {offset : ℤ} {handle : ℕ}
    (hstays : ReadStays fs file.inode (.readFile handle buffer bufferLength offset))
    {log log₁ : Log} {r : ReadResult}
    (hrun : readFile fs (fuel + 2) (some file) buffer bufferLength offset log = .ok (r, log₁))
    (log' : Log) :
    ∃ r' log₂, readFile (onMemory fs memory) (fuel + 2) (some file') buffer bufferLength offset
        log' = .ok (r', log₂) ∧
      (r'.status = r.status ∧ r'.readLength = r.readLength ∧ r'.buffer = r.buffer) ∧
      ∃ m m', (r.filp = some m ∧ r'.filp = some m') ∧ SameNode fs m m' ∧ m.inode = file.inode := by
  obtain ⟨log₂, hthen⟩ := readFile_steady hsteady hrun log'
  obtain ⟨⟨nrd, m, data⟩, log₃, hread, hpure⟩ := bind_eq_ok hthen
  cases hpure
  obtain ⟨hpos, hinside⟩ := hstays
  obtain ⟨pos, hoffset⟩ : ∃ pos : ℕ, int32 offset = pos := ⟨(int32 offset).toNat, by omega⟩
  have hread' : ext4fsReadFile fs (fuel + 2) file pos bufferLength buffer log' =
      .ok ((nrd, m, data), log₂) := hoffset ▸ hread
  rw [hoffset, Int.toNat_natCast] at hinside
  have halike := ext4fsReadFile_same memory hlog hblksz fuel h hinside buffer buffer log'
  rw [hread'] at halike
  rcases htwo : ext4fsReadFile (onMemory fs memory) (fuel + 2) file' pos bufferLength buffer log'
    with e | ⟨⟨nrd', m', data'⟩, log₄⟩ <;> rw [htwo] at halike
  · exact halike.elim
  obtain ⟨-, hnrd, hnode, hkept, -⟩ := halike
  have hdata : data' = data := funext fun j => hkept j rfl
  dsimp only at hnrd
  subst hnrd
  have hrun' : readFile (onMemory fs memory) (fuel + 2) (some file') buffer bufferLength offset
      log' = .ok (⟨0, some (uint32 nrd'), some m', data'⟩, log₄) := by
    unfold readFile
    dsimp only
    rw [hoffset]
    exact bind_ok htwo
  exact ⟨_, _, hrun', ⟨rfl, rfl, hdata⟩, m, m', ⟨rfl, rfl⟩, hnode, ext4fsReadFile_inode hread'⟩

end Files

theorem fileOf_some {contexts : Contexts} {w : World} {handle : ℕ} {node : NodeRef}
    (hnode : contexts handle = some node) : fileOf contexts w handle = w.get node := by
  rw [fileOf, hnode]
  rfl

theorem fileOf_untouched {contexts contexts' : Contexts} {w w' : World} {handle : ℕ}
    (h : Untouched handle contexts contexts' w w') :
    fileOf contexts' w' handle = fileOf contexts w handle := by
  unfold fileOf
  rw [h.1]
  cases hnode : contexts handle with
  | none => rfl
  | some node => exact h.2 node hnode

@[simp] theorem fileOf_clear (contexts : Contexts) (w : World) (handle : ℕ) :
    fileOf (Function.update contexts handle none) w handle = none := by simp [fileOf]

/-- Neither handle has a file, or they have the same one. -/
def SameFile (fs : ExtFilesystem) (file file' : Option Ext2fsNode) : Prop :=
  Option.Rel (SameNode fs) file file'

section Files
variable {fs : ExtFilesystem}

theorem sameFile_refl (file : Option Ext2fsNode) : SameFile fs file file := by
  cases file with
  | none => exact Option.Rel.none
  | some n => exact Option.Rel.some (.refl fs n)

theorem SameFile.symm {file file' : Option Ext2fsNode} (h : SameFile fs file file') :
    SameFile fs file' file := by
  cases h with
  | none => exact Option.Rel.none
  | some hsame => exact Option.Rel.some hsame.symm

theorem SameFile.trans {file file' file'' : Option Ext2fsNode} (h : SameFile fs file file')
    (h' : SameFile fs file' file'') : SameFile fs file file'' := by
  cases h with
  | none => exact h'
  | some hsame =>
    cases h' with
    | some hsame' => exact Option.Rel.some (hsame.trans hsame')

/-- What is in reach of the reads of a file is a matter of its inode. -/
theorem SameFile.stays {file file' : Option Ext2fsNode} (h : SameFile fs file file')
    {call : Callback} (hstays : ∀ n ∈ file, ReadStays fs n.inode call) :
    ∀ n ∈ file', ReadStays fs n.inode call := by
  cases h with
  | none => exact fun n hn => nomatch hn
  | @some n n' hsame =>
    intro m hm
    obtain rfl := Option.some.inj hm
    exact (hstays n rfl).congr hsame.inode

/-- Whatever happens to the memory, the files of the handles are the same. -/
theorem fileOf_disturbed (contexts : Contexts) {w w' : World} (h : SameWorld fs w w')
    (handle : ℕ) : SameFile fs (fileOf contexts w handle) (fileOf contexts w' handle) := by
  unfold fileOf
  cases contexts handle with
  | none => exact Option.Rel.none
  | some node => exact h.nodes node

theorem held_disturbed {contexts : Contexts} {w w' : World} (h : Held contexts w)
    (hsame : SameWorld fs w w') : Held contexts w' := by
  refine ⟨fun handle node hnode => ?_, h.apart⟩
  obtain ⟨id, rfl, hid⟩ := h.live handle node hnode
  refine ⟨id, rfl, ?_⟩
  rcases hsame.cases (.alloc id) with ⟨hnone, -⟩ | ⟨n, n', ⟨-, hn'⟩, -⟩
  · rw [mem_live, hnone] at hid
    cases hid
  · rw [mem_live, hn']
    rfl

/-- Neither handle has a node, or both have one of the same file. -/
theorem same_file {contexts contexts' : Contexts} {w w' : World} (h : Held contexts w)
    (h' : Held contexts' w') {handle : ℕ}
    (hfile : SameFile fs (fileOf contexts w handle) (fileOf contexts' w' handle)) :
    (contexts handle = none ∧ contexts' handle = none) ∨ ∃ node node' file file',
      (contexts handle = some node ∧ contexts' handle = some node') ∧
        (w.get node = some file ∧ w'.get node' = some file') ∧ SameNode fs file file' := by
  cases hnode : contexts handle with
  | none =>
    cases hnode' : contexts' handle with
    | none => exact Or.inl ⟨rfl, rfl⟩
    | some node' =>
      obtain ⟨file', hget'⟩ := Option.isSome_iff_exists.mp (h'.isSome hnode')
      rw [fileOf_some hnode', hget', fileOf, hnode] at hfile
      cases hfile
  | some node =>
    obtain ⟨file, hget⟩ := Option.isSome_iff_exists.mp (h.isSome hnode)
    rw [fileOf_some hnode, hget] at hfile
    cases hnode' : contexts' handle with
    | none =>
      rw [fileOf, hnode'] at hfile
      cases hfile
    | some node' =>
      obtain ⟨file', hget'⟩ := Option.isSome_iff_exists.mp (h'.isSome hnode')
      rw [fileOf_some hnode', hget'] at hfile
      cases hfile with
      | some hsame => exact Or.inr ⟨node, node', file, file', ⟨rfl, rfl⟩, ⟨hget, hget'⟩, hsame⟩

end Files

/-- Two calls for a handle that return the same and leave the same file, with the inode of
the file before them. -/
def SameReply (fs : ExtFilesystem) (handle : ℕ) (file : Option Ext2fsNode) {α : Type} (r : α)
    (contexts : Contexts) (w : World) (r' : α) (contexts' : Contexts) (w' : World) : Prop :=
  r' = r ∧ SameFile fs (fileOf contexts w handle) (fileOf contexts' w' handle) ∧
    ∀ n ∈ fileOf contexts w handle, ∃ n₀ ∈ file, n.inode = n₀.inode

section Calls
variable (api : Conversions) {fs : ExtFilesystem} (fuel steps : ℕ)
  {contexts contexts' : Contexts} {w w' : World} (h : Held contexts w) (h' : Held contexts' w')
  {handle : ℕ} (hfile : SameFile fs (fileOf contexts w handle) (fileOf contexts' w' handle))

/-- A handle without a file. -/
theorem sameReply_clear {α : Type} (file : Option Ext2fsNode) (r : α) (w w' : World) :
    SameReply fs handle file r (Function.update contexts handle none) w r
      (Function.update contexts' handle none) w' := by
  refine ⟨rfl, ?_, fun n hn => ?_⟩
  · rw [fileOf_clear, fileOf_clear]
    exact Option.Rel.none
  · rw [fileOf_clear] at hn
    cases hn

include hfile

theorem sameReply_kept {α : Type} (r : α) :
    SameReply fs handle (fileOf contexts w handle) r contexts w r contexts' w' :=
  ⟨rfl, hfile, fun n hn => ⟨n, hn, rfl⟩⟩

include h h'

/-- Closing a handle frees its node, in both sessions. -/
theorem closeFile_alike : OnReturn (closeFile handle contexts) w fun r w₁ =>
    Yields (closeFile handle contexts') w' fun r' w₂ =>
      SameReply fs handle (fileOf contexts w handle) r.1 r.2 w₁ r'.1 r'.2 w₂ := by
  unfold closeFile
  rcases same_file h h' hfile with ⟨hnone, hnone'⟩ | ⟨node, node', _, _, ⟨hnode, hnode'⟩, -, -⟩
  · rw [hnone, hnone']
    exact OnReturn.pure (Yields.pure (sameReply_kept hfile _))
  · rw [hnode, hnode']
    intro r w₁ hrun
    obtain ⟨_, w₂, hclose, hpure⟩ := bind_eq_ok hrun
    cases hpure
    obtain ⟨id, rfl, hid⟩ := h'.live handle node' hnode'
    have hfree : ext4fsFreeNode (.alloc id) .diropen w' = .ok ((), w'.remove id) := if_pos hid
    exact Yields.of_run (bind_ok hfree) (sameReply_clear _ _ _ _)

theorem statHandle_alike (info : FileInformation) :
    OnReturn (statHandle (contexts handle) info) w fun r w₁ =>
      Yields (statHandle (contexts' handle) info) w' fun r' w₂ =>
        SameReply fs handle (fileOf contexts w handle) r contexts w₁ r' contexts' w₂ := by
  rcases same_file h h' hfile with ⟨hnone, hnone'⟩ |
    ⟨node, node', file, file', ⟨hnode, hnode'⟩, ⟨hget, hget'⟩, hsame⟩
  · rw [hnone, hnone']
    exact OnReturn.pure (Yields.pure (sameReply_kept hfile _))
  · rw [hnode, hnode']
    intro r w₁ hrun
    have hone : statHandle (some node) info w = _ := bind_ok (deref_run hget)
    have htwo : statHandle (some node') info w' = _ := bind_ok (deref_run hget')
    have hinfo : getFileInformation (some file') info = getFileInformation (some file) info := by
      have hhigh : file'.inode.dirAcl = file.inode.dirAcl :=
        sameInode_le32 hsame.inode (by decide)
      simp only [getFileInformation, ext4fsFileEntryStat, sameInode_size hsame.inode, hhigh]
    cases hone.symm.trans hrun
    refine Yields.of_run htwo ?_
    dsimp only
    rw [hinfo]
    exact sameReply_kept hfile _

/-- Both reads find the same file, and leave the same file. -/
theorem readHandle_alike (hlog : fs.sblock.log2BlockSize ≤ 20) (hblksz : fs.blksz = 0)
    (hsteady : Steady fs.devDesc.disk) (memory memory' : Bytes) (buffer : Bytes)
    (bufferLength : ℕ) (offset : ℤ)
    (hstays : ∀ n ∈ fileOf contexts w handle,
      ReadStays fs n.inode (.readFile handle buffer bufferLength offset)) :
    OnReturn (readHandle (onMemory fs memory) (fuel + 2) (contexts handle) buffer bufferLength
        offset) w fun r w₁ =>
      Yields (readHandle (onMemory fs memory') (fuel + 2) (contexts' handle) buffer bufferLength
        offset) w' fun r' w₂ =>
          SameReply fs handle (fileOf contexts w handle) r contexts w₁ r' contexts' w₂ := by
  rcases same_file h h' hfile with ⟨hnone, hnone'⟩ |
    ⟨node, node', file, file', ⟨hnode, hnode'⟩, ⟨hget, hget'⟩, hsame⟩
  · rw [hnone, hnone']
    intro r w₁ hrun
    cases hrun
    exact Yields.pure (sameReply_kept hfile _)
  · have hold := fileOf_some (w := w) hnode
    rw [hold] at hstays ⊢
    rw [hnode, hnode']
    intro r w₁ hrun
    obtain ⟨result, log, hread, rfl, rfl⟩ := readHandle_eq_ok hget hrun
    obtain ⟨hpos, hinside⟩ := hstays file hget
    -- the memory of the first read is as unknown as that of the second one
    have hinside' := (staysInside_onMemory fs memory _ _ file.inode).mpr hinside
    obtain ⟨result', log', hread', ⟨hstatus, hlength, hbuffer⟩, m, m', ⟨hm, hm'⟩, hnodes, hinode⟩ :=
      @readFile_same (onMemory fs memory) hlog hblksz hsteady fuel memory' file file'
        ((sameNode_onMemory memory).mpr hsame) buffer bufferLength offset handle ⟨hpos, hinside'⟩
        w.log log result hread w'.log
    have hfirst : (World.set (w.withLog log) node (result.filp.getD file)).get node = some m := by
      rw [get_set_self _ _ _ (by simp [hget]), hm]
      rfl
    have hsecond : (World.set (w'.withLog log') node' (result'.filp.getD file')).get node' =
        some m' := by
      rw [get_set_self _ _ _ (by simp [hget']), hm']
      rfl
    refine Yields.of_run (readHandle_run hget' hread') ⟨?_, ?_, fun n hn => ?_⟩
    · rw [hstatus, hlength, hbuffer]
    · rw [fileOf_some hnode, fileOf_some hnode', hfirst, hsecond]
      exact Option.Rel.some ((sameNode_onMemory memory).mp hnodes)
    · rw [fileOf_some hnode, hfirst] at hn
      obtain rfl := Option.some.inj hn
      exact ⟨file, hget, hinode⟩

/-- What a handle gets depends on its file, whatever else there is. -/
theorem callback_alike (hlog : fs.sblock.log2BlockSize ≤ 20) (hblksz : fs.blksz = 0)
    (hsteady : Steady fs.devDesc.disk) (memory memory' : Bytes) (call : Callback)
    (hcall : call.handle = some handle) (hsearch : ¬ call.Searches)
    (hstays : ∀ n ∈ fileOf contexts w handle, ReadStays fs n.inode call) :
    OnReturn (callback api (onMemory fs memory) (fuel + 2) steps call contexts) w fun r w₁ =>
      Yields (callback api (onMemory fs memory') (fuel + 2) steps call contexts') w' fun r' w₂ =>
        SameReply fs handle (fileOf contexts w handle) r.1 r.2 w₁ r'.1 r'.2 w₂ := by
  cases call with
  | createFile _ fileName isDirectory =>
    cases hcall
    obtain rfl : isDirectory = true := by simpa [Callback.Searches] using hsearch
    exact OnReturn.pure (Yields.pure (sameReply_clear _ _ _ _))
  | openDirectory _ =>
    cases hcall
    exact OnReturn.pure (Yields.pure (sameReply_clear _ _ _ _))
  | closeFile _ =>
    cases hcall
    exact closeFile_alike h h' hfile
  | readFile _ buffer bufferLength offset =>
    cases hcall
    exact (readHandle_alike fuel h h' hfile hlog hblksz hsteady memory memory' buffer bufferLength
      offset hstays).bind fun _ _ hr => OnReturn.pure (hr.bind fun _ _ hr' => Yields.pure hr')
  | getFileInformation _ info =>
    cases hcall
    exact (statHandle_alike h h' hfile info).bind fun _ _ hr =>
      OnReturn.pure (hr.bind fun _ _ hr' => Yields.pure hr')
  | findFiles _ => cases hcall
  | getDiskFreeSpace => cases hcall
  | getVolumeInformation _ => cases hcall
  | ignored _ => cases hcall

end Calls

section Sessions
variable (api : Conversions) {fs : ExtFilesystem} (fuel steps : ℕ) {handle : ℕ}

/-- The calls of a session, without what happens around them. -/
def callsOf (turns : List (Turn fs)) : List Callback := turns.map fun turn => turn.call

theorem callsOf_cons (turn : Turn fs) (turns : List (Turn fs)) :
    callsOf (turn :: turns) = turn.call :: callsOf turns := rfl

theorem callsOf_map (f : Callback → Turn fs) (hf : ∀ call, (f call).call = call)
    (calls : List Callback) : callsOf (calls.map f) = calls := by
  simp [callsOf, Function.comp_def, hf]

/-- A session that returns: its first call returns, and so does the rest. -/
theorem serveTurns_cons {turn : Turn fs} {turns : List (Turn fs)} {contexts : Contexts}
    {w w₂ : World} {r : List Reply × Contexts}
    (hrun : serveTurns api fs fuel steps (turn :: turns) contexts w = .ok (r, w₂)) :
    ∃ reply contexts₁ w₁ replies,
      callback api (onMemory fs turn.memory) fuel steps turn.call contexts (turn.disturb w) =
        .ok ((reply, contexts₁), w₁) ∧
      serveTurns api fs fuel steps turns contexts₁ w₁ = .ok ((replies, r.2), w₂) ∧
      r.1 = reply :: replies := by
  obtain ⟨_, w₀, hdisturbed, hrun⟩ := bind_eq_ok hrun
  cases hdisturbed
  obtain ⟨⟨reply, contexts₁⟩, w₁, hcallback, hrun⟩ := bind_eq_ok hrun
  obtain ⟨⟨replies, contexts₂⟩, w₃, hserve, hpure⟩ := bind_eq_ok hrun
  cases hpure
  exact ⟨reply, contexts₁, w₁, replies, hcallback, hserve, rfl⟩

theorem serveTurns_held (turns : List (Turn fs)) {contexts : Contexts} {w : World}
    (h : Held contexts w) :
    OnReturn (serveTurns api fs fuel steps turns contexts) w fun r w' => Held r.2 w' := by
  induction turns generalizing contexts w with
  | nil => exact OnReturn.pure h
  | cons turn turns ih =>
    intro r w₂ hrun
    obtain ⟨reply, contexts₁, w₁, replies, hcallback, hserve, -⟩ :=
      serveTurns_cons api fuel steps hrun
    have hheld := held_disturbed h (turn.same w)
    have hheld₁ := (callback_held api _ fuel steps hheld turn.call _ _ hcallback).1
    exact ih hheld₁ (replies, r.2) w₂ hserve

variable (hlog : fs.sblock.log2BlockSize ≤ 20) (hblksz : fs.blksz = 0)
  (hsteady : Steady fs.devDesc.disk)
include hlog hblksz hsteady

/-- The session that is left when only the calls for one handle are made gives
the same replies to them. -/
theorem serveTurns_alike (turns own : List (Turn fs))
    (hown : callsOf own = (callsOf turns).filter (·.handle = some handle))
    (hcalls : ∀ call ∈ callsOf turns, call.handle = some handle → ¬ call.Searches)
    {contexts contexts' : Contexts} {w w' : World} (h : Held contexts w) (h' : Held contexts' w')
    (hfile : SameFile fs (fileOf contexts w handle) (fileOf contexts' w' handle))
    (hstays : ∀ n ∈ fileOf contexts w handle, ∀ call ∈ callsOf turns,
      call.handle = some handle → ReadStays fs n.inode call) :
    OnReturn (serveTurns api fs (fuel + 2) steps turns contexts) w fun r _ =>
      Yields (serveTurns api fs (fuel + 2) steps own contexts') w'
        fun r' _ => r'.1 = repliesOf handle (callsOf turns) r.1 := by
  induction turns generalizing own contexts contexts' w w' with
  | nil =>
    obtain rfl : own = [] := List.map_eq_nil_iff.mp hown
    exact OnReturn.pure (Yields.pure rfl)
  | cons turn turns ih =>
    intro r w₂ hrun
    obtain ⟨reply, contexts₁, w₁, replies, hcallback, hserve, hreplies₁⟩ :=
      serveTurns_cons api (fuel + 2) steps hrun
    have hheld := held_disturbed h (turn.same w)
    have hfile₀ := fileOf_disturbed contexts (turn.same w) handle
    have hstays₀ : ∀ call ∈ callsOf (turn :: turns), call.handle = some handle →
        ∀ n ∈ fileOf contexts (turn.disturb w) handle, ReadStays fs n.inode call :=
      fun call hmem hcall => hfile₀.stays fun n hn => hstays n hn call hmem hcall
    obtain ⟨hheld₁, hisolated⟩ := callback_held api _ (fuel + 2) steps hheld turn.call _ _ hcallback
    have hrest : ∀ call ∈ callsOf turns, call.handle = some handle → ¬ call.Searches :=
      fun call hmem => hcalls call (List.mem_cons_of_mem _ hmem)
    rw [callsOf_cons] at hown ⊢
    by_cases hcall : turn.call.handle = some handle
    · -- the call is made in both sessions
      rw [List.filter_cons_of_pos (by simpa using hcall)] at hown
      obtain ⟨turn', own, rfl, hturn, hown⟩ := List.map_eq_cons_iff.mp hown
      have hheld' := held_disturbed h' (turn'.same w')
      have hfile' := (hfile₀.symm.trans hfile).trans
        (fileOf_disturbed contexts' (turn'.same w') handle)
      have halike := callback_alike api fuel steps hheld hheld' hfile' hlog hblksz hsteady
        turn.memory turn'.memory turn.call hcall
        (hcalls turn.call (List.mem_cons_self ..) hcall)
        (hstays₀ turn.call (List.mem_cons_self ..) hcall) _ _ hcallback
      rw [← hturn] at halike
      obtain ⟨⟨reply', contexts₁'⟩, w₁', hrun', hreply, hfile₁, hinode⟩ := halike
      dsimp only at hreply hfile₁ hinode
      subst hreply
      have hheld₁' := (callback_held api _ (fuel + 2) steps hheld' turn'.call _ _ hrun').1
      have hstays₁ : ∀ n ∈ fileOf contexts₁ w₁ handle, ∀ call ∈ callsOf turns,
          call.handle = some handle → ReadStays fs n.inode call := by
        intro n hn call hmem hhandle
        obtain ⟨n₀, hn₀, heq⟩ := hinode n hn
        rw [heq]
        exact hstays₀ call (List.mem_cons_of_mem _ hmem) hhandle n₀ hn₀
      obtain ⟨⟨replies', contexts₂'⟩, w₂', hserve', hreplies⟩ :=
        ih own hown hrest hheld₁ hheld₁' hfile₁ hstays₁ _ _ hserve
      refine Yields.of_run ((bind_ok rfl).trans ((bind_ok hrun').trans (bind_ok hserve'))) ?_
      rw [hreplies₁]
      simpa [repliesOf, hcall] using hreplies
    · rw [List.filter_cons_of_neg (by simpa using hcall)] at hown
      have hsame := fileOf_untouched (hisolated handle hcall)
      have hfile₁ : SameFile fs (fileOf contexts₁ w₁ handle) (fileOf contexts' w' handle) := by
        rw [hsame]
        exact hfile₀.symm.trans hfile
      have hstays₁ : ∀ n ∈ fileOf contexts₁ w₁ handle, ∀ call ∈ callsOf turns,
          call.handle = some handle → ReadStays fs n.inode call := by
        rw [hsame]
        exact fun n hn call hmem hhandle =>
          hstays₀ call (List.mem_cons_of_mem _ hmem) hhandle n hn
      have hstep := ih own hown hrest hheld₁ h' hfile₁ hstays₁ _ _ hserve
      rw [hreplies₁]
      simpa [repliesOf, hcall] using hstep

end Sessions

section Mounted
variable (api : Conversions) {past : Bytes} {part : PartDescr} {fs : ExtFilesystem}
  {root : Ext2fsNode} {log log' : Log} (fuel steps : ℕ) {handle : ℕ}

end Mounted

/-- The file f, twice. -/
def twoHandles : List Callback :=
  [.createFile 0 [separator, 0x66] false, .createFile 1 [separator, 0x66] false]

def mixedCalls : List Callback :=
  [.readFile 1 (fun _ => 0) 4 0, .readFile 0 (fun _ => 0) 4 0, .findFiles [], .closeFile 1,
    .createFile 2 [separator, 0x66] false, .readFile 0 (fun _ => 0) 4 0, .closeFile 0]

/-- Calls that leave other bytes behind. -/
def untidy (fs : ExtFilesystem) (call : Callback) : Turn fs :=
  ⟨call, fun _ => 1, id, SameWorld.refl fs⟩

end Eokan.Interleaving
