import Eokan.SessionHandles
import Eokan.TreeOpens
import Eokan.Volumes

/-!
A mounted tree is a volume. In a session each call answers as the volume does,
as long as reads stay inside the files. Links are followed on the way to a file,
and the calls for different handles may be mixed in any order.
-/
namespace Eokan.TreeVolumes

open ByteMem CInt Programs Device Layout Mount ReadFile ReadPlan FileMaps FileContent DokanRead
  NodeHeap NodeRuns Directory Entries DirectoryReads Resolve Trees TreesOnDisk TreeOpens FileNames
  Sessions SessionHandles Volumes

/-- What is asked without a handle. -/
inductive Question
  | listing (fileName : List UInt16)
  | space
  | volume (volumeNameSize : ℕ)
  | ignored (function : Ignored)

section Volumes
variable (api : Conversions)

/-- The command that a call gives to the volume. -/
def commandOf : Callback → Command (List UInt8) Question
  | .createFile handle fileName isDirectory =>
    if isDirectory then .drop handle else .openFile handle (getFilePath api maxPath fileName)
  | .openDirectory handle => .drop handle
  | .closeFile handle => .drop handle
  | .readFile handle _ bufferLength offset => .read handle offset.toNat bufferLength
  | .getFileInformation handle info => .size handle info.size
  | .findFiles fileName => .query (.listing fileName)
  | .getDiskFreeSpace => .query .space
  | .getVolumeInformation volumeNameSize => .query (.volume volumeNameSize)
  | .ignored function => .query (.ignored function)

/-- What a reply tells the caller. A read has as many bytes as it counts. -/
def answerOf (call : Callback) (reply : Reply) : Answer Reply :=
  match reply with
  | .status status => if call.handle.isSome ∧ status = 0 then .done else .info reply
  | .read status readLength buffer =>
    if status = 0 then .bytes (readLength.map fun n => (List.range n.toNat).map buffer)
    else .info reply
  | .information info => .size info.size
  | _ => .info reply

variable (fs : ExtFilesystem) (t : Tree) (data : ℤ → Bytes)

/-- The volume that a tree is, where data is what the files contain. -/
def volume : Volume (List UInt8) ℤ Question Reply where
  file := fileAt t
  size ino := (t.inode ino).dirAcl * 2 ^ 32 + (t.inode ino).size
  content := data
  info
    | .listing fileName =>
      .files 0 (match directoryAt t (getFilePath api maxPath fileName) with
        | none => []
        | some ino => reports api t ino)
    | .space => getDiskFreeSpace fs
    | .volume volumeNameSize =>
      match getVolumeInformation api fs volumeNameSize with
      | .ok reply => reply
      | .error _ => .status (-1)
    | .ignored function => .status function.status

/-- Offsets are not negative, and the label fits where it is copied to. -/
def Proper : Callback → Prop
  | .readFile _ _ _ offset => 0 ≤ offset
  | .getVolumeInformation volumeNameSize =>
    ∃ reply, getVolumeInformation api fs volumeNameSize = .ok reply
  | _ => True

end Volumes

theorem commandOf_handle (api : Conversions) (call : Callback) :
    (commandOf api call).handle = call.handle := by
  cases call with
  | createFile handle fileName isDirectory => cases isDirectory <;> rfl
  | _ => rfl

/-- Regular files can be read. -/
def Stored (t : Tree) (fs : ExtFilesystem) (fuel : ℕ) (states : ℤ → Ext2fsNode → Prop)
    (data : ℤ → Bytes) : Prop :=
  ∀ ino ∈ t.nodes, t.type ino = .reg → (t.inode ino).dirAcl = 0 ∧
    ReadableFile fs fuel (states ino) (t.inode ino).size (data ino)

/-- The node behind a handle is one of its file. -/
def Backs (t : Tree) (states : ℤ → Ext2fsNode → Prop) (file : Option ℤ) (filp : Option NodeRef)
    (w : World) : Prop :=
  match filp with
  | none => file = none
  | some node => ∃ ino n, file = some ino ∧ ino ∈ t.nodes ∧ t.type ino = .reg ∧
      w.get node = some n ∧ states ino n

/-- The handles have the files that they have in the volume. -/
structure Mirrors (t : Tree) (fs : ExtFilesystem) (states : ℤ → Ext2fsNode → Prop)
    (files : Files ℤ) (contexts : Contexts) (w : World) : Prop where
  held : Held contexts w
  root : t.Stands fs states .diropen t.root w
  files : ∀ handle, Backs t states (files handle) (contexts handle) w

section Calls
variable {t : Tree} {fs : ExtFilesystem} {fuel steps : ℕ} {states : ℤ → Ext2fsNode → Prop}
  {data : ℤ → Bytes} {api : Conversions} {files : Files ℤ} {contexts : Contexts} {w w' : World}

theorem stands_of_get {ref : NodeRef} {ino : ℤ} (hget : w'.get ref = w.get ref)
    (h : t.Stands fs states ref ino w) : t.Stands fs states ref ino w' := by
  obtain ⟨n, hn, hbelongs⟩ := h
  exact ⟨n, hget.trans hn, hbelongs⟩

theorem Backs.untouched {file : Option ℤ} {handle : ℕ} {contexts' : Contexts}
    (h : Backs t states file (contexts handle) w)
    (hsame : Untouched handle contexts contexts' w w') :
    Backs t states file (contexts' handle) w' := by
  rw [hsame.1]
  unfold Backs at h ⊢
  cases hfilp : contexts handle with
  | none =>
    rw [hfilp] at h
    exact h
  | some node =>
    rw [hfilp] at h
    obtain ⟨ino, n, hfile, hmem, htype, hget, hstate⟩ := h
    exact ⟨ino, n, hfile, hmem, htype, (hsame.2 node hfilp).trans hget, hstate⟩

/-- What a call does to its own handle is all that there is to show. -/
theorem mirrors_of_own {call : Callback} (h : Mirrors t fs states files contexts w)
    (hrun : Yields (callback api fs fuel steps call contexts) w fun r w' =>
      answerOf call r.1 = ((volume api fs t data).step files (commandOf api call)).1 ∧
      t.Stands fs states .diropen t.root w' ∧
      ∀ handle, call.handle = some handle →
        Backs t states (((volume api fs t data).step files (commandOf api call)).2 handle)
          (r.2 handle) w') :
    Yields (callback api fs fuel steps call contexts) w fun r w' =>
      answerOf call r.1 = ((volume api fs t data).step files (commandOf api call)).1 ∧
      Mirrors t fs states ((volume api fs t data).step files (commandOf api call)).2 r.2 w' := by
  obtain ⟨r, w', hok, hanswer, hroot, hown⟩ := hrun
  obtain ⟨hheld, hisolated⟩ := callback_held api fs fuel steps h.held call r w' hok
  refine ⟨r, w', hok, hanswer, hheld, hroot, fun handle => ?_⟩
  by_cases hhandle : call.handle = some handle
  · exact hown handle hhandle
  · have hother : (commandOf api call).handle ≠ some handle := by rwa [commandOf_handle]
    rw [(volume api fs t data).step_other hother]
    exact (h.files handle).untouched (hisolated handle hhandle)

/-- Information about the volume is passed on as it is. -/
theorem answerOf_volume {volumeNameSize : ℕ} {reply : Reply}
    (h : getVolumeInformation api fs volumeNameSize = .ok reply) :
    answerOf (.getVolumeInformation volumeNameSize) reply = .info reply := by
  unfold getVolumeInformation at h
  cases hlabel : VolumeLabel.vfsLabel none fs (fun _ => 0) maxPath with
  | ok r =>
    rw [hlabel] at h
    cases h
    rfl
  | error e =>
    rw [hlabel] at h
    cases h

/-- A listing that is passed on is collected entry by entry. -/
theorem passOn_reports (api : Conversions) (t : Tree) (ino : ℤ) :
    passOn t.contents (listAllFiles api fun found data => found ++ [data])
      ((t.entries ino).filter (·.name ≠ [])) [] = reports api t ino := by
  have hfold : ∀ (calls : List (List UInt8 × Xstat × Bool)) (found : List FindData),
      calls.foldl (fun found call => found ++ [findData api call.1 call.2.1 call.2.2]) found =
        found ++ calls.map fun call => findData api call.1 call.2.1 call.2.2 := by
    intro calls
    induction calls with
    | nil => simp
    | cons call calls ih => simp [ih]
  exact hfold _ []

/-- A read inside a file gives its bytes. -/
theorem readFile_stored (hstored : Stored t fs fuel states data) {ino : ℤ} (hmem : ino ∈ t.nodes)
    (htype : t.type ino = .reg) {n : Ext2fsNode} (hstate : states ino n) (buffer : Bytes)
    {len : ℕ} {offset : ℤ} (hoffset : 0 ≤ offset) (hlen : 1 ≤ len)
    (hfits : offset.toNat + len ≤ (volume api fs t data).size ino) (log : Log) :
    Yields (readFile fs fuel (some n) buffer len offset) log fun r _ =>
      r.status = 0 ∧ r.readLength = some (len : ℤ) ∧
        (List.range len).map r.buffer = (volume api fs t data).range ino offset.toNat len ∧
        ∃ n', r.filp = some n' ∧ states ino n' := by
  obtain ⟨hhigh, hfile⟩ := hstored ino hmem htype
  have hsize : offset.toNat + len ≤ (t.inode ino).size := by
    change _ ≤ (t.inode ino).dirAcl * 2 ^ 32 + (t.inode ino).size at hfits
    rw [hhigh] at hfits
    omega
  have hmax : (t.inode ino).size < 2 ^ 32 := le32_lt _ _
  have hpos : (offset.toNat : ℤ) = offset := Int.toNat_of_nonneg hoffset
  have hread := hfile.read n hstate offset.toNat len hlen hsize buffer log
  rw [hpos] at hread
  refine Yields.bind hread fun r log' ⟨hvalid, hcount, hbytes⟩ => ?_
  obtain ⟨nrd, n', buffer'⟩ := r
  obtain rfl : nrd = len := hcount
  have hcounted : uint32 (len : ℤ) = len := uint32_of_range _ (by omega) (by omega)
  refine Yields.pure ⟨rfl, congrArg some hcounted, ?_, n', rfl, hvalid⟩
  exact List.map_congr_left fun j hj => hbytes j (List.mem_range.mp hj)

section Own
variable (h : Mirrors t fs states files contexts w)
include h

theorem closeFile_mirrors (handle : ℕ) :
    Yields (callback api fs fuel steps (.closeFile handle) contexts) w fun r w' =>
      r.1 = .status 0 ∧ t.Stands fs states .diropen t.root w' ∧ r.2 handle = none := by
  change Yields (closeFile handle contexts) w _
  unfold closeFile
  cases hfilp : contexts handle with
  | none => exact Yields.pure ⟨rfl, h.root, hfilp⟩
  | some filp =>
    obtain ⟨id, rfl, hid⟩ := h.held.live handle filp hfilp
    have hfree : Yields (vfsFileClose (.alloc id)) w fun _ w' => w' = w.remove id :=
      ⟨(), w.remove id, if_pos hid, rfl⟩
    refine Yields.bind hfree fun _ w₁ hw₁ => ?_
    subst hw₁
    refine Yields.pure ⟨rfl, stands_of_get (get_remove_of_ne w .diropen id ?_) h.root, ?_⟩
    · exact NodeRef.noConfusion
    · simp

/-- The node of a file changes with a read, and it stays one of the file. -/
theorem readHandle_mirrors (hstored : Stored t fs fuel states data) (handle : ℕ)
    (buffer : Bytes) {len : ℕ} {offset : ℤ} (hoffset : 0 ≤ offset)
    (hinside : (volume api fs t data).Inside files (.read handle offset.toNat len)) :
    Yields (readHandle fs fuel (contexts handle) buffer len offset) w fun reply w' =>
      answerOf (.readFile handle buffer len offset) reply = .bytes ((files handle).map fun ino =>
        (volume api fs t data).range ino offset.toNat len) ∧
      t.Stands fs states .diropen t.root w' ∧
      Backs t states (files handle) (contexts handle) w' := by
  have hbacks := h.files handle
  cases hfilp : contexts handle with
  | none =>
    rw [hfilp] at hbacks
    have hfile : files handle = none := hbacks
    have hrun : readHandle fs fuel none buffer len offset w =
        .ok (.read 0 none buffer, w.withLog w.log) := rfl
    refine ⟨_, _, hrun, ?_, stands_of_get (get_withLog w _ _) h.root, hfile⟩
    rw [hfile]
    rfl
  | some filp =>
    rw [hfilp] at hbacks
    obtain ⟨ino, n, hfile, hmem, htype, hget, hstate⟩ := hbacks
    obtain ⟨hlen, hfits⟩ := hinside ino hfile
    obtain ⟨id, rfl, -⟩ := h.held.live handle filp hfilp
    obtain ⟨r, log, hread, hstatus, hcount, hbytes, n', hr, hstate'⟩ :=
      readFile_stored hstored hmem htype hstate buffer hoffset hlen hfits w.log
    obtain ⟨hself, hother⟩ := changed_set hget (r.filp.getD n) log
    refine ⟨_, _, readHandle_run hget hread, ?_, ?_, ino, n', hfile, hmem, htype, ?_, hstate'⟩
    · rw [hfile, hstatus, hcount]
      exact congrArg (fun content => Answer.bytes (some content)) hbytes
    · exact stands_of_get (hother .diropen NodeRef.noConfusion) h.root
    · rw [hself, hr]
      rfl

theorem statHandle_mirrors (hread : t.Readable fs fuel steps states) (handle : ℕ)
    (info : FileInformation) :
    Yields (statHandle (contexts handle) info) w fun reply w' =>
      answerOf (.getFileInformation handle info) reply =
        .size ((files handle).elim info.size (volume api fs t data).size) ∧ w' = w := by
  have hbacks := h.files handle
  cases hfilp : contexts handle with
  | none =>
    rw [hfilp] at hbacks
    have hfile : files handle = none := hbacks
    rw [hfile]
    exact Yields.pure ⟨rfl, rfl⟩
  | some filp =>
    rw [hfilp] at hbacks
    obtain ⟨ino, n, hfile, -, -, hget, hstate⟩ := hbacks
    obtain ⟨-, hinode⟩ := hread.same ino n hstate
    refine ⟨_, _, bind_ok (deref_run hget), ?_, rfl⟩
    rw [hfile, Option.elim_some]
    change Answer.size (n.inode.dirAcl * 2 ^ 32 + n.inode.size) = _
    rw [hinode]
    rfl

end Own

section Steps
variable (hread : t.Readable fs fuel steps states) (hwf : t.WellFormed)
  (hstored : Stored t fs fuel states data)
include hread hwf

theorem createFile_mirrors (h : Mirrors t fs states files contexts w) (handle : ℕ)
    (fileName : List UInt16) (isDirectory : Bool) :
    Yields (callback api fs fuel steps (.createFile handle fileName isDirectory) contexts) w
      fun r w' => r.1 = .status 0 ∧ t.Stands fs states .diropen t.root w' ∧
        Backs t states (if isDirectory then none else fileAt t (getFilePath api maxPath fileName))
          (r.2 handle) w' := by
  cases isDirectory with
  | true => exact Yields.pure ⟨rfl, h.root, by simp [Backs]⟩
  | false =>
    have hcreate : Yields (createFile api fs fuel steps fileName false) w fun r w' =>
        r.1 = 0 ∧ t.Stands fs states .diropen t.root w' ∧
          Backs t states (fileAt t (getFilePath api maxPath fileName)) r.2 w' := by
      refine Yields.bind (ext4fsOpen_found hread hwf h.root (getFilePath api maxPath fileName))
        fun r w₁ ⟨hroot, hr⟩ => Yields.pure ⟨rfl, hroot, ?_⟩
      cases hfile : fileAt t (getFilePath api maxPath fileName) with
      | none =>
        rw [hfile] at hr
        obtain rfl : r = none := hr
        rfl
      | some ino =>
        rw [hfile] at hr
        obtain ⟨hmem, htype, node, n, rfl, hget, hstate⟩ := hr
        exact ⟨ino, n, rfl, hmem, htype, hget, hstate⟩
    refine Yields.bind hcreate fun r w₁ ⟨hstatus, hroot, hbacks⟩ => ?_
    obtain ⟨status, filp⟩ := r
    obtain rfl : status = 0 := hstatus
    exact Yields.pure ⟨rfl, hroot, by simpa using hbacks⟩

theorem findFiles_mirrors (hroot : t.Stands fs states .diropen t.root w)
    (fileName : List UInt16) :
    Yields (callback api fs fuel steps (.findFiles fileName) contexts) w fun r w' =>
      r.1 = (volume api fs t data).info (.listing fileName) ∧
        t.Stands fs states .diropen t.root w' := by
  have hlist := ext4fsListFiles_found hread hwf hroot (getFilePath api maxPath fileName)
    (listAllFiles api fun found data => found ++ [data]) (fun _ _ _ _ => rfl) []
  have hfind : Yields (findFiles api fs fuel steps fileName (fun found data => found ++ [data]) [])
      w fun r w' => t.Stands fs states .diropen t.root w' ∧
        r = (0, match directoryAt t (getFilePath api maxPath fileName) with
          | none => []
          | some ino => reports api t ino) := by
    refine Yields.bind hlist fun r w₁ ⟨hroot₁, hr⟩ => Yields.pure ⟨hroot₁, ?_⟩
    rw [hr]
    cases directoryAt t (getFilePath api maxPath fileName) with
    | none => rfl
    | some ino => exact congrArg (Prod.mk 0) (passOn_reports api t ino)
  refine Yields.bind hfind fun r w₁ ⟨hroot₁, hr⟩ => ?_
  subst hr
  exact Yields.pure ⟨rfl, hroot₁⟩

include hstored in
/-- One call, and the command that it is. -/
theorem callback_mirrors (h : Mirrors t fs states files contexts w) (call : Callback)
    (hproper : Proper api fs call)
    (hinside : (volume api fs t data).Inside files (commandOf api call)) :
    Yields (callback api fs fuel steps call contexts) w fun r w' =>
      answerOf call r.1 = ((volume api fs t data).step files (commandOf api call)).1 ∧
      Mirrors t fs states ((volume api fs t data).step files (commandOf api call)).2 r.2 w' := by
  apply mirrors_of_own h
  cases call with
  | createFile handle fileName isDirectory =>
    refine (createFile_mirrors hread hwf h handle fileName isDirectory).mono fun r w' hr => ?_
    obtain ⟨hreply, hroot, hbacks⟩ := hr
    refine ⟨?_, hroot, fun other hother => ?_⟩
    · rw [hreply]
      cases isDirectory <;> rfl
    · cases hother
      cases isDirectory <;> simpa [commandOf, Volume.step, volume] using hbacks
  | openDirectory handle =>
    refine Yields.pure ⟨rfl, h.root, fun other hother => ?_⟩
    cases hother
    simp [commandOf, Volume.step, Backs]
  | closeFile handle =>
    refine (closeFile_mirrors h handle).mono fun r w' hr => ?_
    obtain ⟨hreply, hroot, hnone⟩ := hr
    refine ⟨?_, hroot, fun other hother => ?_⟩
    · rw [hreply]
      rfl
    · cases hother
      rw [hnone]
      simp [commandOf, Volume.step, Backs]
  | readFile handle buffer bufferLength offset =>
    refine Yields.bind (readHandle_mirrors h hstored handle buffer hproper hinside)
      fun reply w' hr => ?_
    obtain ⟨hanswer, hroot, hbacks⟩ := hr
    refine Yields.pure ⟨hanswer, hroot, fun other hother => ?_⟩
    cases hother
    exact hbacks
  | getFileInformation handle info =>
    have hstat : Yields (statHandle (contexts handle) info) w fun reply w' =>
        answerOf (.getFileInformation handle info) reply =
          .size ((files handle).elim info.size (volume api fs t data).size) ∧ w' = w :=
      statHandle_mirrors h hread handle info
    refine Yields.bind hstat fun reply w' hr => ?_
    obtain ⟨hanswer, rfl⟩ := hr
    refine Yields.pure ⟨hanswer, h.root, fun other hother => ?_⟩
    cases hother
    exact h.files handle
  | findFiles fileName =>
    have hfind : Yields (callback api fs fuel steps (.findFiles fileName) contexts) w fun r w' =>
        r.1 = (volume api fs t data).info (.listing fileName) ∧
          t.Stands fs states .diropen t.root w' := findFiles_mirrors hread hwf h.root fileName
    refine hfind.mono fun r w' hr => ?_
    obtain ⟨hreply, hroot⟩ := hr
    refine ⟨?_, hroot, fun other hother => ?_⟩
    · rw [hreply]
      rfl
    · cases hother
  | getDiskFreeSpace =>
    refine Yields.pure ⟨rfl, h.root, fun other hother => ?_⟩
    cases hother
  | getVolumeInformation volumeNameSize =>
    obtain ⟨reply, hreply⟩ := hproper
    have hdevice : device (liftM (getVolumeInformation api fs volumeNameSize)) w =
        .ok (reply, w.withLog w.log) := device_run (lift_ok hreply w.log)
    refine ⟨_, _, bind_ok hdevice, ?_, stands_of_get (get_withLog w _ _) h.root,
      fun other hother => ?_⟩
    · change answerOf _ reply = .info ((volume api fs t data).info (.volume volumeNameSize))
      rw [answerOf_volume hreply]
      unfold volume
      dsimp only
      rw [hreply]
    · cases hother
  | ignored function =>
    refine Yields.pure ⟨?_, h.root, fun other hother => ?_⟩
    · rfl
    · cases hother

include hstored in
/-- The calls of a session, and the commands that they are. -/
theorem serve_mirrors (calls : List Callback) (hproper : ∀ call ∈ calls, Proper api fs call)
    (h : Mirrors t fs states files contexts w)
    (hfits : (volume api fs t data).Fits files (calls.map (commandOf api))) :
    Yields (serve api fs fuel steps calls contexts) w fun r w' =>
      List.zipWith answerOf calls r.1 =
          ((volume api fs t data).run files (calls.map (commandOf api))).1 ∧
        Mirrors t fs states ((volume api fs t data).run files (calls.map (commandOf api))).2
          r.2 w' := by
  induction calls generalizing files contexts w with
  | nil => exact Yields.pure ⟨rfl, h⟩
  | cons call calls ih =>
    obtain ⟨hinside, hrest⟩ := hfits
    refine Yields.bind (callback_mirrors hread hwf hstored h call (hproper call (by simp)) hinside)
      fun r w₁ ⟨hanswer, hmirrors⟩ => ?_
    refine Yields.bind (ih (fun call' hcall => hproper call' (by simp [hcall])) hmirrors hrest)
      fun r' w₂ ⟨hanswers, hmirrors'⟩ => ?_
    refine Yields.pure ⟨?_, hmirrors'⟩
    rw [List.zipWith_cons_cons, hanswer, hanswers]
    rfl

end Steps

end Calls

/-- After a mount no handle has a file. -/
theorem mirrors_mounted {t : Tree} {fs : ExtFilesystem} {states : ℤ → Ext2fsNode → Prop}
    {root : Ext2fsNode} {log : Log}
    (hroot : t.Stands fs states .diropen t.root (World.mounted root log)) :
    Mirrors t fs states (fun _ => none) noContexts (World.mounted root log) :=
  ⟨held_mounted root log, hroot, fun _ => rfl⟩

section Sessions
variable {t : Tree} {fs : ExtFilesystem} {fuel steps : ℕ} {states : ℤ → Ext2fsNode → Prop}
  {data : ℤ → Bytes} {root : Ext2fsNode} {log : Log} (hread : t.Readable fs fuel steps states)
  (hwf : t.WellFormed) (hstored : Stored t fs fuel states data)
  (hroot : t.Stands fs states .diropen t.root (World.mounted root log)) (api : Conversions)
  {calls : List Callback} (hproper : ∀ call ∈ calls, Proper api fs call)
  (hfits : (volume api fs t data).Fits (fun _ => none) (calls.map (commandOf api)))
include hread hwf hstored hroot hproper hfits

end Sessions

/-- Files in direct blocks can be read. -/
theorem readableFile_direct {t : Tree} {fs : ExtFilesystem} (hgood : fs.devDesc.disk.NoErrors)
    (hpart : fs.devDesc.off + fs.devDesc.length < 2 ^ 63) (hlog : fs.sblock.log2BlockSize ≤ 20)
    (fuel : ℕ) {ino : ℤ} (hflags : (t.inode ino).extents = false)
    (hsize : (t.inode ino).size < 2 ^ 31) {count : ℕ} (hcount : count ≤ 12)
    (hend : (t.inode ino).size ≤ count * ext2BlockSize fs)
    (hin : InPartition fs (blockMap t ino) count) (hrep : NoRepeat (blockMap t ino) count) :
    ReadableFile fs fuel (NodeOf t ino) (t.inode ino).size (fileByte fs (blockMap t ino)) := by
  have hinode : ∀ n, NodeOf t ino n → n.inode = t.inode ino := fun n hn => hn.2
  have hreal := realizes_direct_of fs hlog fuel (t.inode ino) hflags hinode
  exact readableFile_of_map fs hgood hpart hlog fuel count (blockMap t ino) (NodeOf t ino)
    (realizes_mono hreal hcount) hin hrep _ hsize hend fun n hn => by rw [hn.2]

/-- A root with a file f of three bytes and a link l to it. -/
def linkedImage : Bytes := fun b =>
  match b with
  | 1044 => 1
  | 1064 => 8
  | 1080 => 0x53
  | 1081 => 0xef
  | 2056 => 3
  | 3201 => 0x41
  | 3205 => 4
  | 3240 => 4
  | 3329 => 0x81
  | 3332 => 3
  | 3368 => 5
  | 3457 => 0xa1
  | 3460 => 1
  | 3496 => 0x66
  | 4096 => 3
  | 4100 => 12
  | 4102 => 1
  | 4103 => 1
  | 4104 => 0x66
  | 4108 => 4
  | 4112 => 0xf4
  | 4113 => 3
  | 4114 => 1
  | 4115 => 7
  | 4116 => 0x6c
  | 5120 => 0x61
  | 5121 => 0x62
  | 5122 => 0x63
  | _ => 0

def linkedPart : PartDescr := ⟨DiskDescr.ofImage linkedImage, 0, 16⟩

def linkedEntries : List Entry := [⟨3, 12, 1, [0x66]⟩, ⟨4, 1012, 7, [0x6c]⟩]

def linkedTree (fs : ExtFilesystem) : Tree := flatTree fs linkedEntries

def LinkedMount (fs : ExtFilesystem) (_ : Ext2fsNode) (_ : Log) : Prop :=
  FlatRoot fs (linkedTree fs) linkedEntries ∧
  ((linkedTree fs).type 3 = .reg ∧ (linkedTree fs).type 4 = .symlink) ∧
  ((linkedTree fs).inode 3).extents = false ∧ ((linkedTree fs).inode 3).size = 3 ∧
  ((linkedTree fs).inode 3).dirAcl = 0 ∧
  (∀ i, i < 1 → 0 ≤ blockMap (linkedTree fs) 3 i ∧
    (blockMap (linkedTree fs) 3 i + 1) * blockSectors fs ≤ fs.devDesc.length ∧
    (blockMap (linkedTree fs) 3 i + 1) * blockSectors fs ≤ 2 ^ 31) ∧
  fileAt (linkedTree fs) (getFilePath ascii maxPath [separator, 0x6c]) = some 3

instance (fs : ExtFilesystem) (root : Ext2fsNode) (log : Log) :
    Decidable (LinkedMount fs root log) := by
  unfold LinkedMount
  infer_instance

theorem linkedPart_mounts :
    ∃ fs root log, ext4fsMount (fun _ => 0) linkedPart [] = .ok (some (fs, root), log) ∧
      LinkedMount fs root log := by
  apply mount_of_check
  decide +kernel

/-- The file is opened through the link, and read in two pieces between other calls. -/
def copyLinked : List Callback :=
  [.createFile 0 [separator, 0x6c] false, .findFiles [separator], .getFileInformation 0 ⟨0, 0, 0⟩,
    .readFile 0 (fun _ => 0) 2 0, .getDiskFreeSpace, .readFile 0 (fun _ => 0) 1 2, .closeFile 0]

section Linked
variable {fs : ExtFilesystem} {root : Ext2fsNode} {log : Log}
  (hmount : ext4fsMount (fun _ => 0) linkedPart [] = .ok (some (fs, root), log))
  (hlinked : LinkedMount fs root log)
include hlinked

theorem linked_fits :
    (volume ascii fs (linkedTree fs) fun ino => fileByte fs (blockMap (linkedTree fs) ino)).Fits
      (fun _ => none) (copyLinked.map (commandOf ascii)) := by
  obtain ⟨-, -, -, hsize, hhigh, -, hfile⟩ := hlinked
  have hlength : (volume ascii fs (linkedTree fs) fun ino =>
      fileByte fs (blockMap (linkedTree fs) ino)).size 3 = 3 := by
    change ((linkedTree fs).inode 3).dirAcl * 2 ^ 32 + ((linkedTree fs).inode 3).size = 3
    rw [hhigh, hsize, Nat.zero_mul, Nat.zero_add]
  have hread : ∀ pos len : ℕ, 1 ≤ len → pos + len ≤ 3 → ∀ file,
      Function.update (fun _ => none) 0 (fileAt (linkedTree fs)
        (getFilePath ascii maxPath [separator, 0x6c])) 0 = some file →
      1 ≤ len ∧ pos + len ≤ (volume ascii fs (linkedTree fs) fun ino =>
        fileByte fs (blockMap (linkedTree fs) ino)).size file := by
    intro pos len hlen hfits file hopen
    rw [Function.update_self, hfile] at hopen
    cases hopen
    exact ⟨hlen, hlength ▸ hfits⟩
  exact ⟨trivial, trivial, trivial, hread 0 2 (by decide) (by decide), trivial,
    hread 2 1 (by decide) (by decide), trivial, trivial⟩

include hmount

theorem linked_readable :
    (linkedTree fs).Readable fs 1 3 (NodeOf (linkedTree fs)) :=
  flatTree_readable hlinked.1 (ext4fsMount_mounted _ _ _ _ _ _ hmount) 1 (by decide : 2 < 3)

theorem linked_stored :
    Stored (linkedTree fs) fs 1 (NodeOf (linkedTree fs)) fun ino =>
      fileByte fs (blockMap (linkedTree fs) ino) := by
  obtain ⟨hflat, ⟨-, hsymlink⟩, hflags, hsize, hhigh, hblocks, -⟩ := hlinked
  obtain ⟨hpart, -, hshifts, -⟩ := ext4fsMount_mounted _ _ _ _ _ _ hmount
  rintro ino hino htype
  have hcases : ino = 3 := by
    rcases hino with rfl | ⟨e, he, rfl⟩
    · rw [hflat.2.1.2] at htype
      cases htype
    · have hentry : e = ⟨3, 12, 1, [0x66]⟩ ∨ e = ⟨4, 1012, 7, [0x6c]⟩ := by
        simpa [linkedEntries] using he
      rcases hentry with rfl | rfl
      · rfl
      · cases hsymlink.symm.trans htype
  subst hcases
  refine ⟨hhigh, ?_⟩
  apply readableFile_direct (hpart ▸ noErrors_ofImage _) ?_ hshifts 1 hflags (by omega)
    (by decide : 1 ≤ 12) ?_ hblocks fun i hi => by omega
  · rw [hpart]
    exact (by decide : 0 + 16 < 2 ^ 63)
  · have hblock := ext2BlockSize_eq fs
    have htwo := two_le_blockSectors fs
    omega

theorem linked_stands :
    (linkedTree fs).Stands fs (NodeOf (linkedTree fs)) .diropen (linkedTree fs).root
      (World.mounted root log) :=
  stands_mounted (linked_readable hmount hlinked) rfl (Or.inl rfl) hmount

end Linked

theorem linked_proper (fs : ExtFilesystem) : ∀ call ∈ copyLinked, Proper ascii fs call := by
  simp [copyLinked, Proper]

end Eokan.TreeVolumes
