import Eokan.ReadBounds
import Eokan.SessionDisks

/-!
A session stays inside its partition. The reads of the layers below do, as long
as their positions fit an `int`, and the positions that a search computes are
bounded by the sizes that the inodes say.
-/
namespace Eokan.SessionBounds

open ByteMem CInt Programs Device Devread Layout Mount Inodes ReadFile DokanRead NodeHeap Directory
  Resolve FileNames VolumeLabel Sessions PartPairs SessionPairs SessionDisks ReadBounds

/-- An entry that begins in front of the end has its longest name in the first 2 GiB. -/
def Moderate (inode : Ext2Inode) : Prop := inode.size + 263 ≤ 2 ^ 31

/-- No inode that can be read says a larger size, and no inode crosses a sector. -/
structure Ordinary (fs : ExtFilesystem) : Prop where
  inodesz : 128 ∣ fs.inodesz
  inodes : ∀ ino inode log, Moderate inode →
    OnReturn (ext4fsReadInode fs ino inode) log fun r _ => Moderate r.2

/-- The requests so far are inside the partition, and the nodes have moderate inodes. -/
structure Contained (part : PartDescr) (w : World) : Prop where
  log : Confined part w.log
  nodes : ∀ ref node, w.get ref = some node → Moderate node.inode

section Worlds
variable {part : PartDescr} {w : World} (h : Contained part w)
include h

theorem Contained.withLog {log : Log} (hlog : Confined part log) : Contained part (w.withLog log) :=
  ⟨hlog, fun ref node hnode => h.nodes ref node (by rwa [get_withLog] at hnode)⟩

theorem Contained.set {ref : NodeRef} (href : (w.get ref).isSome) {node : Ext2fsNode}
    (hnode : Moderate node.inode) : Contained part (w.set ref node) := by
  refine ⟨by rw [log_set]; exact h.log, fun other node' hget => ?_⟩
  by_cases hother : other = ref
  · subst hother
    rw [get_set_self w other node href] at hget
    cases hget
    exact hnode
  · rw [get_set_of_ne w ref other node hother] at hget
    exact h.nodes other node' hget

theorem Contained.add {node : Ext2fsNode} (hnode : Moderate node.inode) :
    Contained part (w.add node) := by
  refine ⟨h.log, fun ref node' hget => ?_⟩
  by_cases hnew : ref = .alloc w.next
  · subst hnew
    rw [get_add_self] at hget
    cases hget
    exact hnode
  · have hold : (w.add node).get ref = w.get ref := by
      cases ref with
      | diropen => rfl
      | alloc id => exact if_neg fun heq => hnew (congrArg NodeRef.alloc heq)
    exact h.nodes ref node' (hold ▸ hget)

theorem Contained.remove (id : ℕ) : Contained part (w.remove id) := by
  refine ⟨h.log, fun ref node hget => ?_⟩
  by_cases hgone : ref = .alloc id
  · subst hgone
    have hnone : (w.remove id).get (.alloc id) = none := if_pos rfl
    rw [hnone] at hget
    cases hget
  · rw [get_remove_of_ne w ref id hgone] at hget
    exact h.nodes ref node hget

end Worlds

/-- No step of x asks for anything outside of the partition. -/
abbrev Stays {α : Type} (part : PartDescr) (x : NodeM α) (post : α → Prop) : Prop :=
  Keeps (Contained part) x post

section Basic
variable {part : PartDescr} {α : Type}

theorem device_stays {x : DevM α} {post : α → Prop} (h : Keeps (Confined part) x post) :
    Stays part (device x) post := by
  intro w hw a w' hrun
  unfold device at hrun
  split at hrun
  · rename_i b log hx
    cases hrun
    obtain ⟨hlog, hpost⟩ := h w.log hw.log a log hx
    exact ⟨hw.withLog hlog, hpost⟩
  · cases hrun

theorem deref_stays (ref : NodeRef) : Stays part (deref ref) fun node => Moderate node.inode := by
  intro w hw node w' hrun
  unfold deref at hrun
  split at hrun
  · cases hrun
    exact ⟨hw, hw.nodes ref node ‹_›⟩
  · cases hrun

theorem store_stays (ref : NodeRef) {node : Ext2fsNode} (hnode : Moderate node.inode) :
    Stays part (store ref node) fun _ => True := by
  intro w hw a w' hrun
  unfold store at hrun
  split at hrun
  · cases hrun
    exact ⟨hw.set ‹_› hnode, trivial⟩
  · cases hrun

theorem allocNode_stays {node : Ext2fsNode} (hnode : Moderate node.inode) :
    Stays part (allocNode node) fun _ => True := by
  intro w hw a w' hrun
  cases hrun
  exact ⟨hw.add hnode, trivial⟩

theorem free_stays (id : ℕ) : Stays part (free id) fun _ => True := by
  intro w hw a w' hrun
  unfold free at hrun
  split at hrun
  · cases hrun
    exact ⟨hw.remove id, trivial⟩
  · cases hrun

theorem ext4fsFreeNode_stays (node currroot : NodeRef) :
    Stays part (ext4fsFreeNode node currroot) fun _ => True := by
  cases node with
  | diropen => exact Keeps.pure trivial
  | alloc id => exact Keeps.ite (fun _ => free_stays id) fun _ => Keeps.pure trivial

theorem setInodeRead_stays (ref : NodeRef) : Stays part (setInodeRead ref) fun _ => True :=
  (deref_stays ref).bind fun _ hnode => store_stays ref hnode

end Basic

/-- A mounted file system of this kind. -/
structure Safe (fs : ExtFilesystem) : Prop where
  room : fs.devDesc.off + fs.devDesc.length < 2 ^ 63
  blksz : fs.blksz < 2 ^ 31
  ordinary : Ordinary fs

section Directories
variable {fs : ExtFilesystem} (hsafe : Safe fs)
include hsafe

/-- A range that ends in the first 2 GiB. -/
theorem readFileAt_stays (fuel : ℕ) (ref : NodeRef) (pos len : ℕ) (hmax : pos + len < 2 ^ 31)
    (buf : Bytes) : Stays fs.devDesc (readFileAt fs fuel ref pos len buf) fun _ => True := by
  apply (deref_stays ref).bind
  intro node hnode
  apply (device_stays (ext4fsReadFile_confined hsafe.room hsafe.blksz fuel pos len hmax node
    buf)).bind
  intro r hinode
  have hmoderate : Moderate r.2.1.inode := by rwa [hinode]
  exact (store_stays ref hmoderate).bind fun _ _ => Keeps.pure trivial

theorem loadInode_stays (ref : NodeRef) : Stays fs.devDesc (loadInode fs ref) fun _ => True := by
  apply (deref_stays ref).bind
  intro node hnode
  have hread := (ext4fsReadInode_confined hsafe.room node.ino (Or.inl hsafe.ordinary.inodesz)
    node.inode).and fun log r log' hrun =>
      hsafe.ordinary.inodes node.ino node.inode log hnode r log' hrun
  apply (device_stays hread).bind
  intro r hr
  exact (store_stays ref hr.2).bind fun _ _ => Keeps.pure trivial

theorem needInode_stays (ref : NodeRef) : Stays fs.devDesc (needInode fs ref) fun _ => True := by
  apply (deref_stays ref).bind
  intro node _
  apply Keeps.ite (fun _ => Keeps.pure trivial)
  intro _
  exact (loadInode_stays hsafe ref).bind fun _ _ => Keeps.pure trivial

theorem entryType_stays (id : ℕ) (dirent : Ext2Dirent) :
    Stays fs.devDesc (entryType fs id dirent) fun _ => True := by
  apply Keeps.ite (fun _ => Keeps.pure trivial)
  intro _
  apply (loadInode_stays hsafe _).bind
  intro status _
  apply Keeps.ite (fun _ => Keeps.pure trivial)
  intro _
  apply (setInodeRead_stays _).bind
  intro _ _
  exact (deref_stays _).bind fun _ _ => Keeps.pure trivial

variable {α : Type}

theorem listEntry_stays (id : ℕ) (filename : List UInt8) (type : FileType)
    (dirFunc : Option (α → List UInt8 → Xstat → Bool → ℤ × α)) (data : α) :
    Stays fs.devDesc (listEntry fs id filename type dirFunc data) fun _ => True := by
  apply (needInode_stays hsafe _).bind
  intro read _
  apply Keeps.ite (fun _ => Keeps.pure trivial)
  intro _
  apply (setInodeRead_stays _).bind
  intro _ _
  apply (deref_stays _).bind
  intro node _
  cases dirFunc <;> exact Keeps.pure trivial

theorem visitEntry_stays (mode : DirMode α) (dirent : Ext2Dirent) (filename : List UInt8)
    (data : α) : Stays fs.devDesc (visitEntry fs mode dirent filename data) fun _ => True := by
  have hempty : (entryNode dirent).inode.size = 0 := rfl
  have hnew : Moderate (entryNode dirent).inode := by
    unfold Moderate
    omega
  apply (allocNode_stays hnew).bind
  intro id _
  apply (entryType_stays hsafe id dirent).bind
  intro type _
  cases type with
  | none => exact (free_stays id).bind fun _ _ => Keeps.pure trivial
  | some type =>
    cases mode with
    | lookup name =>
      apply Keeps.ite (fun _ => Keeps.pure trivial)
      intro _
      exact (free_stays id).bind fun _ _ => Keeps.pure trivial
    | list dirFunc =>
      apply (listEntry_stays hsafe id filename type dirFunc data).bind
      intro listed _
      apply (free_stays id).bind
      intro _ _
      cases listed <;> exact Keeps.pure trivial

/-- The loop stops at the size of the directory, so its positions are in range. -/
theorem iterateFrom_stays (fuel : ℕ) (dir : NodeRef) (mode : DirMode α) (steps fpos : ℕ)
    (data : α) :
    Stays fs.devDesc (iterateFrom fs fuel dir mode steps fpos data) fun _ => True := by
  induction steps generalizing fpos data with
  | zero => exact Keeps.fault _
  | succ steps ih =>
    apply (deref_stays dir).bind
    intro diro hdiro
    unfold Moderate at hdiro
    apply Keeps.ite
    · intro hpos
      have hhead : int32 (fpos : ℤ) = fpos := int32_of_nat _ (by omega) (by omega)
      have hname : int32 ((fpos : ℤ) + 8) = (fpos + 8 : ℕ) := int32_of_nat _ (by omega) (by omega)
      rw [hhead]
      apply (readFileAt_stays hsafe fuel dir fpos 8 (by omega) fs.past).bind
      intro (status, raw) _
      apply Keeps.ite (fun _ => Keeps.pure trivial)
      intro _
      apply Keeps.ite (fun _ => ih _ _)
      intro _
      have hlen : (⟨raw⟩ : Ext2Dirent).namelen < 256 := UInt8.toNat_lt _
      rw [hname]
      apply (readFileAt_stays hsafe fuel dir (fpos + 8) _ (by omega) fs.past).bind
      intro (status', name) _
      apply Keeps.ite (fun _ => Keeps.pure trivial)
      intro _
      apply (visitEntry_stays hsafe mode _ _ data).bind
      intro visit _
      cases visit with
      | done found data' => exact Keeps.pure trivial
      | next got data' => exact Keeps.ite (fun _ => Keeps.pure trivial) fun _ => ih _ _
    · intro _
      exact Keeps.pure trivial

theorem ext4fsIterateDir_stays (fuel steps : ℕ) (dir : NodeRef) (mode : DirMode α) (data : α) :
    Stays fs.devDesc (ext4fsIterateDir fs fuel steps dir mode data) fun _ => True := by
  apply (needInode_stays hsafe dir).bind
  intro read _
  exact Keeps.ite (fun _ => Keeps.pure trivial) fun _ => iterateFrom_stays hsafe fuel dir mode _ _ _

end Directories

section Searches
variable {fs : ExtFilesystem} (hsafe : Safe fs) (fuel steps : ℕ)
include hsafe

theorem ext4fsReadSymlink_stays (ref : NodeRef) :
    Stays fs.devDesc (ext4fsReadSymlink fs fuel ref) fun _ => True := by
  apply (needInode_stays hsafe ref).bind
  intro read _
  apply Keeps.ite (fun _ => Keeps.pure trivial)
  intro _
  apply (deref_stays ref).bind
  intro diro hdiro
  unfold Moderate at hdiro
  apply Keeps.ite (fun _ => Keeps.fault _)
  intro _
  apply Keeps.ite (fun _ => Keeps.pure trivial)
  intro _
  apply (readFileAt_stays hsafe fuel ref 0 diro.inode.size (by omega) _).bind
  intro r _
  exact Keeps.ite (fun _ => Keeps.pure trivial) fun _ => Keeps.pure trivial

/-- A search that stays inside, from any node. -/
def FollowStays (part : PartDescr) (follow : List UInt8 → NodeRef → ℕ → NodeM (Option Found)) :
    Prop :=
  ∀ path start nest, Stays part (follow path start nest) fun _ => True

variable {follow : List UInt8 → NodeRef → ℕ → NodeM (Option Found)}
  (hfollow : FollowStays fs.devDesc follow)
include hfollow

theorem followLink_stays (link oldnode currroot : NodeRef) (symlinknest : ℕ) :
    Stays fs.devDesc (followLink fs fuel follow link oldnode currroot symlinknest)
      fun _ => True := by
  apply Keeps.ite
  · intro _
    apply (ext4fsFreeNode_stays link currroot).bind
    intro _ _
    exact (ext4fsFreeNode_stays oldnode currroot).bind fun _ _ => Keeps.pure trivial
  intro _
  have htake : Stays fs.devDesc (takeLink fs fuel link currroot) fun _ => True := by
    apply (ext4fsReadSymlink_stays hsafe fuel link).bind
    intro symlink _
    exact (ext4fsFreeNode_stays link currroot).bind fun _ _ => Keeps.pure trivial
  apply htake.bind
  intro symlink _
  cases symlink with
  | none => exact (ext4fsFreeNode_stays oldnode currroot).bind fun _ _ => Keeps.pure trivial
  | some symlink =>
    have hstart : Stays fs.devDesc (linkStart symlink oldnode currroot) fun _ => True := by
      apply Keeps.ite
      · intro _
        exact (ext4fsFreeNode_stays oldnode currroot).bind fun _ _ => Keeps.pure trivial
      · intro _
        exact Keeps.pure trivial
    apply hstart.bind
    intro start _
    apply (hfollow symlink start _).bind
    intro found _
    cases found with
    | none => exact (ext4fsFreeNode_stays start currroot).bind fun _ _ => Keeps.pure trivial
    | some found => exact Keeps.pure trivial

theorem walk_stays (currroot : NodeRef) (path : List (List UInt8)) (currnode : NodeRef)
    (type : FileType) (symlinknest : ℕ) :
    Stays fs.devDesc (walk fs fuel steps follow currroot path currnode type symlinknest)
      fun _ => True := by
  induction path generalizing currnode type symlinknest with
  | nil => exact (deref_stays currnode).bind fun _ _ => Keeps.pure trivial
  | cons name next ih =>
    apply Keeps.ite
    · intro _
      exact (ext4fsFreeNode_stays currnode currroot).bind fun _ _ => Keeps.pure trivial
    intro _
    have hlookup : Stays fs.devDesc (lookupIn fs fuel steps currnode name) fun _ => True :=
      (ext4fsIterateDir_stays hsafe fuel steps currnode _ _).bind fun _ _ => Keeps.pure trivial
    apply hlookup.bind
    intro found _
    rcases found with _ | ⟨entry, type'⟩
    · exact Keeps.pure trivial
    have hother : Stays fs.devDesc (do
        ext4fsFreeNode currnode currroot
        walk fs fuel steps follow currroot next (.alloc entry) type' symlinknest) fun _ => True :=
      (ext4fsFreeNode_stays currnode currroot).bind fun _ _ => ih _ _ _
    cases type' with
    | symlink =>
      apply (followLink_stays hsafe fuel hfollow (.alloc entry) currnode currroot
        symlinknest).bind
      intro res _
      cases res with
      | none => exact Keeps.pure trivial
      | some res => exact (ext4fsFreeNode_stays _ currroot).bind fun _ _ => ih _ _ _
    | unknown => exact hother
    | reg => exact hother
    | directory => exact hother

omit hfollow

theorem ext4fsFindFile1_stays (depth : ℕ) :
    FollowStays fs.devDesc (ext4fsFindFile1 fs fuel steps depth) := by
  induction depth with
  | zero => exact fun _ _ _ => Keeps.fault _
  | succ depth ih =>
    intro path start nest
    rw [ext4fsFindFile1]
    cases names path with
    | nil => exact Keeps.pure trivial
    | cons name next => exact walk_stays hsafe fuel steps ih start _ start _ _

theorem ext4fsFindFile_stays (path : List UInt8) (rootnode : NodeRef) (expecttype : FileType) :
    Stays fs.devDesc (ext4fsFindFile fs fuel steps path rootnode expecttype) fun _ => True := by
  apply (ext4fsFindFile1_stays hsafe fuel steps 8 path rootnode 0).bind
  intro found _
  cases found with
  | none => exact Keeps.pure trivial
  | some found =>
    apply Keeps.ite (fun _ => Keeps.pure trivial)
    intro _
    exact Keeps.ite (fun _ => Keeps.pure trivial) fun _ => Keeps.pure trivial

omit hsafe in
theorem openFail_stays {part : PartDescr} (found : Option NodeRef) :
    Stays part (openFail found) fun _ => True := by
  cases found with
  | none => exact Keeps.pure trivial
  | some node => exact (ext4fsFreeNode_stays node _).bind fun _ _ => Keeps.pure trivial

theorem ext4fsOpen_stays (filename : List UInt8) :
    Stays fs.devDesc (ext4fsOpen fs fuel steps filename) fun _ => True := by
  apply (ext4fsFindFile_stays hsafe fuel steps filename _ _).bind
  intro (status, found) _
  cases status with
  | false => exact openFail_stays found
  | true =>
    cases found with
    | none => exact openFail_stays none
    | some node =>
      apply (needInode_stays hsafe node).bind
      intro read _
      exact Keeps.ite (fun _ => openFail_stays _) fun _ => Keeps.pure trivial

theorem ext4fsListFiles_stays {α : Type} (dirname : List UInt8)
    (func : Option (α → List UInt8 → Xstat → Bool → ℤ × α)) (data : α) :
    Stays fs.devDesc (ext4fsListFiles fs fuel steps dirname func data) fun _ => True := by
  apply (ext4fsFindFile_stays hsafe fuel steps dirname _ _).bind
  intro (status, found) _
  cases status with
  | false => exact Keeps.pure trivial
  | true =>
    cases found with
    | none => exact Keeps.pure trivial
    | some node =>
      apply (ext4fsIterateDir_stays hsafe fuel steps node _ data).bind
      intro r _
      exact (ext4fsFreeNode_stays node _).bind fun _ _ => Keeps.pure trivial

end Searches

/-- A call that reads does so in the first 2 GiB of its file. -/
def InRange : Callback → Prop
  | .readFile _ _ bufferLength offset => 0 ≤ offset ∧ offset + bufferLength < 2 ^ 31
  | _ => True

section Callbacks
variable {fs : ExtFilesystem} (hsafe : Safe fs) (api : Conversions) (fuel steps : ℕ)
include hsafe

theorem readHandle_stays (filp : Option NodeRef) (buffer : Bytes) (bufferLength : ℕ) {offset : ℤ}
    (hpos : 0 ≤ offset) (hmax : offset + bufferLength < 2 ^ 31) :
    Stays fs.devDesc (readHandle fs fuel filp buffer bufferLength offset) fun _ => True := by
  cases filp with
  | none =>
    have hnone : Confines fs.devDesc (readFile fs fuel none buffer bufferLength offset) :=
      Keeps.pure trivial
    exact (device_stays hnone).bind fun _ _ => Keeps.pure trivial
  | some filp =>
    obtain ⟨pos, rfl⟩ := Int.eq_ofNat_of_zero_le hpos
    apply (deref_stays filp).bind
    intro node hnode
    have hoffset : int32 (pos : ℤ) = pos := int32_of_nat _ (by omega) (by omega)
    have hread : Keeps (Confined fs.devDesc) (readFile fs fuel (some node) buffer bufferLength pos)
        fun r => ∀ filp', r.filp = some filp' → Moderate filp'.inode := by
      unfold readFile vfsFileRead ext4fsFileEntryRead
      dsimp only
      rw [hoffset]
      apply (ext4fsReadFile_confined hsafe.room hsafe.blksz fuel pos bufferLength (by omega) node
        buffer).bind
      intro (nrd, filp', buffer') hinode
      apply Keeps.pure
      intro filp'' hfilp
      cases hfilp
      rwa [← hinode] at hnode
    apply (device_stays hread).bind
    intro r hr
    have hstored : Moderate (r.filp.getD node).inode := by
      cases hfilp : r.filp with
      | none => exact hnode
      | some filp' => exact hr filp' hfilp
    exact (store_stays filp hstored).bind fun _ _ => Keeps.pure trivial

theorem callback_stays (call : Callback) (hcall : InRange call) (contexts : Contexts) :
    Stays fs.devDesc (callback api fs fuel steps call contexts) fun _ => True := by
  cases call with
  | createFile handle fileName isDirectory =>
    have hcreate : Stays fs.devDesc (createFile api fs fuel steps fileName isDirectory)
        fun _ => True := by
      apply Keeps.ite (fun _ => Keeps.pure trivial)
      intro _
      exact (ext4fsOpen_stays hsafe fuel steps _).bind fun _ _ => Keeps.pure trivial
    exact hcreate.bind fun _ _ => Keeps.pure trivial
  | openDirectory handle => exact Keeps.pure trivial
  | closeFile handle =>
    unfold callback closeFile
    dsimp only
    split
    · exact Keeps.pure trivial
    · exact (ext4fsFreeNode_stays _ _).bind fun _ _ => Keeps.pure trivial
  | readFile handle buffer bufferLength offset =>
    exact (readHandle_stays hsafe fuel (contexts handle) buffer bufferLength hcall.1 hcall.2).bind
      fun _ _ => Keeps.pure trivial
  | getFileInformation handle info =>
    have hstat : Stays fs.devDesc (statHandle (contexts handle) info) fun _ => True := by
      cases contexts handle with
      | none => exact Keeps.pure trivial
      | some filp => exact (deref_stays filp).bind fun _ _ => Keeps.pure trivial
    exact hstat.bind fun _ _ => Keeps.pure trivial
  | findFiles fileName =>
    have hfind : Stays fs.devDesc
        (findFiles api fs fuel steps fileName (fun found data => found ++ [data]) [])
        fun _ => True :=
      (ext4fsListFiles_stays hsafe fuel steps _ _ _).bind fun _ _ => Keeps.pure trivial
    exact hfind.bind fun _ _ => Keeps.pure trivial
  | getDiskFreeSpace => exact Keeps.pure trivial
  | getVolumeInformation volumeNameSize =>
    have hvolume : Confines fs.devDesc
        (liftM (getVolumeInformation api fs volumeNameSize) : DevM Reply) := by
      cases getVolumeInformation api fs volumeNameSize with
      | error e => exact Keeps.fault e
      | ok reply => exact Keeps.pure trivial
    exact (device_stays hvolume).bind fun _ _ => Keeps.pure trivial
  | ignored function => exact Keeps.pure trivial

theorem serve_stays (calls : List Callback) (hcalls : ∀ call ∈ calls, InRange call)
    (contexts : Contexts) :
    Stays fs.devDesc (serve api fs fuel steps calls contexts) fun _ => True := by
  induction calls generalizing contexts with
  | nil => exact Keeps.pure trivial
  | cons call calls ih =>
    obtain ⟨hcall, hcalls⟩ := List.forall_mem_cons.mp hcalls
    apply (callback_stays hsafe api fuel steps call hcall contexts).bind
    intro r _
    exact (ih hcalls r.2).bind fun _ _ => Keeps.pure trivial

theorem eokanMain_confined {root : Ext2fsNode} (hroot : Moderate root.inode)
    (calls : List Callback) (hcalls : ∀ call ∈ calls, InRange call) :
    Confines fs.devDesc (eokanMain api fs fuel steps root calls) := by
  intro log hlog replies log' hrun
  unfold eokanMain at hrun
  split at hrun
  · rename_i replies' contexts w hw
    cases hrun
    have hmounted : Contained fs.devDesc (World.mounted root log) := by
      refine ⟨hlog, fun ref node hget => ?_⟩
      cases ref with
      | diropen =>
        cases hget
        exact hroot
      | alloc id => cases hget
    obtain ⟨hend, -⟩ := serve_stays hsafe api fuel steps calls hcalls noContexts _ hmounted _ _ hw
    exact ⟨hend.log, trivial⟩
  · cases hrun

end Callbacks

section Sessions
variable {part : PartDescr} (hroom : part.off + part.length < 2 ^ 63)
include hroom

/-- A mount stays inside, whatever the superblock says. -/
theorem ext4fsMount_confined (past : Bytes) : Confines part (ext4fsMount past part) := by
  have hroot : 0 ≤ int32 (ext2RootIno - 1) := by
    unfold int32 ext2RootIno
    omega
  have hinode : ∀ fs : ExtFilesystem, fs.devDesc = part →
      Confines part (ext4fsReadInode fs ext2RootIno diropen.inode) := by
    rintro fs rfl
    exact ext4fsReadInode_confined hroom _ (Or.inr hroot) _
  apply (vfsDevread_confined hroom (by decide) (by decide) (by decide) (by decide) (by decide)
    _ _).bind
  intro (status, raw) _
  apply Keeps.ite (fun _ => Keeps.pure trivial)
  intro _
  apply Keeps.ite (fun _ => Keeps.pure trivial)
  intro _
  apply Keeps.lift
  intro _ _
  apply (hinode _ rfl).bind
  intro r _
  exact Keeps.ite (fun _ => Keeps.pure trivial) fun _ => Keeps.pure trivial

omit hroom in
theorem mounted_moderate {past : Bytes} {fs : ExtFilesystem} {root : Ext2fsNode} {log log' : Log}
    (h : ext4fsMount past part log = .ok (some (fs, root), log')) (hordinary : Ordinary fs) :
    Moderate root.inode := by
  unfold ext4fsMount at h
  obtain ⟨⟨status, raw⟩, log₁, -, h⟩ := bind_eq_ok h
  dsimp only at h
  split at h
  · cases h
  split at h
  · cases h
  obtain ⟨u, log₂, -, h⟩ := bind_eq_ok h
  obtain ⟨⟨status', inode⟩, log₃, hinode, h⟩ := bind_eq_ok h
  dsimp only at h
  split at h
  · cases h
  cases h
  have hempty : diropen.inode.size = 0 := rfl
  have hmoderate : Moderate diropen.inode := by
    unfold Moderate
    omega
  exact hordinary.inodes ext2RootIno diropen.inode log₂ hmoderate _ _ hinode

variable (api : Conversions) (past : Bytes) (fuel steps : ℕ)
  (hordinary : ∀ fs root log, ext4fsMount past part [] = .ok (some (fs, root), log) → Ordinary fs)
include hordinary

theorem mountAndServe_confined (calls : List Callback) (hcalls : ∀ call ∈ calls, InRange call) :
    OnReturn (mountAndServe api past fuel steps part calls) [] fun _ log => Confined part log := by
  have hnone : Confined part [] := by simp [Confined]
  intro replies log hrun
  obtain ⟨mounted, log₁, hmount, hrest⟩ := bind_eq_ok hrun
  obtain ⟨hconfined, -⟩ := ext4fsMount_confined hroom past [] hnone mounted log₁ hmount
  rcases mounted with _ | ⟨fs, root⟩
  · cases hrest
    exact hconfined
  obtain ⟨answers, log₂, hserve, hend⟩ := bind_eq_ok hrest
  cases hend
  have h := ext4fsMount_mounted past part [] log₁ fs root hmount
  have hfs := hordinary fs root log₁ hmount
  have hzero := h.blksz
  obtain rfl := h.devDesc
  have hroot := mounted_moderate hmount hfs
  exact (eokanMain_confined ⟨hroom, by omega, hfs⟩ api fuel steps hroot calls hcalls log₁ hconfined
    answers log hserve).1

/-- Whatever the partition holds and whichever reads fail, a session asks for
nothing outside of it, and nothing outside of it has an effect on the replies. -/
theorem session_confined (calls : List Callback) (hcalls : ∀ call ∈ calls, InRange call) :
    OnReturn (mountAndServe api past fuel steps part calls) [] fun replies log =>
      (∀ q ∈ log, Inside part q) ∧ ∀ disk off, Copied part disk off →
        mountAndServe api past fuel steps (PartDescr.on part disk off) calls [] =
          .ok (replies, log.map (moved part.off off)) := by
  intro replies log hrun
  have hinside := mountAndServe_confined hroom api past fuel steps hordinary calls hcalls replies
    log hrun
  refine ⟨hinside, fun disk off hcopied => ?_⟩
  obtain ⟨_, hrun', rfl⟩ :=
    (mountAndServe_simulates api past fuel steps hcopied.reads calls).follows
    [] [] replies log rfl hrun fun q before hq => hinside q (hq.subset (by simp))
  exact hrun'

end Sessions

/-- Without errors a record is what the disk holds at a multiple of its length. -/
theorem record_byte (image : Bytes) (off length : ℕ) (sector : ℤ) {byteOffset : ℤ}
    (hplace : 128 ∣ byteOffset) (buf : Bytes) (log : Log) :
    OnReturn (vfsDevread ⟨DiskDescr.ofImage image, off, length⟩ sector byteOffset 128 buf 0) log
      fun r _ => r.2 = buf ∨ ∃ k, r.2 7 = image (128 * k + 7) := by
  obtain ⟨n, rfl⟩ := hplace
  have hread : ∀ start log', OnReturn
      (partRead ⟨DiskDescr.ofImage image, off, length⟩ start 1 secBuf 0) log' fun r _ =>
        ∃ k, r.1 = 0 ∧ ∀ j < 512, r.2 j = image (512 * k + j) := by
    intro start log' r log'' hrun
    cases hrun
    refine ⟨(int64 (start + off)).toNat, rfl, fun j hj => ?_⟩
    have hsector : (int64 (start + off) * 512).toNat = 512 * (int64 (start + off)).toNat := by
      omega
    refine (write_of_mem secBuf 0 512 _ (Nat.zero_le j) (by omega)).trans ?_
    change image ((int64 (start + off) * 512).toNat + j) = _
    rw [hsector]
  unfold vfsDevread
  split
  · exact OnReturn.pure (Or.inl rfl)
  dsimp only
  split
  · -- the record is taken out of its sector, and nothing is left to read
    refine (hread _ log).bind ?_
    rintro ⟨status, sec⟩ log' ⟨k, hstatus, hsec⟩
    have hsize : min (512 - 128 * n % 512) (128 : ℤ) = 128 := by omega
    have hrest : ((128 : ℤ) - 128) = 0 := by omega
    dsimp only at hstatus ⊢
    rw [hstatus, if_neg (by omega), hsize]
    refine OnReturn.pure (Or.inr ⟨4 * k + (n % 4).toNat, ?_⟩)
    refine (write_of_mem buf 0 128 _ (Nat.zero_le 7) (by omega)).trans ?_
    have hbyte := hsec ((128 * n % 512).toNat + 7) (by omega)
    refine hbyte.trans (congrArg image ?_)
    omega
  · unfold readAligned
    have hshort : uint32 ((128 : ℤ) - 128 % 512) = 0 := uint32_zero
    rw [if_neg (by omega)]
    dsimp only
    rw [if_pos hshort]
    refine (hread _ log).bind ?_
    rintro ⟨status, sec⟩ log' ⟨k, -, hsec⟩
    refine OnReturn.pure (Or.inr ⟨4 * k, ?_⟩)
    refine (write_of_mem buf 0 128 _ (Nat.zero_le 7) (by omega)).trans ?_
    refine (hsec 7 (by omega)).trans (congrArg image ?_)
    omega

/-- A disk without errors on which no inode can say a large size. -/
theorem ordinary_of_image {image : Bytes} (himage : ∀ k, (image (128 * k + 7)).toNat < 127)
    (off length : ℕ) {fs : ExtFilesystem}
    (hpart : fs.devDesc = ⟨DiskDescr.ofImage image, off, length⟩) (hsize : 128 ∣ fs.inodesz) :
    Ordinary fs := by
  refine ⟨hsize, fun ino inode log hinode r log' hrun => ?_⟩
  have hplace : (128 : ℤ) ∣ int32 (uint32 ((int32 (ino - 1)).tmod
      (ext2BlockSize fs / fs.inodesz : ℕ) * fs.inodesz)) := by
    have hdvd : (128 : ℤ) ∣ (int32 (ino - 1)).tmod (ext2BlockSize fs / fs.inodesz : ℕ) *
        fs.inodesz := Dvd.dvd.mul_left (Int.natCast_dvd_natCast.mpr hsize) _
    obtain ⟨m, hm⟩ := hdvd
    rw [int32_uint32, hm]
    unfold int32
    omega
  have hmoderate : ∀ raw : Bytes, (raw = inode.raw ∨ ∃ k, raw 7 = image (128 * k + 7)) →
      Moderate ⟨raw⟩ := by
    rintro raw (rfl | ⟨k, hbyte⟩)
    · exact hinode
    · have hlast := himage k
      rw [← hbyte] at hlast
      have hlow := le16_lt raw 4
      have hsixth := (raw 6).toNat_lt
      change le16 raw 4 + 2 ^ 16 * ((raw 6).toNat + 2 ^ 8 * (raw 7).toNat) + 263 ≤ 2 ^ 31
      omega
  unfold ext4fsReadInode at hrun
  dsimp only at hrun
  split at hrun
  · cases hrun
  obtain ⟨group, log₁, -, hrun⟩ := bind_eq_ok hrun
  split at hrun
  · cases hrun
    exact hinode
  split at hrun
  · cases hrun
  split at hrun
  · cases hrun
  obtain ⟨⟨status, raw⟩, log₂, hread, hrun⟩ := bind_eq_ok hrun
  rw [hpart] at hread
  have hraw := hmoderate raw (record_byte image off length _ hplace _ _ _ _ hread)
  dsimp only at hrun
  split at hrun <;> cases hrun <;> exact hraw

theorem backslash_ordinary {fs : ExtFilesystem} {root : Ext2fsNode} {log : Log}
    (h : ext4fsMount (fun _ => 0) backslashPart [] = .ok (some (fs, root), log)) :
    Ordinary fs := by
  obtain ⟨fs', root', log', hmount, hsize⟩ := mount_of_check (fun _ => 0) backslashPart
    (fun fs _ _ => fs.inodesz = 128) (by decide +kernel)
  obtain ⟨rfl, rfl⟩ : fs' = fs ∧ root' = root := by
    rw [hmount] at h
    cases h
    exact ⟨rfl, rfl⟩
  have hsmall : ∀ k, (backslashImage (128 * k + 7)).toNat < 127 := by
    intro k
    unfold backslashImage
    split <;> first | omega | decide
  exact ordinary_of_image hsmall 0 16 (ext4fsMount_mounted _ _ _ _ _ _ h).devDesc
    (hsize ▸ Nat.dvd_refl 128)

/-- A session that reads one file, on the partition and on a copy of it. -/
theorem session_confined_shifted : ∃ replies log,
    mountAndServe ascii (fun _ => 0) 1 3 backslashPart oneFile [] = .ok (replies, log) ∧
      (∀ q ∈ log, Inside backslashPart q) ∧
      mountAndServe ascii (fun _ => 0) 1 3 (PartDescr.on backslashPart shiftedDisk 5) oneFile [] =
        .ok (replies, log.map (moved 0 5)) := by
  obtain ⟨replies, log, hrun, -⟩ :
      ∃ replies log, mountAndServe ascii (fun _ => 0) 1 3 backslashPart oneFile [] =
        .ok (replies, log) ∧ Served 4 (fun _ => True) replies log := by
    apply run_of_check
    decide +kernel
  have hcalls : ∀ call ∈ oneFile, InRange call := by
    simp [oneFile, InRange]
  obtain ⟨hinside, hcopies⟩ := session_confined (by decide) ascii (fun _ => 0) 1 3
    (fun _ _ _ => backslash_ordinary) oneFile hcalls replies log hrun
  exact ⟨replies, log, hrun, hinside, hcopies shiftedDisk 5 copied_shifted⟩

end Eokan.SessionBounds
