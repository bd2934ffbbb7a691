import Eokan.FileNames
import Eokan.VolumeLabel
import Mathlib.Logic.Function.Basic

/-!
A mounted drive. Windows calls one function after the other, and what is kept
between the calls is the file of each handle. Nothing is written: the functions
that would change the file system only say that they did.
-/
namespace Eokan.Sessions

open ByteMem CInt Programs Device Layout Mount DokanRead NodeHeap Directory Resolve FileNames
  VolumeLabel

/-- Functions that look at none of their arguments. -/
inductive Ignored
  | createDirectory
  | cleanup
  | writeFile
  | flushFileBuffers
  | setFileAttributes
  | setFileTime
  | deleteFile
  | deleteDirectory
  | moveFile
  | setEndOfFile
  | setAllocationSize
  | lockFile
  | unlockFile
  | getFileSecurity
  | setFileSecurity
  | unmount
  deriving DecidableEq

/-- Only the deletion of a directory is refused. -/
def Ignored.status : Ignored → ℤ
  | .deleteDirectory => -1
  | _ => 0

/-- A call, with the handle that it is made for. -/
inductive Callback
  | createFile (handle : ℕ) (fileName : List UInt16) (isDirectory : Bool)
  | openDirectory (handle : ℕ)
  | closeFile (handle : ℕ)
  | readFile (handle : ℕ) (buffer : Bytes) (bufferLength : ℕ) (offset : ℤ)
  | getFileInformation (handle : ℕ) (info : FileInformation)
  | findFiles (fileName : List UInt16)
  | getDiskFreeSpace
  | getVolumeInformation (volumeNameSize : ℕ)
  | ignored (function : Ignored)

/-- Sizes in bytes. -/
structure Xfsstat where
  totalSize : ℕ
  totalAvail : ℕ
  freeSize : ℕ

structure VolumeInformation where
  volumeName : List UInt16
  volumeSerialNumber : ℕ
  maximumComponentLength : ℕ
  fileSystemFlags : ℕ

/-- What a call gives back, apart from what it does to the handles. -/
inductive Reply
  | status (status : ℤ)
  | read (status : ℤ) (readLength : Option ℤ) (buffer : Bytes)
  | information (info : FileInformation)
  | files (status : ℤ) (found : List FindData)
  | space (freeBytesAvl totalBytes freeBytes : ℕ)
  | volume (info : VolumeInformation)

/-- The file that each handle has as its context. -/
abbrev Contexts := ℕ → Option NodeRef

def noContexts : Contexts := fun _ => none

section Code
variable (api : Conversions) (fs : ExtFilesystem) (fuel steps : ℕ)

/-- The block size is computed as an `int`. -/
def ext4fsFsstat : Xfsstat where
  totalAvail := fs.devDesc.length * 512 % 2 ^ 64
  totalSize := fs.sblock.totalBlocks * ext2BlockSize fs
  freeSize := fs.sblock.freeBlocks * ext2BlockSize fs

def getDiskFreeSpace : Reply :=
  let st := ext4fsFsstat fs
  .space st.freeSize st.totalAvail st.freeSize

def linuxfs : List UInt8 := [0x6c, 0x69, 0x6e, 0x75, 0x78, 0x66, 0x73]

/-- A volume whose label is empty has a name all the same. -/
def getVolumeInformation (volumeNameSize : ℕ) : Except Fault Reply := do
  let (size, vname) ← vfsLabel none fs (fun _ => 0) maxPath
  let ep := if size ≤ 0 then linuxfs else cString vname maxPath
  pure (.volume ⟨utf8ToUtf16 api ep volumeNameSize, 0x19821215, 256, 0x10f⟩)

/-- The node of a file is freed with its handle, unless it is that of the root. -/
def vfsFileClose (filp : NodeRef) : NodeM Unit := ext4fsFreeNode filp .diropen

def closeFile (handle : ℕ) (contexts : Contexts) : NodeM (Reply × Contexts) :=
  match contexts handle with
  | none => pure (.status 0, contexts)
  | some filp => do
    vfsFileClose filp
    pure (.status 0, Function.update contexts handle none)

/-- Reading through a handle changes the node of its file. -/
def readHandle (filp : Option NodeRef) (buffer : Bytes) (bufferLength : ℕ) (offset : ℤ) :
    NodeM Reply :=
  match filp with
  | none => do
    let r ← device (readFile fs fuel none buffer bufferLength offset)
    pure (.read r.status r.readLength r.buffer)
  | some filp => do
    let node ← deref filp
    let r ← device (readFile fs fuel (some node) buffer bufferLength offset)
    store filp (r.filp.getD node)
    pure (.read r.status r.readLength r.buffer)

def statHandle (filp : Option NodeRef) (info : FileInformation) : NodeM Reply :=
  match filp with
  | none => pure (.information (getFileInformation none info))
  | some filp => do
    let node ← deref filp
    pure (.information (getFileInformation (some node) info))

/-- One call. A handle that gets a file loses the one it had. -/
def callback (call : Callback) (contexts : Contexts) : NodeM (Reply × Contexts) :=
  match call with
  | .createFile handle fileName isDirectory => do
    let (status, filp) ← createFile api fs fuel steps fileName isDirectory
    pure (.status status, Function.update contexts handle filp)
  | .openDirectory handle => pure (.status 0, Function.update contexts handle none)
  | .closeFile handle => closeFile handle contexts
  | .readFile handle buffer bufferLength offset => do
    let reply ← readHandle fs fuel (contexts handle) buffer bufferLength offset
    pure (reply, contexts)
  | .getFileInformation handle info => do
    let reply ← statHandle (contexts handle) info
    pure (reply, contexts)
  | .findFiles fileName => do
    let (status, found) ← findFiles api fs fuel steps fileName
      (fun found data => found ++ [data]) []
    pure (.files status found, contexts)
  | .getDiskFreeSpace => pure (getDiskFreeSpace fs, contexts)
  | .getVolumeInformation volumeNameSize => do
    let reply ← device (liftM (getVolumeInformation api fs volumeNameSize))
    pure (reply, contexts)
  | .ignored function => pure (.status function.status, contexts)

/-- The calls of a session, one after the other. -/
def serve : List Callback → Contexts → NodeM (List Reply × Contexts)
  | [], contexts => pure ([], contexts)
  | call :: calls, contexts => do
    let (reply, contexts) ← callback api fs fuel steps call contexts
    let (replies, contexts) ← serve calls contexts
    pure (reply :: replies, contexts)

/-- The session of a file system that was mounted with this root. -/
def eokanMain (root : Ext2fsNode) (calls : List Callback) : DevM (List Reply) := fun log =>
  match serve api fs fuel steps calls noContexts (World.mounted root log) with
  | .ok ((replies, _), w) => .ok (replies, w.log)
  | .error e => .error e

end Code

/-- All that a partition shows of itself. -/
def mountAndServe (api : Conversions) (past : Bytes) (fuel steps : ℕ) (part : PartDescr)
    (calls : List Callback) : DevM (Option (List Reply)) := do
  match ← ext4fsMount past part with
  | none => pure none
  | some (fs, root) => do
    let replies ← eokanMain api fs fuel steps root calls
    pure (some replies)

/-- The handle that a call is made for. -/
def Callback.handle : Callback → Option ℕ
  | .createFile handle _ _ => some handle
  | .openDirectory handle => some handle
  | .closeFile handle => some handle
  | .readFile handle _ _ _ => some handle
  | .getFileInformation handle _ => some handle
  | _ => none

/-- The call looks for a path. -/
def Callback.Searches : Callback → Prop
  | .createFile _ _ isDirectory => isDirectory = false
  | .findFiles _ => True
  | _ => False

end Eokan.Sessions
