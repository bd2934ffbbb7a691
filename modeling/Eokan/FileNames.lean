import Eokan.PlainTrees
import Eokan.TreesOnDisk

/-!
The callbacks that open a file by its name and list a directory. Windows has its
paths in UTF-16 with backslashes between the names, and the file system has them
in UTF-8 with slashes. The strings here are without the zero that ends them.
-/
namespace Eokan.FileNames

open ByteMem CInt Programs Device Layout Mount DokanRead NodeHeap Directory Entries Resolve Trees
  TreesOnDisk TreeSearch PlainTrees

def maxPath : ℕ := 260

def backslash : UInt8 := 0x5c

/-- A backslash in UTF-16. -/
def separator : UInt16 := 0x5c

/-- The conversions of Windows, and what each one leaves in a buffer that is too
small for its result. -/
structure Conversions where
  toUtf8 : List UInt16 → List UInt8
  toUtf16 : List UInt8 → List UInt16
  leaves8 : List UInt16 → ℕ → List UInt8
  leaves16 : List UInt8 → ℕ → List UInt16

/-- What Windows passes on of a file that is listed. -/
structure FindData where
  fileAttributes : ℕ
  fileName : List UInt16
  fileSizeHigh : ℕ
  fileSizeLow : ℕ
  lastAccessTime : ℕ
  lastWriteTime : ℕ
  creationTime : ℕ

def fileAttributeDirectory : ℕ := 0x10

section Code
variable (api : Conversions)

/-- The string that is in a buffer of os bytes afterwards. -/
def utf16ToUtf8 (utf16 : List UInt16) (os : ℕ) : List UInt8 :=
  if (api.toUtf8 utf16).length + 1 ≤ os then api.toUtf8 utf16 else api.leaves8 utf16 os

def utf8ToUtf16 (utfc : List UInt8) (os : ℕ) : List UInt16 :=
  if (api.toUtf16 utfc).length + 1 ≤ os then api.toUtf16 utfc else api.leaves16 utfc os

/-- Every backslash becomes a slash. -/
def getFilePath (size : ℕ) (name : List UInt16) : List UInt8 :=
  (utf16ToUtf8 api name size).map fun b => if b = backslash then slash else b

def findData (name : List UInt8) (st : Xstat) (isDir : Bool) : FindData where
  fileAttributes :=
    if isDir then fileAttributeNormal ||| fileAttributeDirectory else fileAttributeNormal
  fileName := utf8ToUtf16 api (name.map fun b => if b = slash then backslash else b) maxPath
  fileSizeHigh := st.sizeHigh
  fileSizeLow := st.size
  lastAccessTime := st.atime
  lastWriteTime := st.mtime
  creationTime := st.ctime

/-- Every entry is passed on, and the listing goes on. -/
def listAllFiles {α : Type} (fillFind : α → FindData → α) (data : α) (name : List UInt8)
    (st : Xstat) (isDir : Bool) : ℤ × α := (0, fillFind data (findData api name st isDir))

variable (fs : ExtFilesystem) (fuel steps : ℕ)

/-- The status, and the file that is kept as the context of the handle. -/
def createFile (fileName : List UInt16) (isDirectory : Bool) : NodeM (ℤ × Option NodeRef) := do
  if isDirectory then pure (0, none)
  else do
    let filp ← ext4fsOpen fs fuel steps (getFilePath api maxPath fileName)
    pure (0, filp)

def findFiles {α : Type} (fileName : List UInt16) (fillFind : α → FindData → α) (data : α) :
    NodeM (ℤ × α) := do
  let (_, data) ← ext4fsListFiles fs fuel steps (getFilePath api maxPath fileName)
    (some (listAllFiles api fillFind)) data
  pure (0, data)

end Code

/-- Strings that are valid in UTF-8 come back from UTF-16 as they were. Characters
are converted one by one, so that a backslash stays between its neighbours. -/
structure Faithful (api : Conversions) (valid : List UInt8 → Prop) : Prop where
  inverse : ∀ s, valid s → api.toUtf8 (api.toUtf16 s) = s
  join : ∀ a b, api.toUtf8 (a ++ separator :: b) = api.toUtf8 a ++ backslash :: api.toUtf8 b

/-- A name as a path: a backslash in it is taken as a slash. -/
def slashed (name : List UInt8) : List UInt8 := name.map fun b => if b = backslash then slash else b

theorem slashed_append (name rest : List UInt8) :
    slashed (name ++ backslash :: rest) = slashed name ++ slash :: slashed rest := by
  simp [slashed]

theorem slashed_eq {name : List UInt8} (h : backslash ∉ name) : slashed name = name := by
  have hsame : ∀ b ∈ name, (if b = backslash then slash else b) = b := by
    intro b hb
    apply if_neg
    rintro rfl
    exact h hb
  exact (List.map_congr_left hsame).trans (List.map_id name)

theorem getFilePath_eq {api : Conversions} {name : List UInt16}
    (hfits : (api.toUtf8 name).length < maxPath) :
    getFilePath api maxPath name = slashed (api.toUtf8 name) := by
  have hroom : (api.toUtf8 name).length + 1 ≤ maxPath := hfits
  unfold getFilePath utf16ToUtf8
  rw [if_pos hroom]
  rfl

/-- What a listing of a directory passes on. -/
def reports (api : Conversions) (t : Tree) (ino : ℤ) : List FindData :=
  (((t.entries ino).filter (·.name ≠ [])).map (callOf t.contents)).map fun call =>
    findData api call.1 call.2.1 call.2.2

section Names
variable {api : Conversions} {valid : List UInt8 → Prop} (hapi : Faithful api valid)
  {name : List UInt8} (hname : name ≠ []) (hslash : slash ∉ name) (hvalid : valid name)
  {t : Tree} {ino : ℤ} (hdir : t.type ino = .directory)

omit hapi hname hslash hvalid hdir in
/-- The first entry of a name is the only one. -/
theorem child_of_unique {e : Entry} (he : e ∈ t.entries ino)
    (hunique : ∀ e' ∈ t.entries ino, e'.name = e.name → e' = e) :
    t.child ino e.name = some (int32 e.inode) := by
  unfold Tree.child
  cases hfind : (t.entries ino).find? (·.name = e.name) with
  | none =>
    have hother := List.find?_eq_none.mp hfind e he
    simp at hother
  | some e' =>
    have heq : e'.name = e.name := by simpa using List.find?_some hfind
    rw [hunique e' (List.mem_of_find?_eq_some hfind) heq]
    rfl

include hdir hname hslash in
/-- Without a backslash the name leads to its own entry. -/
theorem lookupPath_slashed (hback : backslash ∉ name) :
    lookupPath t ino (names (slashed name)) = t.child ino name := by
  rw [slashed_eq hback, names_single name hname hslash, lookupPath, if_pos hdir]
  cases t.child ino name with
  | none => rfl
  | some found => rfl

include hapi hvalid in
/-- The path that is opened goes through the directory that was listed. -/
theorem lookupPath_joined {P : List UInt16} (hP : (api.toUtf8 P).length < maxPath)
    (hfits : (api.toUtf8 (P ++ separator :: api.toUtf16 name)).length < maxPath)
    (hdir : lookupPath t t.root (names (getFilePath api maxPath P)) = some ino) :
    lookupPath t t.root (names (getFilePath api maxPath (P ++ separator :: api.toUtf16 name))) =
      lookupPath t ino (names (slashed name)) := by
  rw [getFilePath_eq hP] at hdir
  rw [getFilePath_eq hfits, hapi.join, hapi.inverse name hvalid, slashed_append, names_append,
    lookupPath_append, hdir, Option.bind_some]

end Names

section Callbacks
variable {t : Tree} {fs : ExtFilesystem} {fuel steps : ℕ} {states : ℤ → Ext2fsNode → Prop}
  (hread : t.Readable fs fuel steps states) (hwf : t.WellFormed) (hplain : Plain t) {w : World}
  (hroot : t.Stands fs states .diropen t.root w) (api : Conversions)
include hread hwf hplain hroot

theorem createFile_yields (fileName : List UInt16) (ino : ℤ) (hreg : t.type ino = .reg) :
    Yields (createFile api fs fuel steps fileName false) w fun r w' =>
      (∃ node n, r = (0, some node) ∧ w'.get node = some n ∧ n.ino = ino) ↔
        lookupPath t t.root (names (getFilePath api maxPath fileName)) = some ino := by
  apply Yields.bind (ext4fsOpen_plain hread hwf hplain hroot (getFilePath api maxPath fileName))
  intro r w' hr
  apply Yields.pure
  cases hlookup : lookupPath t t.root (names (getFilePath api maxPath fileName)) with
  | none =>
    rw [hlookup] at hr
    obtain rfl : r = none := hr
    refine iff_of_false ?_ (by simp)
    rintro ⟨node, n, h, -⟩
    cases h
  | some found =>
    rw [hlookup] at hr
    dsimp only at hr
    split at hr
    · obtain ⟨node, rfl, n, hn, -, rfl⟩ := hr
      constructor
      · rintro ⟨node', n', h, hn', rfl⟩
        cases h
        rw [hn] at hn'
        cases hn'
        rfl
      · intro h
        exact ⟨node, n, rfl, hn, Option.some.inj h⟩
    · subst hr
      refine iff_of_false ?_ ?_
      · rintro ⟨node, n, h, -⟩
        cases h
      · intro h
        cases h
        exact absurd hreg ‹_›

theorem findFiles_yields {P : List UInt16} {ino : ℤ} (hdir : t.type ino = .directory)
    (hP : lookupPath t t.root (names (getFilePath api maxPath P)) = some ino) {α : Type}
    (fillFind : α → FindData → α) (a : α) :
    Yields (findFiles api fs fuel steps P fillFind a) w fun r _ =>
      r = (0, (reports api t ino).foldl fillFind a) := by
  apply Yields.bind (ext4fsListFiles_plain hread hwf hplain hroot (getFilePath api maxPath P) hP
    hdir (listAllFiles api fillFind) (fun _ _ _ _ => rfl) a)
  rintro r w' rfl
  apply Yields.pure
  unfold reports
  rw [List.foldl_map]
  rfl

/-- The path in UTF-8 fits, and the name has no backslash, or its pieces lead to
the same inode. If the path does not fit, what is left in the buffer has to. -/
def LeadsBack (t : Tree) (P : List UInt16) (ino : ℤ) (e : Entry) : Prop :=
  if (api.toUtf8 (P ++ separator :: api.toUtf16 e.name)).length < maxPath then
    backslash ∉ e.name ∨ lookupPath t ino (names (slashed e.name)) = some (int32 e.inode)
  else
    lookupPath t t.root
      (names (slashed (api.leaves8 (P ++ separator :: api.toUtf16 e.name) maxPath))) =
        some (int32 e.inode)

variable {valid : List UInt8 → Prop} (hapi : Faithful api valid) {P : List UInt16} {ino : ℤ}
  (hdir : t.type ino = .directory)
  (hP : lookupPath t t.root (names (getFilePath api maxPath P)) = some ino) {e : Entry}
  (he : e ∈ t.entries ino) (hname : e.name ≠ [] ∧ slash ∉ e.name ∧ valid e.name)
  (hunique : ∀ e' ∈ t.entries ino, e'.name = e.name → e' = e)
  (hreg : t.type (int32 e.inode) = .reg)
  (hfits : (P ++ separator :: api.toUtf16 e.name).length < maxPath)
include hapi hdir hP he hname hunique hreg hfits

omit hread hwf hplain hroot hreg hfits in
/-- What is opened is the inode of the entry just then. -/
theorem lookupPath_listed :
    lookupPath t t.root
        (names (getFilePath api maxPath (P ++ separator :: api.toUtf16 e.name))) =
      some (int32 e.inode) ↔ LeadsBack api t P ino e := by
  obtain ⟨hne, hslash, hvalid⟩ := hname
  unfold LeadsBack
  split
  · have hjoin := hapi.join P (api.toUtf16 e.name)
    have hshort : (api.toUtf8 P).length < maxPath := by
      have hlength := congrArg List.length hjoin
      rw [List.length_append, List.length_cons] at hlength
      omega
    rw [lookupPath_joined hapi hvalid hshort ‹_› hP]
    constructor
    · exact Or.inr
    · rintro (hback | hsame)
      · rw [lookupPath_slashed hne hslash hdir hback]
        exact child_of_unique he hunique
      · exact hsame
  · unfold getFilePath utf16ToUtf8
    rw [if_neg (by omega)]
    rfl

omit hread hplain hroot hapi hP hname hunique hreg in
/-- The entry is passed on under its name. -/
theorem reports_name (hino : ino ∈ t.nodes) (hne : e.name ≠ []) (hslash : slash ∉ e.name) :
    ∃ report ∈ reports api t ino, report.fileName = api.toUtf16 e.name := by
  have hnamed : e ∈ (t.entries ino).filter (·.name ≠ []) :=
    List.mem_filter.mpr ⟨he, decide_eq_true hne⟩
  refine ⟨_, List.mem_map_of_mem (List.mem_map_of_mem hnamed), ?_⟩
  have hnul := (hwf.entries ino hino hdir e he hne).name
  have hsame : ∀ b ∈ e.name, (if b = slash then backslash else b) = b := by
    intro b hb
    apply if_neg
    rintro rfl
    exact hslash hb
  have hroom : (api.toUtf16 e.name).length + 1 ≤ maxPath := by
    rw [List.length_append, List.length_cons] at hfits
    omega
  unfold findData callOf utf8ToUtf16
  dsimp only
  rw [Tree.cname_eq hnul, List.map_congr_left hsame, List.map_id', if_pos hroom]

/-- All entries are listed. A regular file opens under its name if that leads
back to it. -/
theorem createFile_opens_listed_iff :
    (∀ {α : Type} (fillFind : α → FindData → α) (a : α),
      Yields (findFiles api fs fuel steps P fillFind a) w fun r _ =>
        r = (0, (reports api t ino).foldl fillFind a)) ∧
      (∃ report ∈ reports api t ino, report.fileName = api.toUtf16 e.name) ∧
      (Yields (createFile api fs fuel steps (P ++ separator :: api.toUtf16 e.name) false) w
          (fun r w' => ∃ node n, r = (0, some node) ∧ w'.get node = some n ∧
            n.ino = int32 e.inode) ↔
        LeadsBack api t P ino e) := by
  have hino : ino ∈ t.nodes := lookupPath_mem hwf hwf.root.1 (names_ne _) hP
  refine ⟨fun fillFind a => findFiles_yields hread hwf hplain hroot api hdir hP fillFind a,
    reports_name hwf api hdir he hfits hino hname.1 hname.2.1, ?_⟩
  rw [(createFile_yields hread hwf hplain hroot api _ _ hreg).iff_of]
  exact lookupPath_listed api hapi hdir hP he hname hunique

end Callbacks

/-- A root with a file f and a file a\b. -/
def backslashImage : Bytes := fun b =>
  match b with
  | 1044 => 1
  | 1064 => 8
  | 1080 => 0x53
  | 1081 => 0xef
  | 2056 => 3
  | 3201 => 0x41
  | 3205 => 4
  | 3240 => 4
  | 3329 => 0x81
  | 3457 => 0x81
  | 4096 => 3
  | 4100 => 12
  | 4102 => 1
  | 4103 => 1
  | 4104 => 0x66
  | 4108 => 4
  | 4112 => 0xf4
  | 4113 => 3
  | 4114 => 3
  | 4115 => 1
  | 4116 => 0x61
  | 4117 => 0x5c
  | 4118 => 0x62
  | _ => 0

def backslashPart : PartDescr := ⟨DiskDescr.ofImage backslashImage, 0, 16⟩

def plainEntry : Entry := ⟨3, 12, 1, [0x66]⟩

def backslashEntry : Entry := ⟨4, 1012, 1, [0x61, 0x5c, 0x62]⟩

theorem entries_unique : ∀ e ∈ [plainEntry, backslashEntry], ∀ e' ∈ [plainEntry, backslashEntry],
    e'.name = e.name → e' = e := by
  decide

def backslashTree (fs : ExtFilesystem) : Tree := flatTree fs [plainEntry, backslashEntry]

def BackslashMount (fs : ExtFilesystem) (_ : Ext2fsNode) (_ : Log) : Prop :=
  FlatRoot fs (backslashTree fs) [plainEntry, backslashEntry] ∧
  (backslashTree fs).type 3 = .reg ∧ (backslashTree fs).type 4 = .reg ∧
  (backslashTree fs).child 2 [0x61] = none

instance (fs : ExtFilesystem) (root : Ext2fsNode) (log : Log) :
    Decidable (BackslashMount fs root log) := by
  unfold BackslashMount
  infer_instance

theorem backslashPart_mounts :
    ∃ fs root log, ext4fsMount (fun _ => 0) backslashPart [] = .ok (some (fs, root), log) ∧
      BackslashMount fs root log := by
  apply mount_of_check
  decide +kernel

/-- The conversions of strings in ASCII. -/
def ascii : Conversions where
  toUtf8 s := s.map UInt16.toUInt8
  toUtf16 s := s.map UInt8.toUInt16
  leaves8 _ _ := []
  leaves16 _ _ := []

theorem ascii_faithful : Faithful ascii fun s => ∀ b ∈ s, b < 0x80 := by
  refine ⟨fun s _ => ?_, fun a b => ?_⟩
  · exact (List.map_map ..).trans (List.map_id'' UInt8.toUInt8_toUInt16 s)
  · unfold ascii
    simp [separator, backslash]

theorem backslashTree_plain {fs : ExtFilesystem} {root : Ext2fsNode} {log : Log}
    (h : BackslashMount fs root log) : Plain (backslashTree fs) := by
  obtain ⟨⟨-, ⟨-, hdir⟩, -⟩, hplain, hback, -⟩ := h
  rintro ino (rfl | ⟨e, he, rfl⟩) hlink
  · rw [hdir] at hlink
    cases hlink
  · have hcases : e = plainEntry ∨ e = backslashEntry := by simpa using he
    rcases hcases with rfl | rfl
    · cases hplain.symm.trans hlink
    · cases hback.symm.trans hlink

/-- The file f opens under its name. -/
theorem createFile_opens_listed_iff_plain :
    ∃ fs root log, ext4fsMount (fun _ => 0) backslashPart [] = .ok (some (fs, root), log) ∧
      (Yields (createFile ascii fs 1 3 [separator, 0x66] false) (World.mounted root log)
          (fun r w' => ∃ node n, r = (0, some node) ∧ w'.get node = some n ∧
            n.ino = int32 plainEntry.inode) ↔
        LeadsBack ascii (backslashTree fs) [] 2 plainEntry) := by
  obtain ⟨fs, root, log, hmount, hback⟩ := backslashPart_mounts
  have hplain := backslashTree_plain hback
  obtain ⟨hflat, hreg, -⟩ := hback
  have hread := flatTree_readable hflat (ext4fsMount_mounted _ _ _ _ _ _ hmount) 1
    (by decide : 2 < 3)
  have hstands := stands_mounted hread rfl (Or.inl rfl) hmount
  have hroot : lookupPath (backslashTree fs) 2 (names (getFilePath ascii maxPath [])) = some 2 :=
    rfl
  have hdir : (backslashTree fs).type 2 = .directory := hflat.2.1.2
  have hmem : plainEntry ∈ (backslashTree fs).entries 2 := List.mem_cons_self
  have hname : plainEntry.name ≠ [] ∧ slash ∉ plainEntry.name ∧
      ∀ b ∈ plainEntry.name, b < 0x80 := by
    decide +kernel
  have hfits : ([] ++ separator :: ascii.toUtf16 plainEntry.name).length < maxPath := by
    decide +kernel
  have hfile : (backslashTree fs).type (int32 plainEntry.inode) = .reg := by
    have hint : int32 plainEntry.inode = 3 := by decide +kernel
    rw [hint]
    exact hreg
  exact ⟨fs, root, log, hmount, (createFile_opens_listed_iff hread (flatTree_wellFormed hflat)
    hplain hstands ascii ascii_faithful hdir hroot hmem hname
    (entries_unique _ List.mem_cons_self) hfile hfits).2.2⟩

/-- The path of the file a\b is looked up as a directory a with a file b. -/
theorem backslash_file_is_lost :
    ∃ fs root log, ext4fsMount (fun _ => 0) backslashPart [] = .ok (some (fs, root), log) ∧
      ((backslashTree fs).WellFormed ∧ Plain (backslashTree fs) ∧
        (backslashTree fs).Readable fs 1 3 (NodeOf (backslashTree fs)) ∧
        (backslashTree fs).Stands fs (NodeOf (backslashTree fs)) .diropen 2
          (World.mounted root log)) ∧
      (lookupPath (backslashTree fs) 2 (names (getFilePath ascii maxPath [])) = some 2 ∧
        backslashEntry ∈ (backslashTree fs).entries 2 ∧ (backslashTree fs).type 4 = .reg ∧
        ∃ report ∈ reports ascii (backslashTree fs) 2,
          report.fileName = [0x61, separator, 0x62]) ∧
      ¬ Yields (createFile ascii fs 1 3 [separator, 0x61, separator, 0x62] false)
        (World.mounted root log) fun r w' =>
          ∃ node n, r = (0, some node) ∧ w'.get node = some n ∧ n.ino = 4 := by
  obtain ⟨fs, root, log, hmount, hback⟩ := backslashPart_mounts
  have hplain := backslashTree_plain hback
  obtain ⟨hflat, -, hreg, hmissing⟩ := hback
  have hwf : (backslashTree fs).WellFormed := flatTree_wellFormed hflat
  have hread : (backslashTree fs).Readable fs 1 3 (NodeOf (backslashTree fs)) :=
    flatTree_readable hflat (ext4fsMount_mounted _ _ _ _ _ _ hmount) 1 (by decide : 2 < 3)
  have hstands := stands_mounted hread rfl (Or.inl rfl) hmount
  have hmem : backslashEntry ∈ (backslashTree fs).entries 2 :=
    List.mem_cons_of_mem _ List.mem_cons_self
  have hname : backslashEntry.name ≠ [] ∧ slash ∉ backslashEntry.name := by decide
  have hfits : ([] ++ separator :: ascii.toUtf16 backslashEntry.name).length < maxPath := by
    decide +kernel
  have hdir : (backslashTree fs).type 2 = .directory := hflat.2.1.2
  have hreport := reports_name hwf ascii hdir hmem hfits (Or.inl rfl) hname.1 hname.2
  refine ⟨fs, root, log, hmount, ⟨hwf, hplain, hread, hstands⟩, ⟨rfl, hmem, hreg, hreport⟩,
    fun hopens => ?_⟩
  have hfound := (createFile_yields hread hwf hplain hstands ascii _ 4 hreg).iff_of.mp hopens
  have hnames : names (getFilePath ascii maxPath [separator, 0x61, separator, 0x62]) =
      [[0x61], [0x62]] := by
    decide
  have hroot : (backslashTree fs).root = 2 := rfl
  rw [hnames, hroot, lookupPath, hmissing] at hfound
  simp at hfound

end Eokan.FileNames
