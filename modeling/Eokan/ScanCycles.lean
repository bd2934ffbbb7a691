import Eokan.Chains
import Eokan.DirectoryScan
import Eokan.Mount
import Mathlib.Order.Interval.Finset.Nat

/-!
When the loop over a directory ends. An entry gives the distance to the next
one, which may be 0, and the position wraps. Where the loop is decides what it
does next, so it goes on for ever as soon as it comes to a position twice.
-/
namespace Eokan.ScanCycles

open ByteMem CInt Programs Device Layout Inodes DokanRead NodeHeap Directory NodeRuns Entries
open DirectoryReads EntryVisits DirectoryScan Chains Mount FileContent FileMaps ReadPlan

section Positions
variable (size : ℕ) (found : ℕ → Option Entry) (passes : Entry → Bool)

/-- The next position, unless the loop ends at this one. -/
def scanNext (pos : ℕ) : Option ℕ :=
  if pos < size then (found pos).bind fun e =>
    if e.name = [] ∨ passes e = true then some (nextPos pos e) else none
  else none

/-- The positions that the entries lead to. -/
inductive Reached : ℕ → Prop
  | start : Reached 0
  | next (pos : ℕ) (e : Entry) : Reached pos → pos < size → found pos = some e →
      Reached (nextPos pos e)

/-- The loop comes to a position again. -/
def ComesBack : Prop := Returns (scanNext size found passes) (some 0)

theorem scanNext_lt (pos q : ℕ) (h : scanNext size found passes pos = some q) : q < 2 ^ 32 := by
  unfold scanNext at h
  split at h
  · obtain ⟨e, -, he⟩ := Option.bind_eq_some_iff.mp h
    split at he
    · obtain rfl := Option.some.inj he
      exact Nat.mod_lt _ (by decide)
    · cases he
  · cases h

theorem ends_iff_not_comesBack :
    Ends (scanNext size found passes) (some 0) ↔ ¬ ComesBack size found passes := by
  apply ends_iff_not_returns _ _ _ (Set.finite_Iio (2 ^ 32))
  intro n p hp
  cases n with
  | zero =>
    obtain rfl := Option.some.inj hp
    exact Nat.two_pow_pos 32
  | succ n =>
    obtain ⟨p', -, hp'⟩ := Option.bind_eq_some_iff.mp hp
    exact scanNext_lt size found passes p' p hp'

end Positions

/-- The loop ends, whichever number of steps it takes. -/
def LoopEnds {α : Type} (fs : ExtFilesystem) (fuel : ℕ) (dir : NodeRef) (mode : DirMode α)
    (a : α) (w : World) : Prop :=
  ∃ steps, Yields (iterateFrom fs fuel dir mode steps 0 a) w fun _ _ => True

/-- A visit of an entry that does not pass is the last one. -/
def VisitsEnd {α : Type} (fs : ExtFilesystem) (mode : DirMode α) (passes : Entry → Bool) : Prop :=
  ∀ e dirent w a, Ext2Dirent.inode dirent = e.inode → dirent.filetype = e.filetype →
    Yields (visitEntry fs mode dirent e.cname a) w fun r w' =>
      Same w w' ∧ (passes e = false → ∃ found b, r = .done found b)

/-- A visit of an entry that passes is followed by the next round. -/
def VisitsPass {α : Type} (fs : ExtFilesystem) (mode : DirMode α) (passes : Entry → Bool) : Prop :=
  ∀ e dirent w a, Ext2Dirent.inode dirent = e.inode → dirent.filetype = e.filetype →
    passes e = true → Yields (visitEntry fs mode dirent e.cname a) w fun r w' =>
      Same w w' ∧ ∃ b, r = .next 0 b

section Runs
variable {fs : ExtFilesystem} {fuel size : ℕ} {valid : Ext2fsNode → Prop}
  (hsizes : ∀ node, valid node → node.inode.size = size) {found : ℕ → Option Entry}
  (hfound : ∀ pos, Reached size found pos → pos < size → Looks fs fuel valid pos (found pos))
  {dir : NodeRef} {w : World}
  (hdir : ∃ node, w.get dir = some node ∧ valid node) {α : Type} {mode : DirMode α}
  {passes : Entry → Bool}
include hsizes hfound hdir

/-- The induction is on the positions that are left. -/
theorem run_of_chain (hend : VisitsEnd fs mode passes) (n pos : ℕ) (a : α)
    (hreached : Reached size found pos)
    (hn : chain (scanNext size found passes) (some pos) n = none) :
    Yields (iterateFrom fs fuel dir mode n pos a) w fun _ _ => True := by
  induction n generalizing pos w a with
  | zero => cases hn
  | succ n ih =>
    obtain ⟨node, hnode, hvalid⟩ := hdir
    rw [chain_succ] at hn
    unfold scanNext at hn
    by_cases hlt : pos < size
    swap
    · exact (iterateFrom_stop hsizes hnode hvalid (Or.inl (Nat.not_lt.mp hlt)) mode a).mono
        fun _ _ _ => trivial
    have hlook := hfound pos hreached hlt
    rw [if_pos hlt] at hn
    cases hpos : found pos with
    | none =>
      rw [hpos] at hlook
      exact (iterateFrom_stop hsizes hnode hvalid (Or.inr hlook) mode a).mono fun _ _ _ => trivial
    | some e =>
      rw [hpos] at hlook hn
      refine iterateFrom_round hsizes hnode hvalid hlt hlook a (fun hname w' hpassed => ?_) ?_
      · rw [Option.bind_some, if_pos (Or.inl hname)] at hn
        exact ih hpassed.self (nextPos pos e) a (.next pos e hreached hlt hpos) hn
      · intro hname w' dirent hpassed hinode htype
        refine (hend e dirent w' a hinode htype).mono ?_
        rintro r w'' ⟨hsame, hdone⟩
        cases hpass : passes e with
        | false =>
          obtain ⟨res, b, rfl⟩ := hdone hpass
          exact trivial
        | true =>
          rw [Option.bind_some, if_pos (Or.inr hpass)] at hn
          cases r with
          | done res b => exact trivial
          | next got b =>
            dsimp only
            split
            · exact trivial
            · exact ih (hpassed.of_same hsame).self (nextPos pos e) b
                (.next pos e hreached hlt hpos) hn

/-- The induction is on the rounds of the loop. -/
theorem chain_of_run (hpass : VisitsPass fs mode passes) (n pos : ℕ) (a : α)
    (hreached : Reached size found pos)
    (hrun : Yields (iterateFrom fs fuel dir mode n pos a) w fun _ _ => True) :
    chain (scanNext size found passes) (some pos) n = none := by
  induction n generalizing pos w a with
  | zero =>
    obtain ⟨r, w', h, -⟩ := hrun
    cases h
  | succ n ih =>
    obtain ⟨node, hnode, hvalid⟩ := hdir
    rw [chain_succ]
    unfold scanNext
    by_cases hlt : pos < size
    swap
    · rw [if_neg hlt]
      exact chain_none _ n
    have hlook := hfound pos hreached hlt
    rw [if_pos hlt]
    cases hpos : found pos with
    | none => exact chain_none _ n
    | some e =>
      rw [hpos] at hlook
      obtain ⟨w', dirent, hpassed, ⟨hinode, htype⟩, hround⟩ :=
        iterateFrom_look hsizes hnode hvalid hlt hlook n a
      unfold Yields at hrun
      rw [hround] at hrun
      rw [Option.bind_some]
      by_cases hname : e.name = []
      · rw [if_pos hname] at hrun
        rw [if_pos (Or.inl hname)]
        exact ih hpassed.self (nextPos pos e) a (.next pos e hreached hlt hpos) hrun
      rw [if_neg hname] at hrun
      by_cases hgo : passes e = true
      · obtain ⟨r, w'', hvisit, hsame, b, rfl⟩ := hpass e dirent w' a hinode htype hgo
        rw [if_pos (Or.inr hgo)]
        rw [bind_ok hvisit] at hrun
        exact ih (hpassed.of_same hsame).self (nextPos pos e) b (.next pos e hreached hlt hpos) hrun
      · rw [if_neg (not_or.mpr ⟨hname, hgo⟩)]
        exact chain_none _ n

end Runs

section Modes
variable {fs : ExtFilesystem} {contents : ℕ → Option Bytes}
  (hinos : ∀ ino, InodeIs fs ino (contents ino))

/-- A lookup passes an entry that has a type and another name. -/
def lookupPasses (contents : ℕ → Option Bytes) (name : List UInt8) (e : Entry) : Bool :=
  (typeOf contents e).isSome && e.cname ≠ name

/-- A listing passes an entry whose inode can be read. -/
def listPasses (contents : ℕ → Option Bytes) (e : Entry) : Bool := (contents e.inode).isSome

include hinos

theorem visitsEnd_lookup (name : List UInt8) :
    VisitsEnd fs (.lookup name : DirMode Unit) (lookupPasses contents name) := by
  intro e dirent w a hinode htype
  refine (visitEntry_lookup (hinos e.inode) hinode htype name a).mono ?_
  rintro r w' ⟨hsame, hr⟩
  refine ⟨hsame, fun hstop => ?_⟩
  unfold lookupPasses at hstop
  cases htypeOf : typeOf contents e with
  | none =>
    rw [htypeOf] at hr
    exact ⟨none, a, hr⟩
  | some type =>
    rw [htypeOf] at hr hstop
    by_cases hname : e.cname = name
    · dsimp only at hr
      rw [if_pos hname] at hr
      obtain ⟨id, node, rfl, -⟩ := hr
      exact ⟨_, a, rfl⟩
    · simp [hname] at hstop

theorem visitsPass_lookup (name : List UInt8) :
    VisitsPass fs (.lookup name : DirMode Unit) (lookupPasses contents name) := by
  intro e dirent w a hinode htype hpass
  refine (visitEntry_lookup (hinos e.inode) hinode htype name a).mono ?_
  rintro r w' ⟨hsame, hr⟩
  refine ⟨hsame, a, ?_⟩
  unfold lookupPasses at hpass
  cases htypeOf : typeOf contents e with
  | none => simp [htypeOf] at hpass
  | some type =>
    rw [htypeOf] at hr hpass
    have hname : e.cname ≠ name := by simpa using hpass
    dsimp only at hr
    rwa [if_neg hname] at hr

variable {α : Type} (f : α → List UInt8 → Xstat → Bool → ℤ × α)

theorem visitsEnd_list : VisitsEnd fs (.list (some f)) (listPasses contents) := by
  intro e dirent w a hinode htype
  refine (visitEntry_list (hinos e.inode) hinode htype f a).mono ?_
  rintro r w' ⟨hsame, hr⟩
  refine ⟨hsame, fun hstop => ?_⟩
  cases hbytes : contents e.inode with
  | none =>
    rw [hbytes] at hr
    exact ⟨none, a, hr⟩
  | some bytes => simp [listPasses, hbytes] at hstop

theorem visitsPass_list (hf : ∀ a name st isDir, (f a name st isDir).1 = 0) :
    VisitsPass fs (.list (some f)) (listPasses contents) := by
  intro e dirent w a hinode htype hpass
  refine (visitEntry_list (hinos e.inode) hinode htype f a).mono ?_
  rintro r w' ⟨hsame, hr⟩
  refine ⟨hsame, ?_⟩
  cases hbytes : contents e.inode with
  | none => simp [listPasses, hbytes] at hpass
  | some bytes =>
    rw [hbytes] at hr
    dsimp only at hr
    rw [hf] at hr
    exact ⟨_, hr⟩

end Modes

section Loops
variable {fs : ExtFilesystem} {fuel size : ℕ} {valid : Ext2fsNode → Prop}
  (hsizes : ∀ node, valid node → node.inode.size = size) {found : ℕ → Option Entry}
  (hfound : ∀ pos, Reached size found pos → pos < size → Looks fs fuel valid pos (found pos))
  {dir : NodeRef} {w : World}
  (hdir : ∃ node, w.get dir = some node ∧ valid node) {contents : ℕ → Option Bytes}
  (hinos : ∀ ino, InodeIs fs ino (contents ino))
include hsizes hfound hdir hinos

theorem lookup_ends_iff (name : List UInt8) :
    LoopEnds fs fuel dir (.lookup name) () w ↔
      ¬ ComesBack size found (lookupPasses contents name) := by
  rw [← ends_iff_not_comesBack]
  constructor
  · rintro ⟨n, hn⟩
    exact ⟨n, chain_of_run hsizes hfound hdir (visitsPass_lookup hinos name) n 0 () .start hn⟩
  · rintro ⟨n, hn⟩
    exact ⟨n, run_of_chain hsizes hfound hdir (visitsEnd_lookup hinos name) n 0 () .start hn⟩

/-- A listing ends for every function if it ends for one that never stops it. -/
theorem list_ends_iff :
    (∀ (α : Type) (f : α → List UInt8 → Xstat → Bool → ℤ × α) a,
      LoopEnds fs fuel dir (.list (some f)) a w) ↔
      ¬ ComesBack size found (listPasses contents) := by
  rw [← ends_iff_not_comesBack]
  constructor
  · intro h
    obtain ⟨n, hn⟩ := h Unit (fun _ _ _ _ => (0, ())) ()
    exact ⟨n, chain_of_run hsizes hfound hdir (visitsPass_list hinos _ fun _ _ _ _ => rfl) n 0 ()
      .start hn⟩
  · rintro ⟨n, hn⟩ α f a
    exact ⟨n, run_of_chain hsizes hfound hdir (visitsEnd_list hinos f) n 0 a .start hn⟩

/-- The loop ends, in a lookup of any name and in a listing with any function,
if and only if it comes to no position twice. -/
theorem iterateFrom_ends_iff :
    (∀ name, LoopEnds fs fuel dir (.lookup name) () w ↔
      ¬ ComesBack size found (lookupPasses contents name)) ∧
    ((∀ (α : Type) (f : α → List UInt8 → Xstat → Bool → ℤ × α) a,
      LoopEnds fs fuel dir (.list (some f)) a w) ↔
      ¬ ComesBack size found (listPasses contents)) :=
  ⟨lookup_ends_iff hsizes hfound hdir hinos, list_ends_iff hsizes hfound hdir hinos⟩

end Loops

/-- Without a wrap only an entry of length 0 brings the loop back. -/
theorem comesBack_iff_zero_length (size : ℕ) (found : ℕ → Option Entry) (passes : Entry → Bool)
    (hsize : size + 65535 ≤ 2 ^ 32) (hlen : ∀ pos e, found pos = some e → e.direntlen < 65536) :
    ComesBack size found passes ↔
      ∃ n pos e, chain (scanNext size found passes) (some 0) n = some pos ∧ pos < size ∧
        found pos = some e ∧ (e.name = [] ∨ passes e = true) ∧ e.direntlen = 0 := by
  have hnext : ∀ pos q, scanNext size found passes pos = some q → pos < size ∧ ∃ e,
      found pos = some e ∧ (e.name = [] ∨ passes e = true) ∧ q = pos + e.direntlen := by
    intro pos q hq
    unfold scanNext at hq
    by_cases hlt : pos < size
    · rw [if_pos hlt] at hq
      obtain ⟨e, he, hq⟩ := Option.bind_eq_some_iff.mp hq
      by_cases hpass : e.name = [] ∨ passes e = true
      · rw [if_pos hpass] at hq
        obtain rfl := Option.some.inj hq
        have hshort := hlen pos e he
        exact ⟨hlt, e, he, hpass, Nat.mod_eq_of_lt (by omega)⟩
      · rw [if_neg hpass] at hq
        cases hq
    · rw [if_neg hlt] at hq
      cases hq
  constructor
  · rintro ⟨i, j, x, hij, hi, hj⟩
    by_contra hnone
    have hgrow : ∀ k y, chain (scanNext size found passes) (some 0) (i + k + 1) = some y →
        x < y := by
      intro k
      induction k with
      | zero =>
        intro y hy
        obtain ⟨x', hx', hy⟩ := Option.bind_eq_some_iff.mp hy
        obtain rfl : x = x' := Option.some.inj (hi.symm.trans hx')
        obtain ⟨hlt, e, he, hpass, rfl⟩ := hnext x y hy
        have hne : e.direntlen ≠ 0 := fun hzero => hnone ⟨i, x, e, hi, hlt, he, hpass, hzero⟩
        omega
      | succ k ih =>
        intro y hy
        obtain ⟨x', hx', hy⟩ := Option.bind_eq_some_iff.mp hy
        obtain ⟨hlt, e, he, hpass, rfl⟩ := hnext x' y hy
        have hbefore := ih x' hx'
        omega
    obtain ⟨k, rfl⟩ := Nat.exists_eq_add_of_lt hij
    exact Nat.lt_irrefl x (hgrow k x hj)
  · rintro ⟨n, pos, e, hn, hlt, he, hpass, hzero⟩
    refine ⟨n, n + 1, pos, Nat.lt_succ_self n, hn, ?_⟩
    have hstep : scanNext size found passes pos = some pos := by
      unfold scanNext nextPos
      rw [if_pos hlt, he, Option.bind_some, if_pos hpass, hzero, Nat.add_zero,
        Nat.mod_eq_of_lt (by omega)]
    exact (congrArg (·.bind (scanNext size found passes)) hn).trans hstep

/-- A root of 1024 bytes with an entry y of length 0. -/
def zeroImage : Bytes := fun b =>
  match b with
  | 1044 => 1
  | 1064 => 8
  | 1080 => 0x53
  | 1081 => 0xef
  | 2056 => 3
  | 3201 => 0x41
  | 3205 => 4
  | 3240 => 4
  | 4096 => 2
  | 4102 => 1
  | 4103 => 2
  | 4104 => 0x79
  | _ => 0

def zeroPart : PartDescr := ⟨DiskDescr.ofImage zeroImage, 0, 16⟩

def zeroEntry : Entry := ⟨2, 0, 2, [0x79]⟩

/-- What the examples need of the mounted file system. -/
def ZeroMount (fs : ExtFilesystem) (root : Ext2fsNode) (_ : Log) : Prop :=
  (fs.inodesz ≠ 0 ∧ fs.sblock.inodesPerGroup ≠ 0 ∧ fs.inodesz ≤ ext2BlockSize fs ∧
    1024 ≤ ext2BlockSize fs) ∧
  (root.inode.extents = false ∧ root.inode.size = 1024) ∧
  (∀ i, i < 1 → 0 ≤ int32 (root.inode.dirBlock i) ∧
    (int32 (root.inode.dirBlock i) + 1) * blockSectors fs ≤ fs.devDesc.length ∧
    (int32 (root.inode.dirBlock i) + 1) * blockSectors fs ≤ 2 ^ 31) ∧
  let header : Ext2Dirent := ⟨slice (fileByte fs fun i => int32 (root.inode.dirBlock i)) 0⟩
  header.inode = 2 ∧ header.direntlen = 0 ∧ header.namelen = 1 ∧ header.filetype = 2 ∧
    fileByte fs (fun i => int32 (root.inode.dirBlock i)) 8 = 0x79

instance (fs : ExtFilesystem) (root : Ext2fsNode) (log : Log) :
    Decidable (ZeroMount fs root log) := by
  unfold ZeroMount
  infer_instance

theorem zeroPart_mounts :
    ∃ fs root log, ext4fsMount (fun _ => 0) zeroPart [] = .ok (some (fs, root), log) ∧
      ZeroMount fs root log := by
  apply mount_of_check
  decide +kernel

theorem zeroMount_sizes {fs : ExtFilesystem} {root : Ext2fsNode} {log : Log}
    (hmount : ZeroMount fs root log) (node : Ext2fsNode) (hnode : node.inode = root.inode) :
    node.inode.size = 1024 := by
  rw [hnode]
  exact hmount.2.1.2

section ZeroMount
variable {fs : ExtFilesystem} {root : Ext2fsNode} {log : Log}
  (hmounted : Mounted zeroPart fs root) (hmount : ZeroMount fs root log)
include hmounted hmount

theorem zeroMount_contents : ∃ contents : ℕ → Option Bytes, ∀ ino, InodeIs fs ino (contents ino) :=
  exists_contents fs (hmounted.devDesc ▸ noErrors_ofImage _) hmounted.shifts hmount.1.2.1
    hmount.1.1 hmount.1.2.2.1

/-- The entry is found at position 0, and it leads there again. -/
theorem zeroMount_looks (pos : ℕ) (hreached : Reached 1024 (fun _ => some zeroEntry) pos)
    (hlt : pos < 1024) :
    Looks fs 2 (fun node => node.inode = root.inode) pos (some zeroEntry) := by
  have hpos : pos = 0 := by
    induction hreached with
    | start => rfl
    | next pos e hbefore hpos he ih =>
      obtain rfl := Option.some.inj he
      rw [ih hpos]
      rfl
  have hsizes := zeroMount_sizes hmount
  obtain ⟨⟨-, -, -, hblock⟩, ⟨hflags, -⟩, hin, hinode, hlen, hnamelen, htype, hname⟩ := hmount
  have hfile := readableFile_of_map fs (hmounted.devDesc ▸ noErrors_ofImage _)
    (by rw [hmounted.devDesc]; decide) hmounted.shifts 2 1 _
    (fun node => node.inode = root.inode)
    (realizes_mono (realizes_direct fs hmounted.shifts 2 root.inode hflags) (by decide)) hin
    (fun i hi => by omega) 1024 (by decide) (by omega)
    hsizes
  rw [hpos]
  refine ⟨8, _, delivers_of_readable hfile (by decide) (by decide), by decide,
    ⟨hinode, hlen, hnamelen, htype⟩, fun _ => ?_⟩
  refine ⟨1, _, delivers_of_readable hfile (by decide) (by decide), by decide, fun i hi => ?_⟩
  obtain rfl : i = 0 := Nat.lt_one_iff.mp hi
  exact hname

end ZeroMount

/-- The loop over this root ends if it comes to no position twice. -/
theorem iterateFrom_ends_iff_zero :
    ∃ fs root log, ext4fsMount (fun _ => 0) zeroPart [] = .ok (some (fs, root), log) ∧
      ∃ contents : ℕ → Option Bytes, (∀ ino, InodeIs fs ino (contents ino)) ∧
      ((∀ name, LoopEnds fs 2 .diropen (.lookup name) () (World.mounted root log) ↔
        ¬ ComesBack 1024 (fun _ => some zeroEntry) (lookupPasses contents name)) ∧
      ((∀ (α : Type) (f : α → List UInt8 → Xstat → Bool → ℤ × α) a,
        LoopEnds fs 2 .diropen (.list (some f)) a (World.mounted root log)) ↔
        ¬ ComesBack 1024 (fun _ => some zeroEntry) (listPasses contents))) := by
  obtain ⟨fs, root, log, hmount, hfacts⟩ := zeroPart_mounts
  have hmounted := ext4fsMount_mounted _ _ _ _ _ _ hmount
  obtain ⟨contents, hinos⟩ := zeroMount_contents hmounted hfacts
  refine ⟨fs, root, log, hmount, contents, hinos, ?_⟩
  exact iterateFrom_ends_iff (zeroMount_sizes hfacts) (zeroMount_looks hmounted hfacts)
    ⟨root, rfl, rfl⟩ hinos

/-- Looking for x in this root goes on for ever. -/
theorem zero_length_never_ends :
    ∃ fs root log, ext4fsMount (fun _ => 0) zeroPart [] = .ok (some (fs, root), log) ∧
      ¬ LoopEnds fs 2 .diropen (.lookup [0x78] : DirMode Unit) () (World.mounted root log) := by
  obtain ⟨fs, root, log, hmount, hfacts⟩ := zeroPart_mounts
  have hmounted := ext4fsMount_mounted _ _ _ _ _ _ hmount
  obtain ⟨contents, hinos⟩ := zeroMount_contents hmounted hfacts
  refine ⟨fs, root, log, hmount, ?_⟩
  rintro ⟨n, hn⟩
  have hpasses : lookupPasses contents [0x78] zeroEntry = true := by
    simp [lookupPasses, typeOf, zeroEntry, Entry.cname]
  have hback : scanNext 1024 (fun _ => some zeroEntry) (lookupPasses contents [0x78]) 0 =
      some 0 := by
    unfold scanNext
    rw [if_pos (by decide), Option.bind_some, if_pos (Or.inr hpasses)]
    rfl
  refine not_ends_of_returns (scanNext 1024 (fun _ => some zeroEntry)
    (lookupPasses contents [0x78])) (some 0) ⟨0, 1, 0, by decide, rfl, hback⟩ ⟨n, ?_⟩
  exact chain_of_run (zeroMount_sizes hfacts) (zeroMount_looks hmounted hfacts) ⟨root, rfl, rfl⟩
    (visitsPass_lookup hinos [0x78]) n 0 () .start hn

end Eokan.ScanCycles
