import Eokan.FileMaps
import Eokan.InodeReads
import Eokan.Mount
import Eokan.PathTokens
import Eokan.TypeReads

/-!
Searches and listings in two file systems that differ in type bytes. They go the
same way through the directories and the links, and come to the same end.
-/
namespace Eokan.TypeSearch

open ByteMem CInt Programs TwoRuns Device Layout Mount Inodes InodeReads ReadFile DokanRead ReadPlan
  FileContent FileMaps NodeHeap Directory DirectoryReads NodeRuns Resolve PathTokens SymlinkReads
  TypeBytes TypeVisits TypeReads

/-- What a search came to can be searched itself if it is a directory. -/
def LeadsAt (p : Pairing) (r : Option Found) (s : World) : Prop :=
  ∀ node type k, r = some (node, type, k) → type.getD .directory = .directory → At p.dirs node s

theorem LeadsAt.none {p : Pairing} (s : World) : LeadsAt p none s :=
  fun _ _ _ hnone => nomatch hnone

def NameLeads (p : Pairing) (r : Option (NodeRef × FileType × ℕ)) (s : World) : Prop :=
  ∀ node type k, r = some (node, type, k) → type = .directory → At p.dirs node s

theorem NameLeads.none {p : Pairing} (s : World) : NameLeads p none s :=
  fun _ _ _ hnone => nomatch hnone

def LinkLeads (p : Pairing) (r : Option (NodeRef × NodeRef × FileType × ℕ)) (s : World) : Prop :=
  ∀ node start type k, r = some (node, start, type, k) → type = .directory → At p.dirs node s

theorem LinkLeads.none {p : Pairing} (s : World) : LinkLeads p none s :=
  fun _ _ _ _ hnone => nomatch hnone

/-- Two ways to follow a target. -/
def FollowAlike (p : Pairing) (follow follow' : List UInt8 → NodeRef → ℕ → NodeM (Option Found)) :
    Prop :=
  ∀ path start k w w', Worlds p w w' → At p.dirs .diropen w → At p.dirs start w →
    Alike (fun r s r' s' => r' = r ∧ Onward p w s s' ∧ LeadsAt p r s)
      (follow path start k w) (follow' path start k w')

section Searches
variable {fs fs' : ExtFilesystem} {fuel : ℕ} {p : Pairing} (h : DifferInTypes fs fs' fuel p)
include h

section Links
variable {follow follow' : List UInt8 → NodeRef → ℕ → NodeM (Option Found)}
  (hfollow : FollowAlike p follow follow') {w w' : World} (hw : Worlds p w w')
  (hroot : At p.dirs .diropen w)
include hw hroot

omit h in
theorem linkStart_alike (symlink : List UInt8) {oldnode : NodeRef} (hold : At p.dirs oldnode w)
    (currroot : NodeRef) :
    Alike (fun r s r' s' => r' = r ∧ Onward p w s s' ∧ At p.dirs r s)
      (linkStart symlink oldnode currroot w) (linkStart symlink oldnode currroot w') := by
  apply Alike.ite
  · intro _
    apply Alike.bind (ext4fsFreeNode_alike hw oldnode currroot)
    intro _ s _ s' honward
    exact Alike.pure ⟨rfl, honward, hroot.onward honward⟩
  · intro _
    exact Alike.pure ⟨rfl, Onward.refl hw, hold⟩

omit hroot in
theorem takeLink_alike {link : NodeRef} (hlink : At p.links link w) (currroot : NodeRef) :
    Alike (fun r s r' s' => r' = r ∧ Onward p w s s')
      (takeLink fs fuel link currroot w) (takeLink fs' fuel link currroot w') := by
  apply Alike.bind (ext4fsReadSymlink_alike h hw hlink)
  rintro _ s symlink s' ⟨rfl, honward⟩
  apply Alike.bind (ext4fsFreeNode_alike honward.worlds link currroot)
  intro _ t _ t' hfreed
  exact Alike.pure ⟨rfl, honward.trans hfreed⟩

omit h hroot in
/-- A search that fails frees the node that it is at. -/
theorem giveUp_alike {α : Type} (node currroot : NodeRef) {post : Option α → World → Prop}
    (hnone : ∀ s, post none s) :
    Alike (fun r s r' s' => r' = r ∧ Onward p w s s' ∧ post r s)
      ((do ext4fsFreeNode node currroot; pure none : NodeM (Option α)) w)
      ((do ext4fsFreeNode node currroot; pure none : NodeM (Option α)) w') := by
  apply Alike.bind (ext4fsFreeNode_alike hw node currroot)
  intro _ s _ s' honward
  exact Alike.pure ⟨rfl, honward, hnone s⟩

include hfollow

/-- The link is the eighth one in both runs, or its targets are followed. -/
theorem followLink_alike {link oldnode : NodeRef} (hlink : At p.links link w)
    (hold : At p.dirs oldnode w) (currroot : NodeRef) (k : ℕ) :
    Alike (fun r s r' s' => r' = r ∧ Onward p w s s' ∧ LinkLeads p r s)
      (followLink fs fuel follow link oldnode currroot k w)
      (followLink fs' fuel follow' link oldnode currroot k w') := by
  have hgiveUp : ∀ {s s'}, Onward p w s s' →
      Alike (fun r t r' t' => r' = r ∧ Onward p w t t' ∧ LinkLeads p r t)
        ((do ext4fsFreeNode oldnode currroot; pure none : NodeM _) s)
        ((do ext4fsFreeNode oldnode currroot; pure none : NodeM _) s') := by
    intro s s' honward
    refine (giveUp_alike honward.worlds oldnode currroot (LinkLeads.none (p := p))).mono ?_
    rintro r t r' t' ⟨hr, hfreed, hpost⟩
    exact ⟨hr, honward.trans hfreed, hpost⟩
  apply Alike.ite
  · intro _
    apply Alike.bind (ext4fsFreeNode_alike hw link currroot)
    intro _ s _ s' hfreed
    exact hgiveUp hfreed
  intro _
  apply Alike.bind (takeLink_alike h hw hlink currroot)
  rintro _ s symlink s' ⟨rfl, htaken⟩
  cases symlink with
  | none => exact hgiveUp htaken
  | some symlink =>
    have hroot₁ := hroot.onward htaken
    apply Alike.bind (linkStart_alike htaken.worlds hroot₁ symlink (hold.onward htaken) currroot)
    rintro _ t start t' ⟨rfl, hstarted, hstart⟩
    apply Alike.bind (hfollow symlink start (k + 1) t t' hstarted.worlds (hroot₁.onward hstarted)
      hstart)
    rintro _ u found u' ⟨rfl, hfollowed, hleads⟩
    have htotal := (htaken.trans hstarted).trans hfollowed
    rcases found with _ | ⟨node, type, k'⟩
    · refine (giveUp_alike hfollowed.worlds start currroot (LinkLeads.none (p := p))).mono ?_
      rintro r v r' v' ⟨hr, hfreed, hpost⟩
      exact ⟨hr, htotal.trans hfreed, hpost⟩
    · refine Alike.pure ⟨rfl, htotal, fun node' start' type' k₁ hfound htype => ?_⟩
      cases hfound
      refine hleads node type k' rfl ?_
      cases type with
      | none => cases htype
      | some type => exact htype

variable {steps : ℕ}

/-- One name of a path. -/
theorem findName_alike (currroot : NodeRef) (name : List UInt8) {currnode : NodeRef}
    (type : FileType) (hcurr : type = .directory → At p.dirs currnode w) (k : ℕ) :
    Alike (fun r s r' s' => r' = r ∧ Onward p w s s' ∧ NameLeads p r s)
      (findName fs fuel steps follow currroot name currnode type k w)
      (findName fs' fuel steps follow' currroot name currnode type k w') := by
  unfold findName
  apply Alike.ite
  · intro _
    exact giveUp_alike hw currnode currroot NameLeads.none
  intro htype
  have hdir := hcurr (Classical.not_not.mp htype)
  apply Alike.bind (lookupIn_alike h hw hdir name)
  rintro _ s found s' ⟨rfl, honward, hfound⟩
  rcases found with _ | ⟨entry, type'⟩
  · exact Alike.pure ⟨rfl, honward, NameLeads.none s⟩
  obtain ⟨hisDir, hisLink⟩ := hfound entry type' rfl
  have hplain : Alike (fun r t r' t' => r' = r ∧ Onward p w t t' ∧ NameLeads p r t)
      ((do
        ext4fsFreeNode currnode currroot
        pure (some (.alloc entry, type', k)) : NodeM _) s)
      ((do
        ext4fsFreeNode currnode currroot
        pure (some (.alloc entry, type', k)) : NodeM _) s') := by
    apply Alike.bind (ext4fsFreeNode_alike honward.worlds currnode currroot)
    intro _ t _ t' hfreed
    refine Alike.pure ⟨rfl, honward.trans hfreed, fun node type k hsome htype => ?_⟩
    cases hsome
    exact (hisDir htype).onward hfreed
  cases type' with
  | symlink =>
    apply Alike.bind (followLink_alike h hfollow honward.worlds (hroot.onward honward) (hisLink rfl)
      (hdir.onward honward) currroot k)
    rintro _ t r t' ⟨rfl, hfollowed, hpost⟩
    rcases r with _ | ⟨node, start, type, k'⟩
    · exact Alike.pure ⟨rfl, honward.trans hfollowed, NameLeads.none t⟩
    · apply Alike.bind (ext4fsFreeNode_alike hfollowed.worlds start currroot)
      intro _ u _ u' hfreed
      refine Alike.pure ⟨rfl, (honward.trans hfollowed).trans hfreed, fun _ _ _ hsome htype => ?_⟩
      cases hsome
      exact (hpost node start type k' rfl htype).onward hfreed
  | unknown => exact hplain
  | reg => exact hplain
  | directory => exact hplain

theorem walk_alike (currroot : NodeRef) (path : List (List UInt8)) {currnode : NodeRef}
    (type : FileType) (hcurr : type = .directory → At p.dirs currnode w) (k : ℕ) :
    Alike (fun r s r' s' => r' = r ∧ Onward p w s s' ∧ LeadsAt p r s)
      (walk fs fuel steps follow currroot path currnode type k w)
      (walk fs' fuel steps follow' currroot path currnode type k w') := by
  induction path generalizing currnode type k w w' with
  | nil =>
    apply Alike.bind (deref_alike hw currnode)
    rintro n s n' s' ⟨⟨rfl, rfl⟩, -⟩
    refine Alike.pure ⟨rfl, Onward.refl hw, fun node type k hsome htype => ?_⟩
    cases hsome
    exact hcurr htype
  | cons name next ih =>
    rw [walk_cons, walk_cons]
    apply Alike.bind (findName_alike h hfollow hw hroot currroot name type hcurr k)
    rintro _ s r s' ⟨rfl, honward, hpost⟩
    rcases r with _ | ⟨node, type, k'⟩
    · exact Alike.pure ⟨rfl, honward, LeadsAt.none s⟩
    · refine (ih honward.worlds (hroot.onward honward) type (hpost node type k' rfl) k').mono ?_
      rintro r t r' t' ⟨hr, hfurther, hleads⟩
      exact ⟨hr, honward.trans hfurther, hleads⟩

end Links

/-- The two searches, at every depth and for all targets of links. -/
theorem findFile1_alike (steps depth : ℕ) : FollowAlike p (ext4fsFindFile1 fs fuel steps depth)
    (ext4fsFindFile1 fs' fuel steps depth) := by
  induction depth with
  | zero => exact fun _ _ _ _ _ _ _ _ => Alike.fault _
  | succ depth ih =>
    intro path start k w w' hw hroot hstart
    rw [ext4fsFindFile1, ext4fsFindFile1]
    cases names path with
    | nil =>
      refine Alike.pure ⟨rfl, Onward.refl hw, fun node type k hsome _ => ?_⟩
      cases hsome
      exact hstart
    | cons name next =>
      exact walk_alike h ih hw hroot start (name :: next) .directory (fun _ => hstart) k

/-- The references that a call returns, and the inode numbers of their nodes. -/
def SameFound {α : Type} (found : α → Option NodeRef) (r : α) (s : World) (r' : α) (s' : World) :
    Prop :=
  r' = r ∧ ∀ ref, found r = some ref →
    (s'.get ref).map (fun n => n.ino) = (s.get ref).map fun n => n.ino

omit h in
theorem sameFound_of_worlds {α : Type} (found : α → Option NodeRef) (r : α) {w s s' : World}
    (honward : Onward p w s s') : SameFound found r s r s' := by
  refine ⟨rfl, fun ref _ => ?_⟩
  rcases honward.worlds.cases ref with ⟨hnone, hnone'⟩ | ⟨n, n', hn, hn', halike⟩
  · rw [hnone, hnone']
  · rw [hn, hn']
    exact congrArg some halike.1.2

section Calls
variable {w w' : World} (hw : Worlds p w w') (hroot : At p.dirs .diropen w) {steps : ℕ}
  (path : List UInt8)
include hw hroot

theorem ext4fsFindFile_alike (expecttype : FileType) :
    Alike (fun r s r' s' => r' = r ∧ Onward p w s s' ∧
        (r.1 = true → expecttype = .directory → ∀ node, r.2 = some node → At p.dirs node s))
      (ext4fsFindFile fs fuel steps path .diropen expecttype w)
      (ext4fsFindFile fs' fuel steps path .diropen expecttype w') := by
  apply Alike.bind (findFile1_alike h steps 8 path .diropen 0 w w' hw hroot hroot)
  rintro _ s found s' ⟨rfl, honward, hleads⟩
  rcases found with _ | ⟨node, type, k⟩
  · exact Alike.pure ⟨rfl, honward, fun hfalse => nomatch hfalse⟩
  apply Alike.ite
  · intro _
    exact Alike.pure ⟨rfl, honward, fun hfalse => nomatch hfalse⟩
  intro _
  apply Alike.ite
  · intro _
    exact Alike.pure ⟨rfl, honward, fun hfalse => nomatch hfalse⟩
  · intro hexpected
    refine Alike.pure ⟨rfl, honward, fun _ hdir node' hnode => ?_⟩
    cases hnode
    refine hleads node type k rfl ?_
    by_contra htype
    exact hexpected ⟨hdir, fun hsame => htype (hsame.trans hdir)⟩

theorem ext4fsListFiles_alike {α : Type}
    (func : Option (α → List UInt8 → Xstat → Bool → ℤ × α)) (data : α) :
    Alike (fun r _ r' _ => r' = r) (ext4fsListFiles fs fuel steps path func data w)
      (ext4fsListFiles fs' fuel steps path func data w') := by
  apply Alike.bind (ext4fsFindFile_alike h hw hroot path .directory)
  rintro _ s ⟨status, dirnode⟩ s' ⟨rfl, honward, hdir⟩
  rcases dirnode with _ | dirnode
  · cases status <;> exact Alike.pure rfl
  cases status with
  | false => exact Alike.pure rfl
  | true =>
    apply Alike.bind (ext4fsIterateDir_alike h honward.worlds (hdir rfl rfl dirnode rfl)
      (.list func) data)
    rintro _ t r t' ⟨rfl, hlisted, -⟩
    apply Alike.bind (ext4fsFreeNode_alike hlisted.worlds dirnode .diropen)
    intro _ _ _ _ _
    exact Alike.pure rfl

end Calls

omit h in
theorem worlds_mounted {root root' : Ext2fsNode} (hroot : NodesAlike p root root')
    (log log' : Log) : Worlds p (World.mounted root log) (World.mounted root' log') := by
  refine ⟨rfl, fun ref => ?_⟩
  cases ref with
  | diropen => exact Option.Rel.some hroot
  | alloc id => exact Option.Rel.none

end Searches

/-- A root whose only entry is a file f of this type. -/
def typeImage (type : UInt8) : Bytes := fun b =>
  match b with
  | 1044 => 1
  | 1064 => 8
  | 2056 => 3
  | 3201 => 0x41
  | 3205 => 4
  | 3240 => 4
  | 3329 => 0x81
  | 4096 => 3
  | 4101 => 4
  | 4102 => 1
  | 4103 => type
  | 4104 => 0x66
  | _ => 0

def typeFs (type : UInt8) : ExtFilesystem :=
  { smallFs (typeImage type) with sblock := ⟨slice (typeImage type) 1024⟩ }

@[irreducible] def typeContent (ino : ℤ) : Bytes := inodeBytes (typeFs 0) ino.toNat

def TypeNode (ino : ℤ) (n : Ext2fsNode) : Prop := n.ino = ino ∧ n.inode = inodeOf (typeContent ino)

def typePairing : Pairing where
  tree := {2, 3}
  dirs := {2}
  links := ∅
  content := typeContent
  places _ := {0, 1024}
  states ino n n' := TypeNode ino n ∧ TypeNode ino n'

def typeMap (i : ℕ) : ℤ := int32 ((inodeOf (typeContent 2)).dirBlock i)

theorem typeFs_reads (type : UInt8) (htype : type = 0 ∨ type = 1) :
    ∀ ino ∈ typePairing.tree, ReadsInode (typeFs type) ino (typePairing.content ino) := by
  intro ino hino
  have hino : ino = 2 ∨ ino = 3 := hino
  obtain ⟨k, rfl⟩ : ∃ k : ℕ, ino = k := ⟨ino.toNat, by omega⟩
  have hk : k = 2 ∨ k = 3 := by omega
  have hfacts : (typeFs type).sblock.log2BlockSize ≤ 20 ∧
      (typeFs type).sblock.inodesPerGroup ≠ 0 ∧
      (typeFs type).inodesz ≤ ext2BlockSize (typeFs type) ∧ InodeReadable (typeFs type) k ∧
      ∀ j, j < 128 → inodeBytes (typeFs type) k j = typePairing.content k j := by
    rcases htype with rfl | rfl <;> rcases hk with rfl | rfl <;> decide +kernel
  obtain ⟨hlog, hgroup, hfits, hreadable, hsame⟩ := hfacts
  have hpart : 0 + 16 < 2 ^ 63 := by decide
  have hsize : 128 ≠ 0 := by decide
  have hread := readsInode_of_readable (typeFs type) (noErrors_ofImage _) hpart hlog hgroup
    k (by omega) (by omega) hsize hfits hreadable
  rw [int32_of_nat k (by omega) (by omega)] at hread
  intro inode log
  refine (hread inode log).mono ?_
  rintro r log' ⟨hr, hraw⟩
  refine ⟨hr, ?_⟩
  rw [hraw, write_congr _ _ _ _ hsame]

theorem typeFs_file (type : UInt8) (htype : type = 0 ∨ type = 1) :
    ReadableFile (typeFs type) 1 (TypeNode 2) 1024 (fileByte (typeFs type) typeMap) := by
  have hfacts : (typeFs type).sblock.log2BlockSize ≤ 20 ∧
      (∀ i, i < 1 → 0 ≤ typeMap i ∧
        (typeMap i + 1) * blockSectors (typeFs type) ≤ (typeFs type).devDesc.length ∧
        (typeMap i + 1) * blockSectors (typeFs type) ≤ 2 ^ 31) ∧
      1024 ≤ 1 * ext2BlockSize (typeFs type) := by
    rcases htype with rfl | rfl <;> decide +kernel
  obtain ⟨hlog, hin, hcount⟩ := hfacts
  have hpart : 0 + 16 < 2 ^ 63 := by decide
  have hinode : (inodeOf (typeContent 2)).size = 1024 ∧
      (inodeOf (typeContent 2)).extents = false := by decide +kernel
  apply readableFile_of_map (typeFs type) (noErrors_ofImage _) hpart hlog 1 1 typeMap _ _ hin _
    1024 (by decide) hcount
  · rintro n ⟨-, hn⟩
    rw [hn]
    exact hinode.1
  · apply realizes_mono _ (by decide : 1 ≤ 12)
    exact realizes_direct_of (typeFs type) hlog 1 _ hinode.2 fun n hn => hn.2
  · intro i hi
    omega

/-- The type of the entry is read from the entry itself, or from the inode. -/
theorem typeFs_entries : EntriesAlike typePairing 2 0 ⟨slice (fileByte (typeFs 0) typeMap) 0⟩
    ⟨slice (fileByte (typeFs 1) typeMap) 0⟩ := by
  have hheader : Ext2Dirent.inode ⟨slice (fileByte (typeFs 0) typeMap) 0⟩ = 3 ∧
      Ext2Dirent.direntlen ⟨slice (fileByte (typeFs 0) typeMap) 0⟩ = 1024 ∧
      Ext2Dirent.filetype ⟨slice (fileByte (typeFs 0) typeMap) 0⟩ = 0 := by decide +kernel
  have hsame : Ext2Dirent.inode ⟨slice (fileByte (typeFs 1) typeMap) 0⟩ =
        Ext2Dirent.inode ⟨slice (fileByte (typeFs 0) typeMap) 0⟩ ∧
      Ext2Dirent.direntlen ⟨slice (fileByte (typeFs 1) typeMap) 0⟩ =
        Ext2Dirent.direntlen ⟨slice (fileByte (typeFs 0) typeMap) 0⟩ ∧
      Ext2Dirent.namelen ⟨slice (fileByte (typeFs 1) typeMap) 0⟩ =
        Ext2Dirent.namelen ⟨slice (fileByte (typeFs 0) typeMap) 0⟩ ∧
      Ext2Dirent.filetype ⟨slice (fileByte (typeFs 1) typeMap) 0⟩ = 1 := by decide +kernel
  have hthree : int32 (3 : ℕ) = 3 ∧ (uint32 ((0 : ℕ) + (1024 : ℕ))).toNat = 1024 ∧
      FileType.ofMode (typePairing.inode 3).mode = .reg := by decide +kernel
  obtain ⟨hinode, hlen, htype⟩ := hheader
  obtain ⟨hinode', hlen', hnamelen', htype'⟩ := hsame
  obtain ⟨hint, hnext, hreg⟩ := hthree
  have hreg' : typePairing.typeOf ⟨slice (fileByte (typeFs 0) typeMap) 0⟩ = .reg := by
    unfold Pairing.typeOf
    rw [htype, if_neg (fun h => h rfl), hinode, hint]
    exact hreg
  refine ⟨hinode', hlen', hnamelen', ?_, fun _ => ⟨?_, ?_, ?_, ?_⟩⟩
  · rw [hlen, hnext]
    exact Or.inr rfl
  · rw [hinode, hint]
    exact Or.inr rfl
  · rw [hreg']
    exact fun h => nomatch h
  · rw [hreg']
    exact fun h => nomatch h
  · rw [htype, htype', hinode, hint]
    exact Or.inr (Or.inl ⟨rfl, by decide, hreg.symm⟩)

theorem typeFs_differ : DifferInTypes (typeFs 0) (typeFs 1) 1 typePairing where
  inodes ino hino := ⟨typeFs_reads 0 (Or.inl rfl) ino hino, typeFs_reads 1 (Or.inr rfl) ino hino⟩
  loaded _ _ _ _ := ⟨⟨rfl, rfl⟩, rfl, rfl⟩
  same _ _ _ hstates := hstates
  start _ _ := Or.inl rfl
  entries ino hino n n' hstates pos hpos hlt log log' := by
    obtain rfl : ino = 2 := hino
    have hsize : (typePairing.inode 2).size = 1024 := by decide +kernel
    obtain rfl : pos = 0 := by
      rcases hpos with rfl | rfl
      · rfl
      · omega
    have hnamelen : Ext2Dirent.namelen ⟨slice (fileByte (typeFs 0) typeMap) 0⟩ = 1 := by
      decide +kernel
    have hname : fileByte (typeFs 1) typeMap 8 = fileByte (typeFs 0) typeMap 8 := by
      decide +kernel
    apply entryRead_of_readable (typeFs_file 0 (Or.inl rfl)) (typeFs_file 1 (Or.inr rfl))
      (fun _ _ => Iff.rfl) (by decide) typeFs_entries _ _ hstates
    · rw [hnamelen]
      decide
    · rw [hnamelen]
      intro j hj
      obtain rfl : j = 0 := by omega
      exact hname
  targets _ hino := hino.elim

def typeRoot : Ext2fsNode :=
  { unreadNode 2 with ino := 2, inode := inodeOf (typeContent 2), inodeRead := true }

end Eokan.TypeSearch
