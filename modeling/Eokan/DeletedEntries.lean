import Eokan.DirectoryScan
import Eokan.InodeReads
import Eokan.Mount
import Mathlib.Data.List.TakeWhile

/-!
Deleted entries. A deletion leaves an entry with inode 0 and perhaps its old
name. The code does not look at the inode, so such an entry is listed, ends the
listing or is found, depending on what reading inode 0 gives.
-/
namespace Eokan.DeletedEntries

open ByteMem CInt Programs Layout Inodes DokanRead NodeHeap Directory NodeRuns Entries
open DirectoryReads EntryVisits DirectoryScan InodeReads Mount Device FileContent FileMaps

def Live (e : Entry) : Prop := e.inode ≠ 0 ∧ e.name ≠ []

/-- A deleted entry that still has a name. -/
def Dead (e : Entry) : Prop := e.inode = 0 ∧ e.name ≠ []

instance (e : Entry) : Decidable (Live e) := inferInstanceAs (Decidable (_ ∧ _))
instance (e : Entry) : Decidable (Dead e) := inferInstanceAs (Decidable (_ ∧ _))

/-- The entries before the first deleted one, and the others. -/
def beforeDead (es : List Entry) : List Entry := es.takeWhile (¬ Dead ·)
def afterDead (es : List Entry) : List Entry := es.dropWhile (¬ Dead ·)

section Scans
variable (contents : ℕ → Option Bytes)

/-- The live entries are passed on in order, and nothing else. -/
def ListsLive (fs : ExtFilesystem) (fuel steps : ℕ) (dir : NodeRef) (es : List Entry) (w : World) :
    Prop :=
  ∀ (α : Type) (f : α → List UInt8 → Xstat → Bool → ℤ × α),
    (∀ a name st isDir, (f a name st isDir).1 = 0) → ∀ a,
      Yields (ext4fsIterateDir fs fuel steps dir (.list (some f)) a) w fun r _ =>
        r = (none, passOn contents f (es.filter (Live ·)) a)

/-- A name leads to the inode of the first live entry that has it. -/
def FindsLive (fs : ExtFilesystem) (fuel steps : ℕ) (dir : NodeRef) (es : List Entry) (w : World) :
    Prop :=
  ∀ name, Yields (ext4fsIterateDir fs fuel steps dir (.lookup name) ()) w fun r w' =>
    match es.find? (fun e => Live e ∧ e.cname = name) with
    | none => r.1 = none
    | some e => ∃ id type node, r.1 = some (id, type) ∧ w'.get (.alloc id) = some node ∧
        node.ino = int32 e.inode

/-- No deleted entry has a name. Or inode 0 cannot be read, no live entry
follows the first such entry, and a lookup that gets that far finds none. -/
def DeadHarmless (es : List Entry) : Prop :=
  (∀ e ∈ es, ¬ Dead e) ∨
    contents 0 = none ∧ (∀ e ∈ afterDead es, ¬ Live e) ∧
      ∀ e ∈ (afterDead es).takeWhile (fun e => ¬ (Dead e ∧ e.filetype = 0)), Dead e →
        ∃ e' ∈ beforeDead es, Live e' ∧ e'.cname = e.cname

variable {contents} {es : List Entry}

theorem live_or_dead (e : Entry) (hname : e.name ≠ []) : Live e ∨ Dead e := by
  by_cases h : e.inode = 0
  · exact Or.inr ⟨h, hname⟩
  · exact Or.inl ⟨h, hname⟩

theorem typeOf_isSome (e : Entry) (h : (contents e.inode).isSome) :
    ∃ type, typeOf contents e = some type := by
  obtain ⟨bytes, hbytes⟩ := Option.isSome_iff_exists.mp h
  unfold typeOf
  rw [hbytes]
  split
  · exact ⟨_, rfl⟩
  · exact ⟨_, rfl⟩

theorem beforeDead_append (es : List Entry) : beforeDead es ++ afterDead es = es :=
  List.takeWhile_append_dropWhile

theorem not_dead_of_mem (e : Entry) (h : e ∈ beforeDead es) : ¬ Dead e := by
  simpa using List.mem_takeWhile_imp h

/-- What is left starts with a deleted entry. -/
theorem afterDead_cons {d : Entry} {rest : List Entry} (h : afterDead es = d :: rest) : Dead d := by
  have hne : es.dropWhile (¬ Dead ·) ≠ [] := by
    change afterDead es ≠ []
    simp [h]
  have hhead := List.head_dropWhile_not (¬ Dead ·) hne
  have heq : (es.dropWhile (¬ Dead ·)).head hne = d := by
    change (afterDead es).head hne = d
    simp [h]
  rw [heq] at hhead
  simpa using hhead

section Prefix
variable (contents) (pre post : List Entry) (hpre : ∀ e ∈ pre, ¬ Dead e)
  (hlive : ∀ e ∈ pre, Live e → (contents e.inode).isSome)
include hpre hlive

/-- Up to the first deleted entry the listing is as it should be. -/
theorem listScan_append :
    listScan contents (pre ++ post) = pre.filter (Live ·) ++ listScan contents post := by
  induction pre with
  | nil => rfl
  | cons e pre ih =>
    have hrest := ih (fun e' he' => hpre e' (List.mem_cons_of_mem e he'))
      (fun e' he' => hlive e' (List.mem_cons_of_mem e he'))
    rw [List.cons_append, listScan, hrest]
    by_cases hname : e.name = []
    · have hdead : ¬ Live e := fun h => h.2 hname
      simp [hname, hdead]
    · have he : Live e := (live_or_dead e hname).resolve_right (hpre e List.mem_cons_self)
      have hsome := hlive e List.mem_cons_self he
      rw [if_neg hname, if_neg (Option.isSome_iff_ne_none.mp hsome)]
      simp [he]

theorem lookupScan_append_none (name : List UInt8)
    (hnone : pre.find? (fun e => Live e ∧ e.cname = name) = none) :
    lookupScan contents name (pre ++ post) = lookupScan contents name post := by
  induction pre with
  | nil => rfl
  | cons e pre ih =>
    have hother : ∀ e' ∈ e :: pre, ¬ (Live e' ∧ e'.cname = name) := by
      simpa using hnone
    have hrest := ih (fun e' he' => hpre e' (List.mem_cons_of_mem e he'))
      (fun e' he' => hlive e' (List.mem_cons_of_mem e he'))
      (by simpa using fun e' he' => hother e' (List.mem_cons_of_mem e he'))
    rw [List.cons_append, lookupScan, hrest]
    by_cases hname : e.name = []
    · rw [if_pos hname]
    · have he : Live e := (live_or_dead e hname).resolve_right (hpre e List.mem_cons_self)
      obtain ⟨type, htype⟩ := typeOf_isSome e (hlive e List.mem_cons_self he)
      have hcname : e.cname ≠ name := fun h => hother e List.mem_cons_self ⟨he, h⟩
      rw [if_neg hname, htype]
      exact if_neg hcname

theorem lookupScan_append_some (name : List UInt8) (e : Entry)
    (hsome : pre.find? (fun e => Live e ∧ e.cname = name) = some e) :
    ∃ type, lookupScan contents name (pre ++ post) = some (e, type) := by
  induction pre with
  | nil => cases hsome
  | cons e' pre ih =>
    have hrest := ih (fun e'' he'' => hpre e'' (List.mem_cons_of_mem e' he''))
      (fun e'' he'' => hlive e'' (List.mem_cons_of_mem e' he''))
    rw [List.cons_append, lookupScan]
    by_cases hname : e'.name = []
    · have hdead : ¬ Live e' := fun h => h.2 hname
      rw [if_pos hname]
      apply hrest
      simpa [List.find?_cons, hdead] using hsome
    · have he : Live e' := (live_or_dead e' hname).resolve_right (hpre e' List.mem_cons_self)
      obtain ⟨type, htype⟩ := typeOf_isSome e' (hlive e' List.mem_cons_self he)
      rw [if_neg hname, htype]
      by_cases hcname : e'.cname = name
      · have heq : e' = e := by simpa [List.find?_cons, he, hcname] using hsome
        exact ⟨type, heq ▸ if_pos hcname⟩
      · dsimp only
        rw [if_neg hcname]
        apply hrest
        simpa [List.find?_cons, hcname] using hsome

end Prefix

/-- If inode 0 can be read, deleted entries are passed on like the others. -/
theorem listScan_length_lt (hlive : ∀ e ∈ es, Live e → (contents e.inode).isSome)
    (hzero : contents 0 ≠ none) {d : Entry} (hmem : d ∈ es) (hdead : Dead d) :
    (es.filter (Live ·)).length < (listScan contents es).length := by
  have hnamed : listScan contents es = es.filter (·.name ≠ []) := by
    clear hmem
    induction es with
    | nil => rfl
    | cons e es ih =>
      have hrest := ih fun e' he' => hlive e' (List.mem_cons_of_mem e he')
      rw [listScan, hrest]
      by_cases hname : e.name = []
      · simp [hname]
      · have hsome : contents e.inode ≠ none := by
          rcases live_or_dead e hname with he | he
          · exact Option.isSome_iff_ne_none.mp (hlive e List.mem_cons_self he)
          · rw [he.1]
            exact hzero
        rw [if_neg hname, if_neg hsome]
        simp [hname]
  have hfilter : es.filter (Live ·) = (es.filter (·.name ≠ [])).filter (·.inode ≠ 0) := by
    rw [List.filter_filter]
    apply List.filter_congr
    intro e _
    by_cases hinode : e.inode = 0
    · simp [Live, hinode]
    · by_cases hname : e.name = [] <;> simp [Live, hinode, hname]
  rw [hnamed, hfilter, List.length_filter_lt_length_iff_exists]
  exact ⟨d, by simp [hmem, hdead.2], by simp [hdead.1]⟩

/-- If inode 0 cannot be read, the listing ends at the first deleted entry. -/
theorem listScan_beforeDead (hlive : ∀ e ∈ es, Live e → (contents e.inode).isSome)
    (hzero : contents 0 = none) : listScan contents es = (beforeDead es).filter (Live ·) := by
  have hpre : ∀ e ∈ beforeDead es, Live e → (contents e.inode).isSome := fun e he =>
    hlive e (List.takeWhile_subset _ he)
  have happend := listScan_append contents (beforeDead es) (afterDead es)
    not_dead_of_mem hpre
  rw [beforeDead_append] at happend
  rw [happend]
  cases h : afterDead es with
  | nil => exact List.append_nil _
  | cons d rest =>
    have hdead := afterDead_cons h
    rw [listScan, if_neg hdead.2, hdead.1, if_pos hzero, List.append_nil]

/-- A deleted entry is found unless one without a type comes first. -/
theorem lookupScan_dead (hzero : contents 0 = none) (hdead : ∀ e ∈ es, ¬ Live e)
    (name : List UInt8) :
    lookupScan contents name es = none ↔
      ∀ e ∈ es.takeWhile (fun e => ¬ (Dead e ∧ e.filetype = 0)), Dead e → e.cname ≠ name := by
  induction es with
  | nil => simp [lookupScan]
  | cons e es ih =>
    have hrest := ih fun e' he' => hdead e' (List.mem_cons_of_mem e he')
    rw [lookupScan]
    by_cases hname : e.name = []
    · have he : ¬ Dead e := fun h => h.2 hname
      rw [if_pos hname, hrest]
      simp [he]
    · have he := (live_or_dead e hname).resolve_left (hdead e List.mem_cons_self)
      rw [if_neg hname, typeOf, he.1, hzero]
      by_cases htype : e.filetype = 0
      · simp [he, htype]
      · by_cases hcname : e.cname = name
        · simp [he, htype, hcname]
        · simp [he, htype, hcname, hrest]

theorem filter_eq_beforeDead (h : ∀ e ∈ afterDead es, ¬ Live e) :
    es.filter (Live ·) = (beforeDead es).filter (Live ·) := by
  have hnil : (afterDead es).filter (Live ·) = [] := by simpa using h
  calc es.filter (Live ·) = (beforeDead es ++ afterDead es).filter (Live ·) := by
        rw [beforeDead_append]
    _ = (beforeDead es).filter (Live ·) := by rw [List.filter_append, hnil, List.append_nil]

theorem no_live_of_length
    (h : ((beforeDead es).filter (Live ·)).length = (es.filter (Live ·)).length) :
    ∀ e ∈ afterDead es, ¬ Live e := by
  have hsplit : es.filter (Live ·) =
      (beforeDead es).filter (Live ·) ++ (afterDead es).filter (Live ·) := by
    rw [← List.filter_append, beforeDead_append]
  rw [hsplit, List.length_append] at h
  have hnil : (afterDead es).filter (Live ·) = [] := List.eq_nil_of_length_eq_zero (by omega)
  simpa using hnil

theorem find?_beforeDead (h : ∀ e ∈ afterDead es, ¬ Live e) (name : List UInt8) :
    es.find? (fun e => Live e ∧ e.cname = name) =
      (beforeDead es).find? (fun e => Live e ∧ e.cname = name) := by
  have hnone : (afterDead es).find? (fun e => Live e ∧ e.cname = name) = none := by
    simpa using fun e he hle => absurd hle (h e he)
  calc es.find? (fun e => Live e ∧ e.cname = name)
      = (beforeDead es ++ afterDead es).find? (fun e => Live e ∧ e.cname = name) := by
        rw [beforeDead_append]
    _ = (beforeDead es).find? (fun e => Live e ∧ e.cname = name) := by
        rw [List.find?_append, hnone, Option.or_none]

end Scans

theorem passOn_count (contents : ℕ → Option Bytes) (es : List Entry) (n : ℕ) :
    passOn contents (fun n _ _ _ => (0, n + 1)) es n = n + es.length := by
  induction es generalizing n with
  | nil => rfl
  | cons e es ih =>
    have hrest := ih (n + 1)
    unfold passOn at hrest ⊢
    rw [List.map_cons, List.foldl_cons, hrest, List.length_cons]
    omega

section Directory
variable {fs : ExtFilesystem} {fuel size steps : ℕ} {data : Bytes} {valid : Ext2fsNode → Prop}
  (hfile : ReadableFile fs fuel valid size data) {dir : NodeRef} {w : World}
  {contents : ℕ → Option Bytes} {es : List Entry}
  (hinos : ∀ e ∈ es, InodeIs fs e.inode (contents e.inode))
  (hes : EntriesAt data size 0 es) (hsteps : es.length < steps) {node : Ext2fsNode}
  (hnode : w.get dir = some node) (hopen : Openable fs valid node)
include hfile hinos hes hsteps hnode hopen

theorem lookup_run (name : List UInt8) :
    Yields (ext4fsIterateDir fs fuel steps dir (.lookup name) ()) w fun r w' =>
      Finds contents r.1 w' (lookupScan contents name es) := by
  obtain ⟨node', hvalid⟩ := hopen.exists_valid
  obtain ⟨hwalk, hstop⟩ := entries_stop hfile hvalid hes
  refine (ext4fsIterateDir_lookup hfile.sizes (fun e he _ => hinos e he) hwalk hstop hsteps hnode
    hopen name).mono ?_
  intro _ _ h
  exact h.2

theorem list_run {α : Type} (f : α → List UInt8 → Xstat → Bool → ℤ × α)
    (hf : ∀ a name st isDir, (f a name st isDir).1 = 0) (a : α) :
    Yields (ext4fsIterateDir fs fuel steps dir (.list (some f)) a) w fun r _ =>
      r = (none, passOn contents f (listScan contents es) a) := by
  obtain ⟨node', hvalid⟩ := hopen.exists_valid
  obtain ⟨hwalk, hstop⟩ := entries_stop hfile hvalid hes
  refine (ext4fsIterateDir_list hfile.sizes (fun e he _ => hinos e he) hwalk hstop hsteps hnode
    hopen f hf a).mono ?_
  intro _ _ h
  exact h.2

theorem listsLive_length (h : ListsLive contents fs fuel steps dir es w) :
    (listScan contents es).length = (es.filter (Live ·)).length := by
  have hcount := h ℕ (fun n _ _ _ => (0, n + 1)) (fun _ _ _ _ => rfl) 0
  have hrun := list_run hfile hinos hes hsteps hnode hopen
    (fun n _ _ _ => (0, n + 1)) (fun _ _ _ _ => rfl) 0
  obtain ⟨r, w', -, hcount, hscan⟩ := hcount.and hrun
  have heq := congrArg Prod.snd (hscan.symm.trans hcount)
  dsimp only at heq
  rw [passOn_count, passOn_count] at heq
  omega

theorem listsLive_of_eq (h : listScan contents es = es.filter (Live ·)) :
    ListsLive contents fs fuel steps dir es w := by
  intro α f hf a
  refine (list_run hfile hinos hes hsteps hnode hopen f hf a).mono ?_
  intro r w' hr
  rw [hr, h]

theorem lookup_none_of_findsLive (h : FindsLive fs fuel steps dir es w) (name : List UInt8)
    (hnone : es.find? (fun e => Live e ∧ e.cname = name) = none) :
    lookupScan contents name es = none := by
  have hrun := lookup_run hfile hinos hes hsteps hnode hopen name
  obtain ⟨r, w', -, hfound, hscan⟩ := (h name).and hrun
  rw [hnone] at hfound
  cases hlookup : lookupScan contents name es with
  | none => rfl
  | some found =>
    rw [hlookup] at hscan
    obtain ⟨id, node', hsome, -⟩ := hscan
    rw [hfound] at hsome
    cases hsome

theorem findsLive_of_scan
    (hnone : ∀ name, es.find? (fun e => Live e ∧ e.cname = name) = none →
      lookupScan contents name es = none)
    (hsome : ∀ name e, es.find? (fun e => Live e ∧ e.cname = name) = some e →
      ∃ type, lookupScan contents name es = some (e, type)) :
    FindsLive fs fuel steps dir es w := by
  intro name
  refine (lookup_run hfile hinos hes hsteps hnode hopen name).mono ?_
  intro r w' hfinds
  cases hfind : es.find? (fun e => Live e ∧ e.cname = name) with
  | none =>
    rw [hnone name hfind] at hfinds
    exact hfinds
  | some e =>
    obtain ⟨type, htype⟩ := hsome name e hfind
    rw [htype] at hfinds
    obtain ⟨id, node', hr, hget, hentry⟩ := hfinds
    refine ⟨id, type, node', hr, hget, ?_⟩
    rcases hentry with rfl | ⟨bytes, -, rfl⟩
    · rfl
    · rfl

variable (hlive : ∀ e ∈ es, Live e → (contents e.inode).isSome)
include hlive

/-- Listing and looking up agree with the live entries if and only if deleted
entries do no harm. -/
theorem live_entries_iff :
    ListsLive contents fs fuel steps dir es w ∧ FindsLive fs fuel steps dir es w ↔
      DeadHarmless contents es := by
  have hpre : ∀ e ∈ beforeDead es, Live e → (contents e.inode).isSome := fun e he =>
    hlive e (List.takeWhile_subset _ he)
  have happend := beforeDead_append es
  constructor
  · rintro ⟨hlists, hfinds⟩
    have hlength := listsLive_length hfile hinos hes hsteps hnode hopen hlists
    by_cases hdead : ∀ e ∈ es, ¬ Dead e
    · exact Or.inl hdead
    obtain ⟨d, hd⟩ := Classical.not_forall.mp hdead
    obtain ⟨hmem, hd⟩ := Classical.not_imp.mp hd
    have hzero : contents 0 = none := by
      by_contra hsome
      have hlt := listScan_length_lt hlive hsome hmem (Classical.not_not.mp hd)
      omega
    rw [listScan_beforeDead hlive hzero] at hlength
    have hnolive := no_live_of_length hlength
    refine Or.inr ⟨hzero, hnolive, fun e he hde => ?_⟩
    by_contra hother
    have hnone : (beforeDead es).find? (fun e' => Live e' ∧ e'.cname = e.cname) = none := by
      simpa using fun e' he' hle heq => hother ⟨e', he', hle, heq⟩
    have hscan := lookup_none_of_findsLive hfile hinos hes hsteps hnode hopen hfinds e.cname
      ((find?_beforeDead hnolive e.cname).trans hnone)
    rw [← happend, lookupScan_append_none contents _ _ not_dead_of_mem hpre e.cname hnone] at hscan
    exact (lookupScan_dead hzero hnolive e.cname).mp hscan e he hde rfl
  · rintro (hdead | ⟨hzero, hnolive, hshadow⟩)
    · have hscan := listScan_append contents es [] hdead hlive
      rw [List.append_nil] at hscan
      refine ⟨listsLive_of_eq hfile hinos hes hsteps hnode hopen (hscan.trans (List.append_nil _)),
        findsLive_of_scan hfile hinos hes hsteps hnode hopen (fun name hnone => ?_)
          fun name e hsome => ?_⟩
      · have hlookup := lookupScan_append_none contents es [] hdead hlive name hnone
        rwa [List.append_nil] at hlookup
      · have hlookup := lookupScan_append_some contents es [] hdead hlive name e hsome
        rwa [List.append_nil] at hlookup
    · refine ⟨listsLive_of_eq hfile hinos hes hsteps hnode hopen ?_,
        findsLive_of_scan hfile hinos hes hsteps hnode hopen (fun name hnone => ?_)
          fun name e hsome => ?_⟩
      · rw [listScan_beforeDead hlive hzero, filter_eq_beforeDead hnolive]
      · rw [find?_beforeDead hnolive] at hnone
        rw [← happend, lookupScan_append_none contents _ _ not_dead_of_mem hpre name hnone]
        refine (lookupScan_dead hzero hnolive name).mpr fun e he hde heq => ?_
        obtain ⟨e', he', hle, hname⟩ := hshadow e he hde
        have habsent : ∀ e ∈ beforeDead es, Live e → e.cname ≠ name := by simpa using hnone
        exact habsent e' he' hle (hname.trans heq)
      · rw [find?_beforeDead hnolive] at hsome
        rw [← happend]
        exact lookupScan_append_some contents _ _ not_dead_of_mem hpre name e hsome

end Directory

/-- A root with a deleted file x in front of a directory y, which is the root. -/
def deletedImage : Bytes := fun b =>
  match b with
  | 1044 => 1
  | 1064 => 8
  | 1080 => 0x53
  | 1081 => 0xef
  | 2056 => 3
  | 3201 => 0x41
  | 3205 => 4
  | 3240 => 4
  | 4100 => 12
  | 4102 => 1
  | 4103 => 1
  | 4104 => 0x78
  | 4108 => 2
  | 4112 => 0xf4
  | 4113 => 3
  | 4114 => 1
  | 4115 => 2
  | 4116 => 0x79
  | _ => 0

def deletedPart : PartDescr := ⟨DiskDescr.ofImage deletedImage, 0, 16⟩

def deletedEntries : List Entry := [⟨0, 12, 1, [0x78]⟩, ⟨2, 1012, 2, [0x79]⟩]

def rootMap (root : Ext2fsNode) (i : ℕ) : ℤ := int32 (root.inode.dirBlock i)

/-- The facts about the mounted file system that the two examples rest on. -/
def DeletedMount (fs : ExtFilesystem) (root : Ext2fsNode) (log : Log) : Prop :=
  (fs.inodesz = 128 ∧ fs.sblock.inodesPerGroup ≠ 0 ∧ 128 ≤ ext2BlockSize fs ∧
    1024 ≤ ext2BlockSize fs) ∧
  (root.inodeRead = true ∧ root.inode.extents = false ∧ root.inode.size = 1024) ∧
  (∀ i, i < 1 → 0 ≤ rootMap root i ∧
    (rootMap root i + 1) * blockSectors fs ≤ fs.devDesc.length ∧
    (rootMap root i + 1) * blockSectors fs ≤ 2 ^ 31) ∧
  EntriesAt (fileByte fs (rootMap root)) 1024 0 deletedEntries ∧
  (InodeReadable fs 2 ∧ ¬ DescReadable fs (inodeGroup fs 0)) ∧
  (match ext4fsIterateDir fs 2 3 .diropen (.lookup [0x78]) () (World.mounted root log) with
    | .ok ((some _, _), _) => true
    | _ => false) = true

instance (fs : ExtFilesystem) (root : Ext2fsNode) (log : Log) :
    Decidable (DeletedMount fs root log) := by
  unfold DeletedMount
  infer_instance

theorem deletedPart_mounts :
    ∃ fs root log, ext4fsMount (fun _ => 0) deletedPart [] = .ok (some (fs, root), log) ∧
      DeletedMount fs root log := by
  apply mount_of_check
  decide +kernel

/-- What reading the inodes of the two entries gives. -/
def deletedContents (fs : ExtFilesystem) (ino : ℕ) : Option Bytes :=
  if ino = 2 then some (inodeBytes fs 2) else none

section DeletedMount
variable {fs : ExtFilesystem} {root : Ext2fsNode} {log : Log}
  (hmounted : Mounted deletedPart fs root) (hmount : DeletedMount fs root log)
include hmounted hmount

theorem deletedMount_inodes :
    ∀ e ∈ deletedEntries, InodeIs fs e.inode (deletedContents fs e.inode) := by
  obtain ⟨⟨hsize, hgroup, hfits, -⟩, -, -, -, ⟨hreadable, hdesc⟩, -⟩ := hmount
  have hgood : fs.devDesc.disk.NoErrors := hmounted.devDesc ▸ noErrors_ofImage _
  have hpart : fs.devDesc.off + fs.devDesc.length < 2 ^ 63 := by
    rw [hmounted.devDesc]
    decide
  intro e he
  rcases List.mem_cons.mp he with rfl | he
  · exact unreadable_of_desc fs hgood hpart hmounted.shifts hgroup 0 hdesc
  · obtain rfl := List.mem_singleton.mp he
    exact readsInode_of_readable fs hgood hpart hmounted.shifts hgroup 2 (by decide) (by decide)
      (by omega) (by omega) hreadable

theorem deletedMount_file :
    ReadableFile fs 2 (fun node => node.inode = root.inode) 1024 (fileByte fs (rootMap root)) := by
  obtain ⟨⟨-, -, -, hblock⟩, ⟨-, hflags, hrootSize⟩, hin, -⟩ := hmount
  apply readableFile_of_map fs (hmounted.devDesc ▸ noErrors_ofImage _) _ hmounted.shifts 2 1
    (rootMap root) _ _ hin _ 1024 (by decide) (by omega)
  · intro node hnode
    rw [hnode, hrootSize]
  · rw [hmounted.devDesc]
    decide
  · exact realizes_mono (realizes_direct fs hmounted.shifts 2 root.inode hflags) (by decide)
  · intro i hi
    omega

end DeletedMount

/-- The entries of that root meet the assumptions. -/
theorem live_entries_iff_deleted :
    ∃ fs root log, ext4fsMount (fun _ => 0) deletedPart [] = .ok (some (fs, root), log) ∧
      (ListsLive (deletedContents fs) fs 2 3 .diropen deletedEntries (World.mounted root log) ∧
        FindsLive fs 2 3 .diropen deletedEntries (World.mounted root log) ↔
        DeadHarmless (deletedContents fs) deletedEntries) := by
  obtain ⟨fs, root, log, hmount, hfacts⟩ := deletedPart_mounts
  have hmounted := ext4fsMount_mounted _ _ _ _ _ _ hmount
  refine ⟨fs, root, log, hmount, live_entries_iff (deletedMount_file hmounted hfacts)
    (deletedMount_inodes hmounted hfacts) hfacts.2.2.2.1 (by decide)
    (rfl : (World.mounted root log).get .diropen = some root) ?_ ?_⟩
  · exact (if_pos hfacts.2.1.1).mpr rfl
  · intro e he hlive
    rcases List.mem_cons.mp he with rfl | he
    · exact absurd rfl hlive.1
    · obtain rfl := List.mem_singleton.mp he
      rfl

/-- The deleted x is found. -/
theorem deleted_entry_is_found :
    ∃ fs root log, ext4fsMount (fun _ => 0) deletedPart [] = .ok (some (fs, root), log) ∧
      EntriesAt (fileByte fs (rootMap root)) root.inode.size 0 deletedEntries ∧
      ¬ (ListsLive (deletedContents fs) fs 2 3 .diropen deletedEntries (World.mounted root log) ∧
        FindsLive fs 2 3 .diropen deletedEntries (World.mounted root log)) := by
  obtain ⟨fs, root, log, hmount, -, ⟨-, -, hsize⟩, -, hentries, -, hrun⟩ := deletedPart_mounts
  refine ⟨fs, root, log, hmount, ?_, fun h => ?_⟩
  · rw [hsize]
    exact hentries
  · obtain ⟨⟨found, u⟩, w', hlookup, hnone⟩ := h.2 [0x78]
    obtain rfl : found = none := hnone
    rw [hlookup] at hrun
    exact absurd hrun Bool.false_ne_true

end Eokan.DeletedEntries
