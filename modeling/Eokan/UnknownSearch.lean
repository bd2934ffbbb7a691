import Eokan.DirectoryReads
import Eokan.NodeRuns
import Eokan.PathTokens
import Eokan.TypeReads
import Eokan.UnknownReads

/-!
Searches in one image while the memory that the code never wrote is not the same. An entry
or the target of a link that is read in part takes the rest from that memory. Searches
that read whole entries and targets, and whose lookups stay inside, come to the same end.
-/
namespace Eokan.UnknownSearch

open ByteMem CInt Programs TwoRuns Device Layout Mount Inodes ReadFile NodeHeap Directory Entries
  NodeRuns Resolve PathTokens TypeReads UnknownMemory UnknownReads

def goesOn {α : Type} : Visit α → Bool
  | .done _ _ => false
  | .next _ _ => true

section Conditions
variable (fs : ExtFilesystem) (fuel steps : ℕ)

/-- A range of the file behind a reference is delivered. -/
def DeliversAt (ref : NodeRef) (pos len : ℕ) (w : World) : Prop :=
  ∀ node ∈ w.get ref, Delivers fs node.inode pos len

/-- Where the entry behind this one begins. -/
def nextPos (fpos : ℕ) (raw : Bytes) : ℕ := (uint32 (fpos + Ext2Dirent.direntlen ⟨raw⟩)).toNat

/-- The name of an entry is delivered, and so is the rest if the scan goes on. -/
def WholeEntry (dir : NodeRef) (name : List UInt8) (fpos : ℕ) (header : Bytes)
    (rest : World → Prop) (w : World) : Prop :=
  DeliversAt fs dir (fpos + 8) (Ext2Dirent.namelen ⟨header⟩) w ∧
  OnReturn (readFileAt fs fuel dir (int32 (fpos + 8)) (Ext2Dirent.namelen ⟨header⟩) fs.past) w
    fun filename w₁ => ¬ filename.1 < 1 →
      OnReturn (visitEntry fs (.lookup name) ⟨header⟩
          (cString filename.2 (Ext2Dirent.namelen ⟨header⟩)) ()) w₁
        fun visit w₂ => goesOn visit = true → rest w₂

/-- The scan for a name delivers every header and every name that it reads. -/
def WholeScan (dir : NodeRef) (name : List UInt8) : ℕ → ℕ → World → Prop
  | 0, _, _ => True
  | steps + 1, fpos, w => ∀ diro ∈ w.get dir, fpos < diro.inode.size →
    Delivers fs diro.inode fpos 8 ∧
    OnReturn (readFileAt fs fuel dir (int32 fpos) 8 fs.past) w fun header w₁ => ¬ header.1 < 1 →
      if Ext2Dirent.namelen ⟨header.2⟩ = 0 then
        WholeScan dir name steps (nextPos fpos header.2) w₁
      else
        WholeEntry fs fuel dir name fpos header.2 (WholeScan dir name steps (nextPos fpos header.2))
          w₁

def WholeLookup (dir : NodeRef) (name : List UInt8) (w : World) : Prop :=
  OnReturn (needInode fs dir) w fun read w₁ => read = true → WholeScan fs fuel dir name steps 0 w₁

/-- The target of a link that is not in its inode is delivered. -/
def WholeTarget (link : NodeRef) (w : World) : Prop :=
  OnReturn (needInode fs link) w fun read w₁ => read = true →
    ∀ node ∈ w₁.get link, 60 < node.inode.size → Delivers fs node.inode 0 node.inode.size

def WholeLink (whole : List UInt8 → NodeRef → ℕ → World → Prop) (link oldnode currroot : NodeRef)
    (symlinknest : ℕ) (w : World) : Prop :=
  symlinknest + 1 ≠ 8 →
    WholeTarget fs link w ∧
    OnReturn (takeLink fs fuel link currroot) w fun symlink w₁ => ∀ target ∈ symlink,
      OnReturn (linkStart target oldnode currroot) w₁ fun start w₂ =>
        whole target start (symlinknest + 1) w₂

def WholeName (whole : List UInt8 → NodeRef → ℕ → World → Prop) (currroot : NodeRef)
    (name : List UInt8) (currnode : NodeRef) (type : FileType) (symlinknest : ℕ) (w : World) :
    Prop :=
  type = .directory →
    WholeLookup fs fuel steps currnode name w ∧
    OnReturn (lookupIn fs fuel steps currnode name) w fun found w₁ => ∀ entry ∈ found,
      entry.2 = .symlink →
        WholeLink fs fuel whole (.alloc entry.1) currnode currroot symlinknest w₁

def WholeWalk (follow : List UInt8 → NodeRef → ℕ → NodeM (Option Found))
    (whole : List UInt8 → NodeRef → ℕ → World → Prop) (currroot : NodeRef) :
    List (List UInt8) → NodeRef → FileType → ℕ → World → Prop
  | [], _, _, _, _ => True
  | name :: next, currnode, type, symlinknest, w =>
    WholeName fs fuel steps whole currroot name currnode type symlinknest w ∧
    OnReturn (findName fs fuel steps follow currroot name currnode type symlinknest) w
      fun r w₁ => ∀ found ∈ r, WholeWalk follow whole currroot next found.1 found.2.1 found.2.2 w₁

/-- All that a search reads of directories and links is delivered. -/
def WholeFind : ℕ → List UInt8 → NodeRef → ℕ → World → Prop
  | 0, _, _, _, _ => True
  | depth + 1, path, currroot, symlinknest, w =>
    WholeWalk fs fuel steps (ext4fsFindFile1 fs fuel steps depth) (WholeFind depth) currroot
      (names path) currroot .directory symlinknest w

instance (ref : NodeRef) (pos len : ℕ) (w : World) : Decidable (DeliversAt fs ref pos len w) := by
  unfold DeliversAt
  infer_instance

instance (dir : NodeRef) (name : List UInt8) (fpos : ℕ) (header : Bytes) (rest : World → Prop)
    [∀ w, Decidable (rest w)] (w : World) :
    Decidable (WholeEntry fs fuel dir name fpos header rest w) := by
  unfold WholeEntry
  infer_instance

instance decidableWholeScan (dir : NodeRef) (name : List UInt8) (steps fpos : ℕ) (w : World) :
    Decidable (WholeScan fs fuel dir name steps fpos w) :=
  match steps with
  | 0 => isTrue trivial
  | steps + 1 => by
    have := decidableWholeScan dir name steps
    unfold WholeScan
    infer_instance

instance (dir : NodeRef) (name : List UInt8) (w : World) :
    Decidable (WholeLookup fs fuel steps dir name w) := by
  unfold WholeLookup
  infer_instance

instance (link : NodeRef) (w : World) : Decidable (WholeTarget fs link w) := by
  unfold WholeTarget
  infer_instance

section Follow
variable (follow : List UInt8 → NodeRef → ℕ → NodeM (Option Found))
  (whole : List UInt8 → NodeRef → ℕ → World → Prop)
  [∀ path start k w, Decidable (whole path start k w)] (currroot : NodeRef)

instance (link oldnode : NodeRef) (k : ℕ) (w : World) :
    Decidable (WholeLink fs fuel whole link oldnode currroot k w) := by
  unfold WholeLink
  infer_instance

instance (name : List UInt8) (currnode : NodeRef) (type : FileType) (k : ℕ) (w : World) :
    Decidable (WholeName fs fuel steps whole currroot name currnode type k w) := by
  unfold WholeName
  infer_instance

instance decidableWholeWalk (path : List (List UInt8)) (currnode : NodeRef) (type : FileType)
    (k : ℕ) (w : World) :
    Decidable (WholeWalk fs fuel steps follow whole currroot path currnode type k w) :=
  match path with
  | [] => isTrue trivial
  | name :: next => by
    have := decidableWholeWalk next
    unfold WholeWalk
    infer_instance

end Follow

instance decidableWholeFind (depth : ℕ) (path : List UInt8) (currroot : NodeRef) (k : ℕ)
    (w : World) : Decidable (WholeFind fs fuel steps depth path currroot k w) :=
  match depth with
  | 0 => isTrue trivial
  | depth + 1 => by
    have := decidableWholeFind depth
    unfold WholeFind
    infer_instance

end Conditions

/-- Two states of the nodes in which only the memory behind them is not the same. -/
structure SameWorld (fs : ExtFilesystem) (w w' : World) : Prop where
  log : w'.log = w.log
  next : w'.next = w.next
  nodes : ∀ ref, Option.Rel (SameNode fs) (w.get ref) (w'.get ref)

section Worlds
variable {fs : ExtFilesystem} {w w' : World}

theorem SameWorld.refl (fs : ExtFilesystem) (w : World) : SameWorld fs w w := by
  refine ⟨rfl, rfl, fun ref => ?_⟩
  cases w.get ref with
  | none => exact Option.Rel.none
  | some n => exact Option.Rel.some (.refl fs n)

theorem SameWorld.cases (h : SameWorld fs w w') (ref : NodeRef) :
    (w.get ref = none ∧ w'.get ref = none) ∨
      ∃ n n', (w.get ref = some n ∧ w'.get ref = some n') ∧ SameNode fs n n' := by
  have hrel := h.nodes ref
  cases hn : w.get ref with
  | none =>
    rw [hn] at hrel
    cases hn' : w'.get ref with
    | none => exact Or.inl ⟨rfl, rfl⟩
    | some n' =>
      rw [hn'] at hrel
      cases hrel
  | some n =>
    rw [hn] at hrel
    cases hn' : w'.get ref with
    | none =>
      rw [hn'] at hrel
      cases hrel
    | some n' =>
      rw [hn'] at hrel
      cases hrel with
      | some hsame => exact Or.inr ⟨n, n', ⟨rfl, rfl⟩, hsame⟩

theorem SameWorld.set (h : SameWorld fs w w') (ref : NodeRef) {n n' : Ext2fsNode}
    (hn : SameNode fs n n') : SameWorld fs (w.set ref n) (w'.set ref n') := by
  refine ⟨?_, ?_, fun other => ?_⟩
  · rw [log_set, log_set, h.log]
  · rw [next_set, next_set, h.next]
  by_cases hother : other = ref
  · subst hother
    have hget : ∀ (w : World) n, (w.set other n).get other = (w.get other).map fun _ => n := by
      intro w n
      cases other with
      | diropen => rfl
      | alloc id => exact if_pos rfl
    rw [hget, hget]
    rcases h.cases other with ⟨hnone, hnone'⟩ | ⟨m, m', ⟨hm, hm'⟩, -⟩
    · rw [hnone, hnone']
      exact Option.Rel.none
    · rw [hm, hm']
      exact Option.Rel.some hn
  · rw [get_set_of_ne w ref other n hother, get_set_of_ne w' ref other n' hother]
    exact h.nodes other

theorem SameWorld.add (h : SameWorld fs w w') {n n' : Ext2fsNode} (hn : SameNode fs n n') :
    SameWorld fs (w.add n) (w'.add n') := by
  refine ⟨h.log, ?_, fun ref => ?_⟩
  · rw [next_add, next_add, h.next]
  cases ref with
  | diropen => exact h.nodes .diropen
  | alloc id =>
    change Option.Rel _ (if id = w.next then some n else w.nodes id)
      (if id = w'.next then some n' else w'.nodes id)
    rw [h.next]
    split
    · exact Option.Rel.some hn
    · exact h.nodes (.alloc id)

theorem SameWorld.remove (h : SameWorld fs w w') (id : ℕ) :
    SameWorld fs (w.remove id) (w'.remove id) := by
  refine ⟨h.log, h.next, fun ref => ?_⟩
  cases ref with
  | diropen => exact h.nodes .diropen
  | alloc j =>
    change Option.Rel _ (if j = id then none else w.nodes j) (if j = id then none else w'.nodes j)
    split
    · exact Option.Rel.none
    · exact h.nodes (.alloc j)

theorem SameWorld.withLog (h : SameWorld fs w w') (log : Log) :
    SameWorld fs (w.withLog log) (w'.withLog log) :=
  ⟨rfl, h.next, fun ref => by rw [get_withLog, get_withLog]; exact h.nodes ref⟩

end Worlds

/-- Two calls that return the same. -/
def SameCall {α : Type} (fs : ExtFilesystem) (r : α) (w : World) (r' : α) (w' : World) : Prop :=
  r' = r ∧ SameWorld fs w w'

section Nodes
variable {fs : ExtFilesystem} {w w' : World} (h : SameWorld fs w w')
include h

theorem deref_same (ref : NodeRef) :
    Alike (fun n s n' s' => (s = w ∧ s' = w') ∧ w.get ref = some n ∧ SameNode fs n n')
      (deref ref w) (deref ref w') := by
  rcases h.cases ref with ⟨hnone, hnone'⟩ | ⟨n, n', ⟨hn, hn'⟩, hsame⟩
  · exact Alike.error (TypeVisits.deref_none hnone) (TypeVisits.deref_none hnone')
  · rw [deref_run hn, deref_run hn']
    exact ⟨⟨rfl, rfl⟩, hn, hsame⟩

theorem store_same (ref : NodeRef) {n n' : Ext2fsNode} (hn : SameNode fs n n') :
    Alike (SameCall fs) (store ref n w) (store ref n' w') := by
  unfold store
  rcases h.cases ref with ⟨hnone, hnone'⟩ | ⟨m, m', ⟨hm, hm'⟩, -⟩
  · rw [hnone, hnone', if_neg (by simp), if_neg (by simp)]
    rfl
  · rw [hm, hm', if_pos Option.isSome_some, if_pos Option.isSome_some]
    exact ⟨rfl, h.set ref hn⟩

theorem free_same (id : ℕ) : Alike (SameCall fs) (free id w) (free id w') := by
  have hnode : ∀ w : World, w.nodes id = w.get (.alloc id) := fun _ => rfl
  unfold free
  rw [hnode, hnode]
  rcases h.cases (.alloc id) with ⟨hnone, hnone'⟩ | ⟨m, m', ⟨hm, hm'⟩, -⟩
  · rw [hnone, hnone', if_neg (by simp), if_neg (by simp)]
    rfl
  · rw [hm, hm', if_pos Option.isSome_some, if_pos Option.isSome_some]
    exact ⟨rfl, h.remove id⟩

theorem ext4fsFreeNode_same (node currroot : NodeRef) :
    Alike (SameCall fs) (ext4fsFreeNode node currroot w) (ext4fsFreeNode node currroot w') := by
  cases node with
  | diropen => exact Alike.pure ⟨rfl, h⟩
  | alloc id => exact Alike.ite (fun _ => free_same h id) fun _ => Alike.pure ⟨rfl, h⟩

/-- Calls of the layers below that issue the same reads. -/
theorem device_same {α : Type} {x x' : DevM α} {post : α → α → Prop}
    (hx : Alike (fun r s r' s' => s' = s ∧ post r r') (x w.log) (x' w.log)) :
    Alike (fun r s r' s' => SameWorld fs s s' ∧ post r r') (device x w) (device x' w') := by
  unfold device
  rw [h.log]
  rcases hrun : x w.log with e | ⟨r, log⟩ <;> rcases hrun' : x' w.log with e' | ⟨r', log'⟩ <;>
    rw [hrun, hrun'] at hx
  · exact hx
  · exact hx.elim
  · exact hx.elim
  · obtain ⟨rfl, hpost⟩ := hx
    exact ⟨h.withLog log', hpost⟩

variable (memory : Bytes)

section Inodes

/-- An inode is read into the memory of its node. -/
theorem loadInode_same (ref : NodeRef) :
    Alike (SameCall fs) (loadInode fs ref w) (loadInode (onMemory fs memory) ref w') := by
  apply Alike.bind (deref_same h ref)
  rintro n s n' s' ⟨⟨rfl, rfl⟩, -, hn⟩
  rw [hn.ino]
  apply Alike.bind (device_same h (ext4fsReadInode_same fs memory n.ino hn.inode s.log))
  rintro ⟨status, inode⟩ t ⟨status', inode'⟩ t' ⟨ht, hstatus, hinode⟩
  dsimp only at hstatus hinode ⊢
  subst hstatus
  have hnode : SameNode fs { n with inode } { n' with inode := inode', ino := n.ino } :=
    { hn with inode := hinode, ino := rfl }
  apply Alike.bind (store_same ht ref hnode)
  rintro _ u _ u' ⟨-, hu⟩
  exact Alike.pure ⟨rfl, hu⟩

theorem setInodeRead_same (ref : NodeRef) :
    Alike (SameCall fs) (setInodeRead ref w) (setInodeRead ref w') := by
  apply Alike.bind (deref_same h ref)
  rintro n s n' s' ⟨⟨rfl, rfl⟩, -, hn⟩
  exact store_same h ref { hn with inodeRead := rfl }

theorem needInode_same (ref : NodeRef) :
    Alike (SameCall fs) (needInode fs ref w) (needInode (onMemory fs memory) ref w') := by
  apply Alike.bind (deref_same h ref)
  rintro n s n' s' ⟨⟨rfl, rfl⟩, -, hn⟩
  rw [hn.inodeRead]
  apply Alike.ite
  · intro _
    exact Alike.pure ⟨rfl, h⟩
  intro _
  apply Alike.bind (loadInode_same h memory ref)
  rintro _ s status s' ⟨rfl, hs⟩
  exact Alike.pure ⟨rfl, hs⟩

theorem entryType_same (id : ℕ) (dirent : Ext2Dirent) :
    Alike (SameCall fs) (entryType fs id dirent w)
      (entryType (onMemory fs memory) id dirent w') := by
  apply Alike.ite
  · intro _
    exact Alike.pure ⟨rfl, h⟩
  intro _
  apply Alike.bind (loadInode_same h memory (.alloc id))
  rintro _ s status s' ⟨rfl, hs⟩
  apply Alike.ite
  · intro _
    exact Alike.pure ⟨rfl, hs⟩
  intro _
  apply Alike.bind (setInodeRead_same hs (.alloc id))
  rintro _ t _ t' ⟨-, ht⟩
  apply Alike.bind (deref_same ht (.alloc id))
  rintro n u n' u' ⟨⟨rfl, rfl⟩, -, hn⟩
  rw [sameInode_mode hn.inode]
  exact Alike.pure ⟨rfl, ht⟩

end Inodes

/-- An entry with the same inode and type is visited alike. -/
theorem visitEntry_same (name : List UInt8) {d d' : Ext2Dirent} (hinode : d'.inode = d.inode)
    (htype : d'.filetype = d.filetype) (filename : List UInt8) :
    Alike (SameCall fs) (visitEntry fs (.lookup name) d filename () w)
      (visitEntry (onMemory fs memory) (.lookup name) d' filename () w') := by
  have hnode : entryNode d' = entryNode d := by
    unfold entryNode
    rw [hinode]
  have hentry : ∀ id, entryType (onMemory fs memory) id d' =
      entryType (onMemory fs memory) id d := by
    intro id
    unfold entryType
    rw [htype]
  unfold visitEntry
  rw [hnode]
  simp only [hentry]
  apply Alike.bind (show Alike (SameCall fs) (allocNode (entryNode d) w)
    (allocNode (entryNode d) w') from ⟨h.next, h.add (.refl fs _)⟩)
  rintro _ s id s' ⟨rfl, hs⟩
  apply Alike.bind (entryType_same hs memory id d)
  rintro _ t type t' ⟨rfl, ht⟩
  have hdrop : ∀ visit : Visit Unit, Alike (SameCall fs)
      ((do free id; pure visit : NodeM (Visit Unit)) t)
      ((do free id; pure visit : NodeM (Visit Unit)) t') := by
    intro visit
    apply Alike.bind (free_same ht id)
    rintro _ u _ u' ⟨-, hu⟩
    exact Alike.pure ⟨rfl, hu⟩
  cases type with
  | none => exact hdrop _
  | some type =>
    apply Alike.ite
    · intro _
      exact Alike.pure ⟨rfl, ht⟩
    · intro _
      exact hdrop _

/-- A range of a file that is delivered is read alike. -/
theorem readFileAt_same (hlog : fs.sblock.log2BlockSize ≤ 20) (hblksz : fs.blksz = 0) (fuel : ℕ)
    (ref : NodeRef) {pos len : ℕ} (hread : DeliversAt fs ref pos len w) (buf buf' : Bytes) :
    Alike (fun r s r' s' => SameWorld fs s s' ∧ r'.1 = r.1 ∧
        (∀ j, buf' j = buf j → r'.2 j = r.2 j) ∧ (r.1 ≠ -1 → ∀ j, j < len → r'.2 j = r.2 j))
      (readFileAt fs (fuel + 2) ref (int32 pos) len buf w)
      (readFileAt (onMemory fs memory) (fuel + 2) ref (int32 pos) len buf' w') := by
  apply Alike.bind (deref_same h ref)
  rintro n s n' s' ⟨⟨rfl, rfl⟩, hget, hn⟩
  apply Alike.bind (device_same h (ext4fsReadFile_delivers memory hlog hblksz fuel hn (hread n hget)
    buf buf' s.log))
  rintro ⟨status, node, data⟩ t ⟨status', node', data'⟩ t' ⟨ht, hstatus, hnode, hkept, hbytes⟩
  dsimp only at hstatus hnode hkept hbytes ⊢
  subst hstatus
  apply Alike.bind (store_same ht ref hnode)
  rintro _ u _ u' ⟨-, hu⟩
  exact Alike.pure ⟨hu, rfl, hkept, hbytes⟩

section Searches
variable (hlog : fs.sblock.log2BlockSize ≤ 20) (hblksz : fs.blksz = 0) (fuel : ℕ)
include hlog hblksz

/-- The two scans are at the same position in every round. -/
theorem iterateFrom_same (dir : NodeRef) (name : List UInt8) (steps fpos : ℕ)
    (hwhole : WholeScan fs (fuel + 2) dir name steps fpos w) :
    Alike (SameCall fs) (iterateFrom fs (fuel + 2) dir (.lookup name) steps fpos () w)
      (iterateFrom (onMemory fs memory) (fuel + 2) dir (.lookup name) steps fpos () w') := by
  induction steps generalizing fpos w w' with
  | zero => exact Alike.fault _
  | succ steps ih =>
    unfold WholeScan at hwhole
    unfold iterateFrom
    apply Alike.bind (deref_same h dir)
    rintro n s n' s' ⟨⟨rfl, rfl⟩, hget, hn⟩
    rw [sameInode_size hn.inode]
    apply Alike.ite
    swap
    · intro _
      exact Alike.pure ⟨rfl, h⟩
    intro hlt
    obtain ⟨hheader, hafter⟩ := hwhole n hget hlt
    have hat : DeliversAt fs dir fpos 8 s := by
      intro node hnode
      obtain rfl := Option.some.inj (hget.symm.trans hnode)
      exact hheader
    apply Alike.bind ((readFileAt_same h memory hlog hblksz fuel dir hat fs.past memory).and_return
      hafter)
    rintro ⟨status, raw⟩ t ⟨status', raw'⟩ t' ⟨⟨ht, hstatus, -, hbytes⟩, hrest⟩
    dsimp only at hstatus hbytes hrest ⊢
    subst hstatus
    apply Alike.ite
    · intro _
      exact Alike.pure ⟨rfl, ht⟩
    intro hok
    specialize hrest hok
    obtain ⟨hinode, hlen, hnamelen, htype⟩ := dirent_congr (hbytes (by omega))
    rw [hlen, hnamelen]
    by_cases hzero : Ext2Dirent.namelen ⟨raw⟩ = 0
    · rw [if_pos hzero] at hrest
      rw [if_pos hzero, if_pos hzero]
      exact ih ht _ hrest
    rw [if_neg hzero] at hrest
    rw [if_neg hzero, if_neg hzero]
    obtain ⟨hfilename, hvisit⟩ := hrest
    apply Alike.bind ((readFileAt_same ht memory hlog hblksz fuel dir hfilename fs.past
      memory).and_return hvisit)
    rintro ⟨status₁, filename⟩ u ⟨status₁', filename'⟩ u' ⟨⟨hu, hstatus₁, -, hname⟩, hrest⟩
    dsimp only at hstatus₁ hname hrest ⊢
    subst hstatus₁
    apply Alike.ite
    · intro _
      exact Alike.pure ⟨rfl, hu⟩
    intro hok₁
    rw [cString_congr (hname (by omega))]
    apply Alike.bind ((visitEntry_same hu memory name hinode htype _).and_return (hrest hok₁))
    rintro _ v visit v' ⟨⟨rfl, hv⟩, hnext⟩
    cases visit with
    | done found data => exact Alike.pure ⟨rfl, hv⟩
    | next got data =>
      apply Alike.ite
      · intro _
        exact Alike.pure ⟨rfl, hv⟩
      · intro _
        exact ih hv _ (hnext rfl)

theorem lookupIn_same (dir : NodeRef) (name : List UInt8) (steps : ℕ)
    (hwhole : WholeLookup fs (fuel + 2) steps dir name w) :
    Alike (SameCall fs) (lookupIn fs (fuel + 2) steps dir name w)
      (lookupIn (onMemory fs memory) (fuel + 2) steps dir name w') := by
  have hiterate : Alike (SameCall fs)
      (ext4fsIterateDir fs (fuel + 2) steps dir (.lookup name) () w)
      (ext4fsIterateDir (onMemory fs memory) (fuel + 2) steps dir (.lookup name) () w') := by
    apply Alike.bind ((needInode_same h memory dir).and_return hwhole)
    rintro _ s read s' ⟨⟨rfl, hs⟩, hscan⟩
    cases read with
    | false => exact Alike.pure ⟨rfl, hs⟩
    | true => exact iterateFrom_same hs memory hlog hblksz fuel dir name steps 0 (hscan rfl)
  apply Alike.bind hiterate
  rintro _ s r s' ⟨rfl, hs⟩
  exact Alike.pure ⟨rfl, hs⟩

/-- The zero-filled memory for a target is the same where the target goes. -/
theorem ext4fsReadSymlink_same (link : NodeRef) (hwhole : WholeTarget fs link w) :
    Alike (SameCall fs) (ext4fsReadSymlink fs (fuel + 2) link w)
      (ext4fsReadSymlink (onMemory fs memory) (fuel + 2) link w') := by
  apply Alike.bind ((needInode_same h memory link).and_return hwhole)
  rintro _ s read s' ⟨⟨rfl, hs⟩, hlong⟩
  cases read with
  | false => exact Alike.pure ⟨rfl, hs⟩
  | true =>
    apply Alike.bind (deref_same hs link)
    rintro n t n' t' ⟨⟨rfl, rfl⟩, hget, hn⟩
    dsimp only
    rw [sameInode_size hn.inode]
    apply Alike.ite (fun _ => Alike.fault _)
    intro _
    apply Alike.ite
    · intro hshort
      rw [cString_congr fun j hj => sameInode_b hn.inode (by omega)]
      exact Alike.pure ⟨rfl, hs⟩
    intro hmore
    have hat : DeliversAt fs link 0 n.inode.size t := by
      intro node hnode
      obtain rfl := Option.some.inj (hget.symm.trans hnode)
      exact hlong rfl n hget (by omega)
    have hread := readFileAt_same hs memory hlog hblksz fuel link hat
      (zalloc fs (n.inode.size + 1)) (zalloc (onMemory fs memory) (n.inode.size + 1))
    rw [Int.natCast_zero, int32_zero] at hread
    apply Alike.bind hread
    rintro ⟨status, symlink⟩ u ⟨status', symlink'⟩ u' ⟨hu, hstatus, hkept, -⟩
    dsimp only at hstatus hkept ⊢
    subst hstatus
    have htarget : cString symlink' n.inode.size = cString symlink n.inode.size := by
      refine cString_congr fun j hj => hkept j ?_
      rw [zalloc_zero _ (by omega), zalloc_zero _ (by omega)]
    rw [htarget]
    apply Alike.ite
    · intro _
      exact Alike.pure ⟨rfl, hu⟩
    · intro _
      exact Alike.pure ⟨rfl, hu⟩

theorem takeLink_same (link currroot : NodeRef) (hwhole : WholeTarget fs link w) :
    Alike (SameCall fs) (takeLink fs (fuel + 2) link currroot w)
      (takeLink (onMemory fs memory) (fuel + 2) link currroot w') := by
  apply Alike.bind (ext4fsReadSymlink_same h memory hlog hblksz fuel link hwhole)
  rintro _ s symlink s' ⟨rfl, hs⟩
  apply Alike.bind (ext4fsFreeNode_same hs link currroot)
  rintro _ t _ t' ⟨-, ht⟩
  exact Alike.pure ⟨rfl, ht⟩

omit hlog hblksz in
theorem linkStart_same (target : List UInt8) (oldnode currroot : NodeRef) :
    Alike (SameCall fs) (linkStart target oldnode currroot w)
      (linkStart target oldnode currroot w') := by
  apply Alike.ite
  · intro _
    apply Alike.bind (ext4fsFreeNode_same h oldnode currroot)
    rintro _ s _ s' ⟨-, hs⟩
    exact Alike.pure ⟨rfl, hs⟩
  · intro _
    exact Alike.pure ⟨rfl, h⟩

omit hlog hblksz in
/-- A search that fails frees the node that it is at. -/
theorem giveUp_same {α : Type} (node currroot : NodeRef) :
    Alike (SameCall fs)
      ((do ext4fsFreeNode node currroot; pure none : NodeM (Option α)) w)
      ((do ext4fsFreeNode node currroot; pure none : NodeM (Option α)) w') := by
  apply Alike.bind (ext4fsFreeNode_same h node currroot)
  rintro _ s _ s' ⟨-, hs⟩
  exact Alike.pure ⟨rfl, hs⟩

/-- Two searches for what a path leads to, under a condition on the first one. -/
def FollowSame (fs : ExtFilesystem) (whole : List UInt8 → NodeRef → ℕ → World → Prop)
    (follow follow' : List UInt8 → NodeRef → ℕ → NodeM (Option Found)) : Prop :=
  ∀ path start k w w', SameWorld fs w w' → whole path start k w →
    Alike (SameCall fs) (follow path start k w) (follow' path start k w')

section Links
variable {whole : List UInt8 → NodeRef → ℕ → World → Prop}
  {follow follow' : List UInt8 → NodeRef → ℕ → NodeM (Option Found)}
  (hfollow : FollowSame fs whole follow follow')
include hfollow

theorem followLink_same (link oldnode currroot : NodeRef) (k : ℕ)
    (hwhole : WholeLink fs (fuel + 2) whole link oldnode currroot k w) :
    Alike (SameCall fs) (followLink fs (fuel + 2) follow link oldnode currroot k w)
      (followLink (onMemory fs memory) (fuel + 2) follow' link oldnode currroot k w') := by
  unfold followLink
  apply Alike.ite
  · intro _
    apply Alike.bind (ext4fsFreeNode_same h link currroot)
    rintro _ s _ s' ⟨-, hs⟩
    exact giveUp_same hs oldnode currroot
  intro hmore
  obtain ⟨htarget, hafter⟩ := hwhole hmore
  apply Alike.bind ((takeLink_same h memory hlog hblksz fuel link currroot htarget).and_return
    hafter)
  rintro _ s symlink s' ⟨⟨rfl, hs⟩, hstarts⟩
  cases symlink with
  | none => exact giveUp_same hs oldnode currroot
  | some symlink =>
    apply Alike.bind ((linkStart_same hs symlink oldnode currroot).and_return (hstarts symlink rfl))
    rintro _ t start t' ⟨⟨rfl, ht⟩, hfollowed⟩
    apply Alike.bind (hfollow symlink start (k + 1) t t' ht hfollowed)
    rintro _ u found u' ⟨rfl, hu⟩
    cases found with
    | none => exact giveUp_same hu start currroot
    | some found => exact Alike.pure ⟨rfl, hu⟩

theorem findName_same (steps : ℕ) (currroot : NodeRef) (name : List UInt8) (currnode : NodeRef)
    (type : FileType) (k : ℕ)
    (hwhole : WholeName fs (fuel + 2) steps whole currroot name currnode type k w) :
    Alike (SameCall fs) (findName fs (fuel + 2) steps follow currroot name currnode type k w)
      (findName (onMemory fs memory) (fuel + 2) steps follow' currroot name currnode type k
        w') := by
  unfold findName
  apply Alike.ite
  · intro _
    exact giveUp_same h currnode currroot
  intro htype
  obtain ⟨hlookup, hafter⟩ := hwhole (Classical.not_not.mp htype)
  apply Alike.bind ((lookupIn_same h memory hlog hblksz fuel currnode name steps hlookup).and_return
    hafter)
  rintro _ s found s' ⟨⟨rfl, hs⟩, hlink⟩
  rcases found with _ | ⟨entry, type'⟩
  · exact Alike.pure ⟨rfl, hs⟩
  have hplain : Alike (SameCall fs)
      ((do
        ext4fsFreeNode currnode currroot
        pure (some (.alloc entry, type', k)) : NodeM (Option (NodeRef × FileType × ℕ))) s)
      ((do
        ext4fsFreeNode currnode currroot
        pure (some (.alloc entry, type', k)) : NodeM (Option (NodeRef × FileType × ℕ))) s') := by
    apply Alike.bind (ext4fsFreeNode_same hs currnode currroot)
    rintro _ t _ t' ⟨-, ht⟩
    exact Alike.pure ⟨rfl, ht⟩
  cases type' with
  | symlink =>
    apply Alike.bind (followLink_same hs memory hlog hblksz fuel hfollow (.alloc entry) currnode
      currroot k (hlink _ rfl rfl))
    rintro _ t r t' ⟨rfl, ht⟩
    rcases r with _ | ⟨node, start, type, k'⟩
    · exact Alike.pure ⟨rfl, ht⟩
    · apply Alike.bind (ext4fsFreeNode_same ht start currroot)
      rintro _ u _ u' ⟨-, hu⟩
      exact Alike.pure ⟨rfl, hu⟩
  | unknown => exact hplain
  | reg => exact hplain
  | directory => exact hplain

theorem walk_same (steps : ℕ) (currroot : NodeRef) (path : List (List UInt8)) (currnode : NodeRef)
    (type : FileType) (k : ℕ)
    (hwhole : WholeWalk fs (fuel + 2) steps follow whole currroot path currnode type k w) :
    Alike (SameCall fs) (walk fs (fuel + 2) steps follow currroot path currnode type k w)
      (walk (onMemory fs memory) (fuel + 2) steps follow' currroot path currnode type k w') := by
  induction path generalizing currnode type k w w' with
  | nil =>
    apply Alike.bind (deref_same h currnode)
    rintro n s n' s' ⟨⟨rfl, rfl⟩, -⟩
    exact Alike.pure ⟨rfl, h⟩
  | cons name next ih =>
    obtain ⟨hname, hafter⟩ := hwhole
    rw [walk_cons, walk_cons]
    apply Alike.bind ((findName_same h memory hlog hblksz fuel hfollow steps currroot name currnode
      type k hname).and_return hafter)
    rintro _ s r s' ⟨⟨rfl, hs⟩, hnext⟩
    rcases r with _ | ⟨node, type, k'⟩
    · exact Alike.pure ⟨rfl, hs⟩
    · exact ih hs node type k' (hnext _ rfl)

end Links

omit h in
/-- The searches at every depth. A link is followed one level deeper in both. -/
theorem findFile1_same (steps depth : ℕ) :
    FollowSame fs (WholeFind fs (fuel + 2) steps depth) (ext4fsFindFile1 fs (fuel + 2) steps depth)
      (ext4fsFindFile1 (onMemory fs memory) (fuel + 2) steps depth) := by
  induction depth with
  | zero => exact fun _ _ _ _ _ _ _ => Alike.fault _
  | succ depth ih =>
    intro path start k w w' h hwhole
    unfold WholeFind at hwhole
    unfold ext4fsFindFile1
    cases hnames : names path with
    | nil => exact Alike.pure ⟨rfl, h⟩
    | cons name next =>
      rw [hnames] at hwhole
      exact walk_same h memory hlog hblksz fuel ih steps start (name :: next) start .directory k
        hwhole

end Searches

end Nodes

section Paths
variable {past : Bytes} {part : PartDescr} {log log' : Log} {fs : ExtFilesystem} {root : Ext2fsNode}

/-- A root directory of this size. It has a link l, whose target is a file f behind sixty
slashes, and that file. -/
def slashesImage (size : UInt8 × UInt8) : Bytes := fun b =>
  if 5120 ≤ b ∧ b < 5180 then slash
  else
    match b with
    | 1044 => 1
    | 1064 => 8
    | 1080 => 0x53
    | 1081 => 0xef
    | 2056 => 3
    | 3201 => 0x41
    | 3204 => size.1
    | 3205 => size.2
    | 3240 => 4
    | 3329 => 0x81
    | 3457 => 0xa1
    | 3460 => 61
    | 3496 => 5
    | 4096 => 4
    | 4100 => 12
    | 4102 => 1
    | 4103 => 7
    | 4104 => 0x6c
    | 4108 => 3
    | 4112 => 0xf4
    | 4113 => 3
    | 4114 => 1
    | 4115 => 1
    | 4116 => 0x66
    | 5180 => 0x66
    | _ => 0

def slashesPart (size : UInt8 × UInt8) : PartDescr := ⟨DiskDescr.ofImage (slashesImage size), 0, 16⟩

theorem slashes_added : SlashVariant [0x6c] [slash, 0x6c, slash] :=
  (Relation.EqvGen.rel _ _ (SlashAdded.back [0x6c])).trans _ _ _
    (.rel _ _ (SlashAdded.front [0x6c, slash]))

/-- The bytes of a header behind its inode number, left over from an entry of this name length. -/
def staleHeader (namelen : UInt8) : Bytes := fun j =>
  match j with
  | 4 => 12
  | 6 => namelen
  | 7 => 1
  | _ => 0

end Paths

end Eokan.UnknownSearch
