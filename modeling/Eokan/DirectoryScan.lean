import Eokan.DirectoryReads
import Eokan.EntryVisits

/-!
An iteration over a directory is a scan of the entries that it finds.
-/
namespace Eokan.DirectoryScan

open ByteMem CInt Programs Device Layout Inodes ReadFile DokanRead NodeHeap Directory NodeRuns
open Entries DirectoryReads EntryVisits

section Rounds
variable {fs : ExtFilesystem} {fuel size : ℕ} {valid : Ext2fsNode → Prop}
  (hsizes : ∀ node, valid node → node.inode.size = size) {dir : NodeRef} {w : World}
  {node : Ext2fsNode} (hnode : w.get dir = some node) (hvalid : valid node) {α : Type}
  {mode : DirMode α} {post : Option (ℕ × FileType) × α → World → Prop}
include hsizes hnode hvalid

theorem iterateFrom_stop {pos steps : ℕ} (hstop : Stops fs fuel valid size pos)
    (mode : DirMode α) (a : α) :
    Yields (iterateFrom fs fuel dir mode (steps + 1) pos a) w fun r w' =>
      Passed valid dir w w' ∧ r = (none, a) := by
  have hself : Passed valid dir w w := Passed.of_changed (Changed.refl hnode) hvalid
  unfold Yields iterateFrom
  rw [bind_ok (deref_run hnode)]
  by_cases hlt : pos < node.inode.size
  swap
  · rw [if_neg hlt]
    exact ⟨_, w, rfl, hself, rfl⟩
  rw [if_pos hlt]
  rcases hstop with hle | ⟨_, raw, hheader, hfail⟩
  · rw [hsizes node hvalid] at hlt
    exact absurd hlt (Nat.not_lt.mpr hle)
  apply Yields.bind (readFileAt_yields hnode (hheader node hvalid w.log))
  rintro ⟨status, raw'⟩ w₁ ⟨node₁, log, ⟨hvalid₁, rfl, hraw⟩, hchanged⟩
  have hpassed := Passed.of_changed hchanged hvalid₁
  dsimp only at hraw ⊢
  by_cases hstatus : status < 1
  · rw [if_pos hstatus]
    exact Yields.pure ⟨hpassed, rfl⟩
  obtain ⟨hone, hname, _, buf, hread, hfail'⟩ := hfail.resolve_left hstatus
  obtain ⟨-, -, hnamelen, -⟩ := dirent_congr (hraw hone)
  rw [if_neg hstatus, hnamelen, if_neg hname]
  have hread' := hread node₁ hvalid₁ w₁.log
  rw [Int.natCast_add] at hread'
  apply Yields.bind (readFileAt_yields hchanged.self hread')
  rintro ⟨_, filename⟩ w₂ ⟨node₂, log', ⟨hvalid₂, rfl, -⟩, hchanged'⟩
  dsimp only
  rw [if_pos hfail']
  exact Yields.pure ⟨hpassed.trans (Passed.of_changed hchanged' hvalid₂), rfl⟩

/-- One round of the loop finds an entry and visits it if it has a name. -/
theorem iterateFrom_look {pos : ℕ} {e : Entry} (hlt : pos < size)
    (hlook : Looks fs fuel valid pos (some e)) (steps : ℕ) (a : α) :
    ∃ w' dirent, Passed valid dir w w' ∧
      (Ext2Dirent.inode dirent = e.inode ∧ dirent.filetype = e.filetype) ∧
      iterateFrom fs fuel dir mode (steps + 1) pos a w =
        (if e.name = [] then iterateFrom fs fuel dir mode steps (nextPos pos e) a
        else do
          match ← visitEntry fs mode dirent e.cname a with
          | .done found a => pure (found, a)
          | .next got a =>
            if got ≠ 0 then pure (none, a)
            else iterateFrom fs fuel dir mode steps (nextPos pos e) a) w' := by
  obtain ⟨_, raw, hheader, hone, ⟨hinode, hlen, hnamelen, htype⟩, hnamed⟩ := hlook
  obtain ⟨⟨status, raw'⟩, w₁, hrun, node₁, log, ⟨hvalid₁, hstatus, hraw⟩, hchanged⟩ :=
    readFileAt_yields hnode (hheader node hvalid w.log)
  have hpassed := Passed.of_changed hchanged hvalid₁
  dsimp only at hstatus
  subst hstatus
  obtain ⟨hinode', hlen', hnamelen', htype'⟩ := dirent_congr (hraw hone)
  have hnext : (uint32 (pos + e.direntlen)).toNat = nextPos pos e := toNat_uint32_add _ _
  change readFileAt fs fuel dir (int32 pos) 8 fs.past w = _ at hrun
  by_cases hname : e.name = []
  · refine ⟨w₁, ⟨raw'⟩, hpassed, ⟨hinode'.trans hinode, htype'.trans htype⟩, ?_⟩
    have hzero : e.name.length = 0 := List.length_eq_zero_iff.mpr hname
    rw [iterateFrom, bind_ok (deref_run hnode), if_pos (by rw [hsizes node hvalid]; exact hlt),
      bind_ok hrun]
    dsimp only at hinode' hlen' hnamelen' htype' ⊢
    rw [if_neg (Int.not_lt.mpr hone), hlen', hlen, hnamelen', hnamelen, hnext, if_pos hzero,
      if_pos hname]
  · obtain ⟨_, buf, hread, hone', hbuf⟩ := hnamed hname
    have hread' := hread node₁ hvalid₁ w₁.log
    rw [Int.natCast_add] at hread'
    obtain ⟨⟨status', filename⟩, w₂, hrun', node₂, log', ⟨hvalid₂, hstatus', hbytes⟩, hchanged'⟩ :=
      readFileAt_yields hchanged.self hread'
    change readFileAt fs fuel dir (int32 (pos + 8)) e.name.length fs.past w₁ = _ at hrun'
    dsimp only at hstatus'
    subst hstatus'
    have hcstring : cString filename e.name.length = e.cname :=
      cString_of_name fun i hi => (hbytes hone' i hi).trans (hbuf i hi)
    refine ⟨w₂, ⟨raw'⟩, hpassed.trans (Passed.of_changed hchanged' hvalid₂),
      ⟨hinode'.trans hinode, htype'.trans htype⟩, ?_⟩
    rw [iterateFrom, bind_ok (deref_run hnode), if_pos (by rw [hsizes node hvalid]; exact hlt),
      bind_ok hrun]
    dsimp only at hinode' hlen' hnamelen' htype' ⊢
    rw [if_neg (Int.not_lt.mpr hone), hlen', hlen, hnamelen', hnamelen, hnext,
      if_neg fun h => hname (List.length_eq_zero_iff.mp h), bind_ok hrun']
    dsimp only
    rw [if_neg (Int.not_lt.mpr hone'), hcstring]
    exact (congrFun (if_neg hname) w₂).symm

theorem iterateFrom_round {pos steps : ℕ} {e : Entry} (hlt : pos < size)
    (hlook : Looks fs fuel valid pos (some e)) (a : α)
    (hskip : e.name = [] → ∀ w', Passed valid dir w w' →
      Yields (iterateFrom fs fuel dir mode steps (nextPos pos e) a) w' post)
    (hvisit : e.name ≠ [] → ∀ w' dirent, Passed valid dir w w' →
      Ext2Dirent.inode dirent = e.inode → dirent.filetype = e.filetype →
      Yields (visitEntry fs mode dirent e.cname a) w' fun r w'' =>
        match r with
        | .done found b => post (found, b) w''
        | .next got b =>
          if got ≠ 0 then post (none, b) w''
          else Yields (iterateFrom fs fuel dir mode steps (nextPos pos e) b) w'' post) :
    Yields (iterateFrom fs fuel dir mode (steps + 1) pos a) w post := by
  obtain ⟨w', dirent, hpassed, ⟨hinode, htype⟩, hrun⟩ :=
    @iterateFrom_look fs fuel size valid hsizes dir w node hnode hvalid α mode pos e hlt hlook steps
      a
  unfold Yields
  rw [hrun]
  by_cases hname : e.name = []
  · rw [if_pos hname]
    exact hskip hname w' hpassed
  rw [if_neg hname]
  apply Yields.bind (hvisit hname w' dirent hpassed hinode htype)
  intro r w'' hr
  cases r with
  | done found b => exact Yields.pure hr
  | next got b =>
    dsimp only at hr ⊢
    split at hr
    · rw [if_pos ‹_›]
      exact Yields.pure hr
    · rw [if_neg ‹_›]
      exact hr

end Rounds

section Scans
variable {fs : ExtFilesystem} {fuel size : ℕ} {valid : Ext2fsNode → Prop}
  (hsizes : ∀ node, valid node → node.inode.size = size) {dir : NodeRef} {w : World}
  {contents : ℕ → Option Bytes} {es : List Entry}
  (hinos : ∀ e ∈ es, e.name ≠ [] → InodeIs fs e.inode (contents e.inode)) {pos q steps : ℕ}
  (hwalk : Walk fs fuel valid size pos es q) (hdir : ∃ node, w.get dir = some node ∧ valid node)
include hsizes hinos hwalk hdir

/-- What a visit to an entry makes of the rest holds of the whole iteration. The
induction is on the entries. -/
theorem iterateFrom_run {α : Type} {mode : DirMode α}
    (post : List Entry → α → Option (ℕ × FileType) × α → World → Prop)
    (hend : ∀ a w', post [] a (none, a) w')
    (hskip : ∀ e es a r w', e.name = [] → post es a r w' → post (e :: es) a r w')
    (hvisit : ∀ e es, e.name ≠ [] → InodeIs fs e.inode (contents e.inode) → ∀ a w' dirent,
      Ext2Dirent.inode dirent = e.inode → dirent.filetype = e.filetype →
      Yields (visitEntry fs mode dirent e.cname a) w' fun r w'' => Same w' w'' ∧
        match r with
        | .done found b => post (e :: es) a (found, b) w''
        | .next got b =>
          if got ≠ 0 then post (e :: es) a (none, b) w''
          else ∀ r w₃, post es b r w₃ → post (e :: es) a r w₃)
    (hstop : Stops fs fuel valid size q) (hsteps : es.length < steps) (a : α) :
    Yields (iterateFrom fs fuel dir mode steps pos a) w fun r w' =>
      Passed valid dir w w' ∧ post es a r w' := by
  induction es generalizing pos steps w a with
  | nil =>
    obtain ⟨node, hnode, hvalid⟩ := hdir
    obtain ⟨n, rfl⟩ : ∃ n, steps = n + 1 := ⟨steps - 1, (Nat.succ_pred_eq_of_pos hsteps).symm⟩
    obtain rfl : pos = q := hwalk
    refine (iterateFrom_stop hsizes hnode hvalid hstop mode a).mono ?_
    rintro r w' ⟨hpassed, rfl⟩
    exact ⟨hpassed, hend a w'⟩
  | cons e es ih =>
    obtain ⟨node, hnode, hvalid⟩ := hdir
    obtain ⟨hlt, hlook, hrest⟩ := hwalk
    obtain ⟨n, rfl⟩ : ∃ n, steps = n + 1 := ⟨steps - 1, by omega⟩
    have hih : ∀ w', Passed valid dir w w' → ∀ b,
        Yields (iterateFrom fs fuel dir mode n (nextPos pos e) b) w' fun r w'' =>
          Passed valid dir w w'' ∧ post es b r w'' := by
      intro w' hpassed b
      refine (ih (fun e' he' => hinos e' (List.mem_cons_of_mem e he')) hrest hpassed.self
        (Nat.lt_of_succ_lt_succ hsteps) b).mono ?_
      intro r w'' hr
      exact ⟨hpassed.trans hr.1, hr.2⟩
    refine iterateFrom_round hsizes hnode hvalid hlt hlook a (fun hname w' hpassed => ?_)
      fun hname w' dirent hpassed hinode htype => ?_
    · exact (hih w' hpassed a).mono fun r w'' hr => ⟨hr.1, hskip e es a r w'' hname hr.2⟩
    · refine (hvisit e es hname (hinos e List.mem_cons_self hname) a w' dirent hinode htype).mono ?_
      rintro r w'' ⟨hsame, hr⟩
      have hpassed' := hpassed.of_same hsame
      cases r with
      | done found b => exact ⟨hpassed', hr⟩
      | next got b =>
        dsimp only at hr ⊢
        split at hr
        · rw [if_pos ‹_›]
          exact ⟨hpassed', hr⟩
        · rw [if_neg ‹_›]
          exact (hih w'' hpassed' b).mono fun r w₃ hrest => ⟨hrest.1, hr r w₃ hrest.2⟩

/-- A lookup ends as the scan of the entries does. -/
theorem iterateFrom_lookup (hstop : Stops fs fuel valid size q) (hsteps : es.length < steps)
    (name : List UInt8) :
    Yields (iterateFrom fs fuel dir (.lookup name) steps pos ()) w fun r w' =>
      Passed valid dir w w' ∧ Finds contents r.1 w' (lookupScan contents name es) := by
  refine iterateFrom_run hsizes hinos hwalk hdir
    (fun es _ r w' => Finds contents r.1 w' (lookupScan contents name es))
    (fun _ _ => rfl) (fun e es _ r w' hname h => ?_) ?_ hstop hsteps ()
  · unfold lookupScan
    rwa [if_pos hname]
  · intro e es hname hino _ w' dirent hinode htype
    refine (visitEntry_lookup hino hinode htype name ()).mono ?_
    rintro r w'' ⟨hsame, hr⟩
    refine ⟨hsame, ?_⟩
    rw [lookupScan, if_neg hname]
    cases htypeOf : typeOf contents e with
    | none =>
      rw [htypeOf] at hr
      rw [hr]
      rfl
    | some type =>
      rw [htypeOf] at hr
      dsimp only at hr ⊢
      split at hr
      · obtain ⟨id, node', rfl, hfound⟩ := hr
        rw [if_pos ‹_›]
        exact ⟨id, node', rfl, hfound⟩
      · rw [hr, if_neg ‹_›]
        exact fun r w₃ h => h

/-- A listing whose function never stops it passes on the entries of the scan. -/
theorem iterateFrom_list (hstop : Stops fs fuel valid size q) (hsteps : es.length < steps)
    {α : Type} (f : α → List UInt8 → Xstat → Bool → ℤ × α)
    (hf : ∀ a name st isDir, (f a name st isDir).1 = 0) (a : α) :
    Yields (iterateFrom fs fuel dir (.list (some f)) steps pos a) w fun r w' =>
      Passed valid dir w w' ∧ r = (none, passOn contents f (listScan contents es) a) := by
  refine iterateFrom_run hsizes hinos hwalk hdir
    (fun es a r _ => r = (none, passOn contents f (listScan contents es) a))
    (fun _ _ => rfl) (fun e es a r w' hname h => ?_) ?_ hstop hsteps a
  · unfold listScan
    rwa [if_pos hname]
  · intro e es hname hino a w' dirent hinode htype
    refine (visitEntry_list hino hinode htype f a).mono ?_
    rintro r w'' ⟨hsame, hr⟩
    refine ⟨hsame, ?_⟩
    rw [listScan, if_neg hname]
    cases hbytes : contents e.inode with
    | none =>
      rw [hbytes] at hr
      rw [hr, if_pos rfl]
      rfl
    | some bytes =>
      rw [hbytes] at hr
      rw [hr, if_neg (by simp)]
      dsimp only
      rw [if_neg (not_not_intro (hf _ _ _ _))]
      have hcall : passOn contents f (e :: listScan contents es) a =
          passOn contents f (listScan contents es) (f a e.cname
            (ext4fsFileEntryStat (readNode e.inode bytes))
            (typeOf contents e = some .directory)).2 := by
        unfold passOn callOf
        simp only [List.map_cons, List.foldl_cons, hbytes, Option.getD_some]
      rw [hcall]
      exact fun r w₃ h => h

end Scans

/-- A directory whose inode has been read, or can be. -/
def Openable (fs : ExtFilesystem) (valid : Ext2fsNode → Prop) (node : Ext2fsNode) : Prop :=
  if node.inodeRead then valid node
  else ∃ bytes, ReadsInode fs node.ino bytes ∧
    valid { node with inode := ⟨write node.inode.raw 0 128 bytes⟩ }

theorem needInode_openable {fs : ExtFilesystem} {valid : Ext2fsNode → Prop} {dir : NodeRef}
    {w : World} {node : Ext2fsNode} (hnode : w.get dir = some node)
    (hopen : Openable fs valid node) :
    Yields (needInode fs dir) w fun read w' => read = true ∧ Passed valid dir w w' := by
  unfold Openable at hopen
  unfold Yields needInode
  rw [bind_ok (deref_run hnode)]
  split at hopen
  · rw [if_pos ‹_›]
    exact ⟨true, w, rfl, rfl, Passed.of_changed (Changed.refl hnode) hopen⟩
  · rw [if_neg ‹_›]
    obtain ⟨bytes, hbytes, hvalid⟩ := hopen
    apply Yields.bind (loadInode_yields hnode (hbytes _ w.log))
    rintro status w' ⟨⟨raw⟩, log, ⟨hstatus, hraw⟩, hchanged⟩
    dsimp only at hstatus hraw
    subst hstatus hraw
    exact Yields.pure ⟨rfl, Passed.of_changed hchanged hvalid⟩

theorem Openable.exists_valid {fs : ExtFilesystem} {valid : Ext2fsNode → Prop}
    {node : Ext2fsNode} (h : Openable fs valid node) : ∃ node', valid node' := by
  unfold Openable at h
  split at h
  · exact ⟨node, h⟩
  · obtain ⟨bytes, -, hvalid⟩ := h
    exact ⟨_, hvalid⟩

section Iterations
variable {fs : ExtFilesystem} {fuel size steps : ℕ} {valid : Ext2fsNode → Prop}
  (hsizes : ∀ node, valid node → node.inode.size = size) {dir : NodeRef} {w : World}
  {contents : ℕ → Option Bytes} {es : List Entry}
  (hinos : ∀ e ∈ es, e.name ≠ [] → InodeIs fs e.inode (contents e.inode)) {q : ℕ}
  (hwalk : Walk fs fuel valid size 0 es q) (hstop : Stops fs fuel valid size q)
  (hsteps : es.length < steps) {node : Ext2fsNode}
  (hnode : w.get dir = some node) (hopen : Openable fs valid node)
include hsizes hinos hwalk hstop hsteps hnode hopen

theorem ext4fsIterateDir_lookup (name : List UInt8) :
    Yields (ext4fsIterateDir fs fuel steps dir (.lookup name) ()) w fun r w' =>
      Passed valid dir w w' ∧ Finds contents r.1 w' (lookupScan contents name es) := by
  apply Yields.bind (needInode_openable hnode hopen)
  rintro _ w₁ ⟨rfl, hpassed⟩
  rw [if_neg (by decide)]
  refine (iterateFrom_lookup hsizes hinos hwalk hpassed.self hstop hsteps name).mono ?_
  intro r w₂ hr
  exact ⟨hpassed.trans hr.1, hr.2⟩

theorem ext4fsIterateDir_list {α : Type} (f : α → List UInt8 → Xstat → Bool → ℤ × α)
    (hf : ∀ a name st isDir, (f a name st isDir).1 = 0) (a : α) :
    Yields (ext4fsIterateDir fs fuel steps dir (.list (some f)) a) w fun r w' =>
      Passed valid dir w w' ∧ r = (none, passOn contents f (listScan contents es) a) := by
  apply Yields.bind (needInode_openable hnode hopen)
  rintro _ w₁ ⟨rfl, hpassed⟩
  rw [if_neg (by decide)]
  refine (iterateFrom_list hsizes hinos hwalk hpassed.self hstop hsteps f hf a).mono ?_
  intro r w₂ hr
  exact ⟨hpassed.trans hr.1, hr.2⟩

end Iterations

end Eokan.DirectoryScan
