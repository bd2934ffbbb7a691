import Eokan.DirectoryReads
import Eokan.Resolve
import Eokan.TypeVisits

/-!
Directories and links in two file systems that differ in type bytes. The loops
over a directory are at the same entries, and the targets of links are the same.
-/
namespace Eokan.TypeReads

open ByteMem CInt Programs TwoRuns Device Layout ReadFile DokanRead NodeHeap Entries Directory
  DirectoryReads NodeRuns Resolve SymlinkReads TypeBytes TypeVisits

theorem cString_congr {buf buf' : Bytes} {n : ℕ} (h : ∀ j, j < n → buf' j = buf j) :
    cString buf' n = cString buf n := by
  have hmap : (List.range n).map buf' = (List.range n).map buf :=
    List.map_congr_left fun j hj => h j (List.mem_range.mp hj)
  unfold cString
  rw [hmap]

/-- A node that is there belongs to the tree. -/
theorem tree_of_get {p : Pairing} {w w' : World} (hw : Worlds p w w') {ref : NodeRef}
    {n : Ext2fsNode} (hn : w.get ref = some n) : n.ino ∈ p.tree := by
  rcases hw.cases ref with ⟨hnone, -⟩ | ⟨m, m', hm, -, halike⟩
  · rw [hn] at hnone
    cases hnone
  · rw [hn] at hm
    cases hm
    exact halike.1.1

/-- Only the header of an entry matters. -/
theorem entriesAlike_congr {p : Pairing} {ino : ℤ} {pos : ℕ} {raw raw' buf buf' : Bytes}
    (h : EntriesAlike p ino pos ⟨raw⟩ ⟨raw'⟩) (hbuf : ∀ j, j < 8 → buf j = raw j)
    (hbuf' : ∀ j, j < 8 → buf' j = raw' j) : EntriesAlike p ino pos ⟨buf⟩ ⟨buf'⟩ := by
  obtain ⟨hinode, hlen, hnamelen, htype⟩ := dirent_congr hbuf
  obtain ⟨hinode', hlen', hnamelen', htype'⟩ := dirent_congr hbuf'
  refine ⟨?_, ?_, ?_, ?_, fun hnamed => ?_⟩
  · rw [hinode, hinode', h.inode]
  · rw [hlen, hlen', h.direntlen]
  · rw [hnamelen, hnamelen', h.namelen]
  · rw [hlen]
    exact h.next
  · obtain ⟨htree, hdir, hlink, hfiletype⟩ := h.named (hnamelen ▸ hnamed)
    have htypeOf : p.typeOf ⟨buf⟩ = p.typeOf ⟨raw⟩ := by
      unfold Pairing.typeOf
      rw [htype, hinode]
    refine ⟨?_, ?_, ?_, ?_⟩
    · rwa [hinode]
    · rwa [hinode, htypeOf]
    · rwa [hinode, htypeOf]
    · rwa [hinode, htype, htype']

/-- Two directories with the same bytes but for the type of the entry at pos. -/
theorem entryRead_of_readable {fs fs' : ExtFilesystem} {fuel size : ℕ} {p : Pairing} {ino : ℤ}
    {valid valid' : Ext2fsNode → Prop} {data data' : Bytes}
    (hfile : ReadableFile fs fuel valid size data)
    (hfile' : ReadableFile fs' fuel valid' size data')
    (hstates : ∀ n n', p.states ino n n' ↔ valid n ∧ valid' n') {pos : ℕ} (hpos : pos + 8 ≤ size)
    (halike : EntriesAlike p ino pos ⟨slice data pos⟩ ⟨slice data' pos⟩)
    (hfits : pos + 8 + Ext2Dirent.namelen ⟨slice data pos⟩ ≤ size)
    (hname : ∀ j, j < Ext2Dirent.namelen ⟨slice data pos⟩ →
      data' (pos + 8 + j) = data (pos + 8 + j))
    {n n' : Ext2fsNode} (hn : p.states ino n n') (log log' : Log) :
    Alike (fun r _ r' _ => EntryRead fs fs' fuel p ino pos r r')
      (ext4fsReadFile fs fuel n (int32 pos) 8 fs.past log)
      (ext4fsReadFile fs' fuel n' (int32 pos) 8 fs'.past log') := by
  obtain ⟨hvalid, hvalid'⟩ := (hstates n n').mp hn
  refine (Alike.of_yields (hfile.read n hvalid pos 8 (by decide) hpos fs.past log)
    (hfile'.read n' hvalid' pos 8 (by decide) hpos fs'.past log')).mono ?_
  rintro r s r' s' ⟨⟨hv, hr, hbytes⟩, hv', hr', hbytes'⟩
  have hheader := entriesAlike_congr halike hbytes hbytes'
  obtain ⟨-, -, hnamelen, -⟩ := dirent_congr hbytes
  refine ⟨hr'.trans hr.symm, (hstates _ _).mpr ⟨hv, hv'⟩, fun _ => ⟨hheader, fun hnamed => ?_⟩⟩
  intro log log'
  rw [hnamelen] at hnamed ⊢
  have hone := Nat.pos_of_ne_zero hnamed
  refine (Alike.of_yields (hfile.read _ hv (pos + 8) _ hone hfits fs.past log)
    (hfile'.read _ hv' (pos + 8) _ hone hfits fs'.past log')).mono ?_
  rintro t _ t' _ ⟨⟨hw, ht, hbuf⟩, hw', ht', hbuf'⟩
  refine ⟨ht'.trans ht.symm, (hstates _ _).mpr ⟨hw, hw'⟩, fun _ j hj => ?_⟩
  rw [hbuf j hj, hbuf' j hj, hname j hj]

variable {fs fs' : ExtFilesystem} {fuel : ℕ} {p : Pairing} (h : DifferInTypes fs fs' fuel p)
include h

section Directories
variable {ino : ℤ} (hdir : ino ∈ p.dirs) (htree : ino ∈ p.tree) {dir : NodeRef} {α : Type}
  (mode : DirMode α)
include hdir htree

/-- Both loops are at the same position in every round. -/
theorem iterateFrom_alike (steps pos : ℕ) (hpos : pos ∈ p.places ino) (data : α) {w w' : World}
    (hw : Worlds p w w') (hloaded : Loaded p ino dir w w') :
    Alike (fun r s r' s' => r' = r ∧ Onward p w s s' ∧ FoundAt p r.1 s)
      (iterateFrom fs fuel dir mode steps pos data w)
      (iterateFrom fs' fuel dir mode steps pos data w') := by
  induction steps generalizing pos data w w' with
  | zero => exact Alike.fault _
  | succ steps ih =>
    obtain ⟨n, n', hn, hn', hnodes⟩ := hloaded
    obtain ⟨⟨-, hinode⟩, -, hinode'⟩ := h.same _ _ _ hnodes
    rw [iterateFrom, iterateFrom, bind_ok (deref_run hn), bind_ok (deref_run hn'), hinode, hinode']
    apply Alike.ite
    swap
    · intro _
      exact Alike.pure ⟨rfl, Onward.refl hw, FoundAt.none _⟩
    intro hlt
    apply Alike.bind (readFileAt_alike h hw hn hn' hnodes htree (fun r r' hr => hr.2.1)
      (h.entries ino hdir n n' hnodes pos hpos hlt))
    rintro ⟨status, raw⟩ s ⟨status', raw'⟩ s' ⟨honward, m, m', ⟨hm, hm'⟩, hstatus, hstates, hentry⟩
    dsimp only at hstatus hstates hentry ⊢
    subst hstatus
    apply Alike.ite
    · intro _
      exact Alike.pure ⟨rfl, honward, FoundAt.none _⟩
    intro hok
    obtain ⟨hentries, hname⟩ := hentry (Int.not_lt.mp hok)
    rw [hentries.namelen, hentries.direntlen]
    -- the next round, after whatever has not changed the directory
    have hnext : ∀ {t t' : World} data, Onward p w t t' → Loaded p ino dir t t' →
        Alike (fun r u r' u' => r' = r ∧ Onward p w u u' ∧ FoundAt p r.1 u)
          (iterateFrom fs fuel dir mode steps
            (uint32 (pos + Ext2Dirent.direntlen ⟨raw⟩)).toNat data t)
          (iterateFrom fs' fuel dir mode steps
            (uint32 (pos + Ext2Dirent.direntlen ⟨raw⟩)).toNat data t') := by
      intro t t' data ht hloaded
      refine (ih _ hentries.next data ht.worlds hloaded).mono ?_
      rintro r u r' u' ⟨hr, hu, hfound⟩
      exact ⟨hr, ht.trans hu, hfound⟩
    apply Alike.ite
    · intro _
      exact hnext data honward ⟨m, m', hm, hm', hstates⟩
    intro hnonzero
    apply Alike.bind (readFileAt_alike h honward.worlds hm hm' hstates htree
      (fun r r' hr => hr.2.1) (hname hnonzero))
    rintro ⟨status₁, filename⟩ t ⟨status₁', filename'⟩ t'
      ⟨honward₁, k, k', ⟨hk, hk'⟩, hstatus₁, hstates₁, hbytes⟩
    dsimp only at hstatus₁ hstates₁ hbytes ⊢
    subst hstatus₁
    apply Alike.ite
    · intro _
      exact Alike.pure ⟨rfl, honward.trans honward₁, FoundAt.none _⟩
    intro hok₁
    rw [cString_congr (hbytes (Int.not_lt.mp hok₁))]
    apply Alike.bind (visitEntry_alike honward₁.worlds h mode hentries.inode
      (hentries.named hnonzero) _ data)
    rintro _ u visit u' ⟨rfl, honward₂, ⟨hsame, hsame'⟩, hfound⟩
    have htotal := (honward.trans honward₁).trans honward₂
    cases visit with
    | done found data => exact Alike.pure ⟨rfl, htotal, hfound⟩
    | next got data =>
      apply Alike.ite
      · intro _
        exact Alike.pure ⟨rfl, htotal, FoundAt.none _⟩
      · intro _
        refine hnext data htotal ⟨k, k', ?_, ?_, hstates₁⟩
        · rw [hsame dir (by rw [hk]; rfl), hk]
        · rw [hsame' dir (by rw [hk']; rfl), hk']

end Directories

section Steps
variable {steps : ℕ} {w w' : World} (hw : Worlds p w w')
include hw

theorem ext4fsIterateDir_alike {α : Type} {dir : NodeRef} (hdir : At p.dirs dir w)
    (mode : DirMode α) (data : α) :
    Alike (fun r s r' s' => r' = r ∧ Onward p w s s' ∧ FoundAt p r.1 s)
      (ext4fsIterateDir fs fuel steps dir mode data w)
      (ext4fsIterateDir fs' fuel steps dir mode data w') := by
  apply Alike.bind (needInode_alike h hw dir)
  rintro _ s _ s' ⟨⟨rfl, rfl⟩, honward, n, hn, hloaded⟩
  have hin := hdir.2 n hn
  refine (iterateFrom_alike h hin (tree_of_get hw hn) mode steps 0 (h.start _ hin) data
    honward.worlds hloaded).mono ?_
  rintro r t r' t' ⟨hr, hfurther, hfound⟩
  exact ⟨hr, honward.trans hfurther, hfound⟩

theorem lookupIn_alike {dir : NodeRef} (hdir : At p.dirs dir w) (name : List UInt8) :
    Alike (fun r s r' s' => r' = r ∧ Onward p w s s' ∧ FoundAt p r s)
      (lookupIn fs fuel steps dir name w) (lookupIn fs' fuel steps dir name w') := by
  apply Alike.bind (ext4fsIterateDir_alike h hw hdir (.lookup name) ())
  rintro _ s r s' ⟨rfl, honward, hfound⟩
  exact Alike.pure ⟨rfl, honward, hfound⟩

theorem ext4fsReadSymlink_alike {link : NodeRef} (hlink : At p.links link w) :
    Alike (fun r s r' s' => r' = r ∧ Onward p w s s')
      (ext4fsReadSymlink fs fuel link w) (ext4fsReadSymlink fs' fuel link w') := by
  apply Alike.bind (needInode_alike h hw link)
  rintro _ s _ s' ⟨⟨rfl, rfl⟩, honward, n₀, hn₀, n, n', hn, hn', hnodes⟩
  have hin := hlink.2 n₀ hn₀
  obtain ⟨⟨-, hinode⟩, -, hinode'⟩ := h.same _ _ _ hnodes
  dsimp only
  rw [if_neg (by simp), if_neg (by simp), bind_ok (deref_run hn), bind_ok (deref_run hn'), hinode,
    hinode']
  apply Alike.ite (fun _ => Alike.fault _)
  intro _
  apply Alike.ite (fun _ => Alike.pure ⟨rfl, honward⟩)
  intro hlong
  apply Alike.bind (readFileAt_alike h honward.worlds hn hn' hnodes (tree_of_get hw hn₀)
    (fun r r' hr => hr.2.1) (h.targets _ hin (Nat.lt_of_not_le hlong) n n' hnodes))
  rintro ⟨status, symlink⟩ t ⟨status', symlink'⟩ t' ⟨hfurther, _, _, _, hstatus, -, hbytes⟩
  dsimp only at hstatus hbytes ⊢
  subst hstatus
  apply Alike.ite
  · intro _
    exact Alike.pure ⟨rfl, honward.trans hfurther⟩
  · intro hok
    exact Alike.pure ⟨congrArg some (cString_congr (hbytes hok)), honward.trans hfurther⟩

end Steps

end Eokan.TypeReads
