import Eokan.TreeSearch

/-!
Runs of the search in a tree. They come to what the names of the path lead to.
-/
namespace Eokan.TreeRuns

open ByteMem CInt Programs Device Layout ReadFile DokanRead NodeHeap Directory NodeRuns Resolve
  PathTokens LinkedNames Trees TreeSearch
open Tree
open NameGraph hiding walk

variable {t : Tree} {fs : ExtFilesystem} {fuel steps : ℕ} {states : ℤ → Ext2fsNode → Prop}
  (hread : t.Readable fs fuel steps states) (hwf : t.WellFormed)

section Links
variable {w : World} {ino : ℤ} {oldnode : NodeRef} (hold : t.Stands fs states oldnode ino w)
  (hroot : t.Stands fs states .diropen t.root w)
include hold hroot

theorem linkStart_stands (target : List UInt8) (currroot : NodeRef) :
    Yields (linkStart target oldnode currroot) w fun start w' =>
      t.Keeps fs states (Spared oldnode currroot) w w' ∧
      t.Stands fs states start (t.graph.start (target.head? = some slash) ino) w' ∧
      (start = .diropen ∨ start = oldnode) ∧ (target.head? = some slash → start = .diropen) := by
  unfold linkStart
  by_cases hhead : target.head? = some slash
  · rw [if_pos hhead]
    apply Yields.bind (ext4fsFreeNode_keeps oldnode currroot hold.isSome)
    intro _ w' hkeeps
    refine Yields.pure ⟨hkeeps, ?_, Or.inl rfl, fun _ => rfl⟩
    simp only [hhead, decide_true]
    exact hkeeps _ _ (Or.inr (Or.inr rfl)) hroot
  · rw [if_neg hhead]
    refine Yields.pure ⟨Keeps.refl _ w, ?_, Or.inr rfl, fun h => absurd h hhead⟩
    simp only [hhead, decide_false]
    exact hold

include hread hwf

/-- A link is followed, or it is the eighth one. -/
theorem followLink_comes {depth : ℕ} {follow : List UInt8 → NodeRef → ℕ → NodeM (Option Found)}
    (hfollow : Follows t fs states depth follow) (hdir : t.type ino = .directory) {found : ℤ}
    {name : List UInt8} (hchild : t.child ino name = some found) (htype : t.type found = .symlink)
    {link : NodeRef} (hlink : t.Stands fs states link found w) (hne : oldnode ≠ link)
    (currroot : NodeRef) {k left : ℕ} (hk : k + left = 7) (hdepth : 7 ≤ depth + k) :
    Yields (followLink fs fuel follow link oldnode currroot k) w fun r w' =>
      t.Keeps fs states (fun ref => ref ≠ link ∧ Spared oldnode currroot ref) w w' ∧
      Comes t fs states left ino [name] w' (r.map fun f => (f.1, f.2.2.1, f.2.2.2)) ∧
      ∀ node start type k', r = some (node, start, type, k') →
        (w'.get start).isSome ∧ (start = .diropen ∨ start = oldnode) ∧
        (node = .diropen ∨ node ≠ start) ∧
        New t fs states (fun ref => ref ≠ link ∧ Spared oldnode currroot ref) w node := by
  unfold followLink
  dsimp only
  by_cases hlast : k + 1 = 8
  · obtain rfl : left = 0 := by omega
    rw [if_pos hlast]
    apply Yields.bind (ext4fsFreeNode_keeps link currroot hlink.isSome)
    intro _ w₁ h₁
    have hold₁ := h₁ _ _ (Or.inl hne) hold
    apply Yields.bind (ext4fsFreeNode_keeps oldnode currroot hold₁.isSome)
    intro _ w₂ h₂
    refine Yields.pure ⟨fun ref i href hstands => ?_, Comes.fails ?_, fun _ _ _ _ h => nomatch h⟩
    · exact h₂ ref i href.2 (h₁ ref i (Or.inl href.1) hstands)
    · exact resolve_one_last hchild hdir htype
  obtain ⟨l, rfl⟩ : ∃ l, left = l + 1 := ⟨left - 1, by omega⟩
  rw [if_neg hlast]
  apply Yields.bind (takeLink_target hread hwf hlink htype currroot)
  rintro _ w₁ ⟨rfl, h₁⟩
  have hold₁ := h₁ _ _ (Or.inl hne) hold
  have hroot₁ := h₁ _ _ (Or.inr (Or.inr rfl)) hroot
  dsimp only
  apply Yields.bind (linkStart_stands hold₁ hroot₁ (t.target found) currroot)
  rintro start w₂ ⟨h₂, hstart, hwhere, hslash⟩
  have hroot₂ := h₂ _ _ (Or.inr (Or.inr rfl)) hroot₁
  have hstartDir : t.type (t.graph.start ((t.target found).head? = some slash) ino) =
      .directory := by
    unfold NameGraph.start
    split
    · exact hwf.root.2
    · exact hdir
  have hkept : t.Keeps fs states (fun ref => ref ≠ link ∧ Spared oldnode currroot ref) w w₂ :=
    fun ref i href hstands => h₂ ref i href.2 (h₁ ref i (Or.inl href.1) hstands)
  apply Yields.bind (hfollow (t.target found) start _ (k + 1) l w₂ (by omega) (by omega) hstart
    hstartDir hroot₂)
  rintro r w₃ ⟨h₃, hbare, hnamed⟩
  have hkept₃ : t.Keeps fs states (fun ref => ref ≠ link ∧ Spared oldnode currroot ref) w w₃ :=
    fun ref i href hstands => h₃ ref i trivial (hkept ref i href hstands)
  have hstart₃ := h₃ _ _ trivial hstart
  by_cases hnames : names (t.target found) = []
  · obtain rfl := hbare hnames
    have hhead := head_of_names_nil (hwf.targets found hlink.mem htype).2 hnames
    obtain rfl := hslash hhead
    have hcount : k + 1 + l = 7 := by omega
    refine Yields.pure ⟨hkept₃, Comes.strays hcount (resolve_one_bare hchild htype hnames) ?_, ?_⟩
    · rw [resolve_one_link hchild hdir htype, hnames, resolve_nil]
      simp [NameGraph.start, hhead, Tree.graph]
    · intro node start type k' h
      cases h
      exact ⟨rfl, Or.inl rfl, Or.inl rfl, Or.inl rfl⟩
  · obtain ⟨res, rfl, hcomes, hnew⟩ := hnamed hnames
    rcases res with _ | ⟨node, type, k'⟩
    · apply Yields.bind (ext4fsFreeNode_keeps start currroot hstart₃.isSome)
      intro _ w₄ h₄
      have hback := Comes.link hchild hdir htype hnames hcomes
      refine Yields.pure ⟨fun ref i href hstands => ?_, ?_, fun _ _ _ _ h => nomatch h⟩
      · apply h₄ ref i _ (hkept₃ ref i href hstands)
        rcases hwhere with rfl | rfl
        · by_cases hr : ref = .diropen
          · exact Or.inr (Or.inr hr)
          · exact Or.inl hr
        · exact href.2
      · cases hback with
        | fails hnone => exact Comes.fails hnone
    · refine Yields.pure ⟨hkept₃, Comes.link hchild hdir htype hnames hcomes, ?_⟩
      intro node' start' type' k'' h
      cases h
      have hone := hnew node type k' rfl
      refine ⟨hstart₃.isSome, hwhere, ?_, ?_⟩
      · exact hone.imp_right fun hother => hother start _ trivial hstart
      · exact hone.imp_right fun hother ref i href hstands =>
          hother ref i trivial (hkept ref i href hstands)

end Links

section Walks
variable {depth : ℕ} {follow : List UInt8 → NodeRef → ℕ → NodeM (Option Found)}
  (hfollow : Follows t fs states depth follow) (currroot : NodeRef)
include hread hwf hfollow

theorem findName_comes {w : World} {ino : ℤ} {currnode : NodeRef}
    (hcurr : t.Stands fs states currnode ino w) (hroot : t.Stands fs states .diropen t.root w)
    (name : List UInt8) (hname : name ≠ []) {k left : ℕ} (hk : k + left = 7)
    (hdepth : 7 ≤ depth + k) :
    Yields (findName fs fuel steps follow currroot name currnode (t.type ino) k) w fun r w' =>
      t.Keeps fs states (Spared currnode currroot) w w' ∧ Comes t fs states left ino [name] w' r ∧
      ∀ node type k', r = some (node, type, k') →
        New t fs states (Spared currnode currroot) w node := by
  unfold findName
  by_cases hdir : t.type ino = .directory
  swap
  · rw [if_pos hdir]
    apply Yields.bind (ext4fsFreeNode_keeps currnode currroot hcurr.isSome)
    intro _ w₁ h₁
    have hfile : t.graph.withoutBare.isDir ino = false := decide_eq_false hdir
    exact Yields.pure ⟨h₁, Comes.fails (resolve_file left [] hfile), fun _ _ _ h => nomatch h⟩
  rw [if_neg (not_not_intro hdir)]
  apply Yields.bind (lookupIn_child hread hwf hcurr hdir name hname)
  rintro r w₁ ⟨h₁, hr⟩
  have hkept₁ : t.Keeps fs states (Spared currnode currroot) w w₁ :=
    fun ref i _ hstands => h₁ ref i trivial hstands
  cases hchild : t.child ino name with
  | none =>
    rw [hchild] at hr
    obtain rfl : r = none := hr
    exact Yields.pure ⟨hkept₁, Comes.fails (resolve_one_missing hchild), fun _ _ _ h => nomatch h⟩
  | some found =>
    rw [hchild] at hr
    obtain ⟨id, rfl, hfresh, hentry⟩ := hr
    have hcurr₁ := h₁ _ _ trivial hcurr
    have hroot₁ := h₁ _ _ trivial hroot
    -- the node of the entry was not there before
    have hother : ∀ ref i, t.Stands fs states ref i w → NodeRef.alloc id ≠ ref := by
      rintro ref i hstands rfl
      exact hfresh hstands.isSome
    by_cases htype : t.type found = .symlink
    · rw [htype]
      dsimp only
      apply Yields.bind (followLink_comes hread hwf hcurr₁ hroot₁ hfollow hdir hchild htype hentry
        (hother _ _ hcurr).symm currroot hk hdepth)
      rintro r w₂ ⟨h₂, hcomes, hstart⟩
      have hkept₂ : t.Keeps fs states (Spared currnode currroot) w w₂ := fun ref i href hstands =>
        h₂ ref i ⟨(hother ref i hstands).symm, href⟩ (h₁ ref i trivial hstands)
      rcases r with _ | ⟨node, start, type, k'⟩
      · exact Yields.pure ⟨hkept₂, hcomes, fun _ _ _ h => nomatch h⟩
      obtain ⟨hsome, hwhere, hnode, hnew⟩ := hstart node start type k' rfl
      apply Yields.bind (ext4fsFreeNode_keeps start currroot hsome)
      intro _ w₃ h₃
      refine Yields.pure ⟨fun ref i href hstands => ?_, hcomes.onward h₃ ?_, ?_⟩
      · apply h₃ ref i _ (hkept₂ ref i href hstands)
        rcases hwhere with rfl | rfl
        · by_cases hr : ref = .diropen
          · exact Or.inr (Or.inr hr)
          · exact Or.inl hr
        · exact href
      · intro node' type' k'' h
        cases h
        rcases hnode with rfl | hne
        · exact Or.inr (Or.inr rfl)
        · exact Or.inl hne
      · intro node' type' k'' h
        cases h
        exact hnew.imp_right fun hothers ref i href hstands =>
          hothers ref i ⟨(hother ref i hstands).symm, href⟩ (h₁ ref i trivial hstands)
    · have hplain : Yields (do
          ext4fsFreeNode currnode currroot
          pure (some (NodeRef.alloc id, t.type found, k)) : NodeM _) w₁ fun r w' =>
          t.Keeps fs states (Spared currnode currroot) w w' ∧
          Comes t fs states left ino [name] w' r ∧
          ∀ node type k', r = some (node, type, k') →
            New t fs states (Spared currnode currroot) w node := by
        apply Yields.bind (ext4fsFreeNode_keeps currnode currroot hcurr₁.isSome)
        intro _ w₂ h₂
        have hfound := h₂ _ _ (Or.inl (hother _ _ hcurr)) hentry
        refine Yields.pure ⟨fun ref i href hstands => ?_,
          Comes.arrives hk (resolve_one_file hchild hdir htype) hfound, fun node type k' h => ?_⟩
        · exact h₂ ref i href (h₁ ref i trivial hstands)
        · cases h
          exact Or.inr fun ref i _ hstands => hother ref i hstands
      cases htypes : t.type found with
      | symlink => exact absurd htypes htype
      | unknown => rwa [htypes] at hplain
      | reg => rwa [htypes] at hplain
      | directory => rwa [htypes] at hplain

omit hread hwf hfollow in
/-- Behind a link without names the search does not go on. -/
theorem walk_strays (path : List (List UInt8)) (w : World) (k : ℕ) :
    walk fs fuel steps follow currroot path .diropen .symlink k w =
      .ok (if path = [] then some (.diropen, some .symlink, k) else none, w) := by
  cases path with
  | nil => rfl
  | cons name path =>
    unfold walk
    rw [if_pos (by decide)]
    rfl

theorem walk_comes (path : List (List UInt8)) (hpath : ∀ name ∈ path, name ≠ []) {w : World}
    {ino : ℤ} {currnode : NodeRef} (hcurr : t.Stands fs states currnode ino w)
    (hroot : t.Stands fs states .diropen t.root w) {k left : ℕ} (hk : k + left = 7)
    (hdepth : 7 ≤ depth + k) :
    Yields (walk fs fuel steps follow currroot path currnode (t.type ino) k) w fun r w' =>
      t.Keeps fs states (Spared currnode currroot) w w' ∧
      ∃ found, r = found.map (fun f => (f.1, some f.2.1, f.2.2)) ∧
        Comes t fs states left ino path w' found ∧
        ∀ node type k', found = some (node, type, k') →
          (path = [] ∧ node = currnode) ∨ New t fs states (Spared currnode currroot) w node := by
  induction path generalizing currnode ino k left w with
  | nil =>
    obtain ⟨n, hn, -⟩ := id hcurr
    refine ⟨_, w, ?_, Keeps.refl _ w, some (currnode, t.type ino, k), rfl,
      Comes.arrives hk (resolve_nil _ left ino) hcurr, ?_⟩
    · unfold walk
      rw [bind_ok (deref_run hn)]
      rfl
    · intro node type k' h
      cases h
      exact Or.inl ⟨rfl, rfl⟩
  | cons name path ih =>
    rw [walk_cons]
    apply Yields.bind (findName_comes hread hwf hfollow currroot hcurr hroot name
      (hpath name List.mem_cons_self) hk hdepth)
    rintro r w₁ ⟨h₁, hcomes, hnew⟩
    cases hcomes with
    | fails hnone =>
      exact Yields.pure ⟨h₁, none, rfl, Comes.fails_cons hnone, fun _ _ _ h => by cases h⟩
    | @arrives node found k' rest hk' hsome hnode =>
      have hle : rest ≤ left := (leads_of_resolve hsome).le
      have hfresh := hnew _ _ _ rfl
      have hroot₁ := h₁ _ _ (Or.inr (Or.inr rfl)) hroot
      refine (ih (fun n hn => hpath n (List.mem_cons_of_mem name hn)) hnode hroot₁ hk'
        (by omega)).mono ?_
      rintro r w₂ ⟨h₂, res, hr, hrest, hres⟩
      have hspared : ∀ ref i, Spared currnode currroot ref → t.Stands fs states ref i w →
          Spared node currroot ref := by
        intro ref i href hstands
        rcases hfresh with rfl | hother
        · by_cases hr : ref = .diropen
          · exact Or.inr (Or.inr hr)
          · exact Or.inl hr
        · exact Or.inl (hother ref i href hstands).symm
      refine ⟨fun ref i href hstands => ?_, res, hr, hrest.cons hsome, fun node' type k'' h => ?_⟩
      · exact h₂ ref i (hspared ref i href hstands) (h₁ ref i href hstands)
      · right
        rcases hres node' type k'' h with ⟨-, rfl⟩ | hnew'
        · exact hfresh
        · exact hnew'.imp_right fun hother ref i href hstands =>
            hother ref i (hspared ref i href hstands) (h₁ ref i href hstands)
    | @strays k' rest hk' hnone hstray =>
      dsimp only
      refine ⟨_, w₁, walk_strays currroot path w₁ k', h₁, ?_⟩
      cases path with
      | nil =>
        refine ⟨some (.diropen, .symlink, k'), rfl, Comes.strays hk' hnone hstray, ?_⟩
        intro node type k'' h
        cases h
        exact Or.inr (Or.inl rfl)
      | cons name' path =>
        exact ⟨none, rfl, Comes.fails_cons hnone, fun _ _ _ h => by cases h⟩

end Walks

include hread hwf in
/-- The searches that follow the targets of links do so themselves. -/
theorem findFile1_follows (depth : ℕ) :
    Follows t fs states depth (ext4fsFindFile1 fs fuel steps depth) := by
  induction depth with
  | zero => exact fun _ _ _ k left _ hdepth hk => by omega
  | succ depth ih =>
    intro path start ino k left w hdepth hk hstart hdir hroot
    rw [ext4fsFindFile1]
    cases hnames : names path with
    | nil =>
      exact Yields.pure ⟨Keeps.refl _ w, fun _ => rfl, fun h => absurd rfl h⟩
    | cons name next =>
      have hpath : ∀ n ∈ name :: next, n ≠ [] := hnames ▸ names_ne path
      have hwalk := walk_comes hread hwf ih start (name :: next) hpath hstart hroot hk (by omega)
      rw [hdir] at hwalk
      have hspared : ∀ ref, Spared start start ref := by
        intro ref
        by_cases hr : ref = start
        · exact Or.inr (Or.inl hr)
        · exact Or.inl hr
      refine hwalk.mono ?_
      rintro r w' ⟨hkeeps, found, hr, hcomes, hnew⟩
      refine ⟨fun ref i _ => hkeeps ref i (hspared ref),
        fun h => absurd h (List.cons_ne_nil name next), fun _ => ?_⟩
      refine ⟨found, hr, hcomes, fun node type k' h => ?_⟩
      rcases hnew node type k' h with ⟨hnil, -⟩ | hnew'
      · cases hnil
      · exact hnew'.imp_right fun hother ref i _ => hother ref i (hspared ref)

end Eokan.TreeRuns
