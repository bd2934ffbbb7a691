import Eokan.DirectoryNodes
import Eokan.Mount
import Eokan.Resolve

/-!
Who frees a node. A search hands on at most the node that it found, and frees
what it allocated on the way, but for two slips: a directory in which the next
component is not found, and a link that leads back to the directory it is in.
-/
namespace Eokan.NodeLedger

open ByteMem CInt Programs Device Layout Inodes ReadFile DokanRead NodeHeap Directory
open DirectoryNodes Mount Resolve

/-- The node was allocated by the search that started at currroot. -/
def Owned (currroot node : NodeRef) : Prop := node ≠ .diropen ∧ node ≠ currroot

section Conditions
variable (fs : ExtFilesystem) (fuel steps : ℕ)

/-- The search for the target of a link is tidy. -/
def TidyLink (tidy : List UInt8 → NodeRef → ℕ → World → Prop) (link oldnode currroot : NodeRef)
    (symlinknest : ℕ) (w : World) : Prop :=
  symlinknest + 1 ≠ 8 →
    OnReturn (takeLink fs fuel link currroot) w fun symlink w₁ =>
      ∀ target, symlink = some target →
        OnReturn (linkStart target oldnode currroot) w₁ fun start w₂ =>
          tidy target start (symlinknest + 1) w₂

/-- Every component is found, unless it is looked for in the directory that the
search started from, and no link in another directory leads back to it. -/
def TidyWalk (follow : List UInt8 → NodeRef → ℕ → NodeM (Option Found))
    (tidy : List UInt8 → NodeRef → ℕ → World → Prop) (currroot : NodeRef) :
    List (List UInt8) → NodeRef → FileType → ℕ → World → Prop
  | [], _, _, _, _ => True
  | name :: next, currnode, type, symlinknest, w =>
    type = .directory →
      OnReturn (lookupIn fs fuel steps currnode name) w fun found w₁ =>
        match found with
        | none => ¬ Owned currroot currnode
        | some (entry, .symlink) =>
          TidyLink fs fuel tidy (.alloc entry) currnode currroot symlinknest w₁ ∧
          OnReturn (followLink fs fuel follow (.alloc entry) currnode currroot symlinknest) w₁
            fun res w₂ => ∀ node start type nest, res = some (node, start, type, nest) →
              (node = start → ¬ Owned currroot start) ∧
              OnReturn (ext4fsFreeNode start currroot) w₂ fun _ w₃ =>
                TidyWalk follow tidy currroot next node type nest w₃
        | some (entry, type) =>
          OnReturn (ext4fsFreeNode currnode currroot) w₁ fun _ w₂ =>
            TidyWalk follow tidy currroot next (.alloc entry) type symlinknest w₂

def TidyFind : ℕ → List UInt8 → NodeRef → ℕ → World → Prop
  | 0, _, _, _, _ => True
  | depth + 1, path, currroot, symlinknest, w =>
    TidyWalk fs fuel steps (ext4fsFindFile1 fs fuel steps depth) (TidyFind depth) currroot
      (names path) currroot .directory symlinknest w

end Conditions

/-- A run is tidy or not. It uses a freed node only if it is not, and what it
leaves is good or bad accordingly. -/
def Judged {α : Type} (tidy : Prop) (good bad : α → World → Prop) :
    Except Fault (α × World) → Prop
  | .error e => FreedUse e ↔ ¬ tidy
  | .ok (a, w) => (tidy ∧ good a w) ∨ (¬ tidy ∧ bad a w)

section Judgements
variable {α β : Type} {tidy : Prop} {good bad : α → World → Prop} {w : World}

theorem Judged.of_run {run : Except Fault (α × World)} {a : α} {w' : World}
    (h : run = .ok (a, w')) (htidy : tidy) (hgood : good a w') : Judged tidy good bad run := by
  rw [h]
  exact Or.inl ⟨htidy, hgood⟩

theorem Judged.congr {tidy' : Prop} {run : Except Fault (α × World)} (h : tidy ↔ tidy')
    (hrun : Judged tidy good bad run) : Judged tidy' good bad run := propext h ▸ hrun

theorem Judged.of_yields {x : NodeM α} (h : Yields x w good) (htidy : tidy) :
    Judged tidy good bad (x w) := by
  obtain ⟨a, w', hrun, ha⟩ := h
  exact Judged.of_run hrun htidy ha

theorem Judged.of_safely {x : NodeM α} (h : Safely FreedUse x w good) (htidy : tidy) :
    Judged tidy good bad (x w) := by
  cases hrun : x w with
  | error e => exact iff_of_false (h.1 e hrun) (not_not_intro htidy)
  | ok p => exact Or.inl ⟨htidy, h.2 p.1 p.2 hrun⟩

/-- A run that goes on. What is bad stays bad. -/
theorem Judged.seq {x : NodeM α} {f : α → NodeM β} {good' bad' : β → World → Prop}
    {next : α → World → Prop} (hx : Judged tidy good bad (x w))
    (hgood : ∀ a w', good a w' → Judged (next a w') good' bad' (f a w'))
    (hbad : ∀ a w', bad a w' → Yields (f a) w' bad') :
    Judged (tidy ∧ OnReturn x w next) good' bad' ((x >>= f) w) := by
  cases hrun : x w with
  | error e =>
    rw [bind_error hrun]
    rw [hrun] at hx
    have hnone : OnReturn x w next := by
      intro a w' h
      rw [hrun] at h
      cases h
    change FreedUse e ↔ ¬ (tidy ∧ OnReturn x w next)
    rw [and_iff_left hnone]
    exact hx
  | ok p =>
    obtain ⟨a, w'⟩ := p
    rw [bind_ok hrun]
    rw [hrun] at hx
    rcases hx with ⟨htidy, ha⟩ | ⟨htidy, ha⟩
    · refine (hgood a w' ha).congr ⟨fun hnext => ⟨htidy, fun b w'' h => ?_⟩, fun h => ?_⟩
      · rw [hrun] at h
        cases h
        exact hnext
      · exact h.2 a w' hrun
    · obtain ⟨b, w'', hrest, hb⟩ := hbad a w' ha
      rw [hrest]
      exact Or.inr ⟨fun h => htidy h.1, hb⟩

/-- A run that goes on with a part that is always tidy. -/
theorem Judged.then {x : NodeM α} {f : α → NodeM β} {good' bad' : β → World → Prop}
    (hx : Judged tidy good bad (x w))
    (hgood : ∀ a w', good a w' → Safely FreedUse (f a) w' good')
    (hbad : ∀ a w', bad a w' → Yields (f a) w' bad') : Judged tidy good' bad' ((x >>= f) w) := by
  have hseq : Judged (tidy ∧ OnReturn x w fun _ _ => True) good' bad' ((x >>= f) w) :=
    hx.seq (fun a w' ha => Judged.of_safely (hgood a w' ha) trivial) hbad
  exact hseq.congr (and_iff_left fun _ _ _ => trivial)

/-- A step that uses no freed node. -/
theorem Judged.bind {x : NodeM α} {f : α → NodeM β} {good' bad' : β → World → Prop}
    {mid next : α → World → Prop} (hx : Safely FreedUse x w mid)
    (hf : ∀ a w', mid a w' → Judged (next a w') good' bad' (f a w')) :
    Judged (OnReturn x w next) good' bad' ((x >>= f) w) := by
  have hstep : Judged True mid (fun _ _ => False) (x w) := Judged.of_safely hx trivial
  exact (hstep.seq hf fun _ _ h => h.elim).congr (and_iff_right trivial)

theorem Judged.safely_iff {x : NodeM α} (hx : Judged tidy good bad (x w))
    (hdiff : ∀ a w', bad a w' → ¬ good a w') : Safely FreedUse x w good ↔ tidy := by
  unfold Safely OnReturn
  cases hrun : x w with
  | error e =>
    rw [hrun] at hx
    constructor
    · intro h
      by_contra htidy
      exact h.1 e rfl (hx.mpr htidy)
    · intro htidy
      refine ⟨fun e' h => ?_, fun a w' h => ?_⟩
      · cases h
        exact fun hfreed => hx.mp hfreed htidy
      · cases h
  | ok p =>
    rw [hrun] at hx
    obtain ⟨a, w'⟩ := p
    rcases hx with ⟨htidy, ha⟩ | ⟨htidy, ha⟩
    · refine iff_of_true ⟨fun e h => ?_, fun b w'' h => ?_⟩ htidy
      · cases h
      · cases h
        exact ha
    · exact iff_of_false (fun h => hdiff a w' ha (h.2 a w' rfl)) htidy

end Judgements

/-- The node that a search has to free, if any. -/
def extra (currroot node : NodeRef) : Set ℕ := {id | node = .alloc id ∧ node ≠ currroot}

theorem extra_diropen (currroot : NodeRef) : extra currroot .diropen = ∅ := by
  ext id
  exact iff_of_false (fun h => by cases h.1) (Set.notMem_empty id)

theorem extra_self (node : NodeRef) : extra node node = ∅ := by
  ext id
  exact iff_of_false (fun h => h.2 rfl) (Set.notMem_empty id)

theorem extra_alloc (currroot : NodeRef) (id : ℕ) (h : .alloc id ≠ currroot) :
    extra currroot (.alloc id) = {id} := by
  ext j
  constructor
  · intro ⟨heq, _⟩
    cases heq
    rfl
  · intro hj
    rw [Set.mem_singleton_iff.mp hj]
    exact ⟨rfl, h⟩

theorem extra_of_not_owned (currroot node : NodeRef) (h : ¬ Owned currroot node) :
    extra currroot node = ∅ := by
  by_cases hroot : node = .diropen
  · rw [hroot, extra_diropen]
  · have heq : node = currroot := by
      by_contra hne
      exact h ⟨hroot, hne⟩
    rw [heq, extra_self]

theorem owned_alloc {currroot node : NodeRef} (h : Owned currroot node) :
    ∃ id, node = .alloc id ∧ extra currroot node = {id} := by
  cases node with
  | diropen => exact absurd rfl h.1
  | alloc id => exact ⟨id, rfl, extra_alloc currroot id h.2⟩

/-- A search that started in currroot with these nodes has come to a node. -/
structure At (base : Set ℕ) (currroot node : NodeRef) (w : World) : Prop where
  live : w.live = base ∪ extra currroot node
  new : Disjoint base (extra currroot node)
  root : ∀ id, currroot = .alloc id → id ∈ base

section Steps
variable {base : Set ℕ} {currroot node : NodeRef} {w : World}

theorem At.isSome (h : At base currroot node w) : (w.get node).isSome := by
  cases node with
  | diropen => rfl
  | alloc id =>
    rw [← mem_live, h.live]
    by_cases heq : .alloc id = currroot
    · exact Or.inl (h.root id heq.symm)
    · exact Or.inr ⟨rfl, heq⟩

theorem ext4fsFreeNode_alloc (id : ℕ) : ext4fsFreeNode (.alloc id) currroot =
    if .alloc id ≠ currroot then free id else pure () := rfl

theorem ext4fsFreeNode_yields (hlive : extra currroot node ⊆ w.live) :
    Yields (ext4fsFreeNode node currroot) w fun _ w' => w'.live = w.live \ extra currroot node := by
  cases node with
  | diropen =>
    apply Yields.pure
    rw [extra_diropen, Set.sdiff_empty]
  | alloc id =>
    rw [ext4fsFreeNode_alloc]
    by_cases heq : .alloc id = currroot
    · rw [if_neg (not_not_intro heq)]
      apply Yields.pure
      rw [heq, extra_self, Set.sdiff_empty]
    · rw [if_pos heq]
      have hid : id ∈ w.live := hlive ⟨rfl, heq⟩
      refine ⟨(), w.remove id, if_pos hid, ?_⟩
      dsimp only
      rw [live_remove, extra_alloc currroot id heq]

theorem deref_freed {id : ℕ} (hid : id ∉ w.live) :
    deref (.alloc id) w = .error .useAfterFree := by
  have hnone : w.get (.alloc id) = none := Option.not_isSome_iff_eq_none.mp hid
  unfold deref
  rw [hnone]

theorem ext4fsFreeNode_freed {id : ℕ} (hid : id ∉ w.live) (hne : .alloc id ≠ currroot) :
    ext4fsFreeNode (.alloc id) currroot w = .error .useAfterFree := by
  rw [ext4fsFreeNode_alloc, if_pos hne]
  exact if_neg hid

/-- Freeing the node that a search has come to brings the first nodes back. -/
theorem At.free (h : At base currroot node w) :
    Yields (ext4fsFreeNode node currroot) w fun _ w' => w'.live = base := by
  refine (ext4fsFreeNode_yields ?_).mono fun _ w' hw' => ?_
  · rw [h.live]
    exact Set.subset_union_right
  · rw [hw', h.live, Set.union_sdiff_right, h.new.sdiff_eq_left]

end Steps

def GoodFind (base : Set ℕ) (currroot : NodeRef) (r : Option Found) (w : World) : Prop :=
  match r with
  | none => w.live = base
  | some (node, _, _) => At base currroot node w

/-- A node is left over. -/
def BadFind (base : Set ℕ) {α : Type} (r : Option α) (w : World) : Prop :=
  r = none ∧ base ⊂ w.live

def GoodLink (base : Set ℕ) (currroot : NodeRef) (r : Option (NodeRef × NodeRef × FileType × ℕ))
    (w : World) : Prop :=
  match r with
  | none => w.live = base
  | some (node, start, _, _) =>
    Disjoint base (extra currroot start) ∧ At (base ∪ extra currroot start) start node w

section Links
variable (fs : ExtFilesystem) (fuel : ℕ) {base : Set ℕ} {currroot : NodeRef} {w : World}

theorem ext4fsReadSymlink_safely (ref : NodeRef) (href : (w.get ref).isSome) :
    Safely FreedUse (ext4fsReadSymlink fs fuel ref) w fun _ w' => Kept w w' := by
  apply Safely.bind (needInode_safely fs w ref href)
  intro read w₁ hkept
  split
  · exact Safely.pure hkept
  have href₁ := isSome_get_of_live hkept.live ref href
  apply Safely.bind (deref_safely w₁ ref href₁)
  rintro diro w₂ rfl
  dsimp only
  split
  · exact Safely.fault fun h => by cases h
  split
  · exact Safely.pure hkept
  apply Safely.bind (readFileAt_safely fs w₂ ref href₁ fuel _ _ _)
  rintro ⟨status, symlink⟩ w₃ hkept'
  dsimp only
  split
  · exact Safely.pure (hkept.trans hkept')
  · exact Safely.pure (hkept.trans hkept')

theorem takeLink_safely (entry : ℕ) (hentry : entry ∈ w.live) (hne : .alloc entry ≠ currroot) :
    Safely FreedUse (takeLink fs fuel (.alloc entry) currroot) w
      fun _ w' => w'.live = w.live \ {entry} := by
  apply Safely.bind (ext4fsReadSymlink_safely fs fuel (.alloc entry) hentry)
  intro symlink w₁ hkept
  have hextra := extra_alloc currroot entry hne
  have hfree : Yields (ext4fsFreeNode (.alloc entry) currroot) w₁
      fun _ w' => w'.live = w₁.live \ extra currroot (.alloc entry) := by
    apply ext4fsFreeNode_yields
    rw [hextra, hkept.live]
    exact Set.singleton_subset_iff.mpr hentry
  apply Safely.bind (Safely.of_yields hfree)
  intro _ w₂ hw₂
  apply Safely.pure
  rw [hw₂, hextra, hkept.live]

theorem linkStart_yields (target : List UInt8) (oldnode : NodeRef)
    (hat : At base currroot oldnode w) :
    Yields (linkStart target oldnode currroot) w fun start w' => At base currroot start w' := by
  unfold linkStart
  split
  · refine Yields.bind hat.free fun _ w' hw' => Yields.pure ⟨?_, ?_, hat.root⟩
    · rw [hw', extra_diropen, Set.union_empty]
    · rw [extra_diropen]
      exact Set.disjoint_empty base
  · exact Yields.pure hat

theorem ssubset_sdiff {base extra live : Set ℕ} (h : base ∪ extra ⊂ live)
    (hdis : Disjoint base extra) : base ⊂ live \ extra := by
  obtain ⟨x, hx, hnot⟩ := Set.exists_of_ssubset h
  refine Set.ssubset_iff_of_subset ?_ |>.mpr ⟨x, ?_, ?_⟩
  · intro y hy
    exact ⟨h.1 (Or.inl hy), fun hextra => Set.disjoint_left.mp hdis hy hextra⟩
  · exact ⟨hx, fun hextra => hnot (Or.inr hextra)⟩
  · exact fun hbase => hnot (Or.inl hbase)

/-- What is asked of a search for the target of a link. -/
def FollowJudged (follow : List UInt8 → NodeRef → ℕ → NodeM (Option Found))
    (tidy : List UInt8 → NodeRef → ℕ → World → Prop) : Prop :=
  ∀ path start symlinknest w, (∀ id, start = .alloc id → id ∈ w.live) →
    Judged (tidy path start symlinknest w) (GoodFind w.live start) (BadFind w.live)
      (follow path start symlinknest w)

variable {follow : List UInt8 → NodeRef → ℕ → NodeM (Option Found)}
  {tidy : List UInt8 → NodeRef → ℕ → World → Prop} (hfollow : FollowJudged follow tidy)
include hfollow

/-- Following the target: the directory it starts in is still to be freed. -/
theorem follow_judged (target : List UInt8) (start : NodeRef) (symlinknest : ℕ)
    (hat : At base currroot start w) :
    Judged (tidy target start symlinknest w) (GoodLink base currroot) (BadFind base)
      ((do
        match ← follow target start symlinknest with
        | none => do
          ext4fsFreeNode start currroot
          pure none
        | some (currnode, type, symlinknest) =>
          pure (some (currnode, start, type.getD .symlink, symlinknest)) :
        NodeM (Option (NodeRef × NodeRef × FileType × ℕ))) w) := by
  have hstart : ∀ id, start = .alloc id → id ∈ w.live := by
    rintro id rfl
    exact hat.isSome
  refine (hfollow target start symlinknest w hstart).then (fun r w' hr => ?_) fun r w' hr => ?_
  · cases r with
    | none =>
      have hat' : At base currroot start w' := ⟨Eq.trans hr hat.live, hat.new, hat.root⟩
      exact Safely.of_yields (hat'.free.bind fun _ w'' hw'' => Yields.pure hw'')
    | some found =>
      refine Safely.pure ⟨hat.new, ?_⟩
      rw [← hat.live]
      exact hr
  · obtain ⟨rfl, hleft⟩ := hr
    rw [hat.live] at hleft
    have hsub : extra currroot start ⊆ w'.live := fun x hx => hleft.1 (Or.inr hx)
    refine (ext4fsFreeNode_yields hsub).bind fun _ w'' hw'' => Yields.pure ⟨rfl, ?_⟩
    rw [hw'']
    exact ssubset_sdiff hleft hat.new

theorem followLink_judged (entry : ℕ) (oldnode : NodeRef) (symlinknest : ℕ)
    (hlive : w.live = insert entry (base ∪ extra currroot oldnode))
    (hnew : entry ∉ base ∪ extra currroot oldnode) (hdis : Disjoint base (extra currroot oldnode))
    (hroot : ∀ id, currroot = .alloc id → id ∈ base) :
    Judged (TidyLink fs fuel tidy (.alloc entry) oldnode currroot symlinknest w)
      (GoodLink base currroot) (BadFind base)
      (followLink fs fuel follow (.alloc entry) oldnode currroot symlinknest w) := by
  have hne : .alloc entry ≠ currroot := fun heq => hnew (Or.inl (hroot entry heq.symm))
  have hentry : entry ∈ w.live := hlive ▸ Set.mem_insert _ _
  -- without the node of the link the search is where it was
  have hat : ∀ w' : World, w'.live = w.live \ {entry} → At base currroot oldnode w' := by
    intro w' h
    refine ⟨?_, hdis, hroot⟩
    rw [h, hlive, Set.insert_sdiff_self_of_notMem hnew]
  unfold followLink TidyLink
  by_cases hlast : symlinknest + 1 = 8
  · rw [if_pos hlast]
    have hfree : Yields (ext4fsFreeNode (.alloc entry) currroot) w
        fun _ w' => w'.live = w.live \ extra currroot (.alloc entry) := by
      apply ext4fsFreeNode_yields
      rw [extra_alloc currroot entry hne]
      exact Set.singleton_subset_iff.mpr hentry
    refine Judged.of_yields (hfree.bind fun _ w₁ hw₁ => ?_) fun h => absurd hlast h
    rw [extra_alloc currroot entry hne] at hw₁
    exact (hat w₁ hw₁).free.bind fun _ w₂ hw₂ => Yields.pure hw₂
  · rw [if_neg hlast]
    refine (Judged.bind (takeLink_safely fs fuel entry hentry hne) fun symlink w₁ hw₁ => ?_).congr
      (forall_prop_of_true hlast).symm
    cases symlink with
    | none =>
      refine Judged.of_yields ((hat w₁ hw₁).free.bind fun _ w₂ hw₂ => Yields.pure hw₂) ?_
      exact fun _ h => nomatch h
    | some target =>
      refine (Judged.bind (Safely.of_yields (linkStart_yields target oldnode (hat w₁ hw₁)))
        fun start w₂ hw₂ => follow_judged hfollow target start _ hw₂).congr ?_
      constructor
      · intro h target' heq
        cases heq
        exact h
      · intro h
        exact h target rfl

end Links

section Walks
variable (fs : ExtFilesystem) (fuel steps : ℕ) {base : Set ℕ} {currroot : NodeRef}

theorem lookupIn_safely (w : World) (dir : NodeRef) (hdir : (w.get dir).isSome)
    (name : List UInt8) :
    Safely FreedUse (lookupIn fs fuel steps dir name) w fun r w' =>
      IterationLeaves (.lookup name) w (r, ()) w' := by
  apply Safely.bind (ext4fsIterateDir_safely fs w fuel steps dir _ () hdir)
  intro r w' hr
  exact Safely.pure hr

theorem lookupIn_freed (w : World) (id : ℕ) (hid : id ∉ w.live) (name : List UInt8) :
    lookupIn fs fuel steps (.alloc id) name w = .error .useAfterFree := by
  exact bind_error (bind_error (bind_error (deref_freed hid)))

/-- No search goes on from a freed node, and none ends there. -/
theorem walk_freed (follow : List UInt8 → NodeRef → ℕ → NodeM (Option Found)) (w : World) (id : ℕ)
    (hid : id ∉ w.live) (hne : .alloc id ≠ currroot) (next : List (List UInt8)) (type : FileType)
    (symlinknest : ℕ) :
    walk fs fuel steps follow currroot next (.alloc id) type symlinknest w =
      .error .useAfterFree := by
  cases next with
  | nil => exact bind_error (deref_freed hid)
  | cons name next =>
    unfold walk
    split
    · exact bind_error (ext4fsFreeNode_freed hid hne)
    · exact bind_error (lookupIn_freed fs fuel steps w id hid name)

/-- With the directory of a link freed, the search has come to the node behind it. -/
theorem At.of_link {start node : NodeRef} {w w' : World}
    (hdis : Disjoint base (extra currroot start))
    (hroot : ∀ id, currroot = .alloc id → id ∈ base)
    (hat : At (base ∪ extra currroot start) start node w)
    (hback : node = start → ¬ Owned currroot start)
    (hw' : w'.live = w.live \ extra currroot start) : At base currroot node w' := by
  have hsame : extra start node = extra currroot node := by
    by_cases heq : node = start
    · rw [heq, extra_self, extra_of_not_owned currroot start (hback heq)]
    cases node with
    | diropen => rw [extra_diropen, extra_diropen]
    | alloc id =>
      have hnew := hat.new
      rw [extra_alloc start id heq] at hnew ⊢
      have hid : id ∉ base := fun h =>
        Set.disjoint_right.mp hnew (Set.mem_singleton id) (Or.inl h)
      exact (extra_alloc currroot id fun h => hid (hroot id h.symm)).symm
  have hnew := hat.new
  rw [hsame] at hnew
  obtain ⟨hbase, hstart⟩ := Set.disjoint_union_left.mp hnew
  refine ⟨?_, hbase, hroot⟩
  rw [hw', hat.live, hsame, Set.union_sdiff_distrib, Set.union_sdiff_right, hdis.sdiff_eq_left,
    hstart.symm.sdiff_eq_left]

variable {follow : List UInt8 → NodeRef → ℕ → NodeM (Option Found)}
  {tidy : List UInt8 → NodeRef → ℕ → World → Prop} (hfollow : FollowJudged follow tidy)
include hfollow

/-- The loop over the components. The induction is on the components left, and
the search has come to one node in every round. -/
theorem walk_judged (next : List (List UInt8)) (currnode : NodeRef) (type : FileType)
    (symlinknest : ℕ) (w : World) (hat : At base currroot currnode w) :
    Judged (TidyWalk fs fuel steps follow tidy currroot next currnode type symlinknest w)
      (GoodFind base currroot) (BadFind base)
      (walk fs fuel steps follow currroot next currnode type symlinknest w) := by
  induction next generalizing currnode type symlinknest w with
  | nil =>
    obtain ⟨node, hnode⟩ := Option.isSome_iff_exists.mp hat.isSome
    have hderef : deref currnode w = .ok (node, w) := by
      unfold deref
      rw [hnode]
    exact Judged.of_run (bind_ok hderef) trivial hat
  | cons name next ih =>
    unfold walk TidyWalk
    by_cases hdir : type = .directory
    swap
    · rw [if_pos hdir]
      exact Judged.of_yields (hat.free.bind fun _ w' hw' => Yields.pure hw') fun h => absurd h hdir
    rw [if_neg (not_not_intro hdir)]
    refine (Judged.bind (lookupIn_safely fs fuel steps w currnode hat.isSome name)
      fun found w₁ hw₁ => ?_).congr (forall_prop_of_true hdir).symm
    rcases found with _ | ⟨entry, type'⟩
    · -- the directory that was searched is left over, if this search allocated it
      have hlive : w₁.live = base ∪ extra currroot currnode := Eq.trans hw₁ hat.live
      by_cases howned : Owned currroot currnode
      · obtain ⟨id, -, hid⟩ := owned_alloc howned
        have hnew := hat.new
        rw [hid] at hlive hnew
        refine Or.inr ⟨not_not_intro howned, rfl, ?_⟩
        rw [hlive, Set.union_singleton]
        exact Set.ssubset_insert (Set.disjoint_singleton_right.mp hnew)
      · rw [extra_of_not_owned currroot currnode howned, Set.union_empty] at hlive
        exact Or.inl ⟨howned, hlive⟩
    obtain ⟨-, hentry, hlive⟩ := hw₁
    rw [hat.live] at hentry hlive
    by_cases hlink : type' = .symlink
    · subst hlink
      refine (followLink_judged fs fuel hfollow entry currnode symlinknest hlive hentry hat.new
        hat.root).seq (fun res w₂ hres => ?_) fun res w₂ hres => ?_
      · rcases res with _ | ⟨node, start, type, nest⟩
        · exact Or.inl ⟨fun _ _ _ _ h => (nomatch h), hres⟩
        obtain ⟨hdis, hat'⟩ := hres
        have hsub : extra currroot start ⊆ w₂.live := by
          rw [hat'.live]
          exact fun x hx => Or.inl (Or.inr hx)
        have hfree := ext4fsFreeNode_yields hsub
        by_cases hback : node = start → ¬ Owned currroot start
        · refine (Judged.bind (Safely.of_yields hfree) fun _ w₃ hw₃ => ih node type nest w₃
            (At.of_link hdis hat.root hat' hback hw₃)).congr ⟨fun h => ?_, fun h => ?_⟩
          · intro node' start' type' nest' heq
            cases heq
            exact ⟨hback, h⟩
          · exact (h node start type nest rfl).2
        · -- the link leads back to its directory, which is freed and then used
          obtain ⟨rfl, howned⟩ := Classical.not_imp.mp hback
          obtain ⟨id, rfl, hid⟩ := owned_alloc (Classical.not_not.mp howned)
          obtain ⟨_, w₃, hrun, hw₃⟩ := hfree
          have hgone : id ∉ w₃.live := by
            rw [hw₃, hid]
            exact fun h => h.2 rfl
          dsimp only
          rw [bind_ok hrun, walk_freed fs fuel steps follow w₃ id hgone
            (Classical.not_not.mp howned).2]
          exact iff_of_true rfl fun h => hback (h _ _ _ _ rfl).1
      · obtain ⟨rfl, hleft⟩ := hres
        exact Yields.pure ⟨rfl, hleft⟩
    · have hrest : Judged (OnReturn (ext4fsFreeNode currnode currroot) w₁ fun _ w₂ =>
          TidyWalk fs fuel steps follow tidy currroot next (.alloc entry) type' symlinknest w₂)
          (GoodFind base currroot) (BadFind base) ((do
            ext4fsFreeNode currnode currroot
            walk fs fuel steps follow currroot next (.alloc entry) type' symlinknest :
            NodeM (Option Found)) w₁) := by
        have hsub : extra currroot currnode ⊆ w₁.live := by
          rw [hlive]
          exact fun x hx => Or.inr (Or.inr hx)
        have hne : .alloc entry ≠ currroot := fun h => hentry (Or.inl (hat.root entry h.symm))
        have hextra := extra_alloc currroot entry hne
        refine Judged.bind (Safely.of_yields (ext4fsFreeNode_yields hsub)) fun _ w₂ hw₂ =>
          ih (.alloc entry) type' symlinknest w₂ ⟨?_, ?_, hat.root⟩
        · rw [hw₂, hlive, Set.insert_sdiff_of_notMem _ fun h => hentry (Or.inr h),
            Set.union_sdiff_right, hat.new.sdiff_eq_left, hextra, Set.union_singleton]
        · rw [hextra]
          exact Set.disjoint_singleton_right.mpr fun h => hentry (Or.inl h)
      cases type' with
      | symlink => exact absurd rfl hlink
      | unknown => exact hrest
      | reg => exact hrest
      | directory => exact hrest

end Walks

/-- A search comes to its start before it takes a step. -/
theorem at_start (start : NodeRef) (w : World) (hstart : ∀ id, start = .alloc id → id ∈ w.live) :
    At w.live start start w := by
  refine ⟨?_, ?_, hstart⟩
  · rw [extra_self, Set.union_empty]
  · rw [extra_self]
    exact Set.disjoint_empty _

section Calls
variable (fs : ExtFilesystem) (fuel steps : ℕ)

/-- Searches at every depth, and for all targets of links. -/
theorem findFile1_judged (depth : ℕ) :
    FollowJudged (ext4fsFindFile1 fs fuel steps depth) (TidyFind fs fuel steps depth) := by
  induction depth with
  | zero =>
    intro path start symlinknest w _
    exact iff_of_false (fun h => by cases h) (not_not_intro trivial)
  | succ depth ih =>
    intro path start symlinknest w hstart
    have hat := at_start start w hstart
    unfold ext4fsFindFile1 TidyFind
    cases names path with
    | nil => exact Or.inl ⟨trivial, hat⟩
    | cons name next =>
      exact walk_judged fs fuel steps ih (name :: next) start .directory symlinknest w hat

/-- The node behind a handle, unless that is the one of the root. -/
def heldBy : Option NodeRef → Set ℕ
  | some (.alloc id) => {id}
  | _ => ∅

theorem heldBy_some (node : NodeRef) : heldBy (some node) = extra .diropen node := by
  cases node with
  | diropen => exact (extra_diropen _).symm
  | alloc id => exact (extra_alloc .diropen id fun h => nomatch h).symm

/-- A call uses no freed node. Of the nodes it allocates just those that its
result holds are left, and all nodes from before are still there. -/
def Accounted {α : Type} (x : NodeM α) (w : World) (held : α → Set ℕ) : Prop :=
  Safely FreedUse x w fun r w' => w'.live = w.live ∪ held r ∧ Disjoint w.live (held r)

theorem openFail_yields (w w' : World) (found : Option NodeRef)
    (hfound : match found with
      | none => w'.live = w.live
      | some node => At w.live .diropen node w') :
    Yields (openFail found) w' fun r w'' =>
      w''.live = w.live ∪ heldBy r ∧ Disjoint w.live (heldBy r) := by
  have hempty : ∀ w'' : World, w''.live = w.live →
      w''.live = w.live ∪ heldBy none ∧ Disjoint w.live (heldBy none) :=
    fun w'' h => ⟨h.trans (Set.union_empty _).symm, Set.disjoint_empty _⟩
  cases found with
  | none => exact Yields.pure (hempty w' hfound)
  | some node =>
    exact (At.free hfound).bind fun _ w'' hw'' => Yields.pure (hempty w'' hw'')

def GoodFile (base : Set ℕ) (r : Bool × Option NodeRef) (w : World) : Prop :=
  match r with
  | (status, none) => status = false ∧ w.live = base
  | (_, some node) => At base .diropen node w

theorem ext4fsFindFile_judged (path : List UInt8) (expecttype : FileType) (w : World) :
    Judged (TidyFind fs fuel steps 8 path .diropen 0 w) (GoodFile w.live)
      (fun r w' => r = (false, none) ∧ w.live ⊂ w'.live)
      (ext4fsFindFile fs fuel steps path .diropen expecttype w) := by
  refine (findFile1_judged fs fuel steps 8 path .diropen 0 w fun _ h => nomatch h).then
    (fun r w' hr => ?_) fun r w' hr => ?_
  · rcases r with _ | ⟨node, type, nest⟩
    · exact Safely.pure ⟨rfl, hr⟩
    · dsimp only
      split
      · exact Safely.pure hr
      split
      · exact Safely.pure hr
      · exact Safely.pure hr
  · obtain ⟨rfl, hleft⟩ := hr
    exact Yields.pure ⟨rfl, hleft⟩

theorem ext4fsOpen_judged (filename : List UInt8) (w : World) :
    Judged (TidyFind fs fuel steps 8 filename .diropen 0 w)
      (fun r w' => w'.live = w.live ∪ heldBy r ∧ Disjoint w.live (heldBy r))
      (fun r w' => r = none ∧ w.live ⊂ w'.live) (ext4fsOpen fs fuel steps filename w) := by
  refine (ext4fsFindFile_judged fs fuel steps filename .reg w).then (fun r w' hr => ?_)
    fun r w' hr => ?_
  · obtain ⟨status, _ | node⟩ := r
    · obtain ⟨rfl, hlive⟩ := hr
      exact Safely.of_yields (openFail_yields w w' none hlive)
    · have hat : At w.live .diropen node w' := hr
      cases status with
      | false => exact Safely.of_yields (openFail_yields w w' (some node) hat)
      | true =>
        apply Safely.bind (needInode_safely fs w' node hat.isSome)
        intro read w'' hkept
        have hat' : At w.live .diropen node w'' := ⟨hkept.live.trans hat.live, hat.new, hat.root⟩
        split
        · exact Safely.of_yields (openFail_yields w w'' (some node) hat')
        · apply Safely.pure
          rw [heldBy_some]
          exact ⟨hat'.live, hat'.new⟩
  · obtain ⟨rfl, hleft⟩ := hr
    exact Yields.pure ⟨rfl, hleft⟩

/-- What is listed is a directory, or nothing is found, or just the root. -/
def ListsDirectory (dirname : List UInt8) (w : World) : Prop :=
  OnReturn (ext4fsFindFile fs fuel steps dirname .diropen .directory) w fun r _ =>
    r.1 = false → ∀ node, r.2 = some node → node = .diropen

theorem ext4fsListFiles_judged {α : Type} (dirname : List UInt8)
    (func : Option (α → List UInt8 → Xstat → Bool → ℤ × α)) (data : α) (w : World) :
    Judged (TidyFind fs fuel steps 8 dirname .diropen 0 w ∧ ListsDirectory fs fuel steps dirname w)
      (fun _ w' => w'.live = w.live) (fun _ w' => w.live ⊂ w'.live)
      (ext4fsListFiles fs fuel steps dirname func data w) := by
  refine (ext4fsFindFile_judged fs fuel steps dirname .directory w).seq (fun r w' hr => ?_)
    fun r w' hr => ?_
  · obtain ⟨status, _ | node⟩ := r
    · obtain ⟨rfl, hlive⟩ := hr
      exact Judged.of_yields (Yields.pure hlive) fun _ node h => nomatch h
    · have hat : At w.live .diropen node w' := hr
      cases status with
      | true =>
        refine Judged.of_safely ?_ fun h => nomatch h
        apply Safely.bind
          (ext4fsIterateDir_safely fs w' fuel steps node (.list func) data hat.isSome)
        rintro ⟨found, data'⟩ w'' hr'
        cases found with
        | some entry =>
          obtain ⟨⟨name, hname⟩, -⟩ := hr'
          cases hname
        | none =>
          have hat' : At w.live .diropen node w'' := ⟨Eq.trans hr' hat.live, hat.new, hat.root⟩
          exact Safely.of_yields (hat'.free.bind fun _ w₁ hw₁ => Yields.pure hw₁)
      | false =>
        by_cases hroot : node = .diropen
        · refine Judged.of_yields (Yields.pure ?_) fun _ node' h => ?_
          · rw [hat.live, hroot, extra_diropen, Set.union_empty]
          · cases h
            exact hroot
        · obtain ⟨id, -, hid⟩ := owned_alloc (show Owned .diropen node from ⟨hroot, hroot⟩)
          refine Or.inr ⟨fun h => hroot (h rfl node rfl), ?_⟩
          dsimp only
          rw [hat.live, hid, Set.union_singleton]
          exact Set.ssubset_insert (Set.disjoint_singleton_right.mp (hid ▸ hat.new))
  · obtain ⟨rfl, hleft⟩ := hr
    exact Yields.pure hleft

end Calls

/-- When the nodes of an open and of a listing are accounted for. -/
theorem accounted_iff (fs : ExtFilesystem) (fuel steps : ℕ) (w : World) :
    (∀ filename, Accounted (ext4fsOpen fs fuel steps filename) w heldBy ↔
      TidyFind fs fuel steps 8 filename .diropen 0 w) ∧
    ∀ (α : Type) (dirname : List UInt8)
      (func : Option (α → List UInt8 → Xstat → Bool → ℤ × α)) (data : α),
      Accounted (ext4fsListFiles fs fuel steps dirname func data) w (fun _ => ∅) ↔
        TidyFind fs fuel steps 8 dirname .diropen 0 w ∧ ListsDirectory fs fuel steps dirname w := by
  constructor
  · intro filename
    refine (ext4fsOpen_judged fs fuel steps filename w).safely_iff fun r w' hbad hgood => ?_
    obtain ⟨rfl, hleft⟩ := hbad
    have hnone : heldBy none = ∅ := rfl
    rw [hgood.1, hnone, Set.union_empty] at hleft
    exact ssubset_irrefl _ hleft
  · intro α dirname func data
    have hjudged := ext4fsListFiles_judged fs fuel steps dirname func data w
    refine Iff.trans ?_ (hjudged.safely_iff fun r w' hbad hgood => ?_)
    · unfold Accounted
      simp only [Set.union_empty, Set.disjoint_empty, and_true]
    · rw [hgood] at hbad
      exact ssubset_irrefl _ hbad

/-- A file system of 1024-byte blocks. Its root has one entry, the directory d,
which is empty. -/
def emptyDirImage : Bytes := fun b =>
  match b with
  | 1044 => 1
  | 1064 => 8
  | 1080 => 0x53
  | 1081 => 0xef
  | 2056 => 3
  | 3201 => 0x41
  | 3205 => 4
  | 3240 => 4
  | 3329 => 0x41
  | 4096 => 3
  | 4101 => 4
  | 4102 => 1
  | 4103 => 2
  | 4104 => 0x64
  | _ => 0

def emptyDirPart : PartDescr := ⟨DiskDescr.ofImage emptyDirImage, 0, 16⟩

/-- The path d/x. -/
def missingPath : List UInt8 := [0x64, 0x2f, 0x78]

/-- There is no x in d. The open fails, and the node of d is still allocated. -/
theorem missing_file_leaks_directory :
    ∃ fs root log, ext4fsMount (fun _ => 0) emptyDirPart [] = .ok (some (fs, root), log) ∧
      (∃ w, ext4fsOpen fs 2 4 missingPath (World.mounted root log) = .ok (none, w) ∧
        0 ∈ w.live) ∧
      ¬ Accounted (ext4fsOpen fs 2 4 missingPath) (World.mounted root log) heldBy := by
  have hmount : ∃ fs root log, ext4fsMount (fun _ => 0) emptyDirPart [] =
      .ok (some (fs, root), log) ∧
        ((ext4fsOpen fs 2 4 missingPath (World.mounted root log)).toOption.any fun r =>
          r.1.isNone && (r.2.nodes 0).isSome) = true := by
    apply mount_of_check
    decide +kernel
  obtain ⟨fs, root, log, hmount, hopen⟩ := hmount
  refine ⟨fs, root, log, hmount, ?_⟩
  cases hrun : ext4fsOpen fs 2 4 missingPath (World.mounted root log) with
  | error e =>
    rw [hrun] at hopen
    cases hopen
  | ok r =>
    obtain ⟨found, w⟩ := r
    rw [hrun] at hopen
    obtain ⟨hnone, hzero⟩ := Bool.and_eq_true_iff.mp hopen
    obtain rfl := Option.isNone_iff_eq_none.mp hnone
    refine ⟨⟨w, rfl, hzero⟩, fun h => ?_⟩
    have hlive := (h.2 none w hrun).1
    have hmem : 0 ∈ w.live := hzero
    rw [hlive] at hmem
    rcases hmem with hold | hheld
    · cases hold
    · exact hheld

end Eokan.NodeLedger
