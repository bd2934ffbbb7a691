import Eokan.Calls
import Eokan.EnoughFuel
import Eokan.PathTokens

/-!
The calls a search makes: the directories it scans, the links it meets and the
targets it reads. Seven targets are read at most. Whether the search comes to an
end is a matter of these calls alone.
-/
namespace Eokan.LinkCalls

open ByteMem Programs Fuel Calls Traced Device Layout NodeHeap Directory Resolve EnoughFuel
  PathTokens

inductive Call
  | scan (dir : NodeRef) (name : List UInt8)
  | met (link : NodeRef)
  | target (link : NodeRef)
  deriving DecidableEq

abbrev CallM (α : Type) := Traced (Call × World) World Fault α

section Code
variable (fs : ExtFilesystem) (fuel steps : ℕ)

def lookupCalls (dir : NodeRef) (name : List UInt8) : CallM (Option (ℕ × FileType)) :=
  call (fun w => (.scan dir name, w)) (lookupIn fs fuel steps dir name)

def symlinkCalls (link : NodeRef) : CallM (Option (List UInt8)) :=
  call (fun w => (.target link, w)) (ext4fsReadSymlink fs fuel link)

/-- A search that fails frees the node it is at. -/
def giveUp {α : Type} (node currroot : NodeRef) : NodeM (Option α) := do
  ext4fsFreeNode node currroot
  pure none

def followCalls (follow : List UInt8 → NodeRef → ℕ → CallM (Option Found))
    (link oldnode currroot : NodeRef) (symlinknest : ℕ) :
    CallM (Option (NodeRef × NodeRef × FileType × ℕ)) := do
  call (fun w => (.met link, w)) (pure ())
  let symlinknest := symlinknest + 1
  if symlinknest = 8 then do
    silent (ext4fsFreeNode link currroot)
    silent (giveUp oldnode currroot)
  else do
    let symlink ← symlinkCalls fs fuel link
    silent (ext4fsFreeNode link currroot)
    match symlink with
    | none => silent (giveUp oldnode currroot)
    | some symlink => do
      let oldnode ← silent (linkStart symlink oldnode currroot)
      match ← follow symlink oldnode symlinknest with
      | none => silent (giveUp oldnode currroot)
      | some (currnode, type, symlinknest) =>
        pure (some (currnode, oldnode, type.getD .symlink, symlinknest))

def nameCalls (follow : List UInt8 → NodeRef → ℕ → CallM (Option Found)) (currroot : NodeRef)
    (name : List UInt8) (currnode : NodeRef) (type : FileType) (symlinknest : ℕ) :
    CallM (Option (NodeRef × FileType × ℕ)) := do
  if type ≠ .directory then silent (giveUp currnode currroot)
  else do
    match ← lookupCalls fs fuel steps currnode name with
    | none => pure none
    | some (entry, .symlink) => do
      match ← followCalls fs fuel follow (.alloc entry) currnode currroot symlinknest with
      | none => pure none
      | some (currnode, oldnode, type, symlinknest) => do
        silent (ext4fsFreeNode oldnode currroot)
        pure (some (currnode, type, symlinknest))
    | some (entry, type) => do
      silent (ext4fsFreeNode currnode currroot)
      pure (some (.alloc entry, type, symlinknest))

def walkCalls (follow : List UInt8 → NodeRef → ℕ → CallM (Option Found)) (currroot : NodeRef) :
    List (List UInt8) → NodeRef → FileType → ℕ → CallM (Option Found)
  | [], currnode, type, symlinknest => do
    let _ ← silent (deref currnode)
    pure (some (currnode, some type, symlinknest))
  | name :: next, currnode, type, symlinknest => do
    match ← nameCalls fs fuel steps follow currroot name currnode type symlinknest with
    | none => pure none
    | some (currnode, type, symlinknest) =>
      walkCalls follow currroot next currnode type symlinknest

/-- The search of a path with the calls it makes. -/
def findCalls : ℕ → List UInt8 → NodeRef → ℕ → CallM (Option Found)
  | 0, _, _, _ => silent (fault .outOfFuel)
  | depth + 1, currpath, currroot, symlinknest =>
    match names currpath with
    | [] => pure (some (currroot, none, symlinknest))
    | name :: next =>
      walkCalls fs fuel steps (findCalls depth) currroot (name :: next) currroot .directory
        symlinknest

end Code

section Erase
variable (fs : ExtFilesystem) (fuel steps : ℕ)
  {follow : List UInt8 → NodeRef → ℕ → CallM (Option Found)}
  {follow' : List UInt8 → NodeRef → ℕ → NodeM (Option Found)}
  (hfollow : ∀ symlink node symlinknest,
    erase (follow symlink node symlinknest) = follow' symlink node symlinknest)
include hfollow

theorem erase_followCalls (link oldnode currroot : NodeRef) (symlinknest : ℕ) :
    erase (followCalls fs fuel follow link oldnode currroot symlinknest) =
      followLink fs fuel follow' link oldnode currroot symlinknest := by
  unfold followCalls followLink
  rw [erase_bind, erase_call, pure_bind]
  dsimp only
  split
  · simp only [erase_bind, erase_silent, giveUp]
  · unfold takeLink symlinkCalls
    simp only [erase_bind, erase_call, erase_silent, bind_assoc, pure_bind]
    congr 1
    funext symlink
    congr 1
    funext _
    cases symlink with
    | none => rfl
    | some symlink =>
      simp only [erase_bind, erase_silent, hfollow]
      congr 1
      funext oldnode
      congr 1
      funext found
      rcases found with _ | ⟨currnode, type, symlinknest⟩ <;> rfl

theorem erase_nameCalls (currroot : NodeRef) (name : List UInt8) (currnode : NodeRef)
    (type : FileType) (symlinknest : ℕ) :
    erase (nameCalls fs fuel steps follow currroot name currnode type symlinknest) =
      findName fs fuel steps follow' currroot name currnode type symlinknest := by
  unfold nameCalls findName
  split
  · rfl
  · unfold lookupCalls
    simp only [erase_bind, erase_call]
    congr 1
    funext found
    rcases found with _ | ⟨entry, type'⟩
    · rfl
    · cases type' <;> simp only [erase_bind, erase_silent, erase_pure,
        erase_followCalls fs fuel hfollow]
      congr 1
      funext r
      rcases r with _ | ⟨c, o, t, k⟩
      · rfl
      · simp only [erase_bind, erase_silent, erase_pure]

theorem erase_walkCalls (currroot : NodeRef) (path : List (List UInt8)) (currnode : NodeRef)
    (type : FileType) (symlinknest : ℕ) :
    erase (walkCalls fs fuel steps follow currroot path currnode type symlinknest) =
      walk fs fuel steps follow' currroot path currnode type symlinknest := by
  induction path generalizing currnode type symlinknest with
  | nil => simp only [walkCalls, walk, erase_bind, erase_silent, erase_pure]
  | cons name next ih =>
    rw [walkCalls, walk_cons, erase_bind, erase_nameCalls fs fuel steps hfollow]
    congr 1
    funext found
    rcases found with _ | ⟨c, t, k⟩
    · rfl
    · exact ih c t k

end Erase

/-- Without the record it is the search. -/
theorem erase_findCalls (fs : ExtFilesystem) (fuel steps depth : ℕ) (path : List UInt8)
    (currroot : NodeRef) (symlinknest : ℕ) :
    erase (findCalls fs fuel steps depth path currroot symlinknest) =
      ext4fsFindFile1 fs fuel steps depth path currroot symlinknest := by
  induction depth generalizing path currroot symlinknest with
  | zero => rfl
  | succ depth ih =>
    rw [findCalls, ext4fsFindFile1]
    generalize names path = components
    cases components with
    | nil => rfl
    | cons name next => exact erase_walkCalls fs fuel steps ih _ _ _ _ _

def Call.isTarget : Call → Bool
  | .target _ => true
  | _ => false

def Call.isMet : Call → Bool
  | .met _ => true
  | _ => false

/-- The targets that were read, and the links that were met. -/
def targets (calls : List (Call × World)) : ℕ := calls.countP fun c => c.1.isTarget

def links (calls : List (Call × World)) : ℕ := calls.countP fun c => c.1.isMet

theorem targets_append (calls calls' : List (Call × World)) :
    targets (calls ++ calls') = targets calls + targets calls' := List.countP_append

theorem links_append (calls calls' : List (Call × World)) :
    links (calls ++ calls') = links calls + links calls' := List.countP_append

/-- After k links at most 7 - k targets are read, one for every link that is met
except an eighth one, and a search that succeeds knows their number. -/
structure Counted {α : Type} (k : ℕ) (count : α → ℕ) (x : CallM (Option α)) : Prop where
  bound : ∀ w, k + targets (x w).1 ≤ 7
  met : ∀ w, links (x w).1 = targets (x w).1 ∨
    (links (x w).1 = targets (x w).1 + 1 ∧ k + links (x w).1 = 8)
  found : ∀ w a w', (x w).2 = .ok (some a, w') →
    count a = k + targets (x w).1 ∧ links (x w).1 = targets (x w).1

/-- No call is made, and nothing is found. -/
def Fails {α : Type} (x : CallM (Option α)) : Prop :=
  ∀ w, (x w).1 = [] ∧ ∀ a w', (x w).2 ≠ .ok (some a, w')

namespace Counted
variable {α β γ : Type} {k : ℕ} {count : α → ℕ} {count' : β → ℕ}

theorem fails (hk : k ≤ 7) {x : CallM (Option α)} (h : Fails x) : Counted k count x := by
  refine ⟨fun w => ?_, fun w => ?_, fun w a w' hrun => absurd hrun ((h w).2 a w')⟩
  · rw [(h w).1]
    exact hk
  · rw [(h w).1]
    exact Or.inl rfl

theorem pure (hk : k ≤ 7) (a : α) (ha : count a = k) :
    Counted k count (pure (some a) : CallM (Option α)) := by
  refine ⟨fun _ => hk, fun _ => Or.inl rfl, fun w b w' hrun => ?_⟩
  cases hrun
  exact ⟨ha, rfl⟩

/-- Calls of another kind do not count. -/
theorem after (hk : k ≤ 7) {x : CallM γ} {f : γ → CallM (Option α)}
    (hx : ∀ w, targets (x w).1 = 0 ∧ links (x w).1 = 0) (hf : ∀ a, Counted k count (f a)) :
    Counted k count (x >>= f) := by
  have hrun : ∀ w, (∃ e, (x >>= f) w = ((x w).1, .error e)) ∨
      ∃ a w', (x >>= f) w = ((x w).1 ++ (f a w').1, (f a w').2) := by
    intro w
    cases h : (x w).2 with
    | error e => exact Or.inl ⟨e, bind_error h⟩
    | ok p => exact Or.inr ⟨p.1, p.2, bind_ok h⟩
  refine ⟨fun w => ?_, fun w => ?_, fun w a w' hfound => ?_⟩
  all_goals obtain ⟨htargets, hlinks⟩ := hx w
  all_goals rcases hrun w with ⟨e, h⟩ | ⟨b, w₁, h⟩
  · rw [h, htargets]
    exact hk
  · rw [h, targets_append, htargets, Nat.zero_add]
    exact (hf b).bound w₁
  · rw [h, htargets, hlinks]
    exact Or.inl rfl
  · rw [h, targets_append, links_append, htargets, hlinks, Nat.zero_add, Nat.zero_add]
    exact (hf b).met w₁
  · rw [h] at hfound
    cases hfound
  · rw [h] at hfound ⊢
    rw [targets_append, links_append, htargets, hlinks, Nat.zero_add, Nat.zero_add]
    exact (hf b).found w₁ a w' hfound

theorem bind {x : CallM (Option α)} {f : Option α → CallM (Option β)} (hx : Counted k count x)
    (hnone : Fails (f none)) (hf : ∀ a, count a ≤ 7 → Counted (count a) count' (f (some a))) :
    Counted k count' (x >>= f) := by
  have hrun : ∀ w, ((x >>= f) w).1 = (x w).1 ∧ (∀ b w', ((x >>= f) w).2 ≠ .ok (some b, w')) ∨
      ∃ a w', (x w).2 = .ok (some a, w') ∧
        (x >>= f) w = ((x w).1 ++ (f (some a) w').1, (f (some a) w').2) := by
    intro w
    cases h : (x w).2 with
    | error e =>
      rw [bind_error h]
      refine Or.inl ⟨rfl, fun b w' hfound => ?_⟩
      cases hfound
    | ok p =>
      obtain ⟨_ | a, w'⟩ := p
      · rw [bind_ok h, (hnone w').1, List.append_nil]
        exact Or.inl ⟨rfl, (hnone w').2⟩
      · exact Or.inr ⟨a, w', rfl, bind_ok h⟩
  refine ⟨fun w => ?_, fun w => ?_, fun w b w' hfound => ?_⟩
  all_goals rcases hrun w with ⟨hcalls, hnever⟩ | ⟨a, w₁, hstep, h⟩
  · rw [hcalls]
    exact hx.bound w
  · obtain ⟨hcount, -⟩ := hx.found w a w₁ hstep
    have hrest := (hf a (hcount ▸ hx.bound w)).bound w₁
    rw [h, targets_append]
    omega
  · rw [hcalls]
    exact hx.met w
  · obtain ⟨hcount, hlinks⟩ := hx.found w a w₁ hstep
    have hrest := (hf a (hcount ▸ hx.bound w)).met w₁
    rw [h, targets_append, links_append]
    omega
  · exact absurd hfound (hnever b w')
  · obtain ⟨hcount, hlinks⟩ := hx.found w a w₁ hstep
    rw [h] at hfound ⊢
    have hrest := (hf a (hcount ▸ hx.bound w)).found w₁ b w' hfound
    rw [targets_append, links_append]
    omega

/-- A link that is followed: it is met, and its target is read. -/
theorem link (hk : k + 1 ≤ 7) (ref ref' : NodeRef) (x : NodeM γ) {f : γ → CallM (Option α)}
    (hf : ∀ a, Counted (k + 1) count (f a)) :
    Counted k count (call (fun w => (.met ref, w)) (Pure.pure ()) >>= fun _ =>
      call (fun w => (.target ref', w)) x >>= f) := by
  have hrun : ∀ w, (∃ e, (call (fun w => (Call.met ref, w)) (Pure.pure ()) >>= fun _ =>
      call (fun w => (.target ref', w)) x >>= f) w =
        ([(.met ref, w), (.target ref', w)], .error e)) ∨
      ∃ a w', (call (fun w => (Call.met ref, w)) (Pure.pure ()) >>= fun _ =>
        call (fun w => (.target ref', w)) x >>= f) w =
          ([(.met ref, w), (.target ref', w)] ++ (f a w').1, (f a w').2) := by
    intro w
    rw [call_ok (pure_run () w)]
    cases h : x w with
    | error e =>
      rw [call_error h]
      exact Or.inl ⟨e, rfl⟩
    | ok p =>
      rw [call_ok h]
      exact Or.inr ⟨p.1, p.2, rfl⟩
  refine ⟨fun w => ?_, fun w => ?_, fun w a w' hfound => ?_⟩
  all_goals rcases hrun w with ⟨e, h⟩ | ⟨b, w₁, h⟩
  · rw [h]
    exact hk
  · have hrest := (hf b).bound w₁
    rw [h, targets_append]
    change k + (1 + _) ≤ 7
    omega
  · rw [h]
    exact Or.inl rfl
  · have hrest := (hf b).met w₁
    rw [h, targets_append, links_append]
    change 1 + _ = 1 + _ ∨ 1 + _ = 1 + _ + 1 ∧ k + (1 + _) = 8
    omega
  · rw [h] at hfound
    cases hfound
  · rw [h] at hfound ⊢
    have hrest := (hf b).found w₁ a w' hfound
    rw [targets_append, links_append]
    change _ = k + (1 + _) ∧ 1 + _ = 1 + _
    omega

/-- The eighth link is not followed. -/
theorem last (ref : NodeRef) {x : CallM (Option α)} (hx : Fails x) :
    Counted 7 count (call (fun w => (.met ref, w)) (Pure.pure ()) >>= fun _ => x) := by
  have hrun : ∀ w, (call (fun w => (Call.met ref, w)) (Pure.pure ()) >>= fun _ => x) w =
      ([(.met ref, w)], (x w).2) := by
    intro w
    rw [call_ok (pure_run () w), (hx w).1]
  refine ⟨fun w => ?_, fun w => ?_, fun w a w' hfound => ?_⟩
  all_goals rw [hrun] at *
  · exact Nat.le_refl 7
  · exact Or.inr ⟨rfl, rfl⟩
  · exact absurd hfound ((hx w).2 a w')

end Counted

theorem giveUp_fails {α : Type} (node currroot : NodeRef) :
    Fails (silent (giveUp node currroot) : CallM (Option α)) := by
  refine fun w => ⟨rfl, fun a w' h => ?_⟩
  obtain ⟨_, w₁, -, hrest⟩ := bind_eq_ok (show giveUp node currroot w = .ok (some a, w') from h)
  cases hrest

theorem none_fails {α : Type} : Fails (pure none : CallM (Option α)) :=
  fun _ => ⟨rfl, fun _ _ h => nomatch h⟩

theorem silent_fails {α γ : Type} {x : NodeM γ} {f : γ → CallM (Option α)}
    (hf : ∀ a, Fails (f a)) : Fails (silent x >>= f) := by
  intro w
  cases h : x w with
  | error e =>
    rw [silent_error h]
    refine ⟨rfl, fun a w' hfound => ?_⟩
    cases hfound
  | ok p =>
    rw [silent_ok h]
    exact hf p.1 p.2

theorem silent_neutral {γ : Type} (x : NodeM γ) (w : World) :
    targets ((silent x : CallM γ) w).1 = 0 ∧ links ((silent x : CallM γ) w).1 = 0 := ⟨rfl, rfl⟩

section Counts
variable (fs : ExtFilesystem) (fuel steps : ℕ)
  {follow : List UInt8 → NodeRef → ℕ → CallM (Option Found)}
  (hfollow : ∀ symlink node k, k ≤ 7 → Counted k (fun r : Found => r.2.2) (follow symlink node k))
include hfollow

theorem followCalls_counted (link oldnode currroot : NodeRef) (k : ℕ) (hk : k ≤ 7) :
    Counted k (fun r => r.2.2.2) (followCalls fs fuel follow link oldnode currroot k) := by
  unfold followCalls
  by_cases h8 : k + 1 = 8
  · obtain rfl : k = 7 := by omega
    exact Counted.last link (silent_fails fun _ => giveUp_fails oldnode currroot)
  · dsimp only
    rw [if_neg h8]
    refine Counted.link (by omega) link link _ fun symlink => ?_
    refine Counted.after (by omega) (silent_neutral _) fun _ => ?_
    cases symlink with
    | none => exact Counted.fails (by omega) (giveUp_fails oldnode currroot)
    | some symlink =>
      refine Counted.after (by omega) (silent_neutral _) fun oldnode => ?_
      refine Counted.bind (hfollow symlink oldnode (k + 1) (by omega))
        (giveUp_fails oldnode currroot) fun r hr => ?_
      exact Counted.pure hr _ rfl

theorem nameCalls_counted (currroot : NodeRef) (name : List UInt8) (currnode : NodeRef)
    (type : FileType) (k : ℕ) (hk : k ≤ 7) : Counted k (fun r => r.2.2)
      (nameCalls fs fuel steps follow currroot name currnode type k) := by
  unfold nameCalls
  split
  · exact Counted.fails hk (giveUp_fails currnode currroot)
  · refine Counted.after hk (fun w => ⟨rfl, rfl⟩) fun found => ?_
    rcases found with _ | ⟨entry, type'⟩
    · exact Counted.fails hk none_fails
    · cases type' with
      | symlink =>
        refine Counted.bind (followCalls_counted fs fuel hfollow _ _ _ k hk) none_fails
          fun r hr => ?_
        exact Counted.after hr (silent_neutral _) fun _ => Counted.pure hr _ rfl
      | unknown => exact Counted.after hk (silent_neutral _) fun _ => Counted.pure hk _ rfl
      | reg => exact Counted.after hk (silent_neutral _) fun _ => Counted.pure hk _ rfl
      | directory => exact Counted.after hk (silent_neutral _) fun _ => Counted.pure hk _ rfl

theorem walkCalls_counted (currroot : NodeRef) (path : List (List UInt8)) (currnode : NodeRef)
    (type : FileType) (k : ℕ) (hk : k ≤ 7) : Counted k (fun r => r.2.2)
      (walkCalls fs fuel steps follow currroot path currnode type k) := by
  induction path generalizing currnode type k with
  | nil => exact Counted.after hk (silent_neutral _) fun _ => Counted.pure hk _ rfl
  | cons name next ih =>
    rw [walkCalls]
    exact Counted.bind (nameCalls_counted fs fuel steps hfollow currroot name currnode type k hk)
      none_fails fun r hr => ih _ _ _ hr

end Counts

/-- However deep the links are nested, they share one count. -/
theorem findCalls_counted (fs : ExtFilesystem) (fuel steps depth : ℕ) (path : List UInt8)
    (currroot : NodeRef) (k : ℕ) (hk : k ≤ 7) :
    Counted k (fun r => r.2.2) (findCalls fs fuel steps depth path currroot k) := by
  induction depth generalizing path currroot k with
  | zero => exact Counted.fails hk fun _ => ⟨rfl, fun _ _ h => nomatch h⟩
  | succ depth ih =>
    rw [findCalls]
    split
    · exact Counted.pure hk _ rfl
    · exact walkCalls_counted fs fuel steps ih _ _ _ _ k hk

end Eokan.LinkCalls
