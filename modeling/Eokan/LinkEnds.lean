import Eokan.LinkCalls
import Eokan.Mount
import Eokan.TargetReads

/-!
A search comes to an end exactly when the directory scans do that it makes. The
reads of targets always end, and the nesting of links never keeps it from
ending: the counter they share leaves no more than eight levels.
-/
namespace Eokan.LinkEnds

open ByteMem Programs Fuel Calls Traced Device Layout NodeHeap Directory Resolve EnoughFuel
  PathTokens LinkCalls TargetReads Mount

/-- With enough fuel a scan returns or faults. The other calls always do. -/
def CallEnds (fs : ExtFilesystem) : Call × World → Prop
  | (.scan dir name, w) => ∃ n, lookupIn fs n n dir name w ≠ .error .outOfFuel
  | _ => True

theorem free_fueled (id : ℕ) : Fueled (free id) := by
  intro w e h
  unfold free at h
  split at h
  · cases h
  · cases h
    exact nofun

theorem ext4fsFreeNode_fueled (node currroot : NodeRef) :
    Fueled (ext4fsFreeNode node currroot) := by
  unfold ext4fsFreeNode
  split
  · exact Avoids.pure ()
  · exact Avoids.ite (fun _ => free_fueled _) fun _ => Avoids.pure ()

theorem giveUp_fueled {α : Type} (node currroot : NodeRef) :
    Fueled (giveUp node currroot : NodeM (Option α)) :=
  Avoids.bind (ext4fsFreeNode_fueled node currroot) fun _ => Avoids.pure none

theorem linkStart_fueled (symlink : List UInt8) (oldnode currroot : NodeRef) :
    Fueled (linkStart symlink oldnode currroot) :=
  Avoids.ite (fun _ => Avoids.bind (ext4fsFreeNode_fueled oldnode currroot) fun _ =>
    Avoids.pure NodeRef.diropen) fun _ => Avoids.pure oldnode

section Ends
variable (fs : ExtFilesystem)

abbrev SearchSettles {α : Type} (x : ℕ → CallM α) (w : World) : Prop :=
  Settles .outOfFuel (CallEnds fs) x w

theorem silent_settles {α : Type} {x : NodeM α} (h : Fueled x) (w : World) :
    SearchSettles fs (fun _ => silent x) w := Settles.silent fun hout => h w _ hout rfl

theorem pure_settles {α : Type} (a : α) (w : World) :
    SearchSettles fs (fun _ => (pure a : CallM α)) w := silent_settles fs (Avoids.pure a) w

theorem giveUp_settles {α : Type} (node currroot : NodeRef) (w : World) :
    SearchSettles fs (fun _ => (silent (giveUp node currroot) : CallM (Option α))) w :=
  silent_settles fs (giveUp_fueled node currroot) w

theorem free_settles (node currroot : NodeRef) (w : World) :
    SearchSettles fs (fun _ => silent (ext4fsFreeNode node currroot)) w :=
  silent_settles fs (ext4fsFreeNode_fueled node currroot) w

theorem lookupCalls_settles (dir : NodeRef) (name : List UInt8) (w : World) :
    SearchSettles fs (fun n => lookupCalls fs n n dir name) w :=
  Settles.call (fun _ _ hle => lookupIn_more fs hle dir name) Iff.rfl

theorem symlinkCalls_settles (link : NodeRef) (w : World) :
    SearchSettles fs (fun n => symlinkCalls fs n link) w :=
  Settles.call (fun _ _ hle => ext4fsReadSymlink_more fs hle link)
    ⟨fun _ => ⟨1, fun hout => ext4fsReadSymlink_fueled fs 0 link w _ hout rfl⟩, fun _ => trivial⟩

theorem met_settles (link : NodeRef) (w : World) :
    SearchSettles fs (fun _ => call (fun w => (Call.met link, w)) (Pure.pure () : NodeM Unit)) w :=
  Settles.call (fun _ _ _ => Extends.refl _) ⟨fun _ => ⟨0, nofun⟩, fun _ => trivial⟩

section Steps
variable {follow : ℕ → List UInt8 → NodeRef → ℕ → CallM (Option Found)}
  (hcounted : ∀ n symlink node k, k ≤ 7 →
    Counted k (fun r : Found => r.2.2) (follow n symlink node k))
  {least : ℕ} (hfollow : ∀ k, least < k → k ≤ 7 → ∀ symlink node w,
    SearchSettles fs (fun n => follow n symlink node k) w)
include hfollow

theorem followCalls_settles (link oldnode currroot : NodeRef) (k : ℕ) (hleast : least ≤ k)
    (hk : k ≤ 7) (w : World) :
    SearchSettles fs (fun n => followCalls fs n (follow n) link oldnode currroot k) w := by
  refine Settles.bind (met_settles fs link w) fun _ _ w _ => ?_
  by_cases h8 : k + 1 = 8
  · simp only [if_pos h8]
    exact Settles.bind (free_settles fs link currroot w) fun _ _ w _ =>
      giveUp_settles fs oldnode currroot w
  · simp only [if_neg h8]
    refine Settles.bind (symlinkCalls_settles fs link w) fun _ symlink w _ => ?_
    refine Settles.bind (free_settles fs link currroot w) fun _ _ w _ => ?_
    cases symlink with
    | none => exact giveUp_settles fs oldnode currroot w
    | some symlink =>
      have hstart := linkStart_fueled symlink oldnode currroot
      refine Settles.bind (silent_settles fs hstart w) fun _ oldnode w _ => ?_
      refine Settles.bind (hfollow (k + 1) (by omega) (by omega) symlink oldnode w)
        fun _ found w _ => ?_
      cases found with
      | none => exact giveUp_settles fs oldnode currroot w
      | some r => exact pure_settles fs _ w

theorem nameCalls_settles (currroot : NodeRef) (name : List UInt8) (currnode : NodeRef)
    (type : FileType) (k : ℕ) (hleast : least ≤ k) (hk : k ≤ 7) (w : World) :
    SearchSettles fs
      (fun n => nameCalls fs n n (follow n) currroot name currnode type k) w := by
  unfold nameCalls
  by_cases htype : type ≠ .directory
  · simp only [if_pos htype]
    exact giveUp_settles fs currnode currroot w
  · simp only [if_neg htype]
    refine Settles.bind (lookupCalls_settles fs currnode name w) fun _ found w _ => ?_
    rcases found with _ | ⟨entry, type'⟩
    · exact pure_settles fs none w
    · have hplain : ∀ type' : FileType, SearchSettles fs (fun _ => do
          silent (ext4fsFreeNode currnode currroot)
          pure (some (NodeRef.alloc entry, type', k))) w := fun type' =>
        Settles.bind (free_settles fs currnode currroot w) fun _ _ w _ => pure_settles fs _ w
      cases type' with
      | symlink =>
        refine Settles.bind (followCalls_settles fs hfollow _ currnode currroot k hleast hk w)
          fun _ r w _ => ?_
        cases r with
        | none => exact pure_settles fs none w
        | some r =>
          exact Settles.bind (free_settles fs r.2.1 currroot w) fun _ _ w _ => pure_settles fs _ w
      | unknown => exact hplain .unknown
      | reg => exact hplain .reg
      | directory => exact hplain .directory

include hcounted

/-- The count only grows along the path, so what is known of the deeper searches
serves each of its links. -/
theorem walkCalls_settles (currroot : NodeRef) (path : List (List UInt8)) (currnode : NodeRef)
    (type : FileType) (k : ℕ) (hleast : least ≤ k) (hk : k ≤ 7) (w : World) :
    SearchSettles fs
      (fun n => walkCalls fs n n (follow n) currroot path currnode type k) w := by
  induction path generalizing currnode type k w with
  | nil =>
    exact Settles.bind (silent_settles fs (deref_fueled currnode) w) fun _ _ w _ =>
      pure_settles fs _ w
  | cons name next ih =>
    refine Settles.bind (nameCalls_settles fs hfollow currroot name currnode type k hleast hk w)
      fun n found w' hrun => ?_
    rcases found with _ | ⟨child, type', k'⟩
    · exact pure_settles fs none w'
    · have hname := nameCalls_counted fs n n (hcounted n) currroot name currnode type k hk
      obtain ⟨hcount, -⟩ := hname.found w (child, type', k') w' hrun
      have hbound := hname.bound w
      dsimp only at hcount
      exact ih child type' k' (by omega) (by omega) w'

end Steps

/-- Each level meets one more link than the one above it, and the count stops at
seven, so that no search is asked to go deeper than its levels. -/
theorem findCalls_settles (depth : ℕ) (path : List UInt8) (currroot : NodeRef) (k : ℕ)
    (hk : k ≤ 7) (hdepth : 8 ≤ depth + k) (w : World) :
    SearchSettles fs (fun n => findCalls fs n n depth path currroot k) w := by
  induction depth generalizing path currroot k w with
  | zero => omega
  | succ depth ih =>
    simp only [findCalls]
    generalize names path = components
    cases components with
    | nil => exact pure_settles fs _ w
    | cons name next =>
      have hcounted := fun n symlink node k => findCalls_counted fs n n depth symlink node k
      have hfollow : ∀ k', k < k' → k' ≤ 7 → ∀ symlink node w,
          SearchSettles fs (fun n => findCalls fs n n depth symlink node k') w :=
        fun k' hlt hk' symlink node w => ih symlink node k' hk' (by omega) w
      exact walkCalls_settles fs hcounted hfollow currroot _ currroot .directory k le_rfl hk w

end Ends

section Whole
variable (fs : ExtFilesystem) (path : List UInt8) (rootnode : NodeRef) (expecttype : FileType)

/-- The whole search with the calls it makes. -/
def fileCalls (fuel steps : ℕ) : CallM (Bool × Option NodeRef) := do
  match ← findCalls fs fuel steps 8 path rootnode 0 with
  | none => pure (false, none)
  | some (foundnode, type, _) =>
    let foundtype := type.getD .directory
    if expecttype = .reg ∧ foundtype ≠ expecttype then pure (false, some foundnode)
    else if expecttype = .directory ∧ foundtype ≠ expecttype then pure (false, some foundnode)
    else pure (true, some foundnode)

theorem erase_fileCalls (fuel steps : ℕ) :
    erase (fileCalls fs path rootnode expecttype fuel steps) =
      ext4fsFindFile fs fuel steps path rootnode expecttype := by
  unfold fileCalls ext4fsFindFile
  rw [erase_bind, erase_findCalls]
  congr 1
  funext found
  cases found with
  | none => rfl
  | some r =>
    dsimp only
    split
    · rfl
    · split <;> rfl

theorem fileCalls_settles (w : World) :
    SearchSettles fs (fun n => fileCalls fs path rootnode expecttype n n) w := by
  refine Settles.bind (findCalls_settles fs 8 path rootnode 0 (by omega) (by omega) w)
    fun _ found w _ => ?_
  cases found with
  | none => exact pure_settles fs _ w
  | some r =>
    dsimp only
    split
    · exact pure_settles fs _ w
    · split
      · exact pure_settles fs _ w
      · exact pure_settles fs _ w

/-- The verdict on what was found makes no calls. -/
theorem fileCalls_calls (fuel steps : ℕ) (w : World) :
    (fileCalls fs path rootnode expecttype fuel steps w).1 =
      (findCalls fs fuel steps 8 path rootnode 0 w).1 := by
  unfold fileCalls
  cases h : (findCalls fs fuel steps 8 path rootnode 0 w).2 with
  | error e => rw [bind_error h]
  | ok p =>
    obtain ⟨_ | ⟨foundnode, type, k⟩, w'⟩ := p
    · rw [bind_ok h]
      exact List.append_nil _
    · rw [bind_ok h]
      dsimp only
      split
      · exact List.append_nil _
      · split <;> exact List.append_nil _

theorem fileCalls_counted (fuel steps : ℕ) (w : World) :
    targets (fileCalls fs path rootnode expecttype fuel steps w).1 ≤ 7 ∧
      (8 ≤ links (fileCalls fs path rootnode expecttype fuel steps w).1 →
        ∀ r w', ext4fsFindFile fs fuel steps path rootnode expecttype w = .ok (r, w') →
          r = (false, none)) := by
  have hcounted := findCalls_counted fs fuel steps 8 path rootnode 0 (by omega)
  rw [fileCalls_calls]
  refine ⟨by simpa using hcounted.bound w, fun hlinks r w' hrun => ?_⟩
  obtain ⟨found, w₁, hfind, hrest⟩ := Programs.bind_eq_ok hrun
  cases found with
  | none =>
    cases hrest
    rfl
  | some r =>
    rw [← erase_findCalls] at hfind
    obtain ⟨-, hmet⟩ := hcounted.found w r w₁ hfind
    have hbound := hcounted.bound w
    omega

/-- The search ends if its scans do. It reads seven targets at most, and nothing
is found once an eighth link is met. -/
theorem ext4fsFindFile_ends (w : World)
    (hscans : ∀ n dir name w', (.scan dir name, w') ∈
      (fileCalls fs path rootnode expecttype n n w).1 →
        ∃ m, lookupIn fs m m dir name w' ≠ .error .outOfFuel) :
    (∃ n, ext4fsFindFile fs n n path rootnode expecttype w ≠ .error .outOfFuel) ∧
    ∀ fuel steps, erase (fileCalls fs path rootnode expecttype fuel steps) =
        ext4fsFindFile fs fuel steps path rootnode expecttype ∧
      targets (fileCalls fs path rootnode expecttype fuel steps w).1 ≤ 7 ∧
      (8 ≤ links (fileCalls fs path rootnode expecttype fuel steps w).1 →
        ∀ r w', ext4fsFindFile fs fuel steps path rootnode expecttype w = .ok (r, w') →
          r = (false, none)) := by
  refine ⟨?_, fun fuel steps => ⟨erase_fileCalls fs path rootnode expecttype fuel steps,
    fileCalls_counted fs path rootnode expecttype fuel steps w⟩⟩
  obtain ⟨n, hn⟩ := (fileCalls_settles fs path rootnode expecttype w).enough fun n c hc => by
    obtain ⟨call, w'⟩ := c
    cases call with
    | scan dir name => exact hscans n dir name w' hc
    | met link => trivial
    | target link => trivial
  refine ⟨n, ?_⟩
  rw [← erase_fileCalls]
  exact hn

end Whole

/-- The root of this image has one entry, a link that leads to itself. -/
def loopImage : Bytes := fun b =>
  match b with
  | 1044 => 1
  | 1064 => 8
  | 1080 => 0x53
  | 1081 => 0xef
  | 2056 => 3
  | 3201 => 0x41
  | 3205 => 4
  | 3240 => 4
  | 3329 => 0xa1
  | 3332 => 1
  | 3368 => 0x6c
  | 4096 => 3
  | 4101 => 4
  | 4102 => 1
  | 4103 => 7
  | 4104 => 0x6c
  | _ => 0

def loopPart : PartDescr := ⟨DiskDescr.ofImage loopImage, 0, 16⟩

def LoopMount (fs : ExtFilesystem) (root : Ext2fsNode) (log : Log) : Prop :=
  let r := fileCalls fs [0x6c] .diropen .reg 2 2 (World.mounted root log)
  links r.1 = 8 ∧ targets r.1 = 7 ∧ r.2.toOption.isSome = true

instance (fs : ExtFilesystem) (root : Ext2fsNode) (log : Log) :
    Decidable (LoopMount fs root log) := by
  unfold LoopMount
  infer_instance

theorem loopPart_mounts :
    ∃ fs root log, ext4fsMount (fun _ => 0) loopPart [] = .ok (some (fs, root), log) ∧
      LoopMount fs root log := by
  apply mount_of_check
  decide +kernel

/-- Eight links are met in the loop, and seven targets are read. -/
theorem ext4fsFindFile_ends_loop :
    ∃ fs root log, ext4fsMount (fun _ => 0) loopPart [] = .ok (some (fs, root), log) ∧
      let w := World.mounted root log
      let calls := fun fuel steps => fileCalls fs [0x6c] .diropen .reg fuel steps
      links (calls 2 2 w).1 = 8 ∧ targets (calls 2 2 w).1 = 7 ∧
      (∃ n, ext4fsFindFile fs n n [0x6c] .diropen .reg w ≠ .error .outOfFuel) ∧
      ∀ fuel steps, erase (calls fuel steps) =
          ext4fsFindFile fs fuel steps [0x6c] .diropen .reg ∧
        targets (calls fuel steps w).1 ≤ 7 ∧
        (8 ≤ links (calls fuel steps w).1 →
          ∀ r w', ext4fsFindFile fs fuel steps [0x6c] .diropen .reg w = .ok (r, w') →
            r = (false, none)) := by
  obtain ⟨fs, root, log, hmount, hlinks, htargets, hreturns⟩ := loopPart_mounts
  have hends := (fileCalls_settles fs [0x6c] .diropen .reg (World.mounted root log)).ends_iff.mp
    ⟨2, fun hout => by simp [hout, Except.toOption] at hreturns⟩
  exact ⟨fs, root, log, hmount, hlinks, htargets, ext4fsFindFile_ends fs [0x6c] .diropen .reg _
    fun n dir name w' hc => hends n (.scan dir name, w') hc⟩

end Eokan.LinkEnds
