import Mathlib.Algebra.BigOperators.Group.List.Basic
import Mathlib.Data.UInt
import Mathlib.Logic.Function.Basic

/-!
A volume that is only read, as its users see it. Paths lead to files, and files
have bytes. What is kept between two commands is the file of each handle. Nothing
here says how a file is found or where its bytes are.
-/
namespace Eokan.Volumes

/-- The files that paths lead to, and what is known without opening any. -/
structure Volume (π φ κ ι : Type) where
  file : π → Option φ
  size : φ → ℕ
  content : φ → ℕ → UInt8
  info : κ → ι

/-- A handle without a file has the size that the caller had put there. -/
inductive Command (π κ : Type)
  | openFile (handle : ℕ) (path : π)
  | drop (handle : ℕ)
  | read (handle pos len : ℕ)
  | size (handle unset : ℕ)
  | query (question : κ)

inductive Answer (ι : Type)
  | done
  | bytes (content : Option (List UInt8))
  | size (size : ℕ)
  | info (info : ι)

/-- The open file of each handle. -/
abbrev Files (φ : Type) := ℕ → Option φ

variable {π φ κ ι : Type}

def Command.handle : Command π κ → Option ℕ
  | .openFile handle _ => some handle
  | .drop handle => some handle
  | .read handle _ _ => some handle
  | .size handle _ => some handle
  | .query _ => none

/-- The answers to the commands for one handle. -/
def answersOf (handle : ℕ) : List (Command π κ) → List (Answer ι) → List (Answer ι)
  | command :: commands, answer :: answers =>
    if command.handle = some handle then answer :: answersOf handle commands answers
    else answersOf handle commands answers
  | _, _ => []

/-- The bytes that are read, one piece after the other. -/
def bytesOf : List (Answer ι) → List UInt8
  | [] => []
  | .bytes (some content) :: answers => content ++ bytesOf answers
  | _ :: answers => bytesOf answers

/-- A file read in pieces of these lengths. -/
def pieces (handle : ℕ) : ℕ → List ℕ → List (Command π κ)
  | _, [] => []
  | pos, len :: lens => .read handle pos len :: pieces handle (pos + len) lens

namespace Volume
variable (v : Volume π φ κ ι)

/-- The bytes of a file from a position on. -/
def range (file : φ) (pos len : ℕ) : List UInt8 :=
  (List.range len).map fun j => v.content file (pos + j)

def step (files : Files φ) : Command π κ → Answer ι × Files φ
  | .openFile handle path => (.done, Function.update files handle (v.file path))
  | .drop handle => (.done, Function.update files handle none)
  | .read handle pos len => (.bytes ((files handle).map fun file => v.range file pos len), files)
  | .size handle unset => (.size ((files handle).elim unset v.size), files)
  | .query question => (.info (v.info question), files)

def run : Files φ → List (Command π κ) → List (Answer ι) × Files φ
  | files, [] => ([], files)
  | files, command :: commands =>
    let (answer, files) := v.step files command
    let (answers, files) := run files commands
    (answer :: answers, files)

/-- A read is of bytes that the file has. -/
def Inside (files : Files φ) : Command π κ → Prop
  | .read handle pos len => ∀ file, files handle = some file → 1 ≤ len ∧ pos + len ≤ v.size file
  | _ => True

/-- All reads of a run are of bytes that the files have. -/
def Fits : Files φ → List (Command π κ) → Prop
  | _, [] => True
  | files, command :: commands =>
    v.Inside files command ∧ Fits (v.step files command).2 commands

theorem range_append (file : φ) (pos len len' : ℕ) :
    v.range file pos len ++ v.range file (pos + len) len' = v.range file pos (len + len') := by
  unfold range
  rw [List.range_add, List.map_append, List.map_map]
  simp [Function.comp_def, Nat.add_assoc]

theorem step_other {files : Files φ} {command : Command π κ} {handle : ℕ}
    (h : command.handle ≠ some handle) : (v.step files command).2 handle = files handle := by
  cases command with
  | openFile other path =>
    have hne : handle ≠ other := fun heq => h (by rw [heq]; rfl)
    exact Function.update_of_ne hne _ _
  | drop other =>
    have hne : handle ≠ other := fun heq => h (by rw [heq]; rfl)
    exact Function.update_of_ne hne _ _
  | read other pos len => rfl
  | size other unset => rfl
  | query question => rfl

/-- A command for a handle looks at the file of this handle. -/
theorem step_own {files files' : Files φ} {command : Command π κ} {handle : ℕ}
    (h : command.handle = some handle) (hsame : files handle = files' handle) :
    (v.step files command).1 = (v.step files' command).1 ∧
      (v.step files command).2 handle = (v.step files' command).2 handle := by
  cases command with
  | openFile other path =>
    cases h
    simp [step]
  | drop other =>
    cases h
    simp [step]
  | read other pos len =>
    cases h
    simp [step, hsame]
  | size other unset =>
    cases h
    simp [step, hsame]
  | query question => cases h

/-- The commands for other handles in between make no difference to a handle. -/
theorem run_handle (handle : ℕ) (commands : List (Command π κ)) {files files' : Files φ}
    (hsame : files handle = files' handle) :
    answersOf handle commands (v.run files commands).1 =
      (v.run files' (commands.filter (·.handle = some handle))).1 := by
  induction commands generalizing files files' with
  | nil => rfl
  | cons command commands ih =>
    rw [run, answersOf]
    by_cases hown : command.handle = some handle
    · obtain ⟨hanswer, hfile⟩ := v.step_own hown hsame
      rw [if_pos hown, List.filter_cons_of_pos (by simpa using hown), run]
      dsimp only
      rw [hanswer, ih hfile]
    · rw [if_neg hown, List.filter_cons_of_neg (by simpa using hown)]
      exact ih ((v.step_other hown).trans hsame)

theorem run_append (files : Files φ) (commands commands' : List (Command π κ)) :
    v.run files (commands ++ commands') =
      ((v.run files commands).1 ++ (v.run (v.run files commands).2 commands').1,
        (v.run (v.run files commands).2 commands').2) := by
  induction commands generalizing files with
  | nil => rfl
  | cons command commands ih =>
    rw [List.cons_append, run, run]
    dsimp only
    rw [ih]
    rfl

/-- The pieces of a file are the range that they make up. -/
theorem run_pieces {handle : ℕ} {file : φ} (pos : ℕ) (lens : List ℕ) {files : Files φ}
    (hfile : files handle = some file) (answers : List (Answer ι)) :
    bytesOf ((v.run files (pieces handle pos lens)).1 ++ answers) =
        v.range file pos lens.sum ++ bytesOf answers ∧
      (v.run files (pieces handle pos lens)).2 = files := by
  induction lens generalizing pos with
  | nil => exact ⟨rfl, rfl⟩
  | cons len lens ih =>
    obtain ⟨hbytes, hfiles⟩ := ih (pos + len)
    refine ⟨?_, hfiles⟩
    rw [pieces, run]
    dsimp only [step]
    rw [hfile, Option.map_some, List.cons_append, bytesOf, hbytes, List.sum_cons,
      ← List.append_assoc, range_append]

/-- A client opens a file, asks for its size, reads it piece by piece and closes it. -/
def copyCommands (handle : ℕ) (path : π) (unset : ℕ) (lens : List ℕ) : List (Command π κ) :=
  .openFile handle path :: .size handle unset :: (pieces handle 0 lens ++ [.drop handle])

/-- Whatever else is done in between, a client copies the file that it opened. -/
theorem copy_run {handle : ℕ} {path : π} {file : φ} (hfile : v.file path = some file) (unset : ℕ)
    (lens : List ℕ) (hsum : lens.sum = v.size file) {commands : List (Command π κ)}
    (hcommands : commands.filter (·.handle = some handle) = copyCommands handle path unset lens)
    (files : Files φ) :
    bytesOf (answersOf handle commands (v.run files commands).1) =
      v.range file 0 (v.size file) := by
  have hopen : Function.update files handle (v.file path) handle = some file := by simp [hfile]
  obtain ⟨hbytes, -⟩ := v.run_pieces 0 lens hopen
    (v.run (v.run (Function.update files handle (v.file path)) (pieces handle 0 lens)).2
      [.drop handle]).1
  rw [v.run_handle handle commands rfl, hcommands]
  unfold copyCommands
  dsimp only [run, step]
  rw [run_append]
  dsimp only [bytesOf]
  rw [hbytes, hsum]
  exact List.append_nil _

end Volume

end Eokan.Volumes
