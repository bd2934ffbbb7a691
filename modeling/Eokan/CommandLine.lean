import Mathlib.Algebra.Group.Int.Defs
import Mathlib.Data.Int.Basic
import Mathlib.Data.List.TakeWhile

/-!
Command lines. The service starts one process for each partition, with the
number of the partition and the path of the disk in the command line of the
process. What that process makes of its command line is compared with them.
-/
namespace Eokan.CommandLine

abbrev Text := List Char

def isBlank (c : Char) : Bool := c = ' ' || c = '\t'

/-- The arguments that a process gets. There are no quotes in a path, and none in the
format of the command line. -/
def arguments (cmdline : Text) : List Text :=
  (cmdline.splitOnP isBlank).filter fun word => word ≠ []

/-- What is printed for `%d`. -/
def decimal : ℤ → Text
  | .ofNat n => Nat.toDigits 10 n
  | .negSucc n => '-' :: Nat.toDigits 10 (n + 1)

def isSpace (c : Char) : Bool := c ∈ [' ', '\t', '\n', '\x0b', '\x0c', '\r']

def digitsValue (digits : Text) : ℕ := Nat.ofDigitChars 10 (digits.takeWhile Char.isDigit) 0

def signedValue : Text → ℤ
  | '-' :: digits => -(digitsValue digits : ℤ)
  | '+' :: digits => digitsValue digits
  | digits => digitsValue digits

/-- A number that is no `int` has no defined result. -/
def atoi (text : Text) : Option ℤ :=
  let value := signedValue (text.dropWhile isSpace)
  if -2 ^ 31 ≤ value ∧ value < 2 ^ 31 then some value else none

structure LongOption where
  name : Text
  requiredArgument : Bool
  val : Char

def longOptions : List LongOption :=
  [⟨"help".toList, false, 'h'⟩,
    ⟨"disk".toList, true, 'd'⟩,
    ⟨"part".toList, true, 'p'⟩,
    ⟨"install".toList, false, 'i'⟩,
    ⟨"remove".toList, false, 'r'⟩,
    ⟨"umount".toList, true, 'u'⟩,
    ⟨"mountpoint".toList, true, 'm'⟩,
    ⟨"service".toList, false, 's'⟩]

def shortOptions : Text := "hird:p:u:sm:".toList

/-- An option, with its argument or nothing. -/
abbrev Opt := Char × Text

def unknown : Opt := ('?', [])

/-- Whether an option takes an argument: a colon behind it says so. -/
def findShort (c : Char) : Text → Option Bool
  | [] => none
  | o :: rest => if o = c ∧ c ≠ ':' then some (rest.head? = some ':') else findShort c rest

/-- The name of a long option may be cut short, as long as it stands for one. -/
def findLong (name : Text) : Option LongOption :=
  match longOptions.filter fun o => o.name = name with
  | o :: _ => some o
  | [] =>
    match longOptions.filter fun o => name.isPrefixOf o.name with
    | [o] => some o
    | _ => none

/-- The options of one argument, and the one that takes the next argument. -/
def shortCluster : Text → List Opt × Option Char
  | [] => ([], none)
  | c :: rest =>
    match findShort c shortOptions with
    | none => (unknown :: (shortCluster rest).1, (shortCluster rest).2)
    | some false => ((c, []) :: (shortCluster rest).1, (shortCluster rest).2)
    | some true => if rest = [] then ([], some c) else ([(c, rest)], none)

def longOption (argument : Text) : List Opt × Option Char :=
  let name := argument.takeWhile (· ≠ '=')
  let value := argument.dropWhile (· ≠ '=')
  match findLong name with
  | none => ([unknown], none)
  | some o =>
    if o.requiredArgument then
      match value with
      | [] => ([], some o.val)
      | _ :: value => ([(o.val, value)], none)
    else if value = [] then ([(o.val, [])], none)
    else ([unknown], none)

def parseOption : Text → List Opt × Option Char
  | '-' :: '-' :: argument => longOption argument
  | _ :: cluster => shortCluster cluster
  | [] => ([], none)

/-- The options, and the arguments that are none, wherever they stand. -/
def getoptLong : Option Char → List Text → List Opt × List Text
  | some c, argument :: rest =>
    ((c, argument) :: (getoptLong none rest).1, (getoptLong none rest).2)
  | some _, [] => ([unknown], [])
  | none, [] => ([], [])
  | none, argument :: rest =>
    if argument = ['-', '-'] then ([], rest)
    else if argument.head? = some '-' ∧ argument ≠ ['-'] then
      let (options, pending) := parseOption argument
      (options ++ (getoptLong pending rest).1, (getoptLong pending rest).2)
    else ((getoptLong none rest).1, argument :: (getoptLong none rest).2)

/-- What the options set. A drive is the first letter of its argument. -/
structure Settings where
  diskType : Text
  part : Option ℤ
  iflag : Bool
  rflag : Bool
  uflag : Option Char
  sflag : Bool
  mflag : Option Char
  deriving DecidableEq

/-- The type of the disks of the service, and of a disk whose type is not said. -/
def physicalType : Text := "physical".toList

def Settings.default : Settings where
  diskType := physicalType
  part := some 1
  iflag := false
  rflag := false
  uflag := none
  sflag := false
  mflag := none

def Settings.set (s : Settings) (option : Opt) : Settings :=
  match option.1 with
  | 'd' => { s with diskType := option.2 }
  | 'p' => { s with part := atoi option.2 }
  | 'i' => { s with iflag := true }
  | 'r' => { s with rflag := true }
  | 'u' => { s with uflag := option.2.head? }
  | 's' => { s with sflag := true }
  | 'm' => { s with mflag := option.2.head? }
  | _ => s

/-- The settings and the rest of the arguments. Nothing else is done if there is an
option that asks for help. -/
def parseArguments (argv : List Text) : Option (Settings × List Text) :=
  let (options, operands) := getoptLong none argv.tail
  if 'h' ∈ options.map Prod.fst then none
  else some (options.foldl Settings.set .default, operands)

def maxPath : ℕ := 260

def physicalDrive : Text := "\\\\.\\PhysicalDrive".toList

/-- The path of a drive in the loop of the service. -/
def drivePath (n : ℕ) : Text := (physicalDrive ++ decimal n).take (maxPath - 1)

/-- The command line that create_eokan_process makes. -/
def eokanCmdline (szPath : Text) (part : ℤ) (path : Text) : Text :=
  (szPath ++ " -p ".toList ++ decimal part ++ ' ' :: path).take (maxPath * 2 - 1)

/-- A word of a command line, which is no option. -/
structure Plain (word : Text) : Prop where
  unbroken : ∀ c ∈ word, isBlank c = false
  operand : word.head? ≠ some '-'
  some : word ≠ []

theorem arguments_append (before after : Text) :
    arguments (before ++ ' ' :: after) = arguments before ++ arguments after := by
  unfold arguments
  rw [List.splitOnP_append_cons before after (by decide), List.filter_append]

theorem arguments_unbroken {word : Text} (hword : ∀ c ∈ word, isBlank c = false)
    (hsome : word ≠ []) : arguments word = [word] := by
  unfold arguments
  rw [List.splitOnP_eq_singleton hword]
  simp [hsome]

theorem digits_unbroken {n : ℕ} {c : Char} (h : c ∈ Nat.toDigits 10 n) :
    isBlank c = false ∧ isSpace c = false ∧ c ≠ '-' ∧ c ≠ '+' := by
  have hdigit := Nat.isDigit_of_mem_toDigits (by decide) (by decide) h
  have hother : ∀ d : Char, d.isDigit = false → c ≠ d := by
    rintro d hd rfl
    rw [hdigit] at hd
    cases hd
  simp [isBlank, isSpace, hother]

theorem decimal_unbroken (part : ℤ) : (∀ c ∈ decimal part, isBlank c = false) ∧
    decimal part ≠ [] := by
  cases part with
  | ofNat n => exact ⟨fun c hc => (digits_unbroken hc).1, Nat.toDigits_ne_nil⟩
  | negSucc n =>
    refine ⟨fun c hc => ?_, List.cons_ne_nil _ _⟩
    rcases List.mem_cons.mp hc with rfl | hc
    · decide
    · exact (digits_unbroken hc).1

theorem digitsValue_toDigits (n : ℕ) : digitsValue (Nat.toDigits 10 n) = n := by
  have hall : ∀ c ∈ Nat.toDigits 10 n, c.isDigit = true := fun c hc =>
    Nat.isDigit_of_mem_toDigits (by decide) (by decide) hc
  unfold digitsValue
  rw [List.takeWhile_eq_self_iff.mpr hall]
  exact Nat.ofDigitChars_toDigits (by decide) (by decide)

/-- Any number that fits comes back. -/
theorem atoi_decimal {part : ℤ} (hpart : -2 ^ 31 ≤ part ∧ part < 2 ^ 31) :
    atoi (decimal part) = some part := by
  have hvalue : signedValue ((decimal part).dropWhile isSpace) = part := by
    cases part with
    | ofNat n =>
      have hdigits := digitsValue_toDigits n
      have hhead : ∀ c ∈ Nat.toDigits 10 n, isSpace c = false ∧ c ≠ '-' ∧ c ≠ '+' :=
        fun c hc => (digits_unbroken hc).2
      have hdecimal : decimal (Int.ofNat n) = Nat.toDigits 10 n := rfl
      cases htext : Nat.toDigits 10 n with
      | nil => exact absurd htext Nat.toDigits_ne_nil
      | cons c rest =>
        rw [htext] at hdigits hhead hdecimal
        obtain ⟨hspace, hminus, hplus⟩ := hhead c List.mem_cons_self
        rw [hdecimal, List.dropWhile_cons_of_neg (by simp [hspace])]
        have hsigned : signedValue (c :: rest) = (digitsValue (c :: rest) : ℤ) := by
          simp [signedValue, hminus, hplus]
        rw [hsigned, hdigits]
        rfl
    | negSucc n =>
      have hdigits := digitsValue_toDigits (n + 1)
      have hdecimal : decimal (Int.negSucc n) = '-' :: Nat.toDigits 10 (n + 1) := rfl
      rw [hdecimal, List.dropWhile_cons_of_neg (by decide)]
      change -(digitsValue (Nat.toDigits 10 (n + 1)) : ℤ) = Int.negSucc n
      rw [hdigits]
      rfl
  unfold atoi
  simp only [hvalue]
  exact if_pos hpart

theorem getoptLong_plain {words : List Text} (hwords : ∀ word ∈ words, word.head? ≠ some '-')
    (rest : List Text) : getoptLong none (words ++ rest) =
      ((getoptLong none rest).1, words ++ (getoptLong none rest).2) := by
  induction words with
  | nil => rfl
  | cons word words ih =>
    have hplain := hwords word List.mem_cons_self
    have hdash : word ≠ ['-', '-'] := by
      rintro rfl
      exact hplain rfl
    rw [List.cons_append, getoptLong, if_neg hdash, if_neg fun h => hplain h.1,
      ih fun word hmem => hwords word (List.mem_cons_of_mem _ hmem)]
    rfl

theorem arguments_eokanCmdline {szPath path : Text} {part : ℤ} (hpath : Plain path)
    (hfit : szPath.length + (decimal part).length + path.length + 5 ≤ 519) :
    arguments (eokanCmdline szPath part path) =
      arguments szPath ++ [['-', 'p'], decimal part, path] := by
  obtain ⟨hunbroken, hsome⟩ := decimal_unbroken part
  have hline : eokanCmdline szPath part path =
      szPath ++ ' ' :: (['-', 'p'] ++ ' ' :: (decimal part ++ ' ' :: path)) := by
    unfold eokanCmdline
    rw [List.take_of_length_le]
    · simp
    · simp [maxPath]
      omega
  rw [hline, arguments_append, arguments_append, arguments_append,
    arguments_unbroken hunbroken hsome, arguments_unbroken hpath.unbroken hpath.some]
  rfl

section Parsing
variable {szPath path : Text} {part : ℤ} (hpart : -2 ^ 31 ≤ part ∧ part < 2 ^ 31)
  (hpath : Plain path) (hfit : szPath.length + (decimal part).length + path.length + 5 ≤ 519)
include hpart hpath hfit

theorem parseArguments_eokanCmdline {program : Text} {more : List Text}
    (hprogram : arguments szPath = program :: more)
    (hmore : ∀ word ∈ more, word.head? ≠ some '-') :
    parseArguments (arguments (eokanCmdline szPath part path)) =
      some ({ Settings.default with part := some part }, more ++ [path]) := by
  have hlast : getoptLong none [path] = ([], [path]) := by
    have hrest : getoptLong none ([path] ++ []) = _ :=
      getoptLong_plain (by simpa using hpath.operand) []
    simpa [getoptLong] using hrest
  have hoptions : getoptLong none [['-', 'p'], decimal part, path] =
      ([('p', decimal part)], [path]) := by
    have hparse : parseOption ['-', 'p'] = ([], some 'p') := by decide
    rw [getoptLong, if_neg (by decide), if_pos (by decide), hparse]
    dsimp only
    rw [getoptLong, hlast]
    rfl
  rw [arguments_eokanCmdline hpath hfit, hprogram]
  unfold parseArguments
  rw [List.cons_append, List.tail_cons, getoptLong_plain hmore, hoptions]
  simp [Settings.set, atoi_decimal hpart]

theorem parses_one_word {program : Text} (hprogram : arguments szPath = [program]) :
    ∃ operands, parseArguments (arguments (eokanCmdline szPath part path)) =
        some ({ Settings.default with part := some part }, operands) ∧
      operands.head? = some path :=
  ⟨[path], parseArguments_eokanCmdline hpart hpath hfit hprogram (by simp), rfl⟩

/-- Whatever the number of the partition, the process that is started looks for that
partition. It looks for it on the disk it was started for if the path of the program is
one word, and if not, in the file that is named by the second word of that path. -/
theorem cmdline_parses {program : Text} {more : List Text}
    (hprogram : arguments szPath = program :: more)
    (hmore : ∀ word ∈ more, word.head? ≠ some '-') :
    ∃ operands, parseArguments (arguments (eokanCmdline szPath part path)) =
        some ({ Settings.default with part := some part }, operands) ∧
      operands.head? = some ((more.head?).getD path) := by
  refine ⟨more ++ [path], parseArguments_eokanCmdline hpart hpath hfit hprogram hmore, ?_⟩
  cases more with
  | nil => rfl
  | cons word more => rfl

end Parsing

/-- The path of a drive is one word, and short. -/
theorem drivePath_plain : ∀ n < 4, Plain (drivePath n) ∧ (drivePath n).length ≤ 20 := by
  have hpaths : ∀ n < 4, (drivePath n).any isBlank = false ∧
      (drivePath n).head? ≠ some '-' ∧ drivePath n ≠ [] ∧ (drivePath n).length ≤ 20 := by
    decide +kernel
  intro n hn
  obtain ⟨hunbroken, hoperand, hsome, hlength⟩ := hpaths n hn
  rw [List.any_eq_false] at hunbroken
  exact ⟨⟨fun c hc => by simpa using hunbroken c hc, hoperand, hsome⟩, hlength⟩

/-- A path with a blank in it. -/
def blankPath : Text := "C:\\My p\\e.exe".toList

/-- With a blank in the path of the program, another file is opened. -/
theorem cmdline_parses_blank :
    ∃ operands, parseArguments (arguments (eokanCmdline blankPath 2 (drivePath 0))) =
        some ({ Settings.default with part := some 2 }, operands) ∧
      operands.head? = some "p\\e.exe".toList := by
  obtain ⟨hplain, -⟩ := drivePath_plain 0 (by decide)
  have hwords : arguments blankPath =
      "C:\\My".toList :: ["p\\e.exe".toList] := by
    decide +kernel
  exact cmdline_parses (by decide) hplain (by decide +kernel) hwords (by decide +kernel)

end Eokan.CommandLine
