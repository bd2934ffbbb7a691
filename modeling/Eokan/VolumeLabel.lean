import Eokan.Directory
import Eokan.FileMaps
import Mathlib.Data.List.TakeWhile
import Mathlib.Data.Nat.Digits.Lemmas

/-!
The label of a volume. It has sixteen bytes of its own in the superblock, but it
is printed up to the first zero, and behind it comes the place where the volume
was mounted last. A volume without a label is named by its id.
-/
namespace Eokan.VolumeLabel

open ByteMem Device Layout FileMaps Directory

/-- These bytes of a structure. -/
def field (raw : Bytes) (pos n : ℕ) : List UInt8 := (List.range n).map (slice raw pos)

theorem field_length (raw : Bytes) (pos n : ℕ) : (field raw pos n).length = n := by
  simp [field]

theorem field_add (raw : Bytes) (pos n m : ℕ) :
    field raw pos (n + m) = field raw pos n ++ field raw (pos + n) m := by
  simp [field, List.range_add, slice, Nat.add_assoc]

def volumeName (sb : Ext2Sblock) : List UInt8 := field sb.raw 120 16

def lastMountedOn (sb : Ext2Sblock) : List UInt8 := field sb.raw 136 64

def uniqueId (sb : Ext2Sblock) (i : ℕ) : ℕ := le32 sb.raw (104 + 4 * i)

def hexDigit (d : ℕ) : UInt8 := if d < 10 then UInt8.ofNat (48 + d) else UInt8.ofNat (55 + d)

/-- %04X -/
def hex4 (n : ℕ) : List UInt8 := ((Nat.digits 16 n).reverse.map hexDigit).leftpad 4 0x30

def dash : UInt8 := 0x2d

def idText (id : ℕ → ℕ) : List UInt8 :=
  hex4 (id 0) ++ dash :: (hex4 (id 1) ++ dash :: (hex4 (id 2) ++ dash :: hex4 (id 3)))

/-- What is printed is cut off so that a zero fits in behind it. The length of
all of it is returned. -/
def snprintf (buf : Bytes) (buflen : ℕ) (text : List UInt8) : ℤ × Bytes :=
  let printed := text.take (buflen - 1)
  (text.length,
    if buflen = 0 then buf else write buf 0 (printed.length + 1) fun j => printed.getD j 0)

section Code
variable (sb : Option Ext2Sblock) (fs : ExtFilesystem)

/-- The superblock of the root unless the file system has one of its own. -/
def labelSblock : Ext2Sblock := sb.getD fs.sblock

/-- The string from the name on. Up to the end of the superblock it has 84 bytes. -/
def nameString (sb : Ext2Sblock) : Except Fault (List UInt8) :=
  let name := cString (slice sb.raw 120) 84
  if name.length < 84 then .ok name else .error .outOfBounds

def labelString (sb : Ext2Sblock) : Except Fault (List UInt8) :=
  if sb.raw 120 ≠ 0 then nameString sb else .ok (idText (uniqueId sb))

def ext4fsLabel (buf : Bytes) (buflen : ℕ) : Except Fault (ℤ × Bytes) := do
  let text ← labelString (labelSblock sb fs)
  let (nsize, buf) := snprintf buf buflen text
  pure (if nsize > buflen then (buflen : ℤ) else nsize, buf)

def vfsLabel (buf : Bytes) (buflen : ℕ) : Except Fault (ℤ × Bytes) := ext4fsLabel sb fs buf buflen

/-- The text that is in the buffer afterwards. -/
def labelText (buf : Bytes) (buflen : ℕ) : Except Fault (List UInt8) :=
  (vfsLabel sb fs buf buflen).map fun r => cString r.2 buflen

end Code

/-- What the text is meant to be: the name up to its end, or the id. -/
def labelOf (name : List UInt8) (id : ℕ → ℕ) : List UInt8 :=
  if name.head? = some 0 then idText id else name.takeWhile (· ≠ 0)

/-- The same name and the same id. -/
def Agree (sb sb' : Ext2Sblock) : Prop :=
  volumeName sb = volumeName sb' ∧ ∀ i < 4, uniqueId sb i = uniqueId sb' i

theorem Agree.labelOf_eq {sb sb' : Ext2Sblock} (h : Agree sb sb') :
    labelOf (volumeName sb) (uniqueId sb) = labelOf (volumeName sb') (uniqueId sb') := by
  obtain ⟨hname, hid⟩ := h
  have htext : idText (uniqueId sb) = idText (uniqueId sb') := by
    unfold idText
    rw [hid 0 (by decide), hid 1 (by decide), hid 2 (by decide), hid 3 (by decide)]
  unfold labelOf
  rw [hname, htext]

section Strings

theorem cString_terminated {buf : Bytes} {n : ℕ} {text : List UInt8} (hnul : 0 ∉ text)
    (hlt : text.length < n) (hbuf : ∀ i (hi : i < text.length), buf i = text[i])
    (hend : buf text.length = 0) : cString buf n = text := by
  obtain ⟨rest, rfl⟩ := Nat.exists_eq_add_of_lt hlt
  have hpass : ∀ b ∈ text, decide (b ≠ 0) = true := by
    intro b hb
    exact decide_eq_true fun hzero => hnul (hzero ▸ hb)
  unfold cString
  rw [Nat.add_assoc, List.range_add, List.map_append, map_range_eq hbuf,
    List.takeWhile_append_of_pos hpass, List.range_succ_eq_map]
  simp [hend]

/-- A text without a zero can be read from the buffer, as far as it fits in. -/
theorem cString_snprintf (buf : Bytes) {buflen : ℕ} (hpos : 0 < buflen) {text : List UInt8}
    (hnul : 0 ∉ text) : cString (snprintf buf buflen text).2 buflen = text.take (buflen - 1) := by
  have hshort : (text.take (buflen - 1)).length < buflen := by
    rw [List.length_take]
    omega
  unfold snprintf
  dsimp only
  rw [if_neg (by omega)]
  apply cString_terminated (fun h => hnul (List.mem_of_mem_take h)) hshort
  · intro i hi
    rw [write_of_mem _ 0 _ _ (Nat.zero_le i) (by omega), Nat.sub_zero,
      List.getD_eq_getElem _ 0 hi]
  · rw [write_of_mem _ 0 _ _ (Nat.zero_le _) (by omega)]
    simp

theorem hexDigit_ne_zero {d : ℕ} (hd : d < 16) : hexDigit d ≠ 0 := by
  have hall : ∀ d < 16, hexDigit d ≠ 0 := by decide
  exact hall d hd

theorem hex4_nul (n : ℕ) : 0 ∉ hex4 n := by
  unfold hex4 List.leftpad
  intro h
  rcases List.mem_append.mp h with hpad | hdigit
  · exact absurd (List.eq_of_mem_replicate hpad) (by decide)
  · obtain ⟨d, hd, hzero⟩ := List.mem_map.mp hdigit
    exact hexDigit_ne_zero (Nat.digits_lt_base (by decide) (List.mem_reverse.mp hd)) hzero

theorem hex4_length {n : ℕ} (hn : n < 2 ^ 32) : (hex4 n).length ≤ 8 := by
  have hdigits : (Nat.digits 16 n).length ≤ 8 :=
    (Nat.digits_length_le_iff (by decide) n).mpr (by omega)
  unfold hex4
  rw [List.length_leftpad, List.length_map, List.length_reverse]
  omega

theorem idText_nul (id : ℕ → ℕ) : 0 ∉ idText id := by
  have hdash : (0 : UInt8) ≠ dash := by decide
  simp [idText, hex4_nul, hdash]

theorem idText_length (sb : Ext2Sblock) : (idText (uniqueId sb)).length ≤ 35 := by
  have hlen : ∀ i, (hex4 (uniqueId sb i)).length ≤ 8 := fun i => hex4_length (le32_lt _ _)
  have h0 := hlen 0
  have h1 := hlen 1
  have h2 := hlen 2
  have h3 := hlen 3
  simp only [idText, List.length_append, List.length_cons]
  omega

end Strings

section Names
variable (sb : Ext2Sblock)

theorem length_takeWhile_lt {l : List UInt8} (h : 0 ∈ l) :
    (l.takeWhile (· ≠ 0)).length < l.length := by
  have hprefix := List.takeWhile_prefix (fun b : UInt8 => decide (b ≠ 0)) (l := l)
  refine Nat.lt_of_le_of_ne hprefix.length_le fun heq => ?_
  have hall := hprefix.eq_of_length heq
  rw [← hall] at h
  exact absurd (List.mem_takeWhile_imp h) (by decide)

/-- A name with a zero in it ends there. -/
theorem nameString_short (hshort : 0 ∈ volumeName sb) :
    nameString sb = .ok ((volumeName sb).takeWhile (· ≠ 0)) := by
  have hlt := length_takeWhile_lt hshort
  have hlen : (volumeName sb).length = 16 := field_length sb.raw 120 16
  have hstring : cString (slice sb.raw 120) 84 = (volumeName sb).takeWhile (· ≠ 0) := by
    change (field sb.raw 120 (16 + 68)).takeWhile _ = _
    rw [field_add, List.takeWhile_append]
    exact if_neg (Nat.ne_of_lt hlt)
  unfold nameString
  dsimp only
  rw [hstring, if_pos (by omega)]

/-- A full name goes on with the bytes behind it. -/
theorem nameString_full (hfull : 0 ∉ volumeName sb) :
    nameString sb =
      if ((field sb.raw 136 68).takeWhile (· ≠ 0)).length < 68 then
        .ok (volumeName sb ++ (field sb.raw 136 68).takeWhile (· ≠ 0))
      else .error .outOfBounds := by
  have hlen : (volumeName sb).length = 16 := field_length sb.raw 120 16
  have hstring : cString (slice sb.raw 120) 84 =
      volumeName sb ++ (field sb.raw 136 68).takeWhile (· ≠ 0) := by
    change (field sb.raw 120 (16 + 68)).takeWhile _ = _
    rw [field_add, List.takeWhile_append]
    exact if_pos (congrArg List.length (takeWhile_nul hfull))
  unfold nameString
  dsimp only
  rw [hstring, List.length_append, hlen]
  split
  · rw [if_pos (by omega)]
  · rw [if_neg (by omega)]

theorem volumeName_head : (volumeName sb).head? = some (sb.raw 120) := rfl

theorem lastMountedOn_head : (lastMountedOn sb).head? = some (sb.raw 136) := rfl

theorem labelString_nul {text : List UInt8} (h : labelString sb = .ok text) : 0 ∉ text := by
  unfold labelString nameString at h
  dsimp only at h
  split at h
  · split at h
    · cases h
      exact fun hzero => absurd (List.mem_takeWhile_imp hzero) (by decide)
    · cases h
  · cases h
    exact idText_nul _

theorem labelOf_full (hfull : 0 ∉ volumeName sb) :
    labelOf (volumeName sb) (uniqueId sb) = volumeName sb := by
  have hname : sb.raw 120 ≠ 0 := fun h => hfull (h ▸ List.mem_cons_self)
  unfold labelOf
  rw [volumeName_head, if_neg fun h => hname (Option.some.inj h)]
  exact takeWhile_nul hfull

variable {n : ℕ} (hn : 63 ≤ n)
include hn

/-- A label that ends inside its own bytes is printed up to there. -/
theorem labelString_short (hshort : 0 ∈ volumeName sb) :
    (labelString sb).map (·.take n) = .ok (labelOf (volumeName sb) (uniqueId sb)) := by
  have hlt := length_takeWhile_lt hshort
  rw [show (volumeName sb).length = 16 from field_length _ 120 16] at hlt
  have hid := idText_length sb
  unfold labelString labelOf
  rw [volumeName_head]
  by_cases hempty : sb.raw 120 = 0
  · rw [if_neg (not_not_intro hempty), if_pos (congrArg some hempty)]
    exact congrArg Except.ok (List.take_of_length_le (by omega))
  · rw [if_pos hempty, if_neg fun h => hempty (Option.some.inj h), nameString_short sb hshort]
    exact congrArg Except.ok (List.take_of_length_le (by omega))

/-- A full one goes on with the place of the last mount. -/
theorem labelString_full_iff (hfull : 0 ∉ volumeName sb) :
    (labelString sb).map (·.take n) = .ok (labelOf (volumeName sb) (uniqueId sb)) ↔
      sb.raw 136 = 0 := by
  have hname : sb.raw 120 ≠ 0 := fun h => hfull (h ▸ List.mem_cons_self)
  have hsize : (volumeName sb).length = 16 := field_length _ 120 16
  have hfield : field sb.raw 136 68 = sb.raw 136 :: field sb.raw 137 67 := field_add _ 136 1 67
  rw [labelOf_full sb hfull, labelString, if_pos hname, nameString_full sb hfull]
  by_cases hend : sb.raw 136 = 0
  · have hrest : (field sb.raw 136 68).takeWhile (· ≠ 0) = [] := by simp [hfield, hend]
    rw [hrest, if_pos (by decide), List.append_nil]
    exact iff_of_true (congrArg Except.ok (List.take_of_length_le (by omega))) hend
  · have hrest : 0 < ((field sb.raw 136 68).takeWhile (· ≠ 0)).length := by simp [hfield, hend]
    refine iff_of_false (fun htext => ?_) hend
    split at htext
    · have hlength := congrArg List.length (Except.ok.inj htext)
      rw [List.length_take, List.length_append] at hlength
      omega
    · cases htext

end Names

/-- A superblock with this first byte of the place of the last mount. -/
def withMounted (sb : Ext2Sblock) (b : UInt8) : Ext2Sblock :=
  ⟨fun j => if j = 136 then b else sb.raw j⟩

theorem withMounted_agree (sb : Ext2Sblock) (b : UInt8) : Agree sb (withMounted sb b) := by
  have hsame : ∀ j < 136, (withMounted sb b).raw j = sb.raw j := fun j hj => if_neg (by omega)
  constructor
  · refine List.map_congr_left fun i hi => ?_
    have hi16 := List.mem_range.mp hi
    exact (hsame (120 + i) (by omega)).symm
  · intro i hi
    exact le32_congr fun j hj => (hsame (104 + 4 * i + j) (by omega)).symm

section Texts
variable (sb : Option Ext2Sblock) (fs : ExtFilesystem) (buf : Bytes) {buflen : ℕ}

/-- As much of the string as fits is in the buffer. -/
theorem labelText_eq (hpos : 0 < buflen) :
    labelText sb fs buf buflen = (labelString (labelSblock sb fs)).map (·.take (buflen - 1)) := by
  unfold labelText vfsLabel ext4fsLabel
  cases hstring : labelString (labelSblock sb fs) with
  | error e => rfl
  | ok text =>
    exact congrArg Except.ok (cString_snprintf buf hpos (labelString_nul _ hstring))

/-- The text is the label if that ends within its sixteen bytes or nothing is
behind it, and it depends on nothing else just if the label ends within them. -/
theorem vfsLabel_independent_iff (hlen : 64 ≤ buflen) :
    (labelText sb fs buf buflen =
        .ok (labelOf (volumeName (labelSblock sb fs)) (uniqueId (labelSblock sb fs))) ↔
      0 ∈ volumeName (labelSblock sb fs) ∨ (lastMountedOn (labelSblock sb fs)).head? = some 0) ∧
    ((∀ sb' fs', Agree (labelSblock sb fs) (labelSblock sb' fs') →
        labelText sb' fs' buf buflen = labelText sb fs buf buflen) ↔
      0 ∈ volumeName (labelSblock sb fs)) := by
  have hn : 63 ≤ buflen - 1 := by omega
  rw [lastMountedOn_head, Option.some_inj]
  simp only [fun sb fs => labelText_eq sb fs buf (show 0 < buflen by omega)]
  by_cases hshort : 0 ∈ volumeName (labelSblock sb fs)
  · have htext := labelString_short _ hn hshort
    refine ⟨iff_of_true htext (Or.inl hshort), iff_of_true (fun sb' fs' hagree => ?_) hshort⟩
    rw [htext, labelString_short _ hn (hagree.1 ▸ hshort), hagree.labelOf_eq]
  · refine ⟨?_, iff_of_false (fun hsame => ?_) hshort⟩
    · rw [labelString_full_iff _ hn hshort]
      exact (or_iff_right hshort).symm
    · have hends := withMounted_agree (labelSblock sb fs) 0
      have hgoes := withMounted_agree (labelSblock sb fs) 1
      have hsame0 := hsame (some (withMounted (labelSblock sb fs) 0)) fs hends
      have hsame1 := hsame (some (withMounted (labelSblock sb fs) 1)) fs hgoes
      have htext := (labelString_full_iff _ hn (hends.1 ▸ hshort)).mpr rfl
      have hlabels := hends.labelOf_eq.symm.trans hgoes.labelOf_eq
      have hzero := (labelString_full_iff _ hn (hgoes.1 ▸ hshort)).mp
        ((hsame1.trans hsame0.symm).trans (htext.trans (congrArg Except.ok hlabels)))
      exact absurd (show (1 : UInt8) = 0 from hzero) (by decide)

end Texts

/-- The label is sixteen times an A, and behind it is a slash. -/
def fullSblock : Ext2Sblock := ⟨fun j =>
  if 120 ≤ j ∧ j < 136 then 0x41 else if j = 136 then 0x2f else 0⟩

theorem vfsLabel_independent_iff_full :
    (labelText (some fullSblock) (smallFs fun _ => 0) (fun _ => 0) 260 =
        .ok (labelOf (volumeName fullSblock) (uniqueId fullSblock)) ↔
      0 ∈ volumeName fullSblock ∨ (lastMountedOn fullSblock).head? = some 0) ∧
    ((∀ sb' fs', Agree fullSblock (labelSblock sb' fs') →
        labelText sb' fs' (fun _ => 0) 260 =
          labelText (some fullSblock) (smallFs fun _ => 0) (fun _ => 0) 260) ↔
      0 ∈ volumeName fullSblock) :=
  vfsLabel_independent_iff (some fullSblock) (smallFs fun _ => 0) (fun _ => 0) (by decide)

/-- The slash is printed too, and it is not if nothing was mounted. -/
theorem full_label_goes_on :
    Agree fullSblock (withMounted fullSblock 0) ∧
      labelText (some fullSblock) (smallFs fun _ => 0) (fun _ => 0) 260 =
        .ok (List.replicate 16 0x41 ++ [0x2f]) ∧
      labelText (some (withMounted fullSblock 0)) (smallFs fun _ => 0) (fun _ => 0) 260 =
        .ok (List.replicate 16 0x41) := by
  refine ⟨withMounted_agree fullSblock 0, ?_, ?_⟩
  · decide +kernel
  · decide +kernel

end Eokan.VolumeLabel
