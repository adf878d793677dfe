import Mathlib.Data.List.Basic
import Mathlib.Algebra.Order.Ring.Int
import Mathlib.Data.List.DropRight

/-!
# File names (utils.c)

The library names a file by its decimal id and an extension, and reads the id back
with `strrchr` and `atoi`. Names are character lists. Every file of the library lies in
the data directory, so the rest of the model knows a file by the last component of its path.
-/

namespace Ccask.Model

abbrev Name := List Char

inductive FileExt where
  | unknown
  | data
  | hint
  | tempData
  deriving DecidableEq, Repr

/-- `build_filepath` answers NULL for FILE_UNKNOWN; no caller passes it. -/
def extChars : FileExt → Name
  | .unknown => []
  | .data => ['.', 'd', 'a', 't', 'a']
  | .hint => ['.', 'h', 'i', 'n', 't']
  | .tempData => ['.', 'd', 'a', 't', 'a', '.', 't', 'm', 'p']

/-- Last component of the path that `build_filepath` prints. -/
def fileName (id : Nat) (ext : FileExt) : Name := Nat.toDigits 10 id ++ extChars ext

/-- `build_filepath`. NULL for FILE_UNKNOWN; of an empty directory it reads the byte before it. -/
def buildFilepath (dir : Name) (id : Nat) (ext : FileExt) : Option Name :=
  if ext = .unknown then none
  else
    match dir.getLast? with
    | none => none
    | some last => some (dir ++ (if last = '/' then [] else ['/']) ++ fileName id ext)

/-- What `readdir` calls the file of a path. -/
def lastComponent (path : Name) : Name := path.rtakeWhile (· ≠ '/')

/-- `strrchr(name, '.')`: what stands before the last dot, and the rest from it on. -/
def splitLastDot : Name → Option (Name × Name)
  | [] => none
  | c :: cs =>
    match splitLastDot cs with
    | some (stem, dot) => some (c :: stem, dot)
    | none => if c = '.' then some ([], c :: cs) else none

def isSpace (c : Char) : Bool := c = ' ' || (9 ≤ c.toNat && c.toNat ≤ 13)

/-- `atoi` as the C library has it: `strtol` in 64 bits, saturating, cut to an `int`. -/
def atoi (s : Name) : Int :=
  let signed := s.dropWhile isSpace
  let digits (cs : Name) : Nat := Nat.ofDigitChars 10 (cs.takeWhile Char.isDigit) 0
  let long : Int := match signed with
    | '-' :: cs => max (-(digits cs : Int)) (-2 ^ 63)
    | '+' :: cs => min (digits cs : Int) (2 ^ 63 - 1)
    | cs => min (digits cs : Int) (2 ^ 63 - 1)
  Int.bmod long (2 ^ 32)

/-- `parse_filename`; a name without a dot has no defined result. -/
def parseFilename (name : Name) : Option (FileExt × Nat) :=
  match splitLastDot name with
  | none => none
  | some (stem, dot) =>
    let id := (atoi stem % 2 ^ 64).toNat
    if dot = extChars .tempData then some (.tempData, id)
    else if dot = extChars .data then some (.data, id)
    else if dot = extChars .hint then some (.hint, id)
    else some (.unknown, id)

theorem splitLastDot_append {stem rest : Name} (hs : '.' ∉ stem) {p d : Name}
    (hr : splitLastDot rest = some (p, d)) : splitLastDot (stem ++ rest) = some (stem ++ p, d) := by
  induction stem with
  | nil => exact hr
  | cons c cs ih =>
      simp only [List.mem_cons, not_or] at hs
      simp only [List.cons_append, splitLastDot, ih hs.2]

theorem dot_notMem_toDigits (id : Nat) : '.' ∉ Nat.toDigits 10 id := by
  intro h
  exact absurd (Nat.isDigit_of_mem_toDigits (by decide) (by decide) h) (by decide)

theorem takeWhile_toDigits (id : Nat) (rest : Name) (hr : rest.takeWhile Char.isDigit = []) :
    (Nat.toDigits 10 id ++ rest).takeWhile Char.isDigit = Nat.toDigits 10 id := by
  rw [List.takeWhile_append_of_pos
    (fun c hc => Nat.isDigit_of_mem_toDigits (by decide) (by decide) hc), hr, List.append_nil]

theorem extChars_takeWhile (ext : FileExt) : (extChars ext).takeWhile Char.isDigit = [] := by
  cases ext <;> decide

theorem extChars_injective : Function.Injective extChars := by
  intro a b h
  cases a <;> cases b <;> first | rfl | exact absurd h (by decide)

/-- No two files share a name. -/
@[simp] theorem fileName_inj {id id' : Nat} {ext ext' : FileExt} :
    fileName id ext = fileName id' ext' ↔ id = id' ∧ ext = ext' := by
  constructor
  · intro h
    have hd := congrArg (List.takeWhile Char.isDigit) h
    simp only [fileName] at hd h
    rw [takeWhile_toDigits id _ (extChars_takeWhile ext),
      takeWhile_toDigits id' _ (extChars_takeWhile ext')] at hd
    have hid : id = id' := by
      have := congrArg (Nat.ofDigitChars 10 · 0) hd
      simpa only [Nat.ofDigitChars_ten_toDigits] using this
    subst hid
    exact ⟨rfl, extChars_injective (List.append_cancel_left h)⟩
  · rintro ⟨rfl, rfl⟩
    rfl

theorem digit_not_space {c : Char} (h : c.isDigit = true) : isSpace c = false := by
  rw [Char.isDigit_iff_toNat] at h
  have hc : c ≠ ' ' := by
    rintro rfl
    exact absurd h.1 (by decide)
  have h48 : '0'.toNat = 48 := rfl
  simp only [isSpace, hc, decide_false, Bool.false_or, Bool.and_eq_false_iff, decide_eq_false_iff_not]
  omega

/-- `atoi` of a numeral, whatever non-digit follows it. -/
theorem atoi_numeral (id : Nat) (rest : Name) (hr : rest.takeWhile Char.isDigit = []) :
    atoi (Nat.toDigits 10 id ++ rest) = Int.bmod (min (id : Int) (2 ^ 63 - 1)) (2 ^ 32) := by
  obtain ⟨c, cs, hcs⟩ := List.exists_cons_of_ne_nil (Nat.toDigits_ne_nil (n := id) (b := 10))
  have hc : c.isDigit = true :=
    Nat.isDigit_of_mem_toDigits (b := 10) (n := id) (by decide) (by decide) (by rw [hcs]; simp)
  have hdrop : (Nat.toDigits 10 id ++ rest).dropWhile isSpace = c :: (cs ++ rest) := by
    rw [hcs, List.cons_append, List.dropWhile_cons_of_neg (by simp [digit_not_space hc])]
  have hdigits : Nat.ofDigitChars 10 ((c :: (cs ++ rest)).takeWhile Char.isDigit) 0 = id := by
    rw [← List.cons_append, ← hcs, takeWhile_toDigits id rest hr, Nat.ofDigitChars_ten_toDigits]
  have hminus : c ≠ '-' := by rintro rfl; exact absurd hc (by decide)
  have hplus : c ≠ '+' := by rintro rfl; exact absurd hc (by decide)
  simp only [atoi, hdrop]
  split
  · exact absurd (List.cons.inj ‹_›).1 hminus
  · exact absurd (List.cons.inj ‹_›).1 hplus
  · rw [hdigits]

/-- `atoi` reads a numeral below 2^31 back, whatever non-digit follows it. -/
theorem atoi_toDigits {id : Nat} (hid : id < 2 ^ 31) (rest : Name)
    (hr : rest.takeWhile Char.isDigit = []) : atoi (Nat.toDigits 10 id ++ rest) = id := by
  have hmin : min (id : Int) (2 ^ 63 - 1) = id := by omega
  rw [atoi_numeral id rest hr, hmin]
  exact Int.bmod_eq_of_le (by omega) (by omega)

/-- `parse_filename` finds a datafile under its own id as long as an `int` holds it. -/
theorem parseFilename_data {id : Nat} (hid : id < 2 ^ 31) :
    parseFilename (fileName id .data) = some (.data, id) := by
  have hs : splitLastDot (fileName id .data) = some (Nat.toDigits 10 id ++ [], extChars .data) :=
    splitLastDot_append (dot_notMem_toDigits id) (by decide)
  have hid' : ((id : Int) % 2 ^ 64).toNat = id := by omega
  simp only [parseFilename, hs, atoi_toDigits hid [] rfl, hid', extChars_injective.eq_iff]
  rfl

theorem parseFilename_hint {id : Nat} (hid : id < 2 ^ 31) :
    parseFilename (fileName id .hint) = some (.hint, id) := by
  have hs : splitLastDot (fileName id .hint) = some (Nat.toDigits 10 id ++ [], extChars .hint) :=
    splitLastDot_append (dot_notMem_toDigits id) (by decide)
  have hid' : ((id : Int) % 2 ^ 64).toNat = id := by omega
  simp only [parseFilename, hs, atoi_toDigits hid [] rfl, hid', extChars_injective.eq_iff]
  rfl

/-- Only the last extension is compared, so a temporary file is not recognised. -/
theorem parseFilename_tempData (id : Nat) :
    ∃ i, parseFilename (fileName id .tempData) = some (.unknown, i) := by
  have hs : splitLastDot (fileName id .tempData) =
      some (Nat.toDigits 10 id ++ extChars .data, ['.', 't', 'm', 'p']) :=
    splitLastDot_append (dot_notMem_toDigits id) (by decide)
  exact ⟨_, by simp only [parseFilename, hs]; rfl⟩

end Ccask.Model
