import Ccask.Model.Names

/-!
# Names and the files they stand for

What `build_filepath` prints, `parse_filename` reads back for datafiles and hint files
whose id an `int` holds, and for the one id that `atoi` saturates to. The extension of a
temporary file has two dots and is never recognised. Of the other names, `parse_filename`
recognises every one with the right last extension, whatever stands before it, and a name
without a dot has no result.
-/

namespace Ccask.Audit

open Ccask.Model

/-- The ids that come back from `atoi` and the conversion to `uint64_t`. -/
def Readable64 (id : Nat) : Prop := id < 2 ^ 31 ∨ id = 2 ^ 64 - 1

theorem slash_notMem_fileName (id : Nat) (ext : FileExt) : '/' ∉ fileName id ext := by
  intro h
  rcases List.mem_append.mp h with h | h
  · exact absurd (Nat.isDigit_of_mem_toDigits (by decide) (by decide) h) (by decide)
  · cases ext <;> exact absurd h (by decide)

/-- The last component of a path that ends in a slash and a name without one. -/
theorem lastComponent_slash {dir name : Name} (hname : '/' ∉ name) :
    lastComponent (dir ++ '/' :: name) = name := by
  have hrev : ∀ c ∈ name.reverse, (decide (c ≠ '/')) = true := by
    intro c hc
    apply decide_eq_true
    rintro rfl
    exact hname (List.mem_reverse.mp hc)
  show (List.takeWhile _ (dir ++ '/' :: name).reverse).reverse = name
  rw [List.reverse_append, List.reverse_cons, List.append_assoc,
    List.takeWhile_append_of_pos hrev]
  simp

/-- Whether or not the directory has its slash, the file is found under its name. -/
theorem lastComponent_buildFilepath {dir : Name} {id : Nat} {ext : FileExt} {path : Name}
    (h : buildFilepath dir id ext = some path) : lastComponent path = fileName id ext := by
  unfold buildFilepath at h
  split at h
  · cases h
  · cases hlast : dir.getLast? with
    | none => simp only [hlast, reduceCtorEq] at h
    | some last =>
        simp only [hlast, Option.some.injEq] at h
        subst h
        split
        · obtain ⟨front, rfl⟩ := List.getLast?_eq_some_iff.mp hlast
          subst last
          rw [List.append_nil, List.append_assoc, List.singleton_append]
          exact lastComponent_slash (slash_notMem_fileName id ext)
        · rw [List.append_assoc, List.singleton_append]
          exact lastComponent_slash (slash_notMem_fileName id ext)

theorem buildFilepath_isSome {dir : Name} {id : Nat} {ext : FileExt} :
    (∃ path, buildFilepath dir id ext = some path) ↔ dir ≠ [] ∧ ext ≠ .unknown := by
  unfold buildFilepath
  split
  · simp [*]
  · cases hlast : dir.getLast? with
    | none => simp [List.getLast?_eq_none_iff.mp hlast]
    | some last =>
        have hdir : dir ≠ [] := by
          rintro rfl
          cases hlast
        simp [*]

theorem splitLastDot_none {name : Name} (h : splitLastDot name = none) : '.' ∉ name := by
  induction name with
  | nil => exact List.not_mem_nil
  | cons c cs ih =>
      cases hcs : splitLastDot cs with
      | some p => simp only [splitLastDot, hcs, reduceCtorEq] at h
      | none =>
          by_cases hc : c = '.'
          · simp only [splitLastDot, hcs, hc, if_true, reduceCtorEq] at h
          · rw [List.mem_cons, not_or]
            exact ⟨Ne.symm hc, ih hcs⟩

/-- `strrchr` finds the last dot: the name is cut there, and none is behind it. -/
theorem splitLastDot_some {name stem dot : Name} (h : splitLastDot name = some (stem, dot)) :
    name = stem ++ dot ∧ ∃ rest, dot = '.' :: rest ∧ '.' ∉ rest := by
  induction name generalizing stem with
  | nil => cases h
  | cons c cs ih =>
      cases hcs : splitLastDot cs with
      | some p =>
          simp only [splitLastDot, hcs, Option.some.injEq, Prod.mk.injEq] at h
          obtain ⟨rfl, rfl⟩ := h
          obtain ⟨hname, hdot⟩ := ih hcs
          rw [List.cons_append, ← hname]
          exact ⟨rfl, hdot⟩
      | none =>
          by_cases hc : c = '.'
          · simp only [splitLastDot, hcs, hc, if_true, Option.some.injEq, Prod.mk.injEq] at h
            obtain ⟨rfl, rfl⟩ := h
            rw [hc]
            exact ⟨rfl, cs, rfl, splitLastDot_none hcs⟩
          · simp only [splitLastDot, hcs, hc, if_false, reduceCtorEq] at h

theorem splitLastDot_dot (stem : Name) {rest : Name} (hrest : '.' ∉ rest) :
    splitLastDot (stem ++ '.' :: rest) = some (stem, '.' :: rest) := by
  induction stem with
  | nil =>
      have hnone : splitLastDot rest = none := by
        cases h : splitLastDot rest with
        | none => rfl
        | some p =>
            obtain ⟨hname, r, hp, -⟩ := splitLastDot_some h
            rw [hname, hp] at hrest
            exact absurd (List.mem_append_right _ List.mem_cons_self) hrest
      show splitLastDot ('.' :: rest) = _
      simp only [splitLastDot, hnone, if_true]
  | cons c cs ih =>
      show splitLastDot (c :: (cs ++ '.' :: rest)) = _
      simp only [splitLastDot, ih]

/-- With the extension of a datafile or a hint file, any stem is taken for an id. -/
theorem parseFilename_append (stem : Name) {ext : FileExt} (hext : ext = .data ∨ ext = .hint) :
    parseFilename (stem ++ extChars ext) = some (ext, (atoi stem % 2 ^ 64).toNat) := by
  rcases hext with rfl | rfl
  · have hsplit : splitLastDot (stem ++ extChars .data) = some (stem, extChars .data) :=
      splitLastDot_dot stem (by decide)
    simp only [parseFilename, hsplit, extChars_injective.eq_iff]
    rfl
  · have hsplit : splitLastDot (stem ++ extChars .hint) = some (stem, extChars .hint) :=
      splitLastDot_dot stem (by decide)
    simp only [parseFilename, hsplit, extChars_injective.eq_iff]
    rfl

/-- The last dot of `.data.tmp` is its second one, so `strrchr` never leaves the whole of it. -/
theorem splitLastDot_ne_tempData {name stem dot : Name}
    (h : splitLastDot name = some (stem, dot)) : dot ≠ extChars .tempData := by
  obtain ⟨-, rest, rfl, hrest⟩ := splitLastDot_some h
  intro hd
  rw [(List.cons.inj hd).2] at hrest
  exact absurd hrest (by decide)

/-- No name at all is recognised as a temporary file's. -/
theorem parseFilename_ne_tempData {name : Name} {id : Nat} :
    parseFilename name ≠ some (.tempData, id) := by
  intro h
  cases hsplit : splitLastDot name with
  | none => simp only [parseFilename, hsplit, reduceCtorEq] at h
  | some p =>
      obtain ⟨stem, dot⟩ := p
      have htmp := splitLastDot_ne_tempData hsplit
      simp only [parseFilename, hsplit, htmp, if_false] at h
      split at h
      · cases h
      · split at h <;> cases h

/-- The id that comes back is the id that was printed. -/
theorem atoi_reads_iff (id : Nat) :
    (atoi (Nat.toDigits 10 id) % 2 ^ 64).toNat = id ↔ Readable64 id := by
  have hatoi := atoi_numeral id [] rfl
  rw [List.append_nil] at hatoi
  rw [hatoi, Int.bmod_def, Readable64]
  split <;> omega

/-- A printed name is read back exactly for the two extensions with one dot and a readable id. -/
theorem parseFilename_fileName_iff (id : Nat) (ext : FileExt) :
    parseFilename (fileName id ext) = some (ext, id) ↔
      (ext = .data ∨ ext = .hint) ∧ Readable64 id := by
  cases ext with
  | data =>
      rw [fileName, parseFilename_append _ (.inl rfl), ← atoi_reads_iff]
      simp
  | hint =>
      rw [fileName, parseFilename_append _ (.inr rfl), ← atoi_reads_iff]
      simp
  | tempData =>
      constructor
      · intro h
        exact absurd h parseFilename_ne_tempData
      · rintro ⟨h | h, -⟩ <;> cases h
  | unknown =>
      have hnone : splitLastDot (fileName id .unknown) = none := by
        cases h : splitLastDot (fileName id .unknown) with
        | none => rfl
        | some p =>
            obtain ⟨hname, r, hp, -⟩ := splitLastDot_some h
            have hmem : '.' ∈ fileName id .unknown := by
              rw [hname, hp]
              exact List.mem_append_right _ List.mem_cons_self
            rw [fileName, extChars, List.append_nil] at hmem
            exact absurd hmem (dot_notMem_toDigits id)
      simp only [parseFilename, hnone]
      simp

/-- A name with a dot is answered, and what is said of it holds exactly when a last extension
of the library stands behind a numeral that is read back. -/
theorem parseFilename_sound_iff (name : Name) :
    (∃ ext id, parseFilename name = some (ext, id) ∧ (ext ≠ .unknown → name = fileName id ext)) ↔
      '.' ∈ name ∧ ∀ stem ext, ext = .data ∨ ext = .hint → name = stem ++ extChars ext →
        ∃ id, Readable64 id ∧ stem = Nat.toDigits 10 id := by
  constructor
  · rintro ⟨ext, id, hparse, hname⟩
    refine ⟨?_, fun stem e he hstem => ?_⟩
    · apply Classical.byContradiction
      intro hdot
      cases hsplit : splitLastDot name with
      | none => simp only [parseFilename, hsplit, reduceCtorEq] at hparse
      | some p =>
          obtain ⟨rfl, r, hp, -⟩ := splitLastDot_some hsplit
          rw [hp] at hdot
          exact hdot (List.mem_append_right _ List.mem_cons_self)
    · have hp := parseFilename_append stem he
      rw [← hstem, hparse] at hp
      obtain ⟨rfl, hid⟩ := Prod.mk.inj (Option.some.inj hp)
      have hne : ext ≠ .unknown := by
        rintro rfl
        rcases he with he | he <;> cases he
      have hfull := hname hne
      have hdigits : stem = Nat.toDigits 10 id := by
        rw [hstem, fileName] at hfull
        exact List.append_cancel_right hfull
      refine ⟨id, ?_, hdigits⟩
      rw [← atoi_reads_iff, ← hdigits]
      exact hid.symm
  · rintro ⟨hdot, hstems⟩
    cases hsplit : splitLastDot name with
    | none => exact absurd hdot (splitLastDot_none hsplit)
    | some p =>
        obtain ⟨stem, dot⟩ := p
        obtain ⟨rfl, -⟩ := splitLastDot_some hsplit
        by_cases hext : ∃ ext, (ext = .data ∨ ext = .hint) ∧ dot = extChars ext
        · obtain ⟨ext, hext, rfl⟩ := hext
          obtain ⟨id, hid, rfl⟩ := hstems stem ext hext rfl
          refine ⟨ext, id, ?_, fun _ => rfl⟩
          rw [parseFilename_append _ hext, (atoi_reads_iff id).mpr hid]
        · have hdata : dot ≠ extChars .data := fun h => hext ⟨.data, .inl rfl, h⟩
          have hhint : dot ≠ extChars .hint := fun h => hext ⟨.hint, .inr rfl, h⟩
          refine ⟨.unknown, (atoi stem % 2 ^ 64).toNat, ?_, fun h => absurd rfl h⟩
          have htmp := splitLastDot_ne_tempData hsplit
          simp only [parseFilename, hsplit, hdata, hhint, htmp, if_false]

/-- File naming and file recognition are inverse exactly for a datafile or a hint file with an id
that `atoi` reads back, and for a name with a dot whose stem, in front of one of these two
extensions, is the numeral of such an id. -/
theorem names_inverse_iff (dir : Name) (id : Nat) (ext : FileExt) (name : Name) :
    (((buildFilepath dir id ext).bind fun path => parseFilename (lastComponent path)) = some (ext, id) ↔
      dir ≠ [] ∧ (ext = .data ∨ ext = .hint) ∧ Readable64 id) ∧
    ((∃ ext id, parseFilename name = some (ext, id) ∧ (ext ≠ .unknown → name = fileName id ext)) ↔
      '.' ∈ name ∧ ∀ stem ext, ext = .data ∨ ext = .hint → name = stem ++ extChars ext →
        ∃ id, Readable64 id ∧ stem = Nat.toDigits 10 id) := by
  refine ⟨?_, parseFilename_sound_iff name⟩
  constructor
  · intro h
    obtain ⟨path, hpath, hparse⟩ := Option.bind_eq_some_iff.mp h
    have hdir := (buildFilepath_isSome.mp ⟨path, hpath⟩).1
    rw [lastComponent_buildFilepath hpath] at hparse
    exact ⟨hdir, (parseFilename_fileName_iff id ext).mp hparse⟩
  · rintro ⟨hdir, hext, hid⟩
    have hne : ext ≠ .unknown := by
      rintro rfl
      rcases hext with h | h <;> cases h
    obtain ⟨path, hpath⟩ := buildFilepath_isSome.mpr ⟨hdir, hne⟩
    rw [hpath, Option.bind_some, lastComponent_buildFilepath hpath]
    exact (parseFilename_fileName_iff id ext).mpr ⟨hext, hid⟩

/-- A temporary file is not recognised; an id of 2^32 comes back as 0, so that of two datafiles
one hides the other; `01.data` counts as datafile 1; and a name without a dot stops the scan. -/
theorem names_not_inverse :
    ((buildFilepath ['d'] 3 .tempData).bind fun path => parseFilename (lastComponent path)) =
        some (.unknown, 3) ∧
    ((buildFilepath ['d'] (2 ^ 32) .data).bind fun path => parseFilename (lastComponent path)) =
        some (.data, 0) ∧
    parseFilename ['0', '1', '.', 'd', 'a', 't', 'a'] = some (.data, 1) ∧
    ['0', '1', '.', 'd', 'a', 't', 'a'] ≠ fileName 1 .data ∧
    parseFilename ['L', 'O', 'C', 'K'] = none := by
  decide +kernel

end Ccask.Audit
