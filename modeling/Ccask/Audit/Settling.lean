import Ccask.Audit.PairsKept

/-!
# What a compaction is still to do

Between its dump and its return a compaction works through the rest of its script. The directory that the rest
leads to is the same after each of its steps, so that a record survives when it is in that directory.
-/

namespace Ccask.Audit

open Ccask.Effect Ccask.Model Ccask.Index

section Script

variable {w v : World} {name : Name} {c : Option Bytes} {ops : List DirOp}

/-- The operation has nothing to do with the name. -/
def DirOp.Spares (name : Name) : DirOp → Prop
  | .unlink n => n ≠ name
  | .rename src dst => src ≠ name ∧ dst ≠ name

theorem read_rename (fs : Fs) (src dst n : Name) : (fs.rename src dst).read n =
    if n = dst then fs.read src else if n = src then none else fs.read n := by
  rw [Fs.read, Fs.dir_rename, Fs.data_rename]
  split
  · rfl
  · split
    · rfl
    · rfl

/-- Other contents under a name stay there while the name is spared. -/
theorem read_play_update (hops : ∀ op ∈ ops, op.Spares name)
    (h : v.fs.read = Function.update w.fs.read name c) :
    (play DirOp.act ops v).fs.read = Function.update (play DirOp.act ops w).fs.read name c := by
  induction ops generalizing w v with
  | nil => exact h
  | cons op ops ih =>
      rw [play_cons, play_cons]
      refine ih (fun o ho => hops o (List.mem_cons_of_mem _ ho)) ?_
      have hspares := hops op List.mem_cons_self
      cases op with
      | unlink n =>
          show (v.fs.unlink n).read = Function.update (w.fs.unlink n).read name c
          rw [Fs.read_unlink, Fs.read_unlink, h, Function.update_comm hspares]
      | rename src dst =>
          obtain ⟨hsrc, hdst⟩ := hspares
          funext n
          show (v.fs.rename src dst).read n = Function.update (w.fs.rename src dst).read name c n
          rw [read_rename, h, Function.update_of_ne hsrc]
          by_cases hn : n = name
          · subst hn
            rw [if_neg hdst.symm, if_neg hsrc.symm, Function.update_self, Function.update_self]
          · rw [Function.update_of_ne hn, Function.update_of_ne hn, read_rename]

theorem read_play_spared (hops : ∀ op ∈ ops, op.Spares name) (w : World) :
    (play DirOp.act ops w).fs.read name = w.fs.read name := by
  have hsame : w.fs.read = Function.update w.fs.read name (w.fs.read name) :=
    (Function.update_eq_self name w.fs.read).symm
  rw [read_play_update hops hsame, Function.update_self]

end Script

section Remaining

variable {w v : World} {t t' : CompactCall} {k n : Nat} {file : CcaskFile}

/-- The files of the list from a file on, and those newer than it, in the order of the walk. -/
def filesFrom (files : List CcaskFile) : Option Nat → List CcaskFile
  | none => []
  | some k => (files.filter fun f => k ≤ f.fileId).reverse

def filesAfter (files : List CcaskFile) (k : Nat) : List CcaskFile :=
  (files.filter fun f => k < f.fileId).reverse

def renamesFrom (i n : Nat) : List DirOp := (List.range' i (n + 1 - i)).map renameOp

/-- What a compaction has left to do. -/
def remaining (w : World) : CompactCall → List DirOp
  | .closing n => script w.files n
  | .deleting cur n _ => unlinks (filesFrom w.files cur) ++ renamesFrom 0 n
  | .testing k n _ => (if hintFlag k w = some true then [.unlink (fileName k .hint)] else []) ++
      (unlinks (filesAfter w.files k) ++ renamesFrom 0 n)
  | .deletingHint k n _ => .unlink (fileName k .hint) :: (unlinks (filesAfter w.files k) ++ renamesFrom 0 n)
  | .advancing k n _ => unlinks (filesAfter w.files k) ++ renamesFrom 0 n
  | .renamingTemps i n => renamesFrom i n
  | .dumping | .cancelling _ | .done _ => []

/-- The directory that it leads to. -/
def settled (w : World) (t : CompactCall) : Fs := (play DirOp.act (remaining w t) w).fs

theorem filesFrom_cons : ∀ {files : List CcaskFile}, (files.map CcaskFile.fileId).Pairwise (· > ·) →
    files.find? (fun f => f.fileId = k) = some file →
    filesFrom files (some k) = file :: filesAfter files k
  | [], _, h => by cases h
  | a :: files, hsorted, h => by
      obtain ⟨hnewest, hrest⟩ := List.pairwise_cons.mp hsorted
      rw [filesFrom, filesAfter]
      by_cases ha : a.fileId = k
      · rw [List.find?_cons_of_pos (by simpa using ha)] at h
        subst ha
        have hold : ∀ f ∈ files, f.fileId < a.fileId := fun f hf => hnewest _ (List.mem_map_of_mem hf)
        cases h
        rw [List.filter_cons_of_pos (by simp), List.filter_cons_of_neg (by simp),
          List.filter_eq_nil_iff.mpr fun f hf => by simpa using hold f hf,
          List.filter_eq_nil_iff.mpr fun f hf => by simpa using Nat.le_of_lt (hold f hf)]
        rfl
      · rw [List.find?_cons_of_neg (by simpa using ha)] at h
        have hk : k < a.fileId := by
          have hid : file.fileId = k := by simpa using List.find?_some h
          rw [← hid]
          exact hnewest _ (List.mem_map_of_mem (List.mem_of_find?_eq_some h))
        have ih := filesFrom_cons hrest h
        rw [filesFrom, filesAfter] at ih
        rw [List.filter_cons_of_pos (by simpa using Nat.le_of_lt hk), List.filter_cons_of_pos (by simpa using hk),
          List.reverse_cons, List.reverse_cons, ih]
        rfl

/-- The walk goes on from the next newer file. -/
theorem filesFrom_previous (hsorted : (ids w).Pairwise (· > ·)) (hk : k ∈ ids w) :
    filesFrom w.files (previousFile k w) = filesAfter w.files k := by
  cases hprev : previousFile k w with
  | none =>
      rw [filesFrom, filesAfter, List.filter_eq_nil_iff.mpr fun f hf => ?_]
      · rfl
      · intro hlt
        exact not_mem_of_previousFile hsorted hk (by simpa using hlt) (by simp [hprev])
          (List.mem_map_of_mem hf)
  | some k' =>
      rw [filesFrom, filesAfter]
      congr 1
      refine List.filter_congr fun f hf => decide_eq_decide.mpr ⟨fun hle => ?_, fun hlt => ?_⟩
      · exact Nat.lt_of_lt_of_le (previousFile_mem hsorted hk hprev).2 hle
      · by_contra hgt
        refine not_mem_of_previousFile hsorted hk hlt (fun j hj => ?_) (List.mem_map_of_mem hf)
        rw [hprev] at hj
        cases hj
        exact Nat.lt_of_not_le hgt

/-- It starts with the oldest file. -/
theorem filesFrom_oldest (hsorted : (ids w).Pairwise (· > ·)) :
    filesFrom w.files (w.files.getLast?.map CcaskFile.fileId) = w.files.reverse := by
  cases hlast : w.files.getLast?.map CcaskFile.fileId with
  | none => rw [List.getLast?_eq_none_iff.mp (Option.map_eq_none_iff.mp hlast)]; rfl
  | some k =>
      rw [filesFrom, List.filter_eq_self.mpr fun f hf => ?_]
      exact decide_eq_true ((oldest_spec hsorted hlast).2 _ (List.mem_map_of_mem hf))

theorem unlinks_cons (f : CcaskFile) (files : List CcaskFile) : unlinks (f :: files) =
    .unlink (fileName f.fileId .data) ::
      ((if f.hasHint then [.unlink (fileName f.fileId .hint)] else []) ++ unlinks files) := by
  rw [unlinks, fileNames_cons, List.map_cons, List.map_append]
  cases f.hasHint with
  | true => rfl
  | false => rfl

theorem renamesFrom_zero (n : Nat) : renamesFrom 0 n = renames n := by
  rw [renamesFrom, renames, List.range_eq_range', Nat.sub_zero]

theorem renamesFrom_cons {i : Nat} (hi : i ≤ n) : renamesFrom i n = renameOp i :: renamesFrom (i + 1) n := by
  have hlen : n + 1 - i = (n + 1 - (i + 1)) + 1 := by omega
  rw [renamesFrom, hlen, List.range'_succ]
  rfl

theorem renamesFrom_nil {i : Nat} (hi : n < i) : renamesFrom i n = [] := by
  have hlen : n + 1 - i = 0 := by omega
  rw [renamesFrom, hlen]
  rfl

theorem play_congr {ops : List DirOp} (h : v.fs = w.fs) :
    (play DirOp.act ops v).fs = (play DirOp.act ops w).fs := by
  induction ops generalizing w v with
  | nil => exact h
  | cons op ops ih =>
      rw [play_cons, play_cons]
      refine ih ?_
      cases op with
      | unlink name => exact congrArg (Fs.unlink · name) h
      | rename src dst => exact congrArg (Fs.rename · src dst) h

/-- Each step of the compaction does the first of the things that it has left to do. -/
theorem settled_step (hs : CompactStep w t v t') (hdump : t ≠ .dumping) (hsorted : (ids w).Pairwise (· > ·))
    (hcurrent : ∀ k, currFile t = some k → k ∈ ids w)
    (hrename : ∀ i n, t = .renamingTemps i n → i ≤ n →
      v.fs = w.fs.rename (fileName i .tempData) (fileName i .data)) : settled v t' = settled w t := by
  cases hs with
  | dumped hfill => exact absurd rfl hdump
  | closed n =>
      rw [settled, settled, remaining, remaining, script, filesFrom_oldest hsorted, renamesFrom_zero]
      exact play_congr rfl
  | unlinked n hsome =>
      rename_i k
      obtain ⟨file, -, hid, hget⟩ := Mounted.getFile (hcurrent k rfl)
      have hwalk := filesFrom_cons hsorted hget
      subst hid
      have hflag : hintFlag file.fileId { w with fs := w.fs.unlink (fileName file.fileId .data) } =
          some file.hasHint := congrArg (Option.map CcaskFile.hasHint) hget
      rw [settled, settled, remaining, remaining, hwalk, unlinks_cons, hflag, List.cons_append,
        List.append_assoc, play_cons]
      cases file.hasHint with
      | true => rfl
      | false => rfl
  | hinted n hget hmark =>
      rw [settled, settled, remaining, remaining, hintFlag, hget, Option.map_some, hmark, if_pos rfl]
      rfl
  | unhinted n hget hmark =>
      rw [settled, settled, remaining, remaining, hintFlag, hget, Option.map_some, hmark, if_neg (by simp)]
      rfl
  | hintUnlinked n hsome => rfl
  | advanced k n =>
      rw [settled, settled, remaining, remaining, filesFrom_previous hsorted (hcurrent k rfl)]
  | deleted n => rfl
  | renamed hi hsome =>
      rename_i i n
      rw [settled, settled, remaining, remaining, renamesFrom_cons hi]
      rfl
  | missed hi =>
      rename_i i n
      rw [settled, settled, remaining, remaining, renamesFrom_cons hi, play_cons]
      exact play_congr (hrename i n rfl hi)
  | finished hi =>
      rw [settled, settled, remaining, remaining, renamesFrom_nil hi]

end Remaining

section Landing

variable {w v : World} {f : CcaskFile} {rest : List CcaskFile} {ino : Ino} {g size : Nat} {r : DatafileRecord}

/-- What is under the name of a datafile, or nothing. -/
def contentOf (w : World) (id : Nat) : Bytes := (w.fs.read (fileName id .data)).getD []

/-- A record of `size` bytes goes into datafile `g` when the newest file is `f`. It stays in a file with room, which
must have its name. Otherwise it goes to the first of the next files that has room. -/
structure LandsIn (w : World) (f : Nat) (ino : Ino) (size g : Nat) : Prop where
  here : g = f → w.fs.dir (fileName f .data) = some ino
  ahead : g ≠ f → f < g ∧ w.maxActiveFileSize.toNat < (w.fs.data ino).length + size
  passed : ∀ j, f < j → j < g → w.maxActiveFileSize.toNat < (contentOf w j).length + size
  room : (contentOf w g).length + size ≤ w.maxActiveFileSize.toNat
  small : g < 2 ^ 31

theorem LandsIn.le {f : Nat} (h : LandsIn w f ino size g) : f ≤ g := by
  by_cases hg : g = f
  · exact Nat.le_of_eq hg.symm
  · exact Nat.le_of_lt (h.ahead hg).1

/-- What an append to datafile `g` does. -/
structure LandedIn (w v : World) (g : Nat) (r : DatafileRecord) : Prop where
  front : ∃ f rest ino, Front v f rest ino ∧ f.fileId = g
  read : v.fs.read = Function.update w.fs.read (fileName g .data) (some (contentOf w g ++ r.bytes))
  same : v = { w with fs := v.fs, files := v.files, threads := v.threads }
  sorted : (ids w).Pairwise (· > ·) → (ids v).Pairwise (· > ·)

theorem contentOf_create (w : World) (f : CcaskFile) (rest : List CcaskFile) (j : Nat) :
    contentOf (rotated w f rest) j = contentOf w j := by
  show ((w.fs.create (fileName (f.fileId + 1) .data)).1.read (fileName j .data)).getD [] = _
  rw [Fs.read_create]
  by_cases hj : j = f.fileId + 1
  · rw [hj, Function.update_self]
    rfl
  · rw [Function.update_of_ne (by simpa using hj)]
    rfl

theorem data_rotated_front (w : World) (f : CcaskFile) (rest : List CcaskFile) :
    (rotated w f rest).fs.data (w.fs.create (fileName (f.fileId + 1) .data)).2 = contentOf w (f.fileId + 1) :=
  Fs.data_create_self w.fs _

/-- The append of a record, through as many rotations as it takes. A file that is passed over is there, since a
new one has room. -/
theorem Front.lands (h : Front w f rest ino) (hl : LandsIn w f.fileId ino r.bytes.length g)
    (hvalue : r.value ≠ []) (hsize : r.bytes.length ≤ w.maxActiveFileSize.toNat) :
    ∃ pos v, Computes (writeAppend r) w (.ok (g, pos)) v ∧ LandedIn w v g r := by
  induction hn : g - f.fileId generalizing w f rest ino with
  | zero =>
      have hle : g ≤ f.fileId := by omega
      obtain rfl : g = f.fileId := by
        by_contra hne
        have hlt := (hl.ahead hne).1
        omega
      have hdir := hl.here rfl
      have hdata : contentOf w f.fileId = w.fs.data ino := by rw [contentOf, Fs.read, hdir]; rfl
      refine ⟨_, _, h.append_fits hvalue (by rw [← hdata]; exact hl.room),
        ⟨f, rest, ino, ⟨h.files, h.fd, h.newest⟩, rfl⟩, ?_, rfl, fun hsorted => hsorted⟩
      rw [hdata]
      exact Fs.read_append hdir r.bytes
  | succ n ih =>
      have hne : g ≠ f.fileId := by omega
      obtain ⟨hlt, hover⟩ := hl.ahead hne
      have hround := h.appendRound_rotates (by have := hl.small; omega) hover
      have hnext : LandsIn (Audit.rotated w f rest) (f.fileId + 1)
          (w.fs.create (fileName (f.fileId + 1) .data)).2 r.bytes.length g := by
        refine ⟨fun _ => Fs.dir_create_self _ _, fun hg => ⟨by omega, ?_⟩, fun j hj hjg => ?_, ?_, hl.small⟩
        · rw [data_rotated_front]
          exact hl.passed _ (Nat.lt_succ_self _) (by omega)
        · rw [contentOf_create]
          exact hl.passed j (by omega) hjg
        · rw [contentOf_create]
          exact hl.room
      obtain ⟨pos, v, hrun, hlands⟩ := ih h.rotated hnext hsize (by show g - (f.fileId + 1) = n; omega)
      refine ⟨pos, v, Computes.loop_next (appendRound_consumes _) hround hrun, hlands.front, ?_, ?_, ?_⟩
      · rw [hlands.read, contentOf_create]
        have hread : (Audit.rotated w f rest).fs.read = Function.update w.fs.read (fileName (f.fileId + 1) .data)
            (some (contentOf w (f.fileId + 1))) := Fs.read_create _ _
        by_cases hg : g = f.fileId + 1
        · rw [hread, hg, Function.update_idem]
        · -- a file without contents would have had room
          have hpassed := hl.passed _ (Nat.lt_succ_self _) (by omega)
          have hsome : w.fs.read (fileName (f.fileId + 1) .data) = some (contentOf w (f.fileId + 1)) := by
            cases hc : w.fs.read (fileName (f.fileId + 1) .data) with
            | some c => rw [contentOf, hc]; rfl
            | none =>
                rw [contentOf, hc] at hpassed
                exact absurd hsize (Nat.not_le.mpr (by simpa using hpassed))
          rw [hread, ← hsome, Function.update_eq_self]
      · rw [hlands.same]
        rfl
      · intro hsorted
        refine hlands.sorted ?_
        rw [ids_rotated h.files]
        rw [ids_eq h.files] at hsorted ⊢
        refine List.pairwise_cons.mpr ⟨fun j hj => ?_, hsorted⟩
        rcases List.mem_cons.mp hj with rfl | hj
        · exact Nat.lt_succ_self _
        · exact Nat.lt_succ_of_lt ((List.pairwise_cons.mp hsorted).1 j hj)

end Landing

end Ccask.Audit
