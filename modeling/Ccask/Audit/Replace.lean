import Ccask.Audit.Dump
import Ccask.Effect.Script

/-!
# Old files go, temporary files take their place

What a compaction does after its dump is a script of unlinks and renames.
-/

namespace Ccask.Audit

open Ccask.Effect Ccask.Model Ccask.Index

/-- One change of the directory. -/
inductive DirOp where
  | unlink (name : Name)
  | rename (src dst : Name)

def DirOp.act : DirOp → World → World
  | .unlink name, w => { w with fs := w.fs.unlink name }
  | .rename src dst, w => { w with fs := w.fs.rename src dst }

/-- The names of the files that are deleted, in this order. -/
def fileNames (files : List CcaskFile) : List Name :=
  files.flatMap fun f => fileName f.fileId .data :: if f.hasHint then [fileName f.fileId .hint] else []

def unlinks (files : List CcaskFile) : List DirOp := (fileNames files).map .unlink

def renameOp (i : Nat) : DirOp := .rename (fileName i .tempData) (fileName i .data)

def renames (n : Nat) : List DirOp := (List.range (n + 1)).map renameOp

section Names

variable {files : List CcaskFile} {f : CcaskFile} {name : Name}

theorem fileNames_cons (f : CcaskFile) (files : List CcaskFile) : fileNames (f :: files) =
    fileName f.fileId .data :: ((if f.hasHint then [fileName f.fileId .hint] else []) ++
      fileNames files) := by
  simp [fileNames]

theorem mem_fileNames : name ∈ fileNames files ↔ ∃ f ∈ files,
    name = fileName f.fileId .data ∨ (f.hasHint = true ∧ name = fileName f.fileId .hint) := by
  rw [fileNames, List.mem_flatMap]
  apply exists_congr
  intro f
  cases f.hasHint <;> simp

theorem nodup_fileNames (h : (files.map CcaskFile.fileId).Nodup) : (fileNames files).Nodup := by
  induction files with
  | nil => exact List.nodup_nil
  | cons f files ih =>
      obtain ⟨hf, hfiles⟩ := List.nodup_cons.mp h
      have hnot : ∀ ext, fileName f.fileId ext ∉ fileNames files := by
        intro ext hin
        obtain ⟨g, hg, heq⟩ := mem_fileNames.mp hin
        have hid : f.fileId = g.fileId := by
          obtain heq | ⟨-, heq⟩ := heq
          · exact (fileName_inj.mp heq).1
          · exact (fileName_inj.mp heq).1
        exact hf (hid ▸ List.mem_map_of_mem hg)
      rw [fileNames_cons]
      cases f.hasHint with
      | true =>
          refine List.nodup_cons.mpr ⟨?_, List.nodup_cons.mpr ⟨hnot .hint, ih hfiles⟩⟩
          simp [hnot .data]
      | false => exact List.nodup_cons.mpr ⟨hnot .data, ih hfiles⟩

/-- The names depend on what reads leave alone. -/
theorem fileNames_congr {files files' : List CcaskFile} (h : files'.map shape = files.map shape) :
    fileNames files' = fileNames files := by
  have hname : ∀ l : List CcaskFile, fileNames l = (l.map shape).flatMap fun s =>
      fileName s.1 .data :: if s.2.1 then [fileName s.1 .hint] else [] := by
    intro l
    rw [List.flatMap_map]
    rfl
  rw [hname, hname, h]

end Names

section Play

variable {w : World} {names : List Name}

theorem play_same (ops : List DirOp) (w : World) :
    play DirOp.act ops w = { w with fs := (play DirOp.act ops w).fs } := by
  induction ops generalizing w with
  | nil => rfl
  | cons op ops ih =>
      rw [play_cons, ih]
      cases op with
      | unlink name => rfl
      | rename src dst => rfl

theorem data_play (ops : List DirOp) (w : World) :
    (play DirOp.act ops w).fs.data = w.fs.data := by
  induction ops generalizing w with
  | nil => rfl
  | cons op ops ih =>
      rw [play_cons, ih]
      cases op with
      | unlink name => rfl
      | rename src dst => rfl

theorem dir_unlinked (names : List Name) (w : World) (name : Name) :
    (play DirOp.act (names.map .unlink) w).fs.dir name =
      if name ∈ names then none else w.fs.dir name := by
  induction names generalizing w with
  | nil => simp
  | cons m names ih =>
      rw [List.map_cons, play_cons, ih]
      change (if name ∈ names then none else (w.fs.unlink m).dir name) = _
      rw [Fs.dir_unlink]
      by_cases hm : name = m
      · simp [hm]
      · simp [hm]

theorem play_rename_succ (k : Nat) (w : World) :
    (play DirOp.act ((List.range (k + 1)).map renameOp) w).fs =
      (play DirOp.act ((List.range k).map renameOp) w).fs.rename (fileName k .tempData)
        (fileName k .data) := by
  rw [List.range_succ, List.map_append, play_append]
  rfl

/-- The first `k` temporary files have gone ... -/
theorem dir_renamed_temp (k : Nat) (w : World) (i : Nat) :
    (play DirOp.act ((List.range k).map renameOp) w).fs.dir (fileName i .tempData) =
      if i < k then none else w.fs.dir (fileName i .tempData) := by
  induction k with
  | zero => simp
  | succ k ih =>
      rw [play_rename_succ, Fs.dir_rename, if_neg (by simp), ih]
      by_cases hi : i = k
      · rw [hi, if_pos rfl, if_pos (Nat.lt_succ_self k)]
      · rw [if_neg (by simpa using hi)]
        split
        · rw [if_pos (by omega)]
        · rw [if_neg (by omega)]

/-- ... to the places of datafiles ... -/
theorem dir_renamed_data (k : Nat) (w : World) (i : Nat) :
    (play DirOp.act ((List.range k).map renameOp) w).fs.dir (fileName i .data) =
      if i < k then w.fs.dir (fileName i .tempData) else w.fs.dir (fileName i .data) := by
  induction k with
  | zero => simp
  | succ k ih =>
      rw [play_rename_succ, Fs.dir_rename]
      by_cases hi : i = k
      · rw [hi, if_pos rfl, dir_renamed_temp, if_neg (Nat.lt_irrefl k), if_pos (Nat.lt_succ_self k)]
      · rw [if_neg (by simpa using hi), if_neg (by simp), ih]
        split
        · rw [if_pos (by omega)]
        · rw [if_neg (by omega)]

/-- ... and nothing else has changed. -/
theorem dir_renamed_other (k : Nat) (w : World) {name : Name}
    (h : ∀ i, name ≠ fileName i .tempData ∧ name ≠ fileName i .data) :
    (play DirOp.act ((List.range k).map renameOp) w).fs.dir name = w.fs.dir name := by
  induction k with
  | zero => rfl
  | succ k ih => rw [play_rename_succ, Fs.dir_rename, if_neg (h k).2, if_neg (h k).1, ih]

end Play

section Scripts

variable {w : World}

theorem attempt_scripted {α : Type} {n : Nat} {expr : Sys (Res α)} {ops : List DirOp} {r : Res α}
    (h : Scripted DirOp.act expr w ops r) (hr : ∀ e, r ≠ .retry e) :
    Scripted DirOp.act (attempt (n + 1) expr) w ops r := by
  refine h.bind_done ?_
  cases r with
  | retry e => exact absurd rfl (hr e)
  | ok a => exact Scripted.pure _
  | fail e => exact Scripted.pure _

/-- A call whose clean replies are answered by the action. -/
theorem call_scripted {β : Type} {k : Reply → Sys β} {op : DirOp} {b : β}
    (hk : ∀ n, k (.done n) = k .intr) (hm : ∀ rs, (k .intr).run rs w = .returned b rs (op.act w)) :
    Scripted DirOp.act (Prog.call >>= k) w [op] b := by
  refine Scripted.action fun r rs hr => ?_
  cases r with
  | done n =>
      rw [hk n]
      exact hm rs
  | intr => exact hm rs
  | transient => exact False.elim hr
  | fail => exact False.elim hr

theorem ccaskFilesDelete_scripted {id : Nat} {ext : FileExt}
    (h : (w.fs.dir (fileName id ext)).isSome) :
    Scripted DirOp.act (attempt 5 (ccaskFilesDelete id ext)) w [.unlink (fileName id ext)] (.ok ()) := by
  obtain ⟨ino, hdir⟩ := Option.isSome_iff_exists.mp h
  refine attempt_scripted (call_scripted (fun _ => rfl) fun rs => ?_) (by simp)
  show (Prog.state >>= _ : Sys Status).run rs w = _
  rw [Prog.run_state_bind, hdir]
  rfl

theorem ccaskFilesChangeExt_scripted {i : Nat} (h : (w.fs.dir (fileName i .tempData)).isSome) :
    Scripted DirOp.act (attempt 5 (ccaskFilesChangeExt i .tempData .data)) w [renameOp i] (.ok ()) := by
  obtain ⟨ino, hdir⟩ := Option.isSome_iff_exists.mp h
  refine attempt_scripted (call_scripted (fun _ => rfl) fun rs => ?_) (by simp)
  show (Prog.state >>= _ : Sys Status).run rs w = _
  rw [Prog.run_state_bind, hdir]
  rfl

/-- The old files are unlinked one after another. -/
theorem deleteFiles_scripted {files : List CcaskFile} (hnodup : (fileNames files).Nodup)
    (hdir : ∀ name ∈ fileNames files, (w.fs.dir name).isSome) :
    Scripted DirOp.act (deleteFiles files (.ok ())) w (unlinks files) (.ok ()) := by
  induction files generalizing w with
  | nil => exact Scripted.pure _
  | cons f files ih =>
      rw [fileNames_cons] at hnodup hdir
      rw [unlinks, fileNames_cons, List.map_cons, List.map_append]
      obtain ⟨hdata, hnodup⟩ := List.nodup_cons.mp hnodup
      obtain ⟨-, hfiles, hdisjoint⟩ := List.nodup_append'.mp hnodup
      have hrest : ∀ hint : List Name,
          hint = (if f.hasHint then [fileName f.fileId .hint] else []) →
          Scripted DirOp.act (deleteFiles files (.ok ())) (play DirOp.act
            ((fileName f.fileId .data :: hint).map .unlink) w) (unlinks files) (.ok ()) := by
        rintro hint rfl
        refine ih hfiles fun name hname => ?_
        rw [dir_unlinked, if_neg]
        · exact hdir name (List.mem_cons_of_mem _ (List.mem_append_right _ hname))
        · rw [List.mem_cons]
          rintro (rfl | hin)
          · exact hdata (List.mem_append_right _ hname)
          · exact hdisjoint hin hname
      have hfirst := ccaskFilesDelete_scripted (hdir _ List.mem_cons_self)
      cases hhint : f.hasHint with
      | false =>
          rw [hhint] at hrest
          refine Scripted.bind (l := [DirOp.unlink (fileName f.fileId .data)]) hfirst ?_
          rw [hhint]
          exact (Scripted.pure _).bind (hrest [] rfl)
      | true =>
          rw [hhint] at hrest hdata
          refine Scripted.bind (l := [DirOp.unlink (fileName f.fileId .data)]) hfirst ?_
          rw [hhint]
          refine Scripted.bind (l := [DirOp.unlink (fileName f.fileId .hint)])
            (ccaskFilesDelete_scripted ?_) (hrest _ rfl)
          have hsome := hdir (fileName f.fileId .hint) (by simp [hhint])
          change ((w.fs.unlink (fileName f.fileId .data)).dir _).isSome
          rw [Fs.dir_unlink, if_neg (by simp)]
          exact hsome

/-- The temporary files are renamed one after another. -/
theorem renameTemps_scripted {l : List Nat} (hnodup : l.Nodup)
    (hdir : ∀ i ∈ l, (w.fs.dir (fileName i .tempData)).isSome) :
    Scripted DirOp.act (renameTemps l) w (l.map renameOp) () := by
  induction l generalizing w with
  | nil => exact Scripted.pure _
  | cons i l ih =>
      obtain ⟨hi, hl⟩ := List.nodup_cons.mp hnodup
      have hfirst := ccaskFilesChangeExt_scripted (hdir i List.mem_cons_self)
      refine Scripted.bind (l := [renameOp i]) hfirst (ih hl fun j hj => ?_)
      have hne : j ≠ i := by
        rintro rfl
        exact hi hj
      change ((w.fs.rename _ _).dir _).isSome
      rw [Fs.dir_rename, if_neg (by simp), if_neg (by simpa using hne)]
      exact hdir j (List.mem_cons_of_mem _ hj)

/-- What follows the dump. -/
def script (files : List CcaskFile) (n : Nat) : List DirOp := unlinks files.reverse ++ renames n

theorem replaceFiles_scripted {n : Nat} (hnodup : (ids w).Nodup)
    (hdir : ∀ name ∈ fileNames w.files.reverse, (w.fs.dir name).isSome)
    (htemps : ∀ i ≤ n, (w.fs.dir (fileName i .tempData)).isSome) :
    Scripted DirOp.act (replaceFiles n) w (script w.files n) (.ok ()) := by
  refine Scripted.state_bind ?_
  have hnodup' : (fileNames w.files.reverse).Nodup := by
    apply nodup_fileNames
    rw [List.map_reverse]
    exact List.nodup_reverse.mpr hnodup
  refine (deleteFiles_scripted hnodup' hdir).bind ?_
  have hrename := renameTemps_scripted (w := play DirOp.act (unlinks w.files.reverse) w)
    (l := List.range (n + 1)) List.nodup_range ?_
  · exact hrename.bind_done (Scripted.pure _)
  · intro i hi
    rw [unlinks, dir_unlinked, if_neg]
    · exact htemps i (Nat.le_of_lt_succ (List.mem_range.mp hi))
    · intro hin
      obtain ⟨f, -, heq | ⟨-, heq⟩⟩ := mem_fileNames.mp hin
      · simp at heq
      · simp at heq

end Scripts

end Ccask.Audit
