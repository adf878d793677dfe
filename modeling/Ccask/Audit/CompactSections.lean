import Ccask.Audit.FaultyDump
import Ccask.Audit.FailedCompaction
import Ccask.Model.Compacting

/-!
# The sections of a compaction

What each section of `ccask_compactor_dump_keydir` does when the compaction is to return CCASK_OK, and that the
sections one after another are the function.
-/

namespace Ccask.Audit

open Ccask.Effect Ccask.Model Ccask.Index

section Sections

variable {w v : World} {t t' : CompactCall} {m : Sys CompactCall} {rs rest : List Reply}

/-- No call of the compaction whose failure it remembers has failed so far. -/
def OnCourse : CompactCall → Prop
  | .cancelling _ => False
  | .deleting _ _ res | .testing _ _ res | .deletingHint _ _ res | .advancing _ _ res | .done res => res = .ok ()
  | _ => True

theorem remembered_ok {deleteRes res : Status} (h : remembered deleteRes res = .ok ()) :
    deleteRes = .ok () ∧ res.isOk = true := by
  unfold remembered at h
  split at h
  · exact ⟨h, ‹_›⟩
  · cases h

/-- What a section of a compaction does that stays on its course. -/
inductive CompactStep (w : World) : CompactCall → World → CompactCall → Prop
  | dumped {n : Nat} {rs rest : List Reply} {v : World} :
      fillTemps.run rs w = .returned (.ok (.finished n)) rest v → CompactStep w .dumping v (.closing n)
  | closed (n : Nat) : CompactStep w (.closing n) { w with readLocks := w.readLocks - 1 }
      (.deleting (w.files.getLast?.map CcaskFile.fileId) n (.ok ()))
  | unlinked {k : Nat} (n : Nat) : (w.fs.dir (fileName k .data)).isSome →
      CompactStep w (.deleting (some k) n (.ok ())) { w with fs := w.fs.unlink (fileName k .data) }
        (.testing k n (.ok ()))
  | hinted {k : Nat} {file : CcaskFile} (n : Nat) : ccaskFilesGetFile k w = some file → file.hasHint = true →
      CompactStep w (.testing k n (.ok ())) w (.deletingHint k n (.ok ()))
  | unhinted {k : Nat} {file : CcaskFile} (n : Nat) : ccaskFilesGetFile k w = some file → file.hasHint = false →
      CompactStep w (.testing k n (.ok ())) w (.advancing k n (.ok ()))
  | hintUnlinked {k : Nat} (n : Nat) : (w.fs.dir (fileName k .hint)).isSome →
      CompactStep w (.deletingHint k n (.ok ())) { w with fs := w.fs.unlink (fileName k .hint) }
        (.advancing k n (.ok ()))
  | advanced (k n : Nat) : CompactStep w (.advancing k n (.ok ())) w (.deleting (previousFile k w) n (.ok ()))
  | deleted (n : Nat) : CompactStep w (.deleting none n (.ok ())) w (.renamingTemps 0 n)
  | renamed {i n : Nat} : i ≤ n → (w.fs.dir (fileName i .tempData)).isSome →
      CompactStep w (.renamingTemps i n)
        { w with fs := w.fs.rename (fileName i .tempData) (fileName i .data) } (.renamingTemps (i + 1) n)
  | missed {i n : Nat} : i ≤ n → CompactStep w (.renamingTemps i n) w (.renamingTemps (i + 1) n)
  | finished {i n : Nat} : n < i → CompactStep w (.renamingTemps i n) w (.done (.ok ()))

/-- An unlink that came through. -/
theorem unlinked_of_isOk {id : Nat} {ext : FileExt} {r : Status}
    (h : (attempt 5 (ccaskFilesDelete id ext)).run rs w = .returned r rest v) (hr : r.isOk = true) :
    (w.fs.dir (fileName id ext)).isSome ∧ v = { w with fs := w.fs.unlink (fileName id ext) } := by
  obtain ⟨res, hcall, hsome⟩ := ccaskFilesDelete_oneCall id ext w
  obtain ⟨hr', -⟩ | ⟨rfl, rfl⟩ := (hcall.ensures 5).returned (fun _ _ => trivial) h
  · rw [hr] at hr'
    cases hr'
  · exact ⟨hsome hr, rfl⟩

theorem ccaskFilesChangeExt_oneCall (i : Nat) (w : World) :
    ∃ res v, OneCall (ccaskFilesChangeExt i .tempData .data) w res v ∧
      ((w.fs.dir (fileName i .tempData) = none ∧ v = w) ∨ ((w.fs.dir (fileName i .tempData)).isSome ∧
        v = { w with fs := w.fs.rename (fileName i .tempData) (fileName i .data) })) := by
  have hrun : ∃ (res : Status) (v : World), (∀ e, res ≠ .retry e) ∧
      ((w.fs.dir (fileName i .tempData) = none ∧ v = w) ∨ ((w.fs.dir (fileName i .tempData)).isSome ∧
        v = { w with fs := w.fs.rename (fileName i .tempData) (fileName i .data) })) ∧
      ∀ rest, (ccaskFilesChangeExt i .tempData .data).run (.intr :: rest) w = .returned res rest v := by
    simp only [ccaskFilesChangeExt, Prog.run_call_bind, Prog.run_state_bind]
    cases hdir : w.fs.dir (fileName i .tempData) with
    | none => exact ⟨.fail none, w, by simp, .inl ⟨rfl, rfl⟩, fun _ => rfl⟩
    | some ino => exact ⟨.ok (), _, by simp, .inr ⟨rfl, rfl⟩, fun _ => rfl⟩
  obtain ⟨res, v, hretry, hv, hrest⟩ := hrun
  refine ⟨res, v, ⟨rfl, ⟨_, fun _ => rfl⟩, ⟨_, fun _ => rfl⟩, ?_, hretry⟩, hv⟩
  intro r rest hr
  cases r with
  | done k => exact hrest rest
  | intr => exact hrest rest
  | transient => exact False.elim hr
  | fail => exact False.elim hr

/-- A rename, or nothing. -/
theorem changeExt_renames {i : Nat} {r : Status}
    (h : (attempt 5 (ccaskFilesChangeExt i .tempData .data)).run rs w = .returned r rest v) :
    v = w ∨ ((w.fs.dir (fileName i .tempData)).isSome ∧
      v = { w with fs := w.fs.rename (fileName i .tempData) (fileName i .data) }) := by
  obtain ⟨res, u, hcall, hu⟩ := ccaskFilesChangeExt_oneCall i w
  obtain ⟨-, rfl⟩ | ⟨-, rfl⟩ := (hcall.ensures 5).returned (fun _ _ => trivial) h
  · exact .inl rfl
  · exact hu.imp And.right fun hu => hu

/-- A rename that comes through. -/
theorem changeExt_of_told {i : Nat} {r : Status} {left : List Reply} (hsome : (w.fs.dir (fileName i .tempData)).isSome)
    (htold : Telling.tries 5 rs = some (true, left))
    (h : (attempt 5 (ccaskFilesChangeExt i .tempData .data)).run rs w = .returned r rest v) :
    v.fs = w.fs.rename (fileName i .tempData) (fileName i .data) := by
  obtain ⟨res, u, hcall, hu⟩ := ccaskFilesChangeExt_oneCall i w
  obtain ⟨hnone, -⟩ | ⟨-, rfl⟩ := hu
  · rw [hnone] at hsome
    cases hsome
  · have hrun := hcall.attempt 5 rs
    rw [htold] at hrun
    cases hrun.symm.trans h
    rfl

theorem compact_step (hsect : t.sect = some m) (hrun : m.run rs w = .returned t' rest v)
    (hon : OnCourse t') : CompactStep w t v t' := by
  cases t with
  | dumping =>
      cases hsect
      obtain ⟨r, mid, u, hfill, hrest⟩ := Prog.run_bind_eq_returned hrun
      cases r with
      | fail e => cases hrest; cases hon
      | retry e => cases hrest; cases hon
      | ok d =>
          cases d with
          | returned => cases hrest; cases hon
          | cancelled n => cases hrest; exact hon.elim
          | finished n => cases hrest; exact .dumped hfill
  | cancelling n =>
      cases hsect
      obtain ⟨r, mid, u, -, hrest⟩ := Prog.run_bind_eq_returned hrun
      cases hrest
      cases hon
  | closing n =>
      cases hsect
      cases hrun
      exact .closed n
  | deleting cur n res =>
      cases cur with
      | none =>
          cases res with
          | ok a => cases hsect; cases hrun; exact .deleted n
          | fail e => cases hsect; cases hrun; cases hon
          | retry e => cases hsect; cases hrun; cases hon
      | some k =>
          cases hsect
          obtain ⟨r, mid, u, hr, hrest⟩ := Prog.run_bind_eq_returned hrun
          cases hrest
          obtain ⟨rfl, hok⟩ := remembered_ok hon
          obtain ⟨hsome, rfl⟩ := unlinked_of_isOk hr hok
          have hres : remembered (.ok ()) r = .ok () := hon
          rw [hres]
          exact .unlinked n hsome
  | testing k n res =>
      cases hsect
      rw [Prog.run_state_bind] at hrun
      cases hget : ccaskFilesGetFile k w with
      | none => rw [hget] at hrun; cases hrun
      | some file =>
          rw [hget] at hrun
          cases hrun
          cases hhint : file.hasHint with
          | true =>
              simp only [hhint, if_true] at hon ⊢
              obtain rfl := hon
              exact .hinted n hget hhint
          | false =>
              simp only [hhint, Bool.false_eq_true, if_false] at hon ⊢
              obtain rfl := hon
              exact .unhinted n hget hhint
  | deletingHint k n res =>
      cases hsect
      obtain ⟨r, mid, u, hr, hrest⟩ := Prog.run_bind_eq_returned hrun
      cases hrest
      obtain ⟨rfl, hok⟩ := remembered_ok hon
      obtain ⟨hsome, rfl⟩ := unlinked_of_isOk hr hok
      have hres : remembered (.ok ()) r = .ok () := hon
      rw [hres]
      exact .hintUnlinked n hsome
  | advancing k n res =>
      cases hsect
      cases hrun
      obtain rfl : res = .ok () := hon
      exact .advanced k n
  | renamingTemps i n =>
      rw [CompactCall.sect] at hsect
      split at hsect
      · cases hsect
        obtain ⟨r, mid, u, hr, hrest⟩ := Prog.run_bind_eq_returned hrun
        cases hrest
        obtain rfl | ⟨hsome, rfl⟩ := changeExt_renames hr
        · exact .missed ‹_›
        · exact .renamed ‹_› hsome
      · cases hsect
        cases hrun
        exact .finished (Nat.lt_of_not_le ‹_›)
  | done res => cases hsect

theorem CompactStep.onCourse (h : CompactStep w t v t') : OnCourse t := by
  cases h <;> trivial

theorem CompactStep.ne_dumping (h : CompactStep w t v t') : t' ≠ .dumping := by
  cases h <;> simp

end Sections

section Previous

/-- The file in front of another is the next newer one. -/
theorem previous_spec {j : Nat} : ∀ {files : List CcaskFile},
    (files.map CcaskFile.fileId).Pairwise (· > ·) → j ∈ files.map CcaskFile.fileId →
    (((files.takeWhile fun f => f.fileId ≠ j).getLast? = none → ∀ f ∈ files, f.fileId ≤ j) ∧
      ∀ g, (files.takeWhile fun f => f.fileId ≠ j).getLast? = some g →
        g ∈ files ∧ j < g.fileId ∧ ∀ f ∈ files, j < f.fileId → g.fileId ≤ f.fileId)
  | [], _, hj => by cases hj
  | a :: files, hsorted, hj => by
      rw [List.map_cons, List.pairwise_cons] at hsorted
      by_cases ha : a.fileId = j
      · rw [List.takeWhile_cons_of_neg (by simpa using ha)]
        refine ⟨fun _ f hf => ?_, fun g hg => by cases hg⟩
        rcases List.mem_cons.mp hf with rfl | hf
        · exact Nat.le_of_eq ha
        · rw [← ha]
          exact Nat.le_of_lt (hsorted.1 _ (List.mem_map_of_mem hf))
      · have hj' : j ∈ files.map CcaskFile.fileId := (List.mem_cons.mp hj).resolve_left (Ne.symm ha)
        obtain ⟨hnone, hsome⟩ := previous_spec hsorted.2 hj'
        rw [List.takeWhile_cons_of_pos (by simpa using ha), List.getLast?_cons]
        refine ⟨fun h => (by cases h), fun g hg => ?_⟩
        cases hlast : (files.takeWhile fun f => f.fileId ≠ j).getLast? with
        | none =>
            rw [hlast] at hg
            cases hg
            refine ⟨List.mem_cons_self, hsorted.1 j hj', fun f hf hlt => ?_⟩
            rcases List.mem_cons.mp hf with rfl | hf
            · exact Nat.le_refl _
            · exact absurd (hnone hlast f hf) (Nat.not_le.mpr hlt)
        | some b =>
            rw [hlast] at hg
            cases hg
            obtain ⟨hmem, hlt, hleast⟩ := hsome b hlast
            refine ⟨List.mem_cons_of_mem _ hmem, hlt, fun f hf hf' => ?_⟩
            rcases List.mem_cons.mp hf with rfl | hf
            · exact Nat.le_of_lt (hsorted.1 _ (List.mem_map_of_mem hmem))
            · exact hleast f hf hf'

variable {w : World} {j id : Nat}

theorem previousFile_mem (hsorted : (ids w).Pairwise (· > ·)) (hj : j ∈ ids w) {k : Nat}
    (h : previousFile j w = some k) : k ∈ ids w ∧ j < k := by
  obtain ⟨g, hg, rfl⟩ := Option.map_eq_some_iff.mp h
  obtain ⟨hmem, hlt, -⟩ := (previous_spec hsorted hj).2 g hg
  exact ⟨List.mem_map_of_mem hmem, hlt⟩

/-- There is no file between a file and the next newer one. -/
theorem not_mem_of_previousFile (hsorted : (ids w).Pairwise (· > ·)) (hj : j ∈ ids w) (hlt : j < id)
    (h : ∀ k, previousFile j w = some k → id < k) : id ∉ ids w := by
  intro hid
  obtain ⟨f, hf, rfl⟩ := List.mem_map.mp hid
  obtain ⟨hnone, hsome⟩ := previous_spec hsorted hj
  cases hlast : (w.files.takeWhile fun f => f.fileId ≠ j).getLast? with
  | none => exact absurd (hnone hlast f hf) (Nat.not_le.mpr hlt)
  | some g =>
      have hnext : f.fileId < g.fileId := h g.fileId (by rw [previousFile, hlast]; rfl)
      exact absurd ((hsome g hlast).2.2 f hf hlt) (Nat.not_le.mpr hnext)

/-- The last file of the list is the oldest. -/
theorem oldest_spec (hsorted : (ids w).Pairwise (· > ·))
    (h : w.files.getLast?.map CcaskFile.fileId = some j) : j ∈ ids w ∧ ∀ id ∈ ids w, j ≤ id := by
  have hlast : (ids w).getLast? = some j := by
    rw [ids, List.getLast?_map]
    exact h
  obtain ⟨l, hl⟩ := List.getLast?_eq_some_iff.mp hlast
  rw [hl] at hsorted ⊢
  refine ⟨by simp, fun id hid => ?_⟩
  rcases List.mem_append.mp hid with hid | hid
  · exact Nat.le_of_lt ((List.pairwise_append.mp hsorted).2.2 id hid j List.mem_cons_self)
  · rw [List.mem_singleton.mp hid]

theorem not_mem_of_oldest (hsorted : (ids w).Pairwise (· > ·))
    (h : ∀ k, w.files.getLast?.map CcaskFile.fileId = some k → id < k) : id ∉ ids w := by
  intro hid
  cases hlast : w.files.getLast? with
  | none =>
      rw [ids, List.getLast?_eq_none_iff.mp hlast] at hid
      cases hid
  | some f =>
      have hf : w.files.getLast?.map CcaskFile.fileId = some f.fileId := by rw [hlast]; rfl
      exact absurd ((oldest_spec hsorted hf).2 id hid) (Nat.not_le.mpr (h _ hf))

end Previous

section Sections

variable {w : World} {rs : List Reply}

/-- An unlink leaves the list alone. -/
theorem files_unlinked {id : Nat} {ext : FileExt} {r : Status} {rest : List Reply} {v : World}
    (h : (attempt 5 (ccaskFilesDelete id ext)).run rs w = .returned r rest v) : v.files = w.files := by
  obtain ⟨res, hcall, -⟩ := ccaskFilesDelete_oneCall id ext w
  obtain ⟨-, rfl⟩ | ⟨-, rfl⟩ := (hcall.ensures 5).returned (fun _ _ => trivial) h
  · rfl
  · rfl

/-- The file in front of the next one of a list that is walked from its end. -/
theorem previousFile_walk {file : CcaskFile} {gone files : List CcaskFile}
    (hsorted : (ids w).Pairwise (· > ·)) (h : w.files.reverse = gone ++ file :: files) :
    previousFile file.fileId w = files.head?.map CcaskFile.fileId ∧
      ccaskFilesGetFile file.fileId w = some file := by
  have hfiles : w.files = files.reverse ++ file :: gone.reverse := by
    rw [← List.reverse_reverse w.files, h]
    simp
  have hnewer : ∀ g ∈ files.reverse, g.fileId ≠ file.fileId := by
    intro g hg
    rw [ids, hfiles, List.map_append, List.pairwise_append] at hsorted
    exact Nat.ne_of_gt (hsorted.2.2 _ (List.mem_map_of_mem hg) _ (by simp))
  constructor
  · rw [previousFile, hfiles, List.takeWhile_append_of_pos (by simpa using hnewer),
      List.takeWhile_cons_of_neg (by simp), List.append_nil, List.getLast?_reverse]
  · rw [ccaskFilesGetFile, hfiles, List.find?_append, List.find?_eq_none.mpr (by simpa using hnewer)]
    simp

/-- The renames one after another. -/
theorem renameTemps_sections (n : Nat) : ∀ (k i : Nat) (rs : List Reply) (w : World), i + k = n + 1 →
    Solo CompactCall.sect .done (.renamingTemps i n) rs w
      ((do renameTemps (List.range' i k); pure (.ok ()) : Sys Status).run rs w)
  | 0, i, rs, w, hi => by
      have hend : ¬ i ≤ n := by omega
      refine .returned (m := pure (.done (.ok ()))) (by rw [CompactCall.sect, if_neg hend]) rfl ?_
      exact .ended _ _ _
  | k + 1, i, rs, w, hi => by
      have hgoes : i ≤ n := by omega
      rw [List.range'_succ, renameTemps, bind_assoc]
      refine Solo.bind (by rw [CompactCall.sect, if_pos hgoes]) fun r rest v _ => ⟨_, rfl, ?_⟩
      exact renameTemps_sections n k (i + 1) rest v (by omega)

/-- What the compaction does after the unlinks. -/
def replaceTemps (currTempId : Nat) : Status → Sys Status
  | .fail e | .retry e => pure (.fail e)
  | .ok () => do
    renameTemps (List.range (currTempId + 1))
    pure (.ok ())

theorem replaceFiles_eq (n : Nat) : replaceFiles n = (do
    let w ← Prog.state
    let res ← deleteFiles w.files.reverse (.ok ())
    replaceTemps n res : Sys Status) := by
  rw [replaceFiles]
  refine bind_congr fun w => bind_congr fun res => ?_
  cases res <;> rfl

theorem remembered_remembered (deleteRes data hint : Status) :
    remembered (remembered deleteRes data) hint =
      if data.isOk && hint.isOk then deleteRes else .fail none := by
  rw [remembered, remembered]
  cases data.isOk <;> cases hint.isOk <;> rfl

/-- The next file is fetched, and the walk goes on from it. -/
theorem advancing_sections {file : CcaskFile} {gone files : List CcaskFile} {n : Nat} {deleteRes : Status}
    {o : Outcome World Status} (hsorted : (ids w).Pairwise (· > ·))
    (h : w.files.reverse = gone ++ file :: files)
    (hrest : Solo CompactCall.sect .done (.deleting (files.head?.map CcaskFile.fileId) n deleteRes) rs w o) :
    Solo CompactCall.sect .done (.advancing file.fileId n deleteRes) rs w o := by
  refine .returned rfl ?_ hrest
  rw [Prog.run_state_bind, (previousFile_walk hsorted h).1]
  rfl

/-- The mark of the file is looked at. -/
theorem testing_sections {file : CcaskFile} {n : Nat} {deleteRes : Status} {o : Outcome World Status}
    (h : ccaskFilesGetFile file.fileId w = some file)
    (hrest : Solo CompactCall.sect .done (if file.hasHint then .deletingHint file.fileId n deleteRes
      else .advancing file.fileId n deleteRes) rs w o) :
    Solo CompactCall.sect .done (.testing file.fileId n deleteRes) rs w o := by
  refine .returned rfl ?_ hrest
  rw [Prog.run_state_bind, h]
  rfl

/-- The unlinks and what follows them. -/
theorem deleteFiles_sections (n : Nat) : ∀ (files gone : List CcaskFile) (deleteRes : Status) (rs : List Reply)
    (w : World), (ids w).Pairwise (· > ·) → w.files.reverse = gone ++ files →
    Solo CompactCall.sect .done (.deleting (files.head?.map CcaskFile.fileId) n deleteRes) rs w
      ((deleteFiles files deleteRes >>= replaceTemps n).run rs w)
  | [], gone, deleteRes, rs, w, hsorted, h => by
      cases deleteRes with
      | ok a =>
          refine .returned rfl rfl ?_
          have hrenames := renameTemps_sections n (n + 1) 0 rs w (Nat.zero_add _)
          rw [← List.range_eq_range'] at hrenames
          exact hrenames
      | fail e => exact .returned rfl rfl (.ended _ _ _)
      | retry e => exact .returned rfl rfl (.ended _ _ _)
  | file :: files, gone, deleteRes, rs, w, hsorted, h => by
      rw [deleteFiles, bind_assoc]
      refine Solo.bind rfl fun data rest v hdata => ⟨_, rfl, ?_⟩
      have hfiles := files_unlinked hdata
      have hids : ids v = ids w := by rw [ids, hfiles]; rfl
      rw [← hfiles] at h
      rw [← hids] at hsorted
      have hfile := (previousFile_walk hsorted h).2
      have hwalk : v.files.reverse = (gone ++ [file]) ++ files := by rw [h]; simp
      refine testing_sections hfile ?_
      cases hmark : file.hasHint with
      | true =>
          simp only [if_true, bind_assoc]
          refine Solo.bind rfl fun hint rest' u hhint => ⟨_, rfl, ?_⟩
          have hfiles' := files_unlinked hhint
          have hids' : ids u = ids v := by rw [ids, hfiles']; rfl
          rw [← hfiles'] at h hwalk
          rw [← hids'] at hsorted
          rw [remembered_remembered]
          exact advancing_sections hsorted h (deleteFiles_sections n files _ _ rest' u hsorted hwalk)
      | false =>
          have hres : remembered deleteRes data =
              if data.isOk && (.ok () : Status).isOk then deleteRes else .fail none := by
            rw [remembered, Res.isOk, Bool.and_true]
          simp only [Bool.false_eq_true, if_false, pure_bind]
          rw [hres]
          exact advancing_sections hsorted h (deleteFiles_sections n files _ _ rest v hsorted hwalk)

/-- The sections of a compaction one after another are `ccask_compactor_dump_keydir`. -/
theorem ccaskCompactorDumpKeydir_sections (hsorted : (ids w).Pairwise (· > ·)) :
    Solo CompactCall.sect .done .dumping rs w (ccaskCompactorDumpKeydir.run rs w) := by
  rw [ccaskCompactorDumpKeydir, compactKeydir, bind_assoc]
  refine Solo.bind rfl fun r rest v hfill => ?_
  cases r with
  | fail e => exact ⟨_, rfl, .ended _ _ _⟩
  | retry e => exact ⟨_, rfl, .ended _ _ _⟩
  | ok d =>
      cases d with
      | returned => exact ⟨_, rfl, .ended _ _ _⟩
      | cancelled n =>
          refine ⟨_, rfl, ?_⟩
          rw [bind_assoc]
          exact Solo.bind rfl fun logged rest' u _ => ⟨_, rfl, .ended _ _ _⟩
      | finished n =>
          have hkeeps : Keeps (locked w) v := ((fillTemps_ensures w).returned (fun _ _ => trivial) hfill).1
          have hids : ids v = ids w := hkeeps.ids_eq
          refine ⟨_, rfl, ?_⟩
          let u : World := { v with readLocks := v.readLocks - 1 }
          have hwalk := deleteFiles_sections n u.files.reverse [] (.ok ()) rest u
            (by rw [show ids u = ids w from hids]; exact hsorted) rfl
          rw [List.head?_reverse] at hwalk
          have hrun : ((do
              ccaskKeydirRecordIterClose
              let res ← replaceFiles n
              pure (res, ([] : List Nat)) : Sys (Status × List Nat)) >>= fun p => pure p.1 : Sys Status).run rest v =
              (deleteFiles u.files.reverse (.ok ()) >>= replaceTemps n).run rest u := by
            rw [replaceFiles_eq]
            simp only [bind_assoc, pure_bind, bind_pure]
            rfl
          exact hrun ▸ .returned rfl rfl hwalk

end Sections

end Ccask.Audit
