import Ccask.Audit.PartialRecovery
import Ccask.Audit.FileList
import Ccask.Audit.Onward
import Ccask.Audit.Durable

/-!
# A start under errors

`ccask_init` passes over the datafiles it cannot `stat`, and recovers the first puts of the others. When it
returns CCASK_OK the process answers with these. It adds nothing to them, and to the directory nothing but
an empty datafile.
-/

namespace Ccask.Audit

open Ccask.Effect Ccask.Model Ccask.Index

section Directory

variable {fs fs' : Fs} {l : List Nat} {id : Nat} {L : Nat → List (DatafileRecord × Nat)}

/-- Descending ids with one more. -/
def withId (id : Nat) (l : List Nat) : List Nat := l.filter (fun i => id < i) ++ id :: l.filter (fun i => i < id)

theorem mem_withId {i : Nat} (hid : id ∉ l) : i ∈ withId id l ↔ i = id ∨ i ∈ l := by
  simp only [withId, List.mem_append, List.mem_filter, List.mem_cons, decide_eq_true_eq]
  constructor
  · rintro (⟨hi, -⟩ | rfl | ⟨hi, -⟩)
    · exact .inr hi
    · exact .inl rfl
    · exact .inr hi
  · rintro (rfl | hi)
    · exact .inr (.inl rfl)
    · have hne : i ≠ id := by
        rintro rfl
        exact hid hi
      rcases Nat.lt_or_gt_of_ne hne with hlt | hgt
      · exact .inr (.inr ⟨hi, hlt⟩)
      · exact .inl ⟨hi, hgt⟩

theorem sorted_withId (h : l.Pairwise (· > ·)) (id : Nat) : (withId id l).Pairwise (· > ·) := by
  refine List.pairwise_append.mpr ⟨h.filter _, List.pairwise_cons.mpr ⟨?_, h.filter _⟩, ?_⟩
  · intro i hi
    exact of_decide_eq_true (List.mem_filter.mp hi).2
  · intro i hi j hj
    have hlt : id < i := of_decide_eq_true (List.mem_filter.mp hi).2
    rcases List.mem_cons.mp hj with rfl | hj
    · exact hlt
    · exact Nat.lt_trans (of_decide_eq_true (List.mem_filter.mp hj).2) hlt

/-- The ids that are not the newest. -/
theorem mem_tail_iff (h : l.Pairwise (· > ·)) {i : Nat} : i ∈ l.tail ↔ i ∈ l ∧ ∃ j ∈ l, i < j := by
  cases l with
  | nil => simp
  | cons a l =>
      obtain ⟨ha, -⟩ := List.pairwise_cons.mp h
      rw [List.tail_cons]
      constructor
      · exact fun hi => ⟨List.mem_cons_of_mem _ hi, a, List.mem_cons_self, ha i hi⟩
      · rintro ⟨hi, j, hj, hlt⟩
        rcases List.mem_cons.mp hi with rfl | hi
        · rcases List.mem_cons.mp hj with rfl | hj
          · exact absurd hlt (Nat.lt_irrefl _)
          · exact absurd (ha j hj) (Nat.lt_asymm hlt)
        · exact hi

/-- An empty datafile, wherever its id stands among the others. -/
theorem Disk.withEmpty (h : Disk fs l L) (hid : id ∉ l) (hsmall : id < 2 ^ 31)
    (hhint : fs.read (fileName id .hint) = none)
    (hread : fs'.read = Function.update fs.read (fileName id .data) (some [])) :
    Disk fs' (withId id l) (Function.update L id []) := by
  have hold : ∀ i ∈ l, i ≠ id := fun i hi heq => hid (heq ▸ hi)
  have hhints : ∀ i, fs'.read (fileName i .hint) = fs.read (fileName i .hint) := by
    intro i
    rw [hread, Function.update_of_ne (by simp)]
  refine ⟨sorted_withId h.sorted id, ?_, ?_, ?_, ?_, ?_⟩
  · intro i
    rw [mem_withId hid, h.known, hread]
    by_cases hi : i = id
    · rw [hi, Function.update_self]
      exact ⟨fun _ => rfl, fun _ => .inl rfl⟩
    · rw [Function.update_of_ne (by simpa using hi)]
      exact ⟨fun h => h.resolve_left hi, .inr⟩
  · intro i hi
    rcases (mem_withId hid).mp hi with rfl | hi
    · rw [hread, Function.update_self, Function.update_self]
      exact ⟨[], rfl, .stop (recordAt_end [])⟩
    · rw [hread, Function.update_of_ne (by simpa using hold i hi), Function.update_of_ne (hold i hi)]
      exact h.scans i hi
  · intro i hi p hp
    rcases (mem_withId hid).mp hi with rfl | hi
    · rw [Function.update_self] at hp
      cases hp
    · rw [Function.update_of_ne (hold i hi)] at hp
      exact h.hintable i hi p hp
  · intro i hi c hc
    rw [hhints] at hc
    rcases (mem_withId hid).mp hi with rfl | hi
    · rw [hhint] at hc
      cases hc
    · obtain ⟨htail, rfl⟩ := h.hints i hi c hc
      obtain ⟨-, j, hj, hlt⟩ := (mem_tail_iff h.sorted).mp htail
      rw [Function.update_of_ne (hold i hi), mem_tail_iff (sorted_withId h.sorted id)]
      exact ⟨⟨(mem_withId hid).mpr (.inr hi), j, (mem_withId hid).mpr (.inr hj), hlt⟩, rfl⟩
  · intro name hname
    rw [hread, Function.update_apply] at hname
    split at hname
    · rename_i heq
      exact ⟨id, .data, hsmall, by decide, heq⟩
    · exact h.tidy name hname

/-- The directory is the same, or has got one empty datafile. -/
def Padded (l : List Nat) (fs fs' : Fs) : Prop :=
  fs' = fs ∨ ∃ id, id ∉ l ∧ id < 2 ^ 31 ∧ fs' = (fs.create (fileName id .data)).1

end Directory

section Stored

variable [Zlib] {fs fs' : Fs} {l l' : List Nat} {seg : Nat → List Put}

omit [Zlib] in
/-- Files without puts do not show in the history. -/
theorem history_congr {seg' : Nat → List Put} (h : l.Pairwise (· > ·)) (h' : l'.Pairwise (· > ·))
    (hseg : ∀ i ∈ l', i ∈ l → seg' i = seg i) (hl : ∀ i ∈ l, i ∉ l' → seg i = [])
    (hl' : ∀ i ∈ l', i ∉ l → seg' i = []) : history l' seg' = history l seg := by
  have hdrop : ∀ (l : List Nat) (seg : Nat → List Put),
      history l seg = history (l.filter fun i => seg i ≠ []) seg := by
    intro l seg
    rw [history, history, ← List.filter_reverse]
    induction l.reverse with
    | nil => rfl
    | cons i l ih =>
        by_cases hi : seg i = []
        · rw [List.filter_cons_of_neg (by simpa using hi), List.flatMap_cons, hi, List.nil_append, ih]
        · rw [List.filter_cons_of_pos (by simpa using hi), List.flatMap_cons, List.flatMap_cons, ih]
  have hids : (l'.filter fun i => seg' i ≠ []) = l.filter fun i => seg i ≠ [] := by
    apply eq_of_sorted (h'.filter _) (h.filter _)
    intro i
    simp only [List.mem_filter, decide_eq_true_eq]
    constructor
    · rintro ⟨hi, hne⟩
      by_cases hmem : i ∈ l
      · exact ⟨hmem, by rwa [← hseg i hi hmem]⟩
      · exact absurd (hl' i hi hmem) hne
    · rintro ⟨hi, hne⟩
      by_cases hmem : i ∈ l'
      · exact ⟨hmem, by rwa [hseg i hmem hi]⟩
      · exact absurd (hl i hi hmem) hne
  rw [hdrop l', hdrop l, hids]
  refine List.flatMap_congr fun i hi => ?_
  obtain ⟨hi, hne⟩ := List.mem_filter.mp (List.mem_reverse.mp hi)
  by_cases hmem : i ∈ l'
  · exact hseg i hmem hi
  · exact absurd (hl i hi hmem) (of_decide_eq_true hne)

/-- The same puts are in a directory that has got an empty datafile. -/
theorem Stored.padded (h : Stored fs l seg) (hcurrent : ∀ id, (fs.read (fileName id .hint)).isSome → id ∈ l)
    (hp : Padded l fs fs') : ∃ l' seg', Stored fs' l' seg' ∧
      (∀ id, (fs'.read (fileName id .hint)).isSome → id ∈ l') ∧ (∀ i ∈ l, i ∈ l' ∧ seg' i = seg i) ∧
      ∀ i ∈ l', i ∉ l → seg' i = [] := by
  rcases hp with rfl | ⟨id, hid, hsmall, rfl⟩
  · exact ⟨l, seg, h, hcurrent, fun i hi => ⟨hi, rfl⟩, fun i hi hn => absurd hi hn⟩
  · have hnone : fs.read (fileName id .data) = none := by
      rw [← Option.not_isSome_iff_eq_none, ← h.disk.known]
      exact hid
    have hhint : fs.read (fileName id .hint) = none := by
      rw [← Option.not_isSome_iff_eq_none]
      exact fun hsome => hid (hcurrent id hsome)
    have hread : (fs.create (fileName id .data)).1.read =
        Function.update fs.read (fileName id .data) (some []) := by
      rw [Fs.read_create, hnone]
      rfl
    have hold : ∀ i ∈ l, i ≠ id := fun i hi heq => hid (heq ▸ hi)
    have hdisk := h.disk.withEmpty hid hsmall hhint hread
    refine ⟨withId id l, Function.update seg id [], ⟨?_, ?_, ?_⟩, ?_, ?_, ?_⟩
    · rw [recordsOf_update]
      exact hdisk
    · intro i hi
      rcases (mem_withId hid).mp hi with rfl | hi
      · rw [hread, Function.update_self, Function.update_self]
        exact ⟨[], rfl⟩
      · rw [hread, Function.update_of_ne (by simpa using hold i hi), Function.update_of_ne (hold i hi)]
        exact h.contents i hi
    · intro i hi
      rcases (mem_withId hid).mp hi with rfl | hi
      · rw [Function.update_self]
        exact fun p hp => nomatch hp
      · rw [Function.update_of_ne (hold i hi)]
        exact h.good i hi
    · intro i hi
      rw [hread, Function.update_of_ne (by simp)] at hi
      exact (mem_withId hid).mpr (.inr (hcurrent i hi))
    · intro i hi
      exact ⟨(mem_withId hid).mpr (.inr hi), Function.update_of_ne (hold i hi) _ _⟩
    · intro i hi hn
      rcases (mem_withId hid).mp hi with rfl | hi
      · exact Function.update_self _ _ _
      · exact absurd hi hn

end Stored

section Files

variable {w : World} {l : List Nat} {L : Nat → List (DatafileRecord × Nat)} {listing : List Name}

/-- The file that is opened for writing. -/
def chosenId : List CcaskFile → Nat
  | [] => 0
  | head :: _ => if head.hasHint then head.fileId + 1 else head.fileId

def chosen (w : World) : World :=
  { w with
    fs := (w.fs.create (fileName (chosenId w.files) .data)).1
    files := chosenFiles w w.files }

theorem createNewActiveDatafile_creates (id : Nat) :
    Ensures (fun _ => True) (createNewActiveDatafile id) w
      (fun r v => (r = .ok (newFile w id) ∧ v = { w with fs := (w.fs.create (fileName id .data)).1 }) ∨
        (r.isOk = false ∧ v = w)) (fun v => v = w) := by
  refine (openCreate_ensures (fileName id .data)).bind ?_
  rintro r v (⟨hr, rfl⟩ | ⟨rfl, rfl⟩)
  · cases r with
    | ok ino => cases hr
    | fail e => exact Ensures.pure (.inr ⟨rfl, rfl⟩)
    | retry e => exact Ensures.pure (.inr ⟨rfl, rfl⟩)
  · exact Ensures.state_bind (Ensures.pure (.inl ⟨rfl, rfl⟩))

/-- The active file is chosen, or nothing is done. -/
theorem chooseActiveFile_chooses (hsorted : (w.files.map CcaskFile.fileId).Pairwise (· > ·))
    (hmax : ∀ id ∈ w.files.map CcaskFile.fileId, id + 1 < 2 ^ 64) :
    Ensures (fun _ => True) Model.chooseActiveFile w
      (fun r v => (r = .ok () ∧ v = chosen w) ∨ (r.isOk = false ∧ v = w)) (fun v => v = w) := by
  refine Ensures.state_bind ?_
  cases hfiles : w.files with
  | nil =>
      have hchosen : chosen w = { w with
          fs := (w.fs.create (fileName 0 .data)).1, files := [newFile w 0] } := by
        rw [chosen, hfiles]
        rfl
      refine malloc_ensures rfl fun b => ?_
      cases b with
      | false => exact Ensures.pure (.inr ⟨rfl, rfl⟩)
      | true =>
          refine (createNewActiveDatafile_creates 0).bind ?_
          rintro r v (⟨rfl, rfl⟩ | ⟨hr, rfl⟩)
          · refine Ensures.modify_bind (Ensures.pure (.inl ⟨rfl, ?_⟩))
            rw [hchosen, hfiles]
            rfl
          · cases r with
            | ok file => cases hr
            | fail e => exact Ensures.pure (.inr ⟨rfl, rfl⟩)
            | retry e => exact Ensures.pure (.inr ⟨rfl, rfl⟩)
  | cons head rest =>
      have hid : head.fileId + 1 < 2 ^ 64 := hmax _ (by rw [hfiles]; exact List.mem_cons_self)
      dsimp only
      cases hhint : head.hasHint with
      | true =>
          have hchosen : chosen w = { w with
              fs := (w.fs.create (fileName (head.fileId + 1) .data)).1
              files := newFile w (head.fileId + 1) :: head :: rest } := by
            rw [chosen, hfiles, chosenId, chosenFiles, if_pos hhint, if_pos hhint]
          have hadd : Model.addFile (newFile w (head.fileId + 1)) (head :: rest) =
              newFile w (head.fileId + 1) :: head :: rest :=
            addFile_of_lt (Nat.lt_succ_self head.fileId) rest
          rw [if_pos rfl, Nat.mod_eq_of_lt hid]
          refine malloc_ensures rfl fun b => ?_
          cases b with
          | false => exact Ensures.pure (.inr ⟨rfl, rfl⟩)
          | true =>
              refine (createNewActiveDatafile_creates _).bind ?_
              rintro r v (⟨rfl, rfl⟩ | ⟨hr, rfl⟩)
              · refine Ensures.modify_bind (Ensures.pure (.inl ⟨rfl, ?_⟩))
                rw [hchosen, hfiles, hadd]
              · cases r with
                | ok file => cases hr
                | fail e => exact Ensures.pure (.inr ⟨rfl, rfl⟩)
                | retry e => exact Ensures.pure (.inr ⟨rfl, rfl⟩)
      | false =>
          have hne : ¬ head.hasHint = true := by simp [hhint]
          have hset := setFile_of_distinct
            (w := { w with fs := (w.fs.create (fileName head.fileId .data)).1 }) hfiles hsorted
            fun file => { file with
              isActive := true, fd := some (w.fs.create (fileName head.fileId .data)).2 }
          have hchosen : chosen w = World.setFile
              { w with fs := (w.fs.create (fileName head.fileId .data)).1 } head.fileId fun file =>
                { file with isActive := true, fd := some (w.fs.create (fileName head.fileId .data)).2 } := by
            rw [hset, chosen, hfiles, chosenId, chosenFiles, if_neg hne, if_neg hne]
          rw [if_neg Bool.false_ne_true]
          refine (openCreate_ensures (fileName head.fileId .data)).bind ?_
          rintro r v (⟨hr, rfl⟩ | ⟨rfl, rfl⟩)
          · cases r with
            | ok ino => cases hr
            | fail e => exact Ensures.pure (.inr ⟨rfl, rfl⟩)
            | retry e => exact Ensures.pure (.inr ⟨rfl, rfl⟩)
          · exact Ensures.modify_bind (Ensures.pure (.inl ⟨rfl, hchosen.symm⟩))

/-- The directory is not touched. -/
def SameDir (w v : World) : Prop := v.fs = w.fs

instance : Std.Refl SameDir := ⟨fun _ => rfl⟩

instance : IsTrans World SameDir := ⟨fun _ _ _ h h' => Eq.trans h' h⟩

theorem scanDirectory_sameDir (names : List Name) : Moves SameDir (Model.scanDirectory names) := by
  have hentry : ∀ name, Moves SameDir (Model.scanEntry name) := by
    intro name
    unfold Model.scanEntry
    split
    · exact Moves.pure _
    · refine Moves.call fun r => ?_
      cases r with
      | transient => exact Moves.pure _
      | fail => exact Moves.pure _
      | _ =>
          dsimp only
          split
          · exact Moves.block
          · refine malloc_moves.bind fun b => ?_
            cases b with
            | true => exact Moves.modify fun _ => rfl
            | false => exact Moves.block
          · exact Moves.pure _
  induction names with
  | nil => exact Moves.pure _
  | cons name names ih => exact (hentry name).bind fun _ => ih

/-- Some of the datafiles are found. -/
theorem scanDirectory_finds (hdisk : Disk w.fs l L) (hlists : Lists listing w.fs) (hfiles : w.files = []) :
    Ensures (fun _ => True) (Model.scanDirectory listing) w
      (fun _ v => ∃ found : List Nat, found.Pairwise (· > ·) ∧ (∀ id ∈ found, id ∈ l) ∧
        v = { w with files := found.map (scannedNode w) }) (fun v => v.fs = w.fs) := by
  intro rs _
  cases hrun : (Model.scanDirectory listing).run rs w with
  | pending v => exact Ensures.pending (scanDirectory_sameDir listing w) (fun _ _ => trivial) hrun
  | returned a rest v =>
      obtain ⟨rfl, -⟩ := scanDirectory_returned hrun
      have hsub := statted_sublist listing rs
      have hnodup := nodup_filterMap_dataId hlists hdisk.tidy
      obtain ⟨hsorted, hmem⟩ := scannedFiles_spec (w := w) (hnodup.sublist hsub) hfiles
      refine ⟨_, hsorted, fun id hid => ?_, ?_⟩
      · obtain ⟨f, hf, rfl⟩ := List.mem_map.mp hid
        obtain ⟨i, hi, rfl⟩ := (hmem f).mp hf
        exact (hdisk.known i).mpr ((mem_filterMap_dataId hlists hdisk.tidy).mp (hsub.mem hi))
      · congr 1
        rw [List.map_map]
        symm
        refine (List.map_congr_left fun f hf => ?_).trans (List.map_id _)
        obtain ⟨i, -, rfl⟩ := (hmem f).mp hf
        rfl

/-- The files after a start that has come so far: some of the datafiles, and the one that is opened for
writing. -/
theorem ccaskFilesInit_finds (hdisk : Disk w.fs l L) (hlists : Lists listing w.fs) (threshold : UInt64) :
    Ensures (fun _ => True) (attempt 5 (ccaskFilesInit listing threshold)) w
      (fun r v => (r = .ok () ∧ ∃ found : List Nat, found.Pairwise (· > ·) ∧ (∀ id ∈ found, id ∈ l) ∧
          v = chosen { w with maxActiveFileSize := threshold, files := found.map (scannedNode w) }) ∨
        (r.isOk = false ∧ v.fs = w.fs)) (fun v => v.fs = w.fs) := by
  refine attempt_succ_ensures (I := fun v => v.fs = w.fs ∧ ∃ files size,
    v = { w with maxActiveFileSize := size, files := files }) ⟨rfl, w.files, w.maxActiveFileSize, rfl⟩ ?_
  rintro _ ⟨-, files, size, rfl⟩
  refine Ensures.modify_bind (Ensures.call_bind rfl fun r _ => ?_)
  have hscan : Ensures (fun _ => True) (do
      if ← malloc then
        Prog.modify fun w => { w with files := [] }
        Model.scanDirectory listing
        Model.chooseActiveFile
      else pure (.retry (some .noMemory)) : Sys Status)
      { w with maxActiveFileSize := threshold, files := files }
      (fun r u => ((r = .ok () ∧ ∃ found : List Nat, found.Pairwise (· > ·) ∧ (∀ id ∈ found, id ∈ l) ∧
          u = chosen { w with maxActiveFileSize := threshold, files := found.map (scannedNode w) }) ∨
        (r.isOk = false ∧ u.fs = w.fs)) ∧ ∀ e, r = .retry e → u.fs = w.fs ∧ ∃ files size,
          u = { w with maxActiveFileSize := size, files := files }) (fun u => u.fs = w.fs) := by
    refine malloc_ensures rfl fun b => ?_
    cases b with
    | false => exact Ensures.pure ⟨.inr ⟨rfl, rfl⟩, fun _ _ => ⟨rfl, files, threshold, rfl⟩⟩
    | true =>
        refine Ensures.modify_bind ?_
        refine (scanDirectory_finds (w := { w with maxActiveFileSize := threshold, files := [] })
          hdisk hlists rfl).bind ?_
        rintro _ v ⟨found, hsorted, hfound, rfl⟩
        have hids : (found.map (scannedNode w)).map CcaskFile.fileId = found := by
          rw [List.map_map]
          exact List.map_id found
        have hchoose := chooseActiveFile_chooses
          (w := { w with maxActiveFileSize := threshold, files := found.map (scannedNode w) })
          (by
            show ((found.map (scannedNode w)).map CcaskFile.fileId).Pairwise (· > ·)
            rw [hids]
            exact hsorted)
          (by
            show ∀ id ∈ (found.map (scannedNode w)).map CcaskFile.fileId, id + 1 < 2 ^ 64
            rw [hids]
            intro id hid
            have := hdisk.small (hfound id hid)
            omega)
        refine hchoose.mono ?_ ?_
        · rintro r u (⟨rfl, rfl⟩ | ⟨hr, rfl⟩)
          · exact ⟨.inl ⟨rfl, found, hsorted, hfound, rfl⟩, nofun⟩
          · exact ⟨.inr ⟨hr, rfl⟩, fun _ _ => ⟨rfl, _, _, rfl⟩⟩
        · rintro u rfl
          rfl
  cases r with
  | transient => exact Ensures.pure ⟨.inr ⟨rfl, rfl⟩, fun _ _ => ⟨rfl, files, threshold, rfl⟩⟩
  | fail => exact Ensures.pure ⟨.inr ⟨rfl, rfl⟩, nofun⟩
  | done n => exact hscan
  | intr => exact hscan

/-- The files that a start has found, and what that did to the directory. -/
structure PartlyMounted (l : List Nat) (fs : Fs) (v : World) : Prop where
  padded : Padded l fs v.fs
  sorted : (ids v).Pairwise (· > ·)
  there : ∀ id ∈ ids v, (v.fs.read (fileName id .data)).isSome
  hints : ∀ f ∈ v.files, f.hasHint = true → (v.fs.read (fileName f.fileId .hint)).isSome
  anchored : Anchored v

theorem PartlyMounted.of_memory {fs : Fs} {v u : World} (h : PartlyMounted l fs v) (hfs : u.fs = v.fs)
    (hfiles : u.files = v.files) : PartlyMounted l fs u := by
  have hids : ids u = ids v := congrArg (List.map CcaskFile.fileId) hfiles
  refine ⟨by rw [hfs]; exact h.padded, by rw [hids]; exact h.sorted, ?_, ?_, ?_⟩
  · rw [hids, hfs]
    exact h.there
  · rw [hfiles, hfs]
    exact h.hints
  · exact (Retains.of_memory hfs hfiles).anchored h.anchored

/-- A file whose descriptor, if it has one, leads where its name leads. -/
theorem anchored_of_files {v : World} (h : ∀ f ∈ v.files, ∀ ino, f.fd = some ino →
    v.fs.dir (fileName f.fileId .data) = some ino) : Anchored v := by
  intro i ino hopen
  obtain ⟨f, hget, hfd⟩ := Option.map_eq_some_iff.mp hopen
  have hid : f.fileId = i := by simpa using List.find?_some hget
  rw [← hid]
  exact h f (List.mem_of_find?_eq_some hget) ino hfd

/-- Choosing the active file among those that were found. -/
theorem Disk.partlyMounted (hdisk : Disk w.fs l L) {found : List Nat} (hsorted : found.Pairwise (· > ·))
    (hfound : ∀ id ∈ found, id ∈ l) (threshold : UInt64) :
    PartlyMounted l w.fs (chosen { w with
      maxActiveFileSize := threshold
      files := found.map (scannedNode w) }) := by
  have hread : ∀ id ∈ found, (w.fs.read (fileName id .data)).isSome :=
    fun id hid => (hdisk.known id).mp (hfound id hid)
  -- a file that is opened for writing is one of the datafiles, or a new one with a small id
  have hpadded : ∀ id, id ∈ l ∨ id < 2 ^ 31 → Padded l w.fs (w.fs.create (fileName id .data)).1 := by
    intro id hid
    by_cases hmem : id ∈ l
    · obtain ⟨c, hc⟩ := Option.isSome_iff_exists.mp ((hdisk.known id).mp hmem)
      obtain ⟨ino, hdir, -⟩ := Fs.exists_of_read hc
      rw [Fs.create_of_some _ _ hdir]
      exact .inl rfl
    · exact .inr ⟨id, hmem, hid.resolve_left hmem, rfl⟩
  have hthere : ∀ (name : Name) id, (w.fs.read (fileName id .data)).isSome →
      ((w.fs.create name).1.read (fileName id .data)).isSome := by
    intro name id hid
    rw [Fs.read_create, Function.update_apply]
    split
    · rfl
    · exact hid
  have hself : ∀ name : Name, ((w.fs.create name).1.read name).isSome := by
    intro name
    rw [Fs.read_create, Function.update_self]
    rfl
  have hhints : ∀ (name : Name) id, (scannedNode w id).hasHint = true →
      ((w.fs.create name).1.read (fileName id .hint)).isSome := by
    intro name id hid
    rw [Fs.read_create, Function.update_apply]
    split
    · rfl
    · exact hid
  have hids : ∀ l : List Nat, (l.map (scannedNode w)).map CcaskFile.fileId = l := by
    intro l
    rw [List.map_map]
    exact List.map_id l
  cases found with
  | nil =>
      refine ⟨hpadded 0 (.inr (by decide)), List.pairwise_singleton _ _, ?_, ?_, anchored_of_files ?_⟩
      · intro id hid
        rw [List.mem_singleton.mp hid]
        exact hself _
      · intro f hf hhint
        rw [List.mem_singleton.mp hf] at hhint
        cases hhint
      · intro f hf ino hino
        rw [List.mem_singleton.mp hf] at hino ⊢
        cases hino
        exact Fs.dir_create_self _ _
  | cons head rest =>
      have hhead : head ∈ l := hfound head List.mem_cons_self
      cases hhint : (w.fs.read (fileName head .hint)).isSome with
      | true =>
          obtain ⟨c, hc⟩ := Option.isSome_iff_exists.mp hhint
          obtain ⟨htail, -⟩ := hdisk.hints head hhead c hc
          obtain ⟨-, j, hj, hlt⟩ := (mem_tail_iff hdisk.sorted).mp htail
          have hsmall : head + 1 < 2 ^ 31 := Nat.lt_of_le_of_lt hlt (hdisk.small hj)
          have hchosen : chosen { w with
              maxActiveFileSize := threshold, files := (head :: rest).map (scannedNode w) } =
              { w with
                fs := (w.fs.create (fileName (head + 1) .data)).1
                maxActiveFileSize := threshold
                files := newFile w (head + 1) :: (head :: rest).map (scannedNode w) } := by
            have hflag : (scannedNode w head).hasHint = true := hhint
            simp only [chosen, List.map_cons, chosenId, chosenFiles, hflag, if_true]
            rfl
          rw [hchosen]
          refine ⟨hpadded _ (.inr hsmall), ?_, ?_, ?_, anchored_of_files ?_⟩
          · show (newFile w (head + 1) :: (head :: rest).map (scannedNode w) |>.map
              CcaskFile.fileId).Pairwise (· > ·)
            rw [List.map_cons, hids]
            refine List.pairwise_cons.mpr ⟨fun i hi => ?_, hsorted⟩
            rcases List.mem_cons.mp hi with rfl | hi
            · exact Nat.lt_succ_self _
            · exact Nat.lt_succ_of_lt ((List.pairwise_cons.mp hsorted).1 i hi)
          · intro id hid
            change id ∈ (newFile w (head + 1) :: (head :: rest).map (scannedNode w)).map CcaskFile.fileId at hid
            rw [List.map_cons, hids] at hid
            rcases List.mem_cons.mp hid with rfl | hid
            · exact hself _
            · exact hthere _ id (hread id hid)
          · intro f hf hflag
            rcases List.mem_cons.mp hf with rfl | hf
            · cases hflag
            · obtain ⟨i, -, rfl⟩ := List.mem_map.mp hf
              exact hhints _ i hflag
          · intro f hf ino hino
            rcases List.mem_cons.mp hf with rfl | hf
            · cases hino
              exact Fs.dir_create_self _ _
            · obtain ⟨i, -, rfl⟩ := List.mem_map.mp hf
              cases hino
      | false =>
          have hchosen : chosen { w with
              maxActiveFileSize := threshold, files := (head :: rest).map (scannedNode w) } =
              { w with
                fs := (w.fs.create (fileName head .data)).1
                maxActiveFileSize := threshold
                files := { scannedNode w head with
                  isActive := true, fd := some (w.fs.create (fileName head .data)).2 } ::
                    rest.map (scannedNode w) } := by
            have hflag : ¬ (scannedNode w head).hasHint = true := by
              show ¬ (w.fs.read (fileName head .hint)).isSome = true
              rw [hhint]
              exact Bool.false_ne_true
            simp only [chosen, List.map_cons, chosenId, chosenFiles, if_neg hflag]
            rfl
          rw [hchosen]
          refine ⟨hpadded _ (.inl hhead), ?_, ?_, ?_, anchored_of_files ?_⟩
          · show (head :: (rest.map (scannedNode w)).map CcaskFile.fileId).Pairwise (· > ·)
            rw [hids]
            exact hsorted
          · intro id hid
            change id ∈ head :: (rest.map (scannedNode w)).map CcaskFile.fileId at hid
            rw [hids] at hid
            exact hthere _ id (hread id hid)
          · intro f hf hflag
            rcases List.mem_cons.mp hf with rfl | hf
            · exact hhints _ head hflag
            · obtain ⟨i, -, rfl⟩ := List.mem_map.mp hf
              exact hhints _ i hflag
          · intro f hf ino hino
            rcases List.mem_cons.mp hf with rfl | hf
            · cases hino
              exact Fs.dir_create_self _ _
            · obtain ⟨i, -, rfl⟩ := List.mem_map.mp hf
              cases hino

end Files

section Init

variable {w v : World} {opts : CcaskOptions} {l : List Nat} {L : Nat → List (DatafileRecord × Nat)}

/-- The key directory gets first entries of every file. -/
theorem ccaskKeydirInit_prefixes (hdisk : Disk v.fs l L) (hsorted : (ids v).Pairwise (· > ·))
    (hids : ∀ id ∈ ids v, id ∈ l)
    (hhints : ∀ f ∈ v.files, f.hasHint = true → (v.fs.read (fileName f.fileId .hint)).isSome) :
    Ensures (fun _ => True) (attempt 5 ccaskKeydirInit) v
      (fun r u => (∃ table locks, u = { v with hashTable := table, readLocks := locks }) ∧
        (r = .ok () → ∃ n, u = { v with
          hashTable := Index.replay KeydirRecord.key [] (firstEntries (ids v).reverse L n)
          readLocks := 0 })) (fun u => u.fs = v.fs) := by
  refine attempt_succ_ensures (I := fun u => ∃ table locks,
    u = { v with hashTable := table, readLocks := locks }) ⟨v.hashTable, v.readLocks, rfl⟩ ?_
  rintro _ ⟨table, locks, rfl⟩
  refine Ensures.modify_bind (Ensures.state_bind ?_)
  have hrec := recoverFiles_prefixes (w := { v with hashTable := [], readLocks := 0 }) v.files.reverse
    hdisk ?_ ?_
  · refine hrec.mono ?_ fun _ h => h
    rintro r u ⟨n, rfl⟩
    have hes : v.files.reverse.map CcaskFile.fileId = (ids v).reverse := List.map_reverse
    rw [hes, foldl_upserted]
    exact ⟨⟨⟨_, _, rfl⟩, fun _ => ⟨n, rfl⟩⟩, fun _ _ => ⟨_, _, rfl⟩⟩
  · rw [List.map_reverse, List.nodup_reverse]
    exact hsorted.imp Nat.ne_of_gt
  · intro file hfile
    have hfile := List.mem_reverse.mp hfile
    exact ⟨hids _ (List.mem_map_of_mem hfile), hhints file hfile⟩

theorem ccaskWriterStart_leaves (capacity : Nat) : Ensures (fun _ => True)
    (attempt 5 (ccaskWriterStart capacity)) w
    (fun _ u => ∃ ringbuf, u = { w with ringbuf := ringbuf }) (fun u => u.fs = w.fs) := by
  refine attempt_ensures (I := fun u => ∃ ringbuf, u = { w with ringbuf := ringbuf }) ⟨w.ringbuf, rfl⟩
    (fun _ _ h => h) ?_
  rintro _ ⟨ringbuf, rfl⟩
  have hinit : Ensures (fun _ => True) (ccaskWriterRingbufInit capacity) { w with ringbuf := ringbuf }
      (fun r u => ∃ ringbuf, u = { w with ringbuf := ringbuf }) (fun u => u.fs = w.fs) :=
    mallocAll_ensures 2 rfl (Ensures.modify_bind (Ensures.pure ⟨_, rfl⟩)) (Ensures.pure ⟨_, rfl⟩)
  refine hinit.bind ?_
  rintro r _ ⟨ringbuf', rfl⟩
  cases r with
  | fail e => exact Ensures.pure ⟨_, rfl⟩
  | retry e => exact Ensures.pure ⟨_, rfl⟩
  | ok x =>
      refine Ensures.call_bind rfl fun r _ => ?_
      cases r with
      | done n => exact Ensures.pure ⟨_, rfl⟩
      | intr => exact Ensures.pure ⟨_, rfl⟩
      | transient => exact Ensures.modify_bind (Ensures.pure ⟨_, rfl⟩)
      | fail => exact Ensures.modify_bind (Ensures.pure ⟨_, rfl⟩)

variable [Zlib] {seg : Nat → List Put}

/-- The store that a start under errors may come to: a part of the files, and the first entries of each. -/
structure PartlyStarted (l : List Nat) (seg : Nat → List Put) (fs : Fs) (v : World) : Prop
    extends PartlyMounted l fs v where
  table : ∃ l' seg' n, Stored v.fs l' seg' ∧ (∀ id ∈ ids v, id ∈ l') ∧ (∀ i ∈ l, seg' i = seg i) ∧
    (∀ i ∈ l', i ∉ l → seg' i = []) ∧ v.hashTable =
      Index.replay KeydirRecord.key [] (firstEntries (ids v).reverse (recordsOf seg') n)

/-- Whatever the system answers and wherever the process dies, the directory gets an empty datafile at most,
and what CCASK_OK stands for is a partial start at least. -/
theorem ccaskInit_starts (h : Stored w.fs l seg) (hlists : Lists opts.listing w.fs)
    (hcurrent : ∀ id, (w.fs.read (fileName id .hint)).isSome → id ∈ l) :
    Ensures (fun _ => True) (ccaskInit opts) w
      (fun r v => Padded l w.fs v.fs ∧ (r = .ok () → PartlyStarted l seg w.fs v))
      (fun v => Padded l w.fs v.fs) := by
  refine Ensures.modify_bind ?_
  have hfiles := ccaskFilesInit_finds (w := { w with isShuttingDown := false }) h.disk hlists
    opts.datafileRotateThreshold
  refine (hfiles.mono (fun _ _ h => h) fun v hv => .inl hv).bind ?_
  rintro r v (⟨rfl, found, hsorted, hfound, rfl⟩ | ⟨hr, hv⟩)
  swap
  · cases r with
    | ok x => cases hr
    | fail e => exact Ensures.pure ⟨.inl hv, nofun⟩
    | retry e => exact Ensures.pure ⟨.inl hv, nofun⟩
  have hmount := Disk.partlyMounted (w := { w with isShuttingDown := false }) h.disk hsorted hfound
    opts.datafileRotateThreshold
  generalize chosen _ = v at hmount ⊢
  obtain ⟨l', seg', hstored, -, hold, hnew⟩ := h.padded hcurrent hmount.padded
  have hids : ∀ id ∈ ids v, id ∈ l' := fun id hid => (hstored.disk.known id).mpr (hmount.there id hid)
  have hkeydir := ccaskKeydirInit_prefixes hstored.disk hmount.sorted hids hmount.hints
  have hpadded : ∀ u : World, u.fs = v.fs → Padded l w.fs u.fs := by
    intro u hu
    rw [hu]
    exact hmount.padded
  refine (hkeydir.mono (fun _ _ h => h) hpadded).bind ?_
  rintro r u ⟨⟨table, locks, hu⟩, hok⟩
  have hfail : ∀ u : World, u.fs = v.fs → Ensures (fun _ => True) (do
      ccaskFilesShutdown
      pure (.fail none) : Sys Status) u
      (fun r v => Padded l w.fs v.fs ∧ (r = .ok () → PartlyStarted l seg w.fs v))
      (fun v => Padded l w.fs v.fs) :=
    fun u hu => Ensures.modify_bind (Ensures.pure ⟨hpadded _ hu, nofun⟩)
  cases r with
  | fail e => exact hfail u (by rw [hu])
  | retry e => exact hfail u (by rw [hu])
  | ok x =>
      obtain ⟨n, hn⟩ := hok rfl
      have hfs : u.fs = v.fs := by rw [hu]
      have hstart := ccaskWriterStart_leaves (w := u) opts.writerRingbufCapacity
      refine (hstart.mono (fun _ _ h => h) fun x hx => hpadded x (hx.trans hfs)).bind ?_
      rintro r _ ⟨ringbuf, rfl⟩
      have hstop : Ensures (fun _ => True) (do
          ccaskKeydirShutdown
          ccaskFilesShutdown
          pure (.fail none) : Sys Status) { u with ringbuf := ringbuf }
          (fun r v => Padded l w.fs v.fs ∧ (r = .ok () → PartlyStarted l seg w.fs v))
          (fun v => Padded l w.fs v.fs) := by
        have hdown : Ensures (fun _ => True) ccaskKeydirShutdown { u with ringbuf := ringbuf }
            (fun _ x => x.fs = v.fs) (fun x => x.fs = v.fs) := by
          refine Ensures.state_bind ?_
          split
          · exact Ensures.block hfs
          · refine Ensures.modify.mono ?_ fun _ h => h
            rintro _ x rfl
            exact hfs
        exact (hdown.mono (fun _ _ h => h) hpadded).bind fun _ x hx => hfail x hx
      cases r with
      | fail e => exact hstop
      | retry e => exact hstop
      | ok x =>
          refine Ensures.modify_bind (Ensures.pure ⟨hpadded _ hfs, fun _ => ?_⟩)
          subst hn
          exact ⟨hmount.of_memory rfl rfl, l', seg', n, hstored, hids, fun i hi => (hold i hi).2, hnew, rfl⟩

end Init

section Answers

variable [Zlib] {w v : World} {hist : List Put} {p : Put}

theorem Legible.checks (h : Legible p) : Checks p.record := by
  have hcrc := calculateCrc32_eq p.timestamp p.key p.value
  rw [Ptr.eq_some_of_isSome h.key_some, Ptr.eq_some h.value_ne] at hcrc
  show calculateCrc32 (ccaskGetDatafileRecordHeader p.record).timestamp _ _ _ _ = _
  rw [Put.record, header_mkRecord]
  exact hcrc

/-- The key directory leads to the record of the last put of every key, through a file that is open where
its name leads or is not open. -/
structure Upholds (w : World) (hist : List Put) : Prop where
  anchored : Anchored w
  missing : ∀ k, latest putKey k hist = none → ccaskKeydirFind k w = none
  found : ∀ k p, latest putKey k hist = some p → Legible p ∧ ∃ id pos,
    ccaskKeydirFind k w = some (p.entry id pos) ∧ id ∈ ids w ∧ StandsAt p.record id pos w.fs

omit [Zlib] in
/-- A file that is known is served by the datafile with its name. -/
theorem Anchored.served (h : Anchored w) {id : Nat} {ino : Ino} (hid : id ∈ ids w)
    (hdir : w.fs.dir (fileName id .data) = some ino) : servedBy id w = some ino := by
  obtain ⟨f, -, -, hget⟩ := Mounted.getFile hid
  obtain ⟨fd, hfd⟩ : ∃ fd, openFd id w = some fd := ⟨f.fd, by rw [openFd, hget]; rfl⟩
  rw [servedBy_eq, hfd]
  cases fd with
  | none => exact hdir
  | some i => exact (h id i hfd).symm.trans hdir

theorem Anchored.reads (h : Anchored w) {id pos : Nat} (hp : Legible p) (hid : id ∈ ids w)
    (hstands : StandsAt p.record id pos w.fs) : Reads w (p.entry id pos) p.record := by
  obtain ⟨c, hc, hprefix⟩ := hstands
  obtain ⟨ino, hdir, rfl⟩ := Fs.exists_of_read hc
  have hvalue : p.value.size.toNat = p.value.bytes.length := Ptr.toNat_size _
  have hpos : 0 < p.value.bytes.length := List.length_pos_iff.mpr hp.value_ne
  have hlen := hprefix.length_le
  rw [p.length_record, List.length_drop] at hlen
  refine ⟨ino, h.served hid hdir, ?_, ?_, ?_⟩
  · show 0 < p.value.size.toNat
    omega
  · show pos + (16 + p.key.bytes.length + p.value.size.toNat) ≤ _
    omega
  · have hback := readBack_of_prefix p.sized.header hprefix
    rw [Put.record_key, Put.record_value, ← hvalue] at hback
    exact hback.symm

/-- Whatever the system answers, a get gives the last put of the key or an error. -/
theorem Upholds.get (h : Upholds w hist) (key : Buf) : Ensures (fun _ => True) (ccaskGet key) w
    (fun res _ => res = lookup hist key.val ∨ ∃ e, res = .fail e) (fun _ => True) := by
  unfold lookup
  cases hlatest : latest putKey key.val hist with
  | none =>
      refine Ensures.state_bind ?_
      rw [h.missing _ hlatest]
      exact Ensures.pure (.inl rfl)
  | some p =>
      obtain ⟨hp, id, pos, hfind, hid, hstands⟩ := h.found _ p hlatest
      have hreads := h.anchored.reads hp hid hstands
      refine (ccaskGet_answers hfind).mono ?_ fun _ _ => trivial
      rintro res v (hfail | ⟨r, hr, hres⟩)
      · exact .inr hfail
      · obtain rfl := hr.unique hreads
        cases res with
        | fail e => exact .inr ⟨e, rfl⟩
        | missing => exact hres.elim
        | outOfBounds =>
            have hcheck := hp.checks
            rw [Checks] at hcheck
            rw [Answers, Overruns, hcheck] at hres
            cases hres
        | found c =>
            obtain ⟨-, rfl⟩ := hres
            refine .inl (congrArg GetResult.found ?_)
            rw [Put.record, header_mkRecord]
            show CcaskRecord.mk _ _ p.value.size (p.value.bytes.take p.value.size.toNat) = p.result
            rw [Ptr.toNat_size, List.take_length]
            rfl

/-- And without errors it gives the last put. -/
theorem Upholds.givesPuts (h : Upholds w hist) : GivesPuts w hist := by
  apply givesPuts_of_get
  intro key
  cases hlatest : latest putKey key.val hist with
  | none =>
      rw [lookup, hlatest]
      exact ⟨w, ccaskGet_missing (h.missing _ hlatest)⟩
  | some p =>
      obtain ⟨hp, id, pos, hfind, hid, hstands⟩ := h.found _ p hlatest
      obtain ⟨res, v, hget, hne⟩ := ccaskGet_gives hfind (h.anchored.reads hp hid hstands) (.inl hp.checks)
      obtain ⟨rs, rest, -, hrun⟩ := hget.exists_run
      obtain rfl | ⟨e, rfl⟩ := (h.get key).returned (fun _ _ => trivial) hrun
      · exact ⟨v, hget⟩
      · exact absurd rfl (hne e)

end Answers

section Partial

variable [Zlib] {fs : Fs} {v : World} {l : List Nat} {seg : Nat → List Put}

/-- The first entries of the files are the entries of their first puts. -/
theorem firstEntries_recordsOf (ids : List Nat) (seg : Nat → List Put) (n : Nat → Nat) :
    firstEntries ids.reverse (recordsOf seg) n =
      allEntries ids (recordsOf fun i => (seg i).take (n i)) := by
  refine List.flatMap_congr fun i _ => ?_
  rw [entries, entries, recordsOf, recordsOf, located, located, ← List.map_take, ← List.map_take,
    take_locate]

/-- A key directory with the first entries of the files that were found leads to the last of their puts. -/
theorem PartlyMounted.upholds {l' : List Nat} {seg' : Nat → List Put} {n : Nat → Nat}
    (h : PartlyMounted l fs v) (hstored : Stored v.fs l' seg') (hids : ∀ id ∈ ids v, id ∈ l')
    (htable : v.hashTable =
      Index.replay KeydirRecord.key [] (firstEntries (ids v).reverse (recordsOf seg') n)) :
    Upholds v (history (ids v) fun i => (seg' i).take (n i)) := by
  rw [firstEntries_recordsOf, ← map_log_entry] at htable
  have hfind : ∀ k, ccaskKeydirFind k v = (latest (fun x : Nat × Put × Nat => putKey x.2.1) k
      (log (ids v) fun i => (seg' i).take (n i))).map logEntry := by
    intro k
    rw [ccaskKeydirFind, htable, Index.get_replay_nil]
    exact Index.latest_map (fun _ => rfl) k _
  refine ⟨h.anchored, ?_, ?_⟩
  · intro k hk
    rw [← latest_log, Option.map_eq_none_iff] at hk
    rw [hfind, hk]
    rfl
  · intro k p hp
    rw [← latest_log, Option.map_eq_some_iff] at hp
    obtain ⟨x, hx, rfl⟩ := hp
    obtain ⟨hid, hput, pre, post, hwritten, hpos⟩ := mem_log (List.mem_reverse.mp (Index.mem_of_get hx))
    have hgood := hstored.good x.1 (hids x.1 hid) x.2.1 (List.mem_of_mem_take hput)
    obtain ⟨tail, hread⟩ := hstored.contents x.1 (hids x.1 hid)
    refine ⟨⟨Ptr.isSome_of_ne hgood.key_ne, hgood.value_ne⟩, x.1, x.2.2, ?_, hid, _, hread, ?_⟩
    · rw [hfind, hx]
      rfl
    · have hsplit : written (seg' x.1) = written ((seg' x.1).take (n x.1)) ++
          written ((seg' x.1).drop (n x.1)) := by
        rw [written, written, written, ← layout_append, List.take_append_drop]
      rw [hsplit, hwritten, hpos, List.append_assoc, List.append_assoc, List.append_assoc, List.drop_left]
      exact List.prefix_append _ _

/-- A start has lost the last puts of some files, and nothing else. -/
theorem PartlyStarted.upholds (h : PartlyStarted l seg fs v) (hsorted : l.Pairwise (· > ·)) :
    ∃ n : Nat → Nat, Upholds v (history l fun i => (seg i).take (n i)) := by
  obtain ⟨l', seg', n, hstored, hids, hold, hnew, htable⟩ := h.table
  have hup := h.toPartlyMounted.upholds hstored hids htable
  -- the files that were not found count with none of their puts
  have hhist : history (ids v) (fun i => (seg' i).take (n i)) =
      history l fun i => (seg i).take (if i ∈ ids v then n i else 0) := by
    apply history_congr hsorted h.sorted
    · intro i hi hl
      simp only [hi, if_true, hold i hl]
    · intro i _ hi
      simp only [hi, if_false, List.take_zero]
    · intro i hi hl
      simp only [hnew i (hids i hi) hl, List.take_nil]
  rw [hhist] at hup
  exact ⟨_, hup⟩

end Partial

section Repeated

variable [Zlib] {fs fs' : Fs} {w v u : World} {hist : List Put} {opts : CcaskOptions} {listing : List Name}
  {l : List Nat} {seg seg' : Nat → List Put}

/-- `ccask_files_init` on a directory with puts. Where there is no datafile it makes the first one. -/
theorem Stored.mounts (h : Stored w.fs l seg) (hlists : Lists listing w.fs)
    (hcurrent : ∀ id, (w.fs.read (fileName id .hint)).isSome → id ∈ l) (threshold : UInt64) :
    ∃ v seg', Computes (ccaskFilesInit listing threshold) w (.ok ()) v ∧ Mounts threshold w v ∧
      Stored v.fs (ids v) seg' ∧ (∀ id, (v.fs.read (fileName id .hint)).isSome → id ∈ ids v) ∧
      (∀ i, v.fs.read (fileName i .tempData) = w.fs.read (fileName i .tempData)) ∧
      (∀ i ∈ l, i ∈ ids v ∧ seg' i = seg i) ∧ ∀ i ∈ ids v, i ∉ l → seg' i = [] := by
  cases l with
  | cons id tl =>
      obtain ⟨v, hfiles, hmounts, hfs, hids⟩ := ccaskFilesInit_mounts threshold h.disk hlists
      refine ⟨v, seg, hfiles, hmounts, ?_, ?_, ?_, ?_, ?_⟩
      · rw [hfs, hids]
        exact h
      · rw [hfs, hids]
        exact hcurrent
      · rw [hfs]
        exact fun _ => rfl
      · rw [hids]
        exact fun i hi => ⟨hi, rfl⟩
      · rw [hids]
        exact fun i hi hn => absurd hi hn
  | nil =>
      have hdata : ∀ i, w.fs.read (fileName i .data) = none := by
        intro i
        rw [← Option.not_isSome_iff_eq_none, ← h.disk.known]
        exact List.not_mem_nil
      have hhint : ∀ i, w.fs.read (fileName i .hint) = none := by
        intro i
        rw [← Option.not_isSome_iff_eq_none]
        exact fun hi => List.not_mem_nil (hcurrent i hi)
      obtain ⟨v, hfiles, hmounts, hread, hids, hdisk⟩ := ccaskFilesInit_creates threshold hlists h.disk.tidy
        hdata (hhint 0)
      have hother : ∀ name, name ≠ fileName 0 .data → v.fs.read name = w.fs.read name := by
        intro name hname
        rw [hread, Function.update_of_ne hname]
      refine ⟨v, fun _ => [], hfiles, hmounts, ⟨hdisk, ?_, fun _ _ => nofun⟩, ?_, ?_, nofun, fun _ _ _ => rfl⟩
      · intro id hid
        rw [hids, List.mem_singleton] at hid
        rw [hid, hread, Function.update_self]
        exact ⟨[], rfl⟩
      · intro id hid
        rw [hother _ (by simp), hhint] at hid
        cases hid
      · intro i
        exact hother _ (by simp)

/-- A state after a start that can go on with these puts. The datafiles may hold more than the key directory
leads to. -/
structure Boots (opts : CcaskOptions) (w : World) (hist : List Put) (u : World) : Prop where
  serves : ∃ seg, Serves u seg ∧ history (ids u) seg = hist
  store : ∃ L, Store u L
  threads : u.threads = []
  threshold : u.maxActiveFileSize = opts.datafileRotateThreshold
  temps : ∀ i, u.fs.read (fileName i .tempData) = w.fs.read (fileName i .tempData)

/-- The key directory of the first puts of the files that have been mounted. -/
theorem Mounts.boots (h : Mounts opts.datafileRotateThreshold { w with isShuttingDown := false } v)
    (hstored : Stored v.fs (ids v) seg') (hcurrent : ∀ id, (v.fs.read (fileName id .hint)).isSome → id ∈ ids v)
    (htemps : ∀ i, v.fs.read (fileName i .tempData) = w.fs.read (fileName i .tempData))
    (hseg : ∀ i ∈ ids v, seg i <+: seg' i) :
    Boots opts w (history (ids v) seg)
      (Audit.started v opts.writerRingbufCapacity (allEntries (ids v) (recordsOf seg))) := by
  have hstarted := h.started (allEntries (ids v) (recordsOf seg))
  refine ⟨⟨seg, ⟨hstarted.mounted, ?_, rfl, ?_⟩, rfl⟩, ⟨_, hstarted.store hstored.disk hcurrent⟩, rfl,
    hstarted.threshold, htemps⟩
  · intro i hi
    obtain ⟨later, hlater⟩ := hseg i hi
    obtain ⟨tail, htail⟩ := hstored.contents i hi
    refine ⟨written later ++ tail, htail.trans ?_⟩
    rw [← hlater, ← List.append_assoc]
    congr 2
    exact layout_append _ _
  · intro i hi p hp
    exact hstored.good i hi p ((hseg i hi).subset hp)

/-- A start without errors. -/
theorem Stored.boots (h : Stored w.fs l seg) (hlists : Lists opts.listing w.fs)
    (hcurrent : ∀ id, (w.fs.read (fileName id .hint)).isSome → id ∈ l) :
    ∃ u, Computes (ccaskInit opts) w (.ok ()) u ∧ Boots opts w (history l seg) u := by
  obtain ⟨v, seg', hfiles, hmounts, hstored, hcurrent', htemps, hold, hnew⟩ :=
    Stored.mounts (w := { w with isShuttingDown := false }) h hlists hcurrent opts.datafileRotateThreshold
  have hhist : history (ids v) seg' = history l seg :=
    history_congr h.disk.sorted hmounts.mounted.sorted (fun i _ hi => (hold i hi).2)
      (fun i hi hn => absurd (hold i hi).1 hn) hnew
  refine ⟨_, ccaskInit_of_files hfiles hstored.disk rfl hmounts.flags, ?_⟩
  rw [← hhist]
  exact hmounts.boots hstored hcurrent' htemps fun _ _ => List.prefix_refl _

theorem Boots.givesPuts (h : Boots opts w hist u) : GivesPuts u hist := by
  obtain ⟨seg, hserves, rfl⟩ := h.serves
  exact fun key res => hserves.get_iff key res

/-- The directory holds these puts, and no hint file without its datafile. -/
def Bears (fs : Fs) (hist : List Put) : Prop :=
  ∃ l seg, Stored fs l seg ∧ (∀ id, (fs.read (fileName id .hint)).isSome → id ∈ l) ∧ history l seg = hist

/-- A start leaves the puts where they are, wherever it is cut short. -/
theorem Bears.start (h : Bears w.fs hist) (hlists : Lists opts.listing w.fs) (rs : List Reply) :
    Bears ((ccaskInit opts).run rs w).state.fs hist := by
  obtain ⟨l, seg, hstored, hcurrent, hhist⟩ := h
  have hstart := ccaskInit_starts hstored hlists hcurrent
  have hpadded : Padded l w.fs ((ccaskInit opts).run rs w).state.fs := by
    cases hrun : (ccaskInit opts).run rs w with
    | returned a rest v => exact (hstart.returned (fun _ _ => trivial) hrun).1
    | pending v => exact hstart.pending (fun _ _ => trivial) hrun
  obtain ⟨l', seg', hstored', hcurrent', hold, hnew⟩ := hstored.padded hcurrent hpadded
  refine ⟨l', seg', hstored', hcurrent', ?_⟩
  rw [← hhist]
  apply history_congr hstored.disk.sorted hstored'.disk.sorted
  · exact fun i _ hi => (hold i hi).2
  · exact fun i hi hn => absurd (hold i hi).1 hn
  · exact hnew

/-- A process of its own starts over the directory and leaves it in this state: it may have died or failed
anywhere on its way, or have started and done nothing else. -/
def StartsOver (fs fs' : Fs) : Prop :=
  ∃ (w : World) (opts : CcaskOptions) (rs : List Reply), w.fs = fs ∧ Lists opts.listing fs ∧
    fs' = ((ccaskInit opts).run rs w).state.fs

theorem Bears.startsOver (h : Bears fs hist) (hs : Relation.ReflTransGen StartsOver fs fs') :
    Bears fs' hist := by
  induction hs with
  | refl => exact h
  | tail _ hstep ih =>
      obtain ⟨w, opts, rs, rfl, hlists, rfl⟩ := hstep
      exact ih.start hlists rs

/-- Without errors the process has the puts. -/
theorem Bears.answers (h : Bears w.fs hist) (hlists : Lists opts.listing w.fs) :
    ∃ v, Computes (ccaskInit opts) w (.ok ()) v ∧ GivesPuts v hist := by
  obtain ⟨l, seg, hstored, hcurrent, rfl⟩ := h
  obtain ⟨u, hinit, hboots⟩ := hstored.boots hlists hcurrent
  exact ⟨u, hinit, hboots.givesPuts⟩

/-- However often processes have tried to start over a directory, whatever the system answered and wherever
they died or gave up: a start without errors then answers with all the puts there were. -/
theorem starts_harm_nothing (h : Bears fs hist) (hs : Relation.ReflTransGen StartsOver fs w.fs)
    (hlists : Lists opts.listing w.fs) : ∃ v, Computes (ccaskInit opts) w (.ok ()) v ∧ GivesPuts v hist :=
  (h.startsOver hs).answers hlists

end Repeated

section Sample

/-- A directory with one put. -/
theorem bears_writtenWorld [Zlib] : Bears writtenWorld.fs [bytePut 0 97 98] := by
  obtain ⟨seg, h, hhist⟩ := run_writtenWorld.reached
  exact ⟨_, seg, h.stored, h.store.current, hhist⟩

theorem bears_rotatedWorld : letI := zlib; Bears rotatedWorld.fs filledPuts := by
  let _ := zlib
  have hrun : Run rotatedWorld filledPuts := run_rotatedWorld
  obtain ⟨seg, h, hhist⟩ := hrun.reached
  exact ⟨_, seg, h.stored, h.store.current, hhist⟩

/-- A start that is cut short between the two entries of the hint file. -/
def cutStart : Outcome World Status :=
  letI := zlib
  (ccaskInit againOptions).run (wholeReplies.take 20) (World.boot rotatedWorld.fs 5)

/-- After it and one that could not open the directory a start answers with all puts. -/
theorem starts_harm_nothing_one : letI := zlib
    (∃ u, cutStart = .pending u ∧ u.hashTable.map KeydirRecord.key = [[97]]) ∧
      ∃ opts v, Computes (ccaskInit opts) (World.boot ((ccaskInit opts).run [.fail]
        (World.boot cutStart.state.fs 6)).state.fs 7) (.ok ()) v ∧ GivesPuts v filledPuts := by
  let _ := zlib
  have hfirst : StartsOver rotatedWorld.fs cutStart.state.fs :=
    ⟨World.boot rotatedWorld.fs 5, againOptions, _, rfl, lists_rotatedWorld, rfl⟩
  have hbears : Bears rotatedWorld.fs filledPuts := bears_rotatedWorld
  obtain ⟨l, seg, hstored, -⟩ := hbears.startsOver (.single hfirst)
  obtain ⟨listing, hlists⟩ := exists_lists hstored.disk.tidy
  have hsecond : StartsOver cutStart.state.fs ((ccaskInit ⟨listing, 4, 40⟩).run [.fail]
      (World.boot cutStart.state.fs 6)).state.fs := ⟨World.boot cutStart.state.fs 6, _, _, rfl, hlists, rfl⟩
  obtain ⟨v, hinit, hgives⟩ := @starts_harm_nothing zlib _ (World.boot _ 7) _ ⟨listing, 4, 40⟩
    hbears (.tail (.single hfirst) hsecond) hlists
  exact ⟨⟨_, Outcome.of_value_eq_none (by decide +kernel), by decide +kernel⟩, ⟨listing, 4, 40⟩, v, hinit, hgives⟩

end Sample

end Ccask.Audit
