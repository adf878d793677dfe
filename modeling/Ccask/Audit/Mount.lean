import Ccask.Model.Sections
import Ccask.Audit.Calls

/-!
# A mounted store: file list, descriptors and directory

`Mounted` is what every call of the library leaves between the file list in memory
and the directory. Reads and rotations keep it.
-/

namespace Ccask.Audit

open Ccask.Effect Ccask.Model

/-- The ids of the files in memory, newest first. -/
def ids (w : World) : List Nat := w.files.map CcaskFile.fileId

/-- The file list matches the directory: each datafile once, newest first, an open descriptor
on the file itself, and the newest file open for writing. -/
structure Mounted (w : World) : Prop where
  sorted : (ids w).Pairwise (· > ·)
  linked : ∀ f ∈ w.files, ∃ ino, w.fs.dir (fileName f.fileId .data) = some ino ∧
    (f.fd = none ∨ f.fd = some ino)
  known : ∀ id, (w.fs.read (fileName id .data)).isSome → id ∈ ids w
  active : ∃ f rest, w.files = f :: rest ∧ f.fd.isSome = true ∧ f.isActive = true ∧
    ∀ g ∈ rest, g.isActive = false

/-- What a read may not change of a file. -/
def shape (f : CcaskFile) : Nat × Bool × Bool := (f.fileId, f.hasHint, f.isActive)

/-- The same state up to descriptors and access times. -/
structure Touched (w w' : World) : Prop where
  same : w' = { w with files := w'.files }
  files : w'.files.map shape = w.files.map shape

namespace Touched

variable {w w' w'' : World}

theorem refl (w : World) : Touched w w := ⟨rfl, rfl⟩

theorem trans (h : Touched w w') (h' : Touched w' w'') : Touched w w'' :=
  ⟨by rw [h'.same, h.same], h'.files.trans h.files⟩

theorem ids_eq (h : Touched w w') : ids w' = ids w := by
  have hmap := congrArg (List.map Prod.fst) h.files
  rwa [List.map_map, List.map_map] at hmap

theorem fs_eq (h : Touched w w') : w'.fs = w.fs := by rw [h.same]

theorem hashTable_eq (h : Touched w w') : w'.hashTable = w.hashTable := by rw [h.same]

/-- A change of one file that keeps its shape. -/
theorem setFile (w : World) (id : Nat) {F : CcaskFile → CcaskFile} (hF : ∀ f, shape (F f) = shape f) :
    Touched w (w.setFile id F) := by
  refine ⟨rfl, ?_⟩
  simp only [World.setFile, List.map_map]
  apply List.map_congr_left
  intro f _
  simp only [Function.comp_apply]
  split
  · exact hF f
  · rfl

end Touched

theorem ids_setFile (w : World) (id : Nat) {F : CcaskFile → CcaskFile}
    (hF : ∀ f, (F f).fileId = f.fileId) : ids (w.setFile id F) = ids w := by
  simp only [ids, World.setFile, List.map_map]
  apply List.map_congr_left
  intro f _
  simp only [Function.comp_apply]
  split
  · exact hF f
  · rfl

theorem mem_setFile {w : World} {id : Nat} {F : CcaskFile → CcaskFile} {g : CcaskFile}
    (h : g ∈ (w.setFile id F).files) :
    (∃ f ∈ w.files, f.fileId = id ∧ g = F f) ∨ (g ∈ w.files ∧ g.fileId ≠ id) := by
  obtain ⟨f, hf, hg⟩ := List.mem_map.mp h
  split at hg
  · rename_i hid
    exact .inl ⟨f, hf, hid, hg.symm⟩
  · rename_i hid
    subst hg
    exact .inr ⟨hf, hid⟩

theorem datafileFdInvalidate_touched (id : Nat) (w : World) :
    Touched w (datafileFdInvalidate id w) := by
  refine Touched.setFile w id fun f => ?_
  split
  · rfl
  · rfl

namespace Mounted

variable {w w' : World}

/-- A file that is found under its id. -/
theorem getFile {w : World} {id : Nat} (hid : id ∈ ids w) :
    ∃ f ∈ w.files, f.fileId = id ∧ ccaskFilesGetFile id w = some f := by
  obtain ⟨g, hg, hgid⟩ := List.mem_map.mp hid
  obtain ⟨f, hf⟩ : ∃ f, ccaskFilesGetFile id w = some f := by
    rw [← Option.isSome_iff_exists, ccaskFilesGetFile, List.find?_isSome]
    exact ⟨g, hg, by simpa using hgid⟩
  exact ⟨f, List.mem_of_find?_eq_some hf, by simpa using List.find?_some hf, hf⟩

theorem dir_of_mem (h : Mounted w) {id : Nat} (hid : id ∈ ids w) :
    ∃ ino, w.fs.dir (fileName id .data) = some ino := by
  obtain ⟨f, hf, rfl⟩ := List.mem_map.mp hid
  obtain ⟨ino, hdir, -⟩ := h.linked f hf
  exact ⟨ino, hdir⟩

/-- Changing the descriptor or the access time of a file keeps the mount, as long as an open
descriptor is one on the file, and only a file that is not active is closed. -/
theorem setFile (h : Mounted w) {id : Nat} {F : CcaskFile → CcaskFile} {ino : Ino}
    (hdir : w.fs.dir (fileName id .data) = some ino) (hid : ∀ f, (F f).fileId = f.fileId)
    (hact : ∀ f, (F f).isActive = f.isActive)
    (hfd : ∀ f, (F f).fd = f.fd ∨ (F f).fd = some ino ∨ ((F f).fd = none ∧ f.isActive = false)) :
    Mounted (w.setFile id F) := by
  have hids := ids_setFile w id hid
  constructor
  · rw [hids]
    exact h.sorted
  · intro g hg
    obtain ⟨f, hf, hfid, rfl⟩ | ⟨hg, -⟩ := mem_setFile hg
    · obtain ⟨i, hi, hfdi⟩ := h.linked f hf
      have heq : i = ino := by
        rw [hfid, hdir] at hi
        exact (Option.some.inj hi).symm
      refine ⟨i, by rw [hid]; exact hi, ?_⟩
      obtain hf' | hf' | ⟨hf', -⟩ := hfd f
      · rwa [hf']
      · exact .inr (by rw [hf', heq])
      · exact .inl hf'
    · exact h.linked g hg
  · intro i hi
    rw [hids]
    exact h.known i hi
  · obtain ⟨f, rest, hfiles, hopen, hactive, hrest⟩ := h.active
    refine ⟨if f.fileId = id then F f else f, (rest.map fun g => if g.fileId = id then F g else g),
      ?_, ?_, ?_, ?_⟩
    · simp only [World.setFile, hfiles, List.map_cons]
    · split
      · obtain hf' | hf' | ⟨-, hn⟩ := hfd f
        · rwa [hf']
        · rw [hf']
          rfl
        · rw [hactive] at hn
          cases hn
      · exact hopen
    · split
      · rw [hact, hactive]
      · exact hactive
    · intro g hg
      obtain ⟨g', hg', rfl⟩ := List.mem_map.mp hg
      split
      · rw [hact, hrest g' hg']
      · exact hrest g' hg'

/-- An idle descriptor is closed. -/
theorem invalidate (h : Mounted w) {id : Nat} (hid : id ∈ ids w) :
    Mounted (datafileFdInvalidate id w) := by
  obtain ⟨ino, hdir⟩ := h.dir_of_mem hid
  refine h.setFile hdir (fun f => ?_) (fun f => ?_) (fun f => ?_)
  · split
    · rfl
    · rfl
  · split
    · rfl
    · rfl
  · split
    · rename_i hc
      exact .inr (.inr ⟨rfl, by simpa using hc.2.1⟩)
    · exact .inl rfl

/-- Another directory with the same entries, or another hash table, leaves the mount. -/
theorem congr (h : Mounted w) (hfiles : w'.files = w.files)
    (hdir : ∀ id, w'.fs.dir (fileName id .data) = w.fs.dir (fileName id .data)) : Mounted w' := by
  have hids : ids w' = ids w := congrArg (List.map CcaskFile.fileId) hfiles
  constructor
  · rw [hids]
    exact h.sorted
  · intro f hf
    rw [hfiles] at hf
    rw [hdir]
    exact h.linked f hf
  · intro id hid
    rw [Fs.isSome_read, hdir, ← Fs.isSome_read] at hid
    rw [hids]
    exact h.known id hid
  · rw [hfiles]
    exact h.active

end Mounted

section Read

variable {w : World} {id : Nat} {ino : Ino}

/-- After `openForRead` the file has a descriptor. -/
theorem openForRead_computes (h : Mounted w) {file : CcaskFile} (hid : file.fileId = id)
    (hdir : w.fs.dir (fileName id .data) = some ino) :
    ∃ w', Computes (openForRead file) w (.ok ()) w' ∧ Touched w w' ∧ Mounted w' ∧
      ∀ f ∈ w'.files, f.fileId = id → f.fd = some ino := by
  subst hid
  generalize hw₁ : w.setFile file.fileId (fun f => { f with fd := some ino }) = w₁
  have ht₁ : Touched w w₁ := hw₁ ▸ Touched.setFile w _ (fun _ => rfl)
  have hm₁ : Mounted w₁ := hw₁ ▸ h.setFile hdir (fun _ => rfl) (fun _ => rfl)
    (fun _ => .inr (.inl rfl))
  have hfd₁ : ∀ f ∈ w₁.files, f.fileId = file.fileId → f.fd = some ino := by
    intro f hf hid
    rw [← hw₁] at hf
    obtain ⟨g, -, -, rfl⟩ | ⟨-, hne⟩ := mem_setFile hf
    · rfl
    · exact absurd hid hne
  have hopen := attempt_computes (n := 4) (ccaskFilesGetDatafileFd_computes hdir) (by simp)
  by_cases hrun : file.isFdInvalidatorRunning = true
  · refine ⟨w₁, hopen.bind (Computes.modify_bind ?_), ht₁, hm₁, hfd₁⟩
    rw [hw₁, if_pos hrun]
    exact Computes.pure _
  · generalize hw₂ : w₁.setFile file.fileId (fun f => { f with isFdInvalidatorRunning := true }) = w₂
    have ht₂ : Touched w₁ w₂ := hw₂ ▸ Touched.setFile w₁ _ (fun _ => rfl)
    have hm₂ : Mounted w₂ := hw₂ ▸ hm₁.setFile (by rw [ht₁.fs_eq]; exact hdir) (fun _ => rfl)
      (fun _ => rfl) (fun _ => .inl rfl)
    refine ⟨w₂, hopen.bind (Computes.modify_bind ?_), ht₁.trans ht₂, hm₂, ?_⟩
    · rw [hw₁, if_neg hrun]
      refine call_clean (fun _ => rfl) (Computes.modify_bind ?_)
      rw [hw₂]
      exact Computes.pure _
    · intro f hf hid
      rw [← hw₂] at hf
      obtain ⟨g, hg, hgid, rfl⟩ | ⟨hg, hne⟩ := mem_setFile hf
      · exact hfd₁ g hg hgid
      · exact absurd hid hne

/-- A read of a record that lies in the file gives its bytes. -/
theorem ccaskReadDatafileRecord_computes (h : Mounted w) (hid : id ∈ ids w)
    (hdir : w.fs.dir (fileName id .data) = some ino) {buffers : DatafileRecord} {pos : Nat}
    (hvalue : buffers.value ≠ [])
    (hlen : pos + ccaskGetDatafileRecordTotalSize buffers ≤ (w.fs.data ino).length) :
    ∃ w' header key value, Computes (ccaskReadDatafileRecord id buffers pos) w
        (.ok ⟨header, key, value⟩) w' ∧ Touched w w' ∧ Mounted w' ∧
      chunks [buffers.header.length, buffers.key.length, buffers.value.length]
        (((w.fs.data ino).drop pos).take (ccaskGetDatafileRecordTotalSize buffers)) =
          [header, key, value] := by
  obtain ⟨file, hfile, hfid, hget⟩ := Mounted.getFile hid
  -- the descriptor is opened first when it is closed
  obtain ⟨w₁, hopen, ht₁, hm₁, hfd⟩ : ∃ w₁,
      Computes (if file.fd.isNone then openForRead file else pure (.ok ())) w (.ok ()) w₁ ∧
      Touched w w₁ ∧ Mounted w₁ ∧ (ccaskFilesGetFile id w₁).bind CcaskFile.fd = some ino := by
    by_cases hclosed : file.fd.isNone = true
    · obtain ⟨w₁, hopen, ht₁, hm₁, hall⟩ := openForRead_computes h hfid hdir
      rw [if_pos hclosed]
      refine ⟨w₁, hopen, ht₁, hm₁, ?_⟩
      obtain ⟨f, hf, hf', hget'⟩ := Mounted.getFile (w := w₁) (by rw [ht₁.ids_eq]; exact hid)
      rw [hget', Option.bind_some]
      exact hall f hf hf'
    · rw [if_neg hclosed]
      refine ⟨w, Computes.pure _, Touched.refl w, h, ?_⟩
      obtain ⟨i, hi, hfd⟩ := h.linked file hfile
      rw [hfid, hdir] at hi
      cases hi
      rw [hget, Option.bind_some]
      obtain hn | hs := hfd
      · rw [hn] at hclosed
        exact absurd rfl hclosed
      · exact hs
  have hfs₁ := ht₁.fs_eq
  have hread : Computes (safePreadv (some ino) buffers.iov pos) w₁ _ w₁ :=
    safePreadv_computes (iov_fits buffers) (iov_fresh buffers) ((iov_last buffers).mpr hvalue)
      (by rw [wanted_iov, hfs₁]; exact hlen)
  rw [wanted_iov, hfs₁] at hread
  have hlens : buffers.iov.map (fun v => v.buf.length) =
      [buffers.header.length, buffers.key.length, buffers.value.length] := rfl
  rw [hlens] at hread
  refine ⟨w₁.setFile id fun f => { f with lastAccessed := w₁.clock }, _, _, _, ?_,
    ht₁.trans (Touched.setFile w₁ id fun _ => rfl),
    hm₁.setFile (by rw [hfs₁]; exact hdir) (fun _ => rfl) (fun _ => rfl) (fun _ => .inl rfl), rfl⟩
  refine Computes.state_bind ?_
  rw [hget]
  refine hopen.bind (Computes.state_bind ?_)
  rw [hfd]
  exact hread.bind (Computes.modify_bind (Computes.pure _))

end Read

section Write

variable {w : World} {f : CcaskFile} {rest : List CcaskFile} {ino : Ino} {r : DatafileRecord}

theorem Mounted.head_gt (h : Mounted w) (hfiles : w.files = f :: rest) :
    ∀ g ∈ rest, g.fileId < f.fileId := by
  intro g hg
  have hsorted := h.sorted
  rw [ids, hfiles, List.map_cons, List.pairwise_cons] at hsorted
  exact hsorted.1 g.fileId (List.mem_map_of_mem hg)

theorem Mounted.head_dir (h : Mounted w) (hfiles : w.files = f :: rest) :
    ∃ ino, w.fs.dir (fileName f.fileId .data) = some ino := by
  obtain ⟨ino, hdir, -⟩ := h.linked f (by rw [hfiles]; exact List.mem_cons_self)
  exact ⟨ino, hdir⟩

/-- The descriptor of the active file is one on its datafile. -/
theorem Mounted.head_fd (h : Mounted w) (hfiles : w.files = f :: rest)
    (hdir : w.fs.dir (fileName f.fileId .data) = some ino) : f.fd = some ino := by
  obtain ⟨i, hi, hfd⟩ := h.linked f (by rw [hfiles]; exact List.mem_cons_self)
  obtain ⟨g, rest', hfiles', hopen, -, -⟩ := h.active
  rw [hfiles] at hfiles'
  cases hfiles'
  rw [hdir] at hi
  cases hi
  obtain hn | hs := hfd
  · rw [hn] at hopen
    cases hopen
  · exact hs

theorem Mounted.next_absent (h : Mounted w) (hfiles : w.files = f :: rest) :
    w.fs.read (fileName (f.fileId + 1) .data) = none := by
  rw [← Option.not_isSome_iff_eq_none]
  intro hsome
  have hmem := h.known _ hsome
  rw [ids, hfiles, List.map_cons, List.mem_cons] at hmem
  obtain heq | hmem := hmem
  · omega
  · obtain ⟨g, hg, hgid⟩ := List.mem_map.mp hmem
    have hlt := h.head_gt hfiles g hg
    omega

/-- The file list after a rotation. -/
def rotatedFiles (w : World) (f : CcaskFile) (rest : List CcaskFile) : List CcaskFile :=
  ⟨f.fileId + 1, some (w.fs.create (fileName (f.fileId + 1) .data)).2, w.clock, false, true, false⟩ ::
    { f with fd := none, isActive := false } :: rest

/-- The state after a rotation. -/
def rotated (w : World) (f : CcaskFile) (rest : List CcaskFile) : World :=
  { w with
    fs := (w.fs.create (fileName (f.fileId + 1) .data)).1
    files := rotatedFiles w f rest
    threads := f.fileId :: w.threads }

/-- The newest file is open, and no other has its id. -/
structure Front (w : World) (f : CcaskFile) (rest : List CcaskFile) (ino : Ino) : Prop where
  files : w.files = f :: rest
  fd : f.fd = some ino
  newest : ∀ g ∈ rest, g.fileId < f.fileId

theorem Mounted.front (h : Mounted w) (hfiles : w.files = f :: rest)
    (hdir : w.fs.dir (fileName f.fileId .data) = some ino) : Front w f rest ino :=
  ⟨hfiles, h.head_fd hfiles hdir, h.head_gt hfiles⟩

/-- A rotation closes the newest file. -/
theorem closed_files (hfiles : w.files = f :: rest) (hnewest : ∀ g ∈ rest, g.fileId < f.fileId) :
    (w.setFile f.fileId fun g => { g with fd := none, isActive := false }).files =
      { f with fd := none, isActive := false } :: rest := by
  have hrest : (rest.map fun g => if g.fileId = f.fileId then
      ({ g with fd := none, isActive := false } : CcaskFile) else g) = rest := by
    rw [List.map_congr_left (g := id), List.map_id]
    intro g hg
    rw [if_neg (Nat.ne_of_lt (hnewest g hg))]
    rfl
  simp only [World.setFile, hfiles, List.map_cons, hrest, if_true]

/-- The file of the next id becomes the head of the list. -/
theorem addFile_rotated (hfiles : w.files = f :: rest) (hnewest : ∀ g ∈ rest, g.fileId < f.fileId) :
    addFile ⟨f.fileId + 1, some (w.fs.create (fileName (f.fileId + 1) .data)).2, w.clock, false, true, false⟩
      (w.setFile f.fileId fun g => { g with fd := none, isActive := false }).files =
        rotatedFiles w f rest := by
  rw [closed_files hfiles hnewest, addFile_of_lt (Nat.lt_succ_self f.fileId)]
  rfl

/-- A rotation starts the generator of the file it closes. -/
theorem ccaskFilesRotate_of_newest (hfiles : w.files = f :: rest)
    (hnewest : ∀ g ∈ rest, g.fileId < f.fileId) (hid : f.fileId + 1 < 2 ^ 64) :
    Computes ccaskFilesRotate w (.ok ()) (rotated w f rest) := by
  have hmod : (f.fileId + 1) % 2 ^ 64 = f.fileId + 1 := Nat.mod_eq_of_lt hid
  refine malloc_computes.bind (Computes.state_bind ?_)
  rw [hfiles]
  simp only
  rw [hmod]
  refine (createNewActiveDatafile_computes (f.fileId + 1)).bind ?_
  refine Computes.modify_bind (Computes.modify_bind (Computes.state_bind ?_))
  have hadd := addFile_rotated hfiles hnewest
  have hgenerate := ccaskHintfileGenerate_computes f.fileId
    (w := { w with fs := (w.fs.create (fileName (f.fileId + 1) .data)).1, files := rotatedFiles w f rest })
  simp only [World.setFile] at hadd ⊢
  rw [hadd]
  exact (attempt_computes hgenerate (by simp)).bind (Computes.pure _)

theorem ccaskFilesRotate_computes (h : Mounted w) (hfiles : w.files = f :: rest)
    (hid : f.fileId + 1 < 2 ^ 64) : Computes ccaskFilesRotate w (.ok ()) (rotated w f rest) :=
  ccaskFilesRotate_of_newest hfiles (h.head_gt hfiles) hid

theorem ids_rotated (hfiles : w.files = f :: rest) :
    ids (rotated w f rest) = (f.fileId + 1) :: ids w := by
  simp only [ids, rotated, rotatedFiles, hfiles, List.map_cons]

theorem read_rotated (h : Mounted w) (hfiles : w.files = f :: rest) : (rotated w f rest).fs.read =
    Function.update w.fs.read (fileName (f.fileId + 1) .data) (some []) := by
  have hnone := h.next_absent hfiles
  rw [rotated, Fs.read_create, hnone]
  rfl

theorem Mounted.rotated (h : Mounted w) (hfiles : w.files = f :: rest) :
    Mounted (rotated w f rest) := by
  have hnone := (Fs.read_eq_none _ _).mp (h.next_absent hfiles)
  constructor
  · rw [ids_rotated hfiles, List.pairwise_cons]
    refine ⟨?_, h.sorted⟩
    intro id hid
    rw [ids, hfiles, List.map_cons, List.mem_cons] at hid
    obtain rfl | hid := hid
    · exact Nat.lt_succ_self _
    · obtain ⟨g, hg, rfl⟩ := List.mem_map.mp hid
      exact Nat.lt_succ_of_lt (h.head_gt hfiles g hg)
  · have hold : ∀ g ∈ w.files, ∃ i, (Audit.rotated w f rest).fs.dir (fileName g.fileId .data) = some i ∧
        (g.fd = none ∨ g.fd = some i) := by
      intro g hg
      obtain ⟨i, hi, hfd⟩ := h.linked g hg
      refine ⟨i, ?_, hfd⟩
      rw [← hi]
      apply Fs.dir_create_of_ne
      intro heq
      rw [heq, hnone] at hi
      cases hi
    intro g hg
    simp only [Audit.rotated, rotatedFiles, List.mem_cons] at hg
    obtain rfl | rfl | hg := hg
    · exact ⟨_, Fs.dir_create_self _ _, .inr rfl⟩
    · obtain ⟨i, hi, -⟩ := hold f (by rw [hfiles]; exact List.mem_cons_self)
      exact ⟨i, hi, .inl rfl⟩
    · exact hold g (by rw [hfiles]; exact List.mem_cons_of_mem _ hg)
  · intro id hid
    rw [read_rotated h hfiles, Function.update_apply] at hid
    rw [ids_rotated hfiles, List.mem_cons]
    split at hid
    · rename_i heq
      exact .inl (fileName_inj.mp heq).1
    · exact .inr (h.known id hid)
  · obtain ⟨g, rest', hfiles', -, -, hrest⟩ := h.active
    rw [hfiles] at hfiles'
    cases hfiles'
    refine ⟨_, _, rfl, rfl, rfl, ?_⟩
    intro g hg
    obtain rfl | hg := List.mem_cons.mp hg
    · rfl
    · exact hrest g hg

theorem writeRecordRound_uses (r : DatafileRecord) (u : Unit) : Prog.Uses (writeRecordRound r u) := by
  refine Prog.uses_bind _ fun w => ?_
  cases ccaskFilesGetActiveFile w with
  | none => exact Prog.uses_block
  | some file => exact Prog.uses_bind_left (lseekEnd_uses file.fd) _

theorem writeRecordRound_consumes (r : DatafileRecord) (u : Unit) :
    Prog.Consumes (writeRecordRound r u) :=
  (writeRecordRound_uses r u).consumes

theorem ccaskWriteRecordBlocking_uses (r : DatafileRecord) : Prog.Uses (ccaskWriteRecordBlocking r) :=
  Prog.uses_loop (writeRecordRound_uses r) ()

theorem appendRound_consumes (r : DatafileRecord) (u : Unit) : Prog.Consumes (appendRound r u) := by
  refine Prog.Uses.consumes (Prog.uses_bind _ fun w => ?_)
  cases ccaskFilesGetActiveFile w with
  | none => exact Prog.uses_block
  | some file => exact Prog.uses_bind_left (lseekEnd_uses file.fd) _

/-- The append and the update of the key directory are `ccask_write_record_blocking`. -/
theorem ccaskWriteRecordBlocking_sections (r : DatafileRecord) :
    ccaskWriteRecordBlocking r = (do
      match ← writeAppend r with
      | .ok (fileId, recordPos) => writeUpsert r fileId recordPos
      | .fail e | .retry e => pure (.fail e)) := by
  rw [writeAppend, Prog.loop_bind (appendRound_consumes r)]
  unfold ccaskWriteRecordBlocking
  congr 1
  funext u
  simp only [writeRecordRound, appendRound, bind_assoc]
  congr 1
  funext w
  cases ccaskFilesGetActiveFile w with
  | none => rfl
  | some file =>
      simp only [bind_assoc]
      congr 1
      funext pos
      cases pos with
      | none => rfl
      | some pos =>
          simp only
          split
          · simp only [bind_assoc]
            rfl
          · simp only [bind_assoc]
            congr 1
            funext res
            cases res with
            | fail e => rfl
            | retry e => rfl
            | ok _ =>
                simp only [pure_bind, Prog.finish, writeUpsert, bind_assoc]
                congr 1
                funext res
                cases res <;> rfl

/-- The state after a record has been appended to the active file. -/
def wrote (w : World) (fileId : Nat) (ino : Ino) (r : DatafileRecord) : World :=
  upserted (w.append ino r.bytes) (datafileEntry fileId r (w.fs.data ino).length)

theorem writeUpsert_computes (hl : w.readLocks = 0) (id pos : Nat) :
    Computes (writeUpsert r id pos) w (.ok ()) (upserted w (datafileEntry id r pos)) :=
  (attempt_computes (ccaskKeydirUpsert_computes _ hl) (by simp)).bind (Computes.pure _)

/-- A record that fits goes behind the others. -/
theorem Front.append_fits (h : Front w f rest ino) (hvalue : r.value ≠ [])
    (hfits : (w.fs.data ino).length + r.bytes.length ≤ w.maxActiveFileSize.toNat) :
    Computes (writeAppend r) w (.ok (f.fileId, (w.fs.data ino).length)) (w.append ino r.bytes) := by
  refine Computes.loop_stop (appendRound_consumes r) (Computes.state_bind ?_)
  rw [ccaskFilesGetActiveFile, h.files, List.head?_cons]
  refine (lseekEnd_computes f.fd).bind ?_
  rw [h.fd, Option.map_some]
  simp only []
  rw [bytes_length] at hfits
  rw [if_neg (Nat.not_lt.mpr hfits)]
  have hwrite : Computes (safeWritev (some ino) r.iov) w (.ok ()) _ :=
    safeWritev_computes (iov_fits r) ((iov_last r).mpr hvalue)
  rw [gather_iov] at hwrite
  exact hwrite.bind (Computes.pure _)

theorem writeAppend_fits (h : Mounted w) (hfiles : w.files = f :: rest)
    (hdir : w.fs.dir (fileName f.fileId .data) = some ino) (hvalue : r.value ≠ [])
    (hfits : (w.fs.data ino).length + r.bytes.length ≤ w.maxActiveFileSize.toNat) :
    Computes (writeAppend r) w (.ok (f.fileId, (w.fs.data ino).length)) (w.append ino r.bytes) :=
  (h.front hfiles hdir).append_fits hvalue hfits

/-- A record that fits is appended to the active file and entered with its position. -/
theorem ccaskWriteRecordBlocking_fits (h : Mounted w) (hfiles : w.files = f :: rest)
    (hdir : w.fs.dir (fileName f.fileId .data) = some ino) (hl : w.readLocks = 0)
    (hvalue : r.value ≠ []) (hfits : (w.fs.data ino).length + r.bytes.length ≤ w.maxActiveFileSize.toNat) :
    Computes (ccaskWriteRecordBlocking r) w (.ok ()) (wrote w f.fileId ino r) := by
  rw [ccaskWriteRecordBlocking_sections]
  exact (writeAppend_fits h hfiles hdir hvalue hfits).bind
    (writeUpsert_computes (w := w.append ino r.bytes) hl _ _)

/-- A record that does not fit makes the files rotate. -/
theorem writeRecordRound_rotates (h : Mounted w) (hfiles : w.files = f :: rest)
    (hdir : w.fs.dir (fileName f.fileId .data) = some ino) (hid : f.fileId + 1 < 2 ^ 64)
    (hfull : w.maxActiveFileSize.toNat < (w.fs.data ino).length + r.bytes.length) :
    Computes (writeRecordRound r ()) w (.inl ()) (rotated w f rest) := by
  refine Computes.state_bind ?_
  rw [ccaskFilesGetActiveFile, hfiles, List.head?_cons]
  refine (lseekEnd_computes f.fd).bind ?_
  rw [h.head_fd hfiles hdir, Option.map_some]
  simp only []
  rw [bytes_length] at hfull
  rw [if_pos hfull]
  exact (ccaskFilesRotate_computes h hfiles hid).bind (Computes.pure _)

theorem data_rotated_of_none (hnone : w.fs.read (fileName (f.fileId + 1) .data) = none) :
    (rotated w f rest).fs.data (w.fs.create (fileName (f.fileId + 1) .data)).2 = [] := by
  rw [rotated, Fs.data_create_self, hnone]
  rfl

theorem data_rotated (h : Mounted w) (hfiles : w.files = f :: rest) :
    (rotated w f rest).fs.data (w.fs.create (fileName (f.fileId + 1) .data)).2 = [] :=
  data_rotated_of_none (h.next_absent hfiles)

/-- The new file is open. -/
theorem Front.rotated (h : Front w f rest ino) : Front (Audit.rotated w f rest)
    ⟨f.fileId + 1, some (w.fs.create (fileName (f.fileId + 1) .data)).2, w.clock, false, true, false⟩
    ({ f with fd := none, isActive := false } :: rest)
    (w.fs.create (fileName (f.fileId + 1) .data)).2 := by
  refine ⟨rfl, rfl, fun g hg => ?_⟩
  obtain rfl | hg := List.mem_cons.mp hg
  · exact Nat.lt_succ_self _
  · exact Nat.lt_succ_of_lt (h.newest g hg)

/-- A record that does not fit goes to the start of a new file. -/
theorem Front.append_rotates (h : Front w f rest ino) (hid : f.fileId + 1 < 2 ^ 64)
    (hnone : w.fs.read (fileName (f.fileId + 1) .data) = none) (hvalue : r.value ≠ [])
    (hfull : w.maxActiveFileSize.toNat < (w.fs.data ino).length + r.bytes.length)
    (hsize : r.bytes.length ≤ w.maxActiveFileSize.toNat) :
    Computes (writeAppend r) w (.ok (f.fileId + 1, 0)) ((Audit.rotated w f rest).append
      (w.fs.create (fileName (f.fileId + 1) .data)).2 r.bytes) := by
  have hround : Computes (appendRound r ()) w (.inl ()) (Audit.rotated w f rest) := by
    refine Computes.state_bind ?_
    rw [ccaskFilesGetActiveFile, h.files, List.head?_cons]
    refine (lseekEnd_computes f.fd).bind ?_
    rw [h.fd, Option.map_some]
    simp only []
    rw [bytes_length] at hfull
    rw [if_pos hfull]
    exact (ccaskFilesRotate_of_newest h.files h.newest hid).bind (Computes.pure _)
  refine Computes.loop_next (appendRound_consumes r) hround ?_
  have hempty : (Audit.rotated w f rest).fs.data _ = [] := data_rotated_of_none hnone
  have happend := h.rotated.append_fits hvalue (by rw [hempty, List.length_nil, Nat.zero_add]; exact hsize)
  rw [hempty, List.length_nil] at happend
  exact happend

theorem writeAppend_rotates (h : Mounted w) (hfiles : w.files = f :: rest)
    (hdir : w.fs.dir (fileName f.fileId .data) = some ino) (hid : f.fileId + 1 < 2 ^ 64)
    (hvalue : r.value ≠ [])
    (hfull : w.maxActiveFileSize.toNat < (w.fs.data ino).length + r.bytes.length)
    (hsize : r.bytes.length ≤ w.maxActiveFileSize.toNat) :
    Computes (writeAppend r) w (.ok (f.fileId + 1, 0)) ((rotated w f rest).append
      (w.fs.create (fileName (f.fileId + 1) .data)).2 r.bytes) :=
  (h.front hfiles hdir).append_rotates hid (h.next_absent hfiles) hvalue hfull hsize

/-- A record that does not fit goes to the start of a new file. -/
theorem ccaskWriteRecordBlocking_rotates (h : Mounted w) (hfiles : w.files = f :: rest)
    (hdir : w.fs.dir (fileName f.fileId .data) = some ino) (hid : f.fileId + 1 < 2 ^ 64)
    (hl : w.readLocks = 0) (hvalue : r.value ≠ [])
    (hfull : w.maxActiveFileSize.toNat < (w.fs.data ino).length + r.bytes.length)
    (hsize : r.bytes.length ≤ w.maxActiveFileSize.toNat) :
    Computes (ccaskWriteRecordBlocking r) w (.ok ()) (wrote (rotated w f rest) (f.fileId + 1)
      (w.fs.create (fileName (f.fileId + 1) .data)).2 r) := by
  rw [ccaskWriteRecordBlocking_sections, wrote, data_rotated h hfiles]
  exact (writeAppend_rotates h hfiles hdir hid hvalue hfull hsize).bind
    (writeUpsert_computes (w := (rotated w f rest).append _ r.bytes) hl _ _)

theorem Mounted.wrote (h : Mounted w) (id : Nat) (i : Ino) (r : DatafileRecord) :
    Mounted (wrote w id i r) :=
  h.congr rfl fun _ => rfl

theorem read_wrote {id : Nat} (hdir : w.fs.dir (fileName id .data) = some ino) :
    (wrote w id ino r).fs.read =
      Function.update w.fs.read (fileName id .data) (some (w.fs.data ino ++ r.bytes)) :=
  Fs.read_append hdir r.bytes

end Write

end Ccask.Audit
