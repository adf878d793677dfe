import Ccask.Audit.Recovery

/-!
# How a write ends

`ccask_write_record_blocking` calls itself after a rotation and does not look at what the rotation
answered. Nothing bounds the size of a record by the threshold.
-/

namespace Ccask.Audit

open Ccask.Effect Ccask.Model

section Answers

variable {w : World} {A : Reply → Prop}

/-- Memory is refused only with an error. -/
theorem malloc_answers : Ensures A malloc w
    (fun b v => v = w ∧ (b = false → ∃ a, A a ∧ ¬ a.Clean)) (fun _ => True) := by
  refine Ensures.call_bind trivial fun r hr => ?_
  cases r with
  | done n => exact Ensures.pure ⟨rfl, fun h => by cases h⟩
  | intr => exact Ensures.pure ⟨rfl, fun h => by cases h⟩
  | transient => exact Ensures.pure ⟨rfl, fun _ => ⟨_, hr, id⟩⟩
  | fail => exact Ensures.pure ⟨rfl, fun _ => ⟨_, hr, id⟩⟩

/-- A file is opened or made, or there is an error and nothing has happened. -/
theorem openCreate_answers (name : Name) : Ensures A (attempt 5 (openCreate name)) w
    (fun r v => (r = .ok (w.fs.create name).2 ∧ v = { w with fs := (w.fs.create name).1 }) ∨
      (r.isOk = false ∧ v = w ∧ ∃ a, A a ∧ ¬ a.Clean)) (fun _ => True) := by
  refine attempt_succ_ensures (I := fun v => v = w) rfl ?_
  rintro v rfl
  refine Ensures.call_bind trivial fun r hr => ?_
  cases r with
  | done n => exact Ensures.state_bind (Ensures.modify_bind (Ensures.pure ⟨.inl ⟨rfl, rfl⟩, by simp⟩))
  | intr => exact Ensures.state_bind (Ensures.modify_bind (Ensures.pure ⟨.inl ⟨rfl, rfl⟩, by simp⟩))
  | transient => exact Ensures.pure ⟨.inr ⟨rfl, rfl, _, hr, id⟩, fun _ _ => rfl⟩
  | fail => exact Ensures.pure ⟨.inr ⟨rfl, rfl, _, hr, id⟩, fun _ _ => rfl⟩

theorem createNewActiveDatafile_answers (id : Nat) : Ensures A (createNewActiveDatafile id) w
    (fun r v => (r = .ok ⟨id, some (w.fs.create (fileName id .data)).2, w.clock, false, true, false⟩ ∧
        v = { w with fs := (w.fs.create (fileName id .data)).1 }) ∨
      (r.isOk = false ∧ v = w ∧ ∃ a, A a ∧ ¬ a.Clean)) (fun _ => True) := by
  refine (openCreate_answers (fileName id .data)).bind ?_
  rintro r v (⟨rfl, rfl⟩ | ⟨hr, rfl, hA⟩)
  · exact Ensures.state_bind (Ensures.pure (.inl ⟨rfl, rfl⟩))
  · cases r with
    | ok ino => cases hr
    | fail e => exact Ensures.pure (.inr ⟨rfl, rfl, hA⟩)
    | retry e => exact Ensures.pure (.inr ⟨rfl, rfl, hA⟩)

/-- Starting a generator adds to the list of threads, if anything. -/
theorem ccaskHintfileGenerate_answers (id : Nat) : Ensures A (attempt 5 (ccaskHintfileGenerate id)) w
    (fun _ v => ∃ ts, (ts = w.threads ∨ ts = id :: w.threads) ∧ v = { w with threads := ts })
    (fun _ => True) := by
  refine attempt_ensures (I := fun v => v = w) rfl
    (fun _ v hv => ⟨w.threads, .inl rfl, hv⟩) ?_
  rintro v rfl
  refine malloc_ensures trivial fun b => ?_
  cases b with
  | false => exact Ensures.pure rfl
  | true =>
      refine Ensures.call_bind trivial fun r _ => ?_
      cases r with
      | done n => exact Ensures.modify_bind (Ensures.pure ⟨_, .inr rfl, rfl⟩)
      | intr => exact Ensures.modify_bind (Ensures.pure ⟨_, .inr rfl, rfl⟩)
      | transient => exact Ensures.pure ⟨_, .inl rfl, rfl⟩
      | fail => exact Ensures.pure ⟨_, .inl rfl, rfl⟩

/-- The state that a rotation leads to, but for the generator it starts. -/
def afterRotation (w : World) : World :=
  match w.files with
  | [] => w
  | head :: _ =>
    let id := (head.fileId + 1) % 2 ^ 64
    let (fs, ino) := w.fs.create (fileName id .data)
    let closed := { w with fs }.setFile head.fileId fun file => { file with fd := none, isActive := false }
    { closed with files := addFile ⟨id, some ino, w.clock, false, true, false⟩ closed.files }

theorem length_linkFile (file : CcaskFile) (files : List CcaskFile) :
    (linkFile file files).length = files.length + 1 := by
  induction files with
  | nil => rfl
  | cons curr rest ih =>
      rw [linkFile]
      split
      · rw [List.length_cons, ih, List.length_cons]
      · rfl

theorem length_addFile (file : CcaskFile) (files : List CcaskFile) :
    (addFile file files).length = files.length + 1 := by
  cases files with
  | nil => rfl
  | cons head rest =>
      rw [addFile]
      split
      · rfl
      · exact length_linkFile file (head :: rest)

theorem length_afterRotation (h : w.files ≠ []) : (afterRotation w).files.length = w.files.length + 1 := by
  obtain ⟨head, rest, hfiles⟩ := List.exists_cons_of_ne_nil h
  simp only [afterRotation, hfiles]
  rw [length_addFile, World.setFile, List.length_map]

/-- With another file the list has a second one. -/
theorem addFile_two (file : CcaskFile) {files : List CcaskFile} (h : files ≠ []) :
    ∃ head next rest, addFile file files = head :: next :: rest := by
  have hpos := List.length_pos_iff.mpr h
  have hlen := length_addFile file files
  rcases hadd : addFile file files with _ | ⟨head, _ | ⟨next, rest⟩⟩
  · rw [hadd, List.length_nil] at hlen
    omega
  · rw [hadd, List.length_singleton] at hlen
    omega
  · exact ⟨head, next, rest, rfl⟩

/-- The threads after a rotation that has led to these files: the generator of the second one may
have been started. -/
def StartedFor (w : World) (files : List CcaskFile) (ts : List Nat) : Prop :=
  ts = w.threads ∨ ∃ head next rest, files = head :: next :: rest ∧ ts = next.fileId :: w.threads

theorem StartedFor.suffix {files : List CcaskFile} {ts : List Nat} (h : StartedFor w files ts) :
    w.threads <:+ ts := by
  obtain rfl | ⟨_, _, _, -, rfl⟩ := h
  · exact List.suffix_rfl
  · exact List.suffix_cons _ _

/-- A rotation goes through, or there is an error and nothing has happened. -/
theorem ccaskFilesRotate_answers : Ensures A ccaskFilesRotate w
    (fun r v => (r = .ok () ∧ ∃ ts, StartedFor w (afterRotation w).files ts ∧
        v = { afterRotation w with threads := ts }) ∨
      (r.isOk = false ∧ v = w ∧ ∃ a, A a ∧ ¬ a.Clean)) (fun _ => True) := by
  refine malloc_answers.bind ?_
  rintro b v ⟨rfl, hb⟩
  cases b with
  | false => exact Ensures.pure (.inr ⟨rfl, rfl, hb rfl⟩)
  | true =>
      refine Ensures.state_bind ?_
      cases hfiles : v.files with
      | nil => exact Ensures.block trivial
      | cons head rest =>
          refine (createNewActiveDatafile_answers _).bind ?_
          rintro r u (⟨rfl, rfl⟩ | ⟨hr, rfl, hA⟩)
          · refine Ensures.modify_bind (Ensures.modify_bind (Ensures.state_bind ?_))
            split
            · rename_i first next tail hadded
              refine (ccaskHintfileGenerate_answers _).bind ?_
              rintro r u ⟨ts, hts, rfl⟩
              refine Ensures.pure (.inl ⟨rfl, ts, ?_, ?_⟩)
              · have hafter : (afterRotation v).files = first :: next :: tail := by
                  rw [← hadded]
                  simp only [afterRotation, hfiles]
                exact hts.imp_right fun h => ⟨first, next, tail, hafter, h⟩
              · simp only [afterRotation, hfiles]
            · exact Ensures.block trivial
          · cases r with
            | ok file => cases hr
            | fail e => exact Ensures.pure (.inr ⟨rfl, rfl, hA⟩)
            | retry e => exact Ensures.pure (.inr ⟨rfl, rfl, hA⟩)

/-- One try of an upsert: the entry is made, or there is no memory and nothing has happened. -/
theorem ccaskKeydirUpsert_answers (record : KeydirRecord) : Ensures A (ccaskKeydirUpsert record) w
    (fun r v => w.readLocks = 0 ∧ ((r = .ok () ∧ v = upserted w record) ∨
      (r.isOk = false ∧ v = w ∧ ∃ a, A a ∧ ¬ a.Clean))) (fun _ => True) := by
  refine Ensures.state_bind ?_
  split
  · exact Ensures.block trivial
  · rename_i hl
    have hl : w.readLocks = 0 := not_not.mp hl
    cases ccaskKeydirFind record.key w with
    | some _ => exact Ensures.modify_bind (Ensures.pure ⟨hl, .inl ⟨rfl, rfl⟩⟩)
    | none =>
        refine malloc_answers.bind ?_
        rintro b v ⟨rfl, hb⟩
        cases b with
        | false => exact Ensures.pure ⟨hl, .inr ⟨rfl, rfl, hb rfl⟩⟩
        | true =>
            refine malloc_answers.bind ?_
            rintro b u ⟨rfl, hb⟩
            cases b with
            | false => exact Ensures.pure ⟨hl, .inr ⟨rfl, rfl, hb rfl⟩⟩
            | true => exact Ensures.modify_bind (Ensures.pure ⟨hl, .inl ⟨rfl, rfl⟩⟩)

/-- All tries of it. -/
theorem upserts_answers (record : KeydirRecord) : Ensures A (attempt 5 (ccaskKeydirUpsert record)) w
    (fun r v => w.readLocks = 0 ∧ ((r = .ok () ∧ v = upserted w record) ∨
      (r.isOk = false ∧ v = w ∧ ∃ a, A a ∧ ¬ a.Clean))) (fun _ => True) := by
  refine attempt_succ_ensures (I := fun v => v = w) rfl ?_
  rintro v rfl
  refine (ccaskKeydirUpsert_answers record).mono ?_ fun _ _ => trivial
  rintro r u ⟨hl, ⟨rfl, rfl⟩ | ⟨hr, rfl, hA⟩⟩
  · exact ⟨⟨hl, .inl ⟨rfl, rfl⟩⟩, fun e h => by cases h⟩
  · exact ⟨⟨hl, .inr ⟨hr, rfl, hA⟩⟩, fun _ _ => rfl⟩

/-- `lseek` gives the length of an open file, or there is an error. -/
theorem lseekEnd_answers (fd : Option Ino) : Ensures A (lseekEnd fd) w
    (fun r v => v = w ∧ (r = fd.map (fun ino => (w.fs.data ino).length) ∨
      (r = none ∧ ∃ a, A a ∧ ¬ a.Clean))) (fun _ => True) := by
  refine Ensures.call_bind trivial fun r hr => ?_
  cases r with
  | done n => exact Ensures.state_bind (Ensures.pure ⟨rfl, .inl rfl⟩)
  | intr => exact Ensures.state_bind (Ensures.pure ⟨rfl, .inl rfl⟩)
  | transient => exact Ensures.pure ⟨rfl, .inr ⟨rfl, _, hr, id⟩⟩
  | fail => exact Ensures.pure ⟨rfl, .inr ⟨rfl, _, hr, id⟩⟩

end Answers

section Returns

variable {w : World}

theorem malloc_returns : Returns malloc w 1 :=
  Returns.call_bind fun r => by cases r <;> exact Returns.pure _

theorem lseekEnd_returns (fd : Option Ino) : Returns (lseekEnd fd) w 1 := by
  refine Returns.call_bind fun r => ?_
  cases r with
  | done n => exact Returns.state_bind (Returns.pure _)
  | intr => exact Returns.state_bind (Returns.pure _)
  | transient => exact Returns.pure _
  | fail => exact Returns.pure _

theorem openCreate_returns (name : Name) : Returns (attempt 5 (openCreate name)) w (5 * 1) := by
  refine attempt_returns (I := fun _ => True) trivial (fun v _ => ?_)
    fun v _ => Ensures.trivial.mono (fun _ _ _ _ _ => trivial) fun _ _ => trivial
  refine Returns.call_bind fun r => ?_
  cases r with
  | done n => exact Returns.state_bind (Returns.modify_bind (Returns.pure _))
  | intr => exact Returns.state_bind (Returns.modify_bind (Returns.pure _))
  | transient => exact Returns.pure _
  | fail => exact Returns.pure _

theorem ccaskHintfileGenerate_returns (id : Nat) :
    Returns (attempt 5 (ccaskHintfileGenerate id)) w (5 * 2) := by
  refine attempt_returns (I := fun _ => True) trivial (fun v _ => ?_)
    fun v _ => Ensures.trivial.mono (fun _ _ _ _ _ => trivial) fun _ _ => trivial
  refine malloc_returns.bind (M := 1) fun rs b rest u _ => ?_
  cases b with
  | false => exact Returns.pure _
  | true =>
      refine Returns.call_bind fun r => ?_
      cases r with
      | done n => exact Returns.modify_bind (Returns.pure _)
      | intr => exact Returns.modify_bind (Returns.pure _)
      | transient => exact Returns.pure _
      | fail => exact Returns.pure _

/-- A rotation returns, whatever its outcome. -/
theorem ccaskFilesRotate_returns (h : w.files ≠ []) : Returns ccaskFilesRotate w 16 := by
  refine malloc_returns.bind (M := 15) fun rs b rest v hrun => ?_
  obtain ⟨rfl, -⟩ := (malloc_answers (A := fun _ => True)).returned (fun _ _ => trivial) hrun
  cases b with
  | false => exact Returns.pure _
  | true =>
      refine Returns.state_bind ?_
      cases hfiles : v.files with
      | nil => exact absurd hfiles h
      | cons head rest =>
          have hcreate : Returns (createNewActiveDatafile ((head.fileId + 1) % 2 ^ 64)) v (5 + 0) := by
            refine (openCreate_returns _).bind fun rs r rest u _ => ?_
            cases r with
            | ok ino => exact Returns.state_bind (Returns.pure _)
            | fail e => exact Returns.pure _
            | retry e => exact Returns.pure _
          refine hcreate.bind (M := 10) fun rs r rest u hrun => ?_
          obtain ⟨rfl, rfl⟩ | ⟨hr, rfl, -⟩ :=
            (createNewActiveDatafile_answers (A := fun _ => True) _).returned (fun _ _ => trivial) hrun
          · obtain ⟨a, b, l, hadd⟩ := addFile_two ⟨(head.fileId + 1) % 2 ^ 64,
              some (v.fs.create (fileName ((head.fileId + 1) % 2 ^ 64) .data)).2, v.clock, false, true,
              false⟩ (List.map_eq_nil_iff.not.mpr h : (v.files.map fun file =>
                if file.fileId = head.fileId then { file with fd := none, isActive := false }
                else file) ≠ [])
            refine Returns.modify_bind (Returns.modify_bind (Returns.state_bind ?_))
            simp only [World.setFile]
            rw [hadd]
            exact (ccaskHintfileGenerate_returns _).bind (M := 0) fun _ _ _ _ _ => Returns.pure _
          · cases r with
            | ok file => cases hr
            | fail e => exact Returns.pure _
            | retry e => exact Returns.pure _

theorem ccaskKeydirUpsert_returns (record : KeydirRecord) (hl : w.readLocks = 0) :
    Returns (attempt 5 (ccaskKeydirUpsert record)) w (5 * 2) := by
  refine attempt_returns (I := fun v => v = w) rfl ?_ ?_
  · rintro v rfl
    refine Returns.state_bind ?_
    rw [if_neg (by simp [hl])]
    cases ccaskKeydirFind record.key v with
    | some _ => exact Returns.modify_bind (Returns.pure _)
    | none =>
        refine malloc_returns.bind (M := 1) fun rs b rest u _ => ?_
        cases b with
        | false => exact Returns.pure _
        | true =>
            refine malloc_returns.bind (M := 0) fun rs b rest u _ => ?_
            cases b with
            | false => exact Returns.pure _
            | true => exact Returns.modify_bind (Returns.pure _)
  · rintro v rfl
    refine (ccaskKeydirUpsert_answers record).mono ?_ fun _ _ => trivial
    rintro r u ⟨-, ⟨rfl, rfl⟩ | ⟨-, rfl, -⟩⟩ e h
    · cases h
    · rfl

end Returns

section Round

variable {record : DatafileRecord} {w : World}

/-- `writeRecordRound` with the answer of the rotation, at which the source does not look. -/
def answeredRound (record : DatafileRecord) : Sys (Status ⊕ Status) := do
  let w ← Prog.state
  match ccaskFilesGetActiveFile w with
  | none => Prog.block
  | some file =>
    match ← lseekEnd file.fd with
    | none => pure (.inr (.fail none))
    | some pos =>
      if w.maxActiveFileSize.toNat < pos + ccaskGetDatafileRecordTotalSize record then
        let res ← ccaskFilesRotate
        pure (.inl res)
      else
        match ← safeWritev file.fd record.iov with
        | .fail e | .retry e => pure (.inr (.fail e))
        | .ok () =>
          match ← attempt 5 (ccaskKeydirUpsert (datafileEntry file.fileId record pos)) with
          | .ok () => pure (.inr (.ok ()))
          | .fail e | .retry e => pure (.inr (.fail e))

theorem writeRecordRound_answered (record : DatafileRecord) : writeRecordRound record () =
    answeredRound record >>= fun r => pure (r.map (fun _ => ()) id) := by
  unfold writeRecordRound answeredRound
  rw [bind_assoc]
  refine congrArg _ (funext fun w => ?_)
  cases ccaskFilesGetActiveFile w with
  | none => rfl
  | some file =>
      simp only [bind_assoc]
      refine congrArg _ (funext fun pos => ?_)
      cases pos with
      | none => rfl
      | some pos =>
          simp only
          split
          · simp only [bind_assoc, pure_bind]
            rfl
          · simp only [bind_assoc]
            refine congrArg _ (funext fun res => ?_)
            cases res with
            | fail e => rfl
            | retry e => rfl
            | ok _ =>
                simp only [bind_assoc]
                refine congrArg _ (funext fun res => ?_)
                cases res <;> rfl

/-- The record is appended to the active file by this call, or the call fails at once. -/
def Settles (record : DatafileRecord) (w : World) : Prop :=
  match ccaskFilesGetActiveFile w with
  | none => False
  | some file =>
    match file.fd with
    | none => True
    | some ino => record.value ≠ [] ∧ w.readLocks = 0 ∧
        (w.fs.data ino).length + ccaskGetDatafileRecordTotalSize record ≤ w.maxActiveFileSize.toNat

/-- The record does not fit behind what is in the active file. -/
def Overflows (record : DatafileRecord) (w : World) : Prop :=
  ∃ file ino, ccaskFilesGetActiveFile w = some file ∧ file.fd = some ino ∧
    w.maxActiveFileSize.toNat < (w.fs.data ino).length + ccaskGetDatafileRecordTotalSize record

/-- The record stands whole at the end of the active file, and its key leads there. -/
def LiesWhole (record : DatafileRecord) (w : World) : Prop :=
  ∃ file ino before, ccaskFilesGetActiveFile w = some file ∧ file.fd = some ino ∧
    w.fs.data ino = before ++ record.bytes ∧
    ccaskKeydirFind record.key w = some (datafileEntry file.fileId record before.length)

theorem Overflows.not_settles (h : Overflows record w) : ¬ Settles record w := by
  obtain ⟨file, ino, hfile, hfd, hlt⟩ := h
  simp only [Settles, hfile, hfd]
  omega

/-- What one call does. -/
theorem answeredRound_ensures {A : Reply → Prop} : Ensures A (answeredRound record) w
    (fun r v => match r with
      | .inl res => Overflows record w ∧
        ((res = .ok () ∧ ∃ ts, v = { afterRotation w with threads := ts }) ∨
          (res.isOk = false ∧ v = w ∧ ∃ a, A a ∧ ¬ a.Clean))
      | .inr res => (res = .ok () → LiesWhole record v) ∧ (Settles record w ∨ ∃ a, A a ∧ ¬ a.Clean))
    (fun _ => True) := by
  refine Ensures.state_bind ?_
  cases hfile : ccaskFilesGetActiveFile w with
  | none => exact Ensures.block trivial
  | some file =>
      refine (lseekEnd_answers file.fd).bind ?_
      rintro pos v ⟨rfl, hpos⟩
      cases pos with
      | none =>
          refine Ensures.pure ⟨nofun, ?_⟩
          obtain hnone | ⟨-, hA⟩ := hpos
          · left
            cases hfd : file.fd with
            | none => simp only [Settles, hfile, hfd]
            | some ino => rw [hfd] at hnone; cases hnone
          · exact .inr hA
      | some pos =>
          obtain ⟨ino, hfd, hlen⟩ : ∃ ino, file.fd = some ino ∧ (v.fs.data ino).length = pos := by
            obtain hsome | ⟨h, -⟩ := hpos
            · exact Option.map_eq_some_iff.mp hsome.symm
            · cases h
          dsimp only
          split
          · rename_i hlt
            refine ccaskFilesRotate_answers.bind fun res u hres => Ensures.pure
              ⟨?_, hres.imp_left fun h => ⟨h.1, h.2.imp fun _ hts => hts.2⟩⟩
            exact ⟨file, ino, hfile, hfd, by rw [hlen]; exact hlt⟩
          · rename_i hle
            rw [hfd]
            refine ((safeWritev_ensures A (iov_fits record) (List.cons_ne_nil _ _)).mono
              (fun _ _ h => h) fun _ _ => trivial).bind ?_
            rintro res u (⟨rfl, hlast, rfl⟩ | ⟨rfl, hA, p, -, rfl⟩)
            · refine (upserts_answers _).bind ?_
              rintro res u ⟨hl, ⟨rfl, rfl⟩ | ⟨hr, rfl, hA⟩⟩
              · refine Ensures.pure ⟨fun _ => ⟨file, ino, v.fs.data ino, hfile, hfd, ?_, ?_⟩, .inl ?_⟩
                · rw [gather_iov]
                  exact Fs.data_append_self v.fs ino record.bytes
                · rw [find_upserted, hlen]
                  exact if_pos rfl
                · simp only [Settles, hfile, hfd]
                  exact ⟨(iov_last record).mp hlast, hl, by omega⟩
              · cases res with
                | ok _ => cases hr
                | fail e => exact Ensures.pure ⟨nofun, .inr hA⟩
                | retry e => exact Ensures.pure ⟨nofun, .inr hA⟩
            · exact Ensures.pure ⟨nofun, .inr hA⟩

/-- A call that settles the record returns, and without a rotation. -/
theorem answeredRound_settles (h : Settles record w) :
    Returns (answeredRound record) w (1 + (wanted record.iov + 1 + 10)) := by
  unfold Settles at h
  cases hfile : ccaskFilesGetActiveFile w with
  | none =>
      rw [hfile] at h
      exact h.elim
  | some file =>
      rw [hfile] at h
      dsimp only at h
      refine Returns.state_bind ?_
      rw [hfile]
      refine (lseekEnd_returns file.fd).bind fun rs pos rest v hrun => ?_
      obtain ⟨rfl, hpos⟩ := (lseekEnd_answers (A := fun _ => True) _).returned (fun _ _ => trivial) hrun
      cases pos with
      | none => exact Returns.pure _
      | some pos =>
          obtain ⟨ino, hfd, hlen⟩ : ∃ ino, file.fd = some ino ∧ (v.fs.data ino).length = pos := by
            obtain hsome | ⟨h, -⟩ := hpos
            · exact Option.map_eq_some_iff.mp hsome.symm
            · cases h
          rw [hfd] at h
          obtain ⟨hvalue, hl, hfits⟩ := h
          dsimp only
          rw [if_neg (by omega), hfd]
          refine (safeWritev_returns (iov_fits record) ((iov_last record).mpr hvalue)).bind
            fun rs res rest u hrun => ?_
          obtain ⟨rfl, -, rfl⟩ | ⟨rfl, -⟩ := (safeWritev_ensures (fun _ => True) (iov_fits record)
            (List.cons_ne_nil _ _)).returned (fun _ _ => trivial) hrun
          · refine (ccaskKeydirUpsert_returns (w := v.append ino (gather record.iov)) _ hl).bind (M := 0)
              fun rs res rest u _ => ?_
            cases res <;> exact Returns.pure _
          · exact Returns.pure _

/-- So does one that rotates. -/
theorem answeredRound_overflows (h : Overflows record w) : Returns (answeredRound record) w 17 := by
  obtain ⟨file, ino, hfile, hfd, hlt⟩ := h
  refine Returns.state_bind ?_
  rw [hfile]
  refine (lseekEnd_returns file.fd).bind (M := 16) fun rs pos rest v hrun => ?_
  obtain ⟨rfl, hpos⟩ := (lseekEnd_answers (A := fun _ => True) _).returned (fun _ _ => trivial) hrun
  cases pos with
  | none => exact Returns.pure _
  | some pos =>
      have hlen : (v.fs.data ino).length = pos := by
        obtain hsome | ⟨h, -⟩ := hpos
        · rw [hfd] at hsome
          exact (Option.some.inj hsome).symm
        · cases h
      dsimp only
      rw [if_pos (by omega)]
      have hne : v.files ≠ [] := by
        intro hnil
        rw [ccaskFilesGetActiveFile, hnil] at hfile
        cases hfile
      exact (ccaskFilesRotate_returns hne).bind (M := 0) fun _ _ _ _ _ => Returns.pure _

theorem answeredRound_uses (record : DatafileRecord) : Prog.Uses (answeredRound record) := by
  refine Prog.uses_bind _ fun w => ?_
  cases ccaskFilesGetActiveFile w with
  | none => exact Prog.uses_block
  | some file => exact Prog.uses_bind_left (lseekEnd_uses file.fd) _

end Round

section Recursion

variable {record : DatafileRecord} {w : World} {rs : List Reply}

/-- What the rotations of a run of the write answer, at most `n` of them. -/
def answers (record : DatafileRecord) : Nat → List Reply → World → List Status
  | 0, _, _ => []
  | n + 1, rs, w =>
    match (answeredRound record).run rs w with
    | .returned (.inl res) rest v => res :: answers record n rest v
    | _ => []

/-- All of them: each call uses up a reply. -/
def rotations (record : DatafileRecord) (rs : List Reply) (w : World) : List Status :=
  answers record rs.length rs w

theorem answers_bound (n m : Nat) (rs : List Reply) (w : World) (hn : rs.length ≤ n)
    (hm : rs.length ≤ m) : answers record n rs w = answers record m rs w := by
  have hnone : ∀ n w, answers record n [] w = [] := by
    intro n w
    cases n with
    | zero => rfl
    | succ n =>
        rw [answers]
        cases hr : (answeredRound record).run [] w with
        | pending v => rfl
        | returned r rest v =>
            have := answeredRound_uses record _ _ _ _ _ hr
            simp at this
  induction n generalizing m rs w with
  | zero =>
      rw [List.eq_nil_of_length_eq_zero (Nat.le_zero.mp hn), hnone, hnone]
  | succ n ih =>
      cases m with
      | zero => rw [List.eq_nil_of_length_eq_zero (Nat.le_zero.mp hm), hnone, hnone]
      | succ m =>
          rw [answers, answers]
          cases hr : (answeredRound record).run rs w with
          | pending v => rfl
          | returned r rest v =>
              have hlt := answeredRound_uses record _ _ _ _ _ hr
              cases r with
              | inr s => rfl
              | inl res => exact congrArg (res :: ·) (ih m rest v (by omega) (by omega))

theorem rotations_eq (rs : List Reply) (w : World) : rotations record rs w =
    match (answeredRound record).run rs w with
    | .returned (.inl res) rest v => res :: rotations record rest v
    | _ => [] := by
  have hstep : rotations record rs w = answers record (rs.length + 1) rs w :=
    answers_bound _ _ rs w (Nat.le_refl _) (Nat.le_succ _)
  rw [hstep, answers]
  cases hr : (answeredRound record).run rs w with
  | pending v => rfl
  | returned r rest v =>
      have hlt := answeredRound_uses record _ _ _ _ _ hr
      cases r with
      | inr s => rfl
      | inl res => exact congrArg (res :: ·) (answers_bound _ _ rest v (by omega) (Nat.le_refl _))

/-- The call and the calls it makes of itself. -/
theorem write_eq (rs : List Reply) (w : World) : (ccaskWriteRecordBlocking record).run rs w =
    match (answeredRound record).run rs w with
    | .returned (.inl _) rest v => (ccaskWriteRecordBlocking record).run rest v
    | .returned (.inr s) rest v => .returned s rest v
    | .pending v => .pending v := by
  have hb : ∀ s, Prog.Consumes (writeRecordRound record s) := by
    intro s
    rw [writeRecordRound_answered]
    exact (Prog.uses_bind_left (answeredRound_uses record) _).consumes
  have hstep : ccaskWriteRecordBlocking record = answeredRound record >>= fun r =>
      Sum.elim (fun _ => ccaskWriteRecordBlocking record) pure (r.map (fun _ => ()) id) := by
    conv_lhs => rw [ccaskWriteRecordBlocking, Prog.loop_eq hb, writeRecordRound_answered, bind_assoc]
    rfl
  conv_lhs => rw [hstep, Prog.run_bind]
  cases (answeredRound record).run rs w with
  | pending v => rfl
  | returned r rest v =>
      cases r with
      | inr s => rfl
      | inl res => rfl

theorem settles_threads (record : DatafileRecord) (w : World) (ts : List Nat) :
    Settles record { w with threads := ts } ↔ Settles record w := Iff.rfl

/-- A call that settles the record is the last one. -/
theorem settles_ends (h : Settles record w) (hn : 1 + (wanted record.iov + 1 + 10) ≤ completed rs) :
    ∃ s rest v, (ccaskWriteRecordBlocking record).run rs w = .returned s rest v ∧
      rotations record rs w = [] ∧ (s = .ok () → LiesWhole record v) := by
  obtain ⟨r, rest, v, hr, -⟩ := answeredRound_settles h rs hn
  have hspec := answeredRound_ensures.returned (fun _ _ => trivial) hr
  cases r with
  | inl res => exact absurd h hspec.1.not_settles
  | inr s => exact ⟨s, rest, v, by rw [write_eq, hr], by rw [rotations_eq, hr], hspec.1⟩

/-- Without errors a call that does not settle the record does not return: it rotates, or it stays. -/
theorem not_settles_run (h : ¬ Settles record w) (hrs : AllClean rs) :
    (∃ v, (answeredRound record).run rs w = .pending v) ∨
      ∃ rest ts, (answeredRound record).run rs w =
        .returned (.inl (.ok ())) rest { afterRotation w with threads := ts } ∧ Overflows record w := by
  cases hr : (answeredRound record).run rs w with
  | pending v => exact .inl ⟨v, rfl⟩
  | returned r rest v =>
      have hspec := answeredRound_ensures.returned hrs hr
      cases r with
      | inr s =>
          obtain hs | ⟨a, ha, hn⟩ := hspec.2
          · exact absurd hs h
          · exact absurd ha hn
      | inl res =>
          obtain ⟨hover, ⟨rfl, ts, rfl⟩ | ⟨-, -, a, ha, hn⟩⟩ := hspec
          · exact .inr ⟨rest, ts, rfl, hover⟩
          · exact absurd ha hn

/-- Without errors every rotation goes through. -/
theorem rotations_clean (rs : List Reply) (w : World) (hrs : AllClean rs) :
    ∀ res ∈ rotations record rs w, res.isOk = true := by
  induction hn : rs.length using Nat.strongRecOn generalizing rs w with
  | ind n ih =>
      subst hn
      intro res hres
      rw [rotations_eq] at hres
      cases hr : (answeredRound record).run rs w with
      | pending v => rw [hr] at hres; cases hres
      | returned r rest v =>
          rw [hr] at hres
          have hspec := answeredRound_ensures.returned hrs hr
          cases r with
          | inr s => cases hres
          | inl a =>
              obtain rfl | hres := List.mem_cons.mp hres
              · obtain ⟨-, ⟨rfl, -⟩ | ⟨-, -, a, ha, hn⟩⟩ := hspec
                · rfl
                · exact absurd ha hn
              · exact ih rest.length (answeredRound_uses record _ _ _ _ _ hr) rest v
                  (hrs.rest ((answeredRound record).suffix hr)) rfl res hres

/-- The call returns after at most one rotation, whatever the replies that give every rotation this
outcome, and with CCASK_OK the record lies whole where its key leads. -/
def EndsWell (created : Bool) (record : DatafileRecord) (w : World) : Prop :=
  ∃ N, ∀ rs, N ≤ completed rs → (∀ res ∈ rotations record rs w, res.isOk = created) →
    ∃ s rest v, (ccaskWriteRecordBlocking record).run rs w = .returned s rest v ∧
      (rotations record rs w).length ≤ 1 ∧ (s = .ok () → LiesWhole record v)

/-- The call settles the record, or the one behind a rotation that creates the next datafile does. -/
def WillEnd (created : Bool) (record : DatafileRecord) (w : World) : Prop :=
  Settles record w ∨ (created = true ∧ Overflows record w ∧ Settles record (afterRotation w))

theorem WillEnd.endsWell {created : Bool} (h : WillEnd created record w) :
    EndsWell created record w := by
  obtain h | ⟨rfl, hover, h⟩ := h
  · refine ⟨1 + (wanted record.iov + 1 + 10), fun rs hn _ => ?_⟩
    obtain ⟨s, rest, v, hrun, hnone, hwhole⟩ := settles_ends h hn
    exact ⟨s, rest, v, hrun, by rw [hnone]; exact Nat.zero_le 1, hwhole⟩
  · refine ⟨17 + (1 + (wanted record.iov + 1 + 10)), fun rs hn hans => ?_⟩
    obtain ⟨r, rest, v, hr, hc⟩ := answeredRound_overflows hover rs (by omega)
    have hspec := answeredRound_ensures.returned (fun _ _ => trivial) hr
    cases r with
    | inr s =>
        exact ⟨s, rest, v, by rw [write_eq, hr], by rw [rotations_eq, hr]; exact Nat.zero_le 1, hspec.1⟩
    | inl res =>
        rw [rotations_eq, hr] at hans
        have hok := hans res List.mem_cons_self
        obtain ⟨-, ⟨rfl, ts, rfl⟩ | ⟨hfail, -⟩⟩ := hspec
        · obtain ⟨s, rest', v, hrun, hnone, hwhole⟩ :=
            settles_ends ((settles_threads record _ ts).mpr h) (show _ ≤ completed rest by omega)
          have hone : rotations record rs w = [.ok ()] := by
            rw [rotations_eq, hr]
            exact congrArg (.ok () :: ·) hnone
          exact ⟨s, rest', v, by rw [write_eq, hr]; exact hrun, by rw [hone]; exact Nat.le_refl 1,
            hwhole⟩
        · rw [hok] at hfail
          cases hfail

/-- A call that neither settles the record nor rotates does not return. -/
theorem stays_not_endsWell (created : Bool) (h : ¬ Settles record w) (hover : ¬ Overflows record w) :
    ¬ EndsWell created record w := by
  rintro ⟨N, hN⟩
  obtain ⟨rs, hrs, hn⟩ := exists_completed N
  obtain ⟨v, hr⟩ | ⟨-, -, -, h⟩ := not_settles_run h hrs
  · obtain ⟨s, rest, u, hrun, -⟩ := hN rs hn (by rw [rotations_eq, hr]; simp)
    rw [write_eq, hr] at hrun
    cases hrun
  · exact hover h

/-- When the record does not fit behind a rotation either, the call rotates again. -/
theorem oversize_not_endsWell (hover : Overflows record w) (h : ¬ Settles record (afterRotation w)) :
    ¬ EndsWell true record w := by
  rintro ⟨N, hN⟩
  obtain ⟨rs, hrs, hn⟩ := exists_completed N
  obtain ⟨s, rest, u, hrun, hone, -⟩ := hN rs hn (rotations_clean rs w hrs)
  obtain ⟨v, hr⟩ | ⟨rest', ts, hr, -⟩ := not_settles_run hover.not_settles hrs
  · rw [write_eq, hr] at hrun
    cases hrun
  · rw [write_eq, hr] at hrun
    rw [rotations_eq, hr] at hone
    have hrest := hrs.rest ((answeredRound record).suffix hr)
    obtain ⟨v, hr'⟩ | ⟨rest'', ts', hr', -⟩ :=
      not_settles_run (mt (settles_threads record _ ts).mp h) hrest
    · simp only [write_eq rest', hr'] at hrun
      cases hrun
    · simp only [rotations_eq rest', hr', List.length_cons] at hone
      omega

/-- The replies of a call whose rotation cannot create the next datafile. -/
def cannotCreate : List Reply := [.done 0, .done 0, .fail]

theorem cannotCreate_run (hover : Overflows record w) (rest : List Reply) :
    (answeredRound record).run (cannotCreate ++ rest) w = .returned (.inl (.fail none)) rest w := by
  obtain ⟨file, ino, hfile, hfd, hlt⟩ := hover
  obtain ⟨tail, hfiles⟩ : ∃ tail, w.files = file :: tail := by
    unfold ccaskFilesGetActiveFile at hfile
    cases hw : w.files with
    | nil => rw [hw] at hfile; cases hfile
    | cons head tail => rw [hw] at hfile; cases hfile; exact ⟨tail, rfl⟩
  have hseek : (lseekEnd file.fd).run (.done 0 :: .done 0 :: .fail :: rest) w =
      .returned (some (w.fs.data ino).length) (.done 0 :: .fail :: rest) w := by
    rw [hfd]
    rfl
  have hcreate : ∀ id, (createNewActiveDatafile id).run (.fail :: rest) w =
      .returned (.fail (some .getFdFailed)) rest w := fun _ => rfl
  have hrotate : ccaskFilesRotate.run (.done 0 :: .fail :: rest) w = .returned (.fail none) rest w := by
    show (match w.files with | [] => _ | head :: _ => _ : Sys Status).run (.fail :: rest) w = _
    rw [hfiles]
    dsimp only
    rw [Prog.run_bind_returned (hcreate _)]
    rfl
  show (match ccaskFilesGetActiveFile w with | none => _ | some file => _ : Sys (Status ⊕ Status)).run
    _ w = _
  rw [hfile]
  dsimp only
  rw [cannotCreate, List.cons_append, List.cons_append, List.cons_append, List.nil_append,
    Prog.run_bind_returned hseek]
  dsimp only
  rw [if_pos hlt, Prog.run_bind_returned hrotate]
  rfl

/-- When a rotation has failed the call tries the next one. -/
theorem uncreated_not_endsWell (hover : Overflows record w) : ¬ EndsWell false record w := by
  have hrun : ∀ k, (∃ v, (ccaskWriteRecordBlocking record).run (List.replicate k cannotCreate).flatten w =
      .pending v) ∧ (∀ res ∈ rotations record (List.replicate k cannotCreate).flatten w,
        res.isOk = false) ∧ k ≤ completed (List.replicate k cannotCreate).flatten := by
    intro k
    induction k with
    | zero =>
        refine ⟨?_, nofun, Nat.zero_le _⟩
        cases hr : (answeredRound record).run [] w with
        | pending v => exact ⟨v, by rw [List.replicate_zero, List.flatten_nil, write_eq, hr]⟩
        | returned r rest v => exact absurd (answeredRound_uses record _ _ _ _ _ hr) (Nat.not_lt_zero _)
    | succ k ih =>
        obtain ⟨⟨v, hpending⟩, hans, hle⟩ := ih
        rw [List.replicate_succ, List.flatten_cons]
        have hr := cannotCreate_run hover (List.replicate k cannotCreate).flatten
        refine ⟨⟨v, ?_⟩, ?_, ?_⟩
        · rw [write_eq, hr]
          exact hpending
        · rw [rotations_eq, hr]
          intro res hres
          obtain rfl | hres := List.mem_cons.mp hres
          · rfl
          · exact hans res hres
        · have htwo : ∀ rest, completed (cannotCreate ++ rest) = completed rest + 2 := by
            intro rest
            simp only [cannotCreate, List.cons_append, List.nil_append, completed_done, completed_fail]
          rw [htwo]
          omega
  rintro ⟨N, hN⟩
  obtain ⟨⟨v, hpending⟩, hans, hle⟩ := hrun N
  obtain ⟨s, rest, u, hreturned, -⟩ := hN _ hle hans
  rw [hpending] at hreturned
  cases hreturned

/-- A write ends after at most one rotation exactly when this call or the next one settles the record. -/
theorem write_ends_iff (created : Bool) (record : DatafileRecord) (w : World) :
    EndsWell created record w ↔ WillEnd created record w := by
  refine ⟨fun hends => ?_, WillEnd.endsWell⟩
  by_contra hnot
  unfold WillEnd at hnot
  push Not at hnot
  obtain ⟨hsettles, hrotated⟩ := hnot
  by_cases hover : Overflows record w
  · cases created with
    | false => exact uncreated_not_endsWell hover hends
    | true => exact oversize_not_endsWell hover (hrotated rfl hover) hends
  · exact stays_not_endsWell created hsettles hover hends

/-- In a store with datafiles below 2^64 the next datafile is new and empty: the record has to be no
longer than the threshold. -/
theorem settles_afterRotation {head : CcaskFile} {rest : List CcaskFile} (hfiles : w.files = head :: rest)
    (hid : head.fileId + 1 < 2 ^ 64) (hnew : w.fs.read (fileName (head.fileId + 1) .data) = none) :
    Settles record (afterRotation w) ↔ record.value ≠ [] ∧ w.readLocks = 0 ∧
      ccaskGetDatafileRecordTotalSize record ≤ w.maxActiveFileSize.toNat := by
  have hactive : ccaskFilesGetActiveFile (afterRotation w) = some ⟨head.fileId + 1,
      some (w.fs.create (fileName (head.fileId + 1) .data)).2, w.clock, false, true, false⟩ := by
    simp only [ccaskFilesGetActiveFile, afterRotation, hfiles, Nat.mod_eq_of_lt hid, World.setFile,
      List.map_cons, if_true]
    rw [addFile_of_lt (Nat.lt_succ_self head.fileId), List.head?_cons]
  have hdata : (afterRotation w).fs.data (w.fs.create (fileName (head.fileId + 1) .data)).2 = [] := by
    have hself := Fs.data_create_self w.fs (fileName (head.fileId + 1) .data)
    rw [hnew] at hself
    simp only [afterRotation, hfiles, Nat.mod_eq_of_lt hid]
    exact hself
  have hmax : (afterRotation w).maxActiveFileSize = w.maxActiveFileSize := by
    simp only [afterRotation, hfiles]
    rfl
  have hlocks : (afterRotation w).readLocks = w.readLocks := by
    simp only [afterRotation, hfiles]
    rfl
  unfold Settles
  rw [hactive]
  dsimp only
  rw [hdata, hmax, hlocks, List.length_nil, Nat.zero_add]

end Recursion

section Sample

/-- A record of 18 bytes and a threshold of 10. -/
def tightFile : World :=
  { oneFile (fileName 0 .data) [] with
    files := [⟨0, some 0, 0, false, true, false⟩]
    maxActiveFileSize := 10 }

def longRecord : DatafileRecord := ⟨[0, 0, 0, 0, 0, 0, 0, 1, 0, 0, 0, 1, 0, 0, 0, 1], [97], [98]⟩

/-- A record that is longer than the threshold makes the files rotate again and again, and so does every
record that does not fit when the next datafile cannot be created. -/
theorem write_rotates_again : ¬ EndsWell true longRecord tightFile ∧ ¬ EndsWell false longRecord tightFile := by
  have hover : Overflows longRecord tightFile := ⟨_, 0, rfl, rfl, by decide⟩
  refine ⟨oversize_not_endsWell hover ?_, uncreated_not_endsWell hover⟩
  have hnew : tightFile.fs.read (fileName (0 + 1) .data) = none := read_oneFile_of_ne (by simp) []
  rw [settles_afterRotation (w := tightFile) rfl (by decide) hnew]
  decide

end Sample

end Ccask.Audit
