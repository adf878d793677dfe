import Ccask.Audit.Transparency
import Mathlib.Logic.Relation

/-!
# What was acknowledged stays in the log

Calls may fail at any place and processes may die at any place. As long as no process compacts the store,
a datafile loses neither its name nor a byte, and every descriptor leads where the name of its file leads.
So the record of a put that returned CCASK_OK stands in a datafile from then on.
-/

namespace Ccask.Audit

open Ccask.Effect Ccask.Model

/-- An open descriptor leads where the name of its file leads. -/
def Anchored (w : World) : Prop :=
  ∀ i ino, openFd i w = some (some ino) → w.fs.dir (fileName i .data) = some ino

/-- What every call does to the datafiles. -/
structure Retains (w v : World) : Prop where
  grows : Grows w.fs v.fs
  anchored : Anchored w → Anchored v
  offTemps : OffTemps w → OffTemps v

namespace Retains

variable {w v u : World}

instance : Std.Refl Retains := ⟨fun w => ⟨Grows.refl w.fs, id, id⟩⟩

instance : IsTrans World Retains :=
  ⟨fun _ _ _ h h' => ⟨h.grows.trans h'.grows, fun hw => h'.anchored (h.anchored hw),
    fun hw => h'.offTemps (h.offTemps hw)⟩⟩

/-- The directory may grow; a descriptor is one that was there, or leads where the name leads. -/
theorem of_fds (hg : Grows w.fs v.fs)
    (htemps : ∀ i, v.fs.dir (fileName i .tempData) = w.fs.dir (fileName i .tempData))
    (h : ∀ i ino, openFd i v = some (some ino) →
      openFd i w = some (some ino) ∨ v.fs.dir (fileName i .data) = some ino) : Retains w v := by
  refine ⟨hg, fun hw i ino hi => ?_, fun hw i ino hi => ?_⟩
  · rcases h i ino hi with hold | hnew
    · exact hg.dir i ino (hw i ino hold)
    · exact hnew
  · rcases h i ino hi with hold | hnew
    · obtain ⟨hlt, hoff⟩ := hw i ino hold
      exact ⟨Nat.lt_of_lt_of_le hlt hg.next, fun j => by rw [htemps]; exact hoff j⟩
    · exact offTemps_of_data hnew

theorem of_files (hg : Grows w.fs v.fs)
    (htemps : ∀ i, v.fs.dir (fileName i .tempData) = w.fs.dir (fileName i .tempData))
    (hfiles : v.files = w.files) : Retains w v :=
  of_fds hg htemps fun i _ hi => .inl ((openFd_congr hfiles i).symm.trans hi)

theorem of_memory (hfs : v.fs = w.fs) (hfiles : v.files = w.files) : Retains w v :=
  of_files (hfs ▸ Grows.refl w.fs) (fun _ => by rw [hfs]) hfiles

theorem closed (hfs : v.fs = w.fs) (hfiles : v.files = []) : Retains w v := by
  refine of_fds (hfs ▸ Grows.refl w.fs) (fun _ => by rw [hfs]) fun i ino hi => ?_
  rw [openFd, ccaskFilesGetFile, hfiles] at hi
  cases hi

theorem opens (h : Opens w v) : Retains w v := by
  refine of_fds (h.fs ▸ Grows.refl w.fs) (fun _ => by rw [h.fs]) fun i ino hi => ?_
  rcases h.fds i with hsame | ⟨-, hopen⟩
  · exact .inl (hsame.symm.trans hi)
  · rw [hopen] at hi
    rw [h.fs]
    exact .inr (Option.some.inj hi)

/-- A descriptor may be closed. -/
theorem close (w : World) (id : Nat) :
    Retains w (w.setFile id fun g => { g with fd := none, isActive := false }) := by
  refine of_fds (Grows.refl w.fs) (fun _ => rfl) fun i ino hi => .inl ?_
  rw [@openFd_setFd w id i (fun g => { g with fd := none, isActive := false }) (fun _ => rfl) none
    fun _ => rfl] at hi
  split at hi
  · cases hopen : openFd i w with
    | none => rw [hopen] at hi; cases hi
    | some fd => rw [hopen] at hi; cases hi
  · exact hi

/-- The descriptor of a file may be set to where its name leads. -/
theorem anchor {id : Nat} {ino : Ino} {F : CcaskFile → CcaskFile} (hF : ∀ f, (F f).fileId = f.fileId)
    (hfd : ∀ f, (F f).fd = some ino) (hdir : w.fs.dir (fileName id .data) = some ino) :
    Retains w (w.setFile id F) := by
  refine of_fds (Grows.refl w.fs) (fun _ => rfl) fun i j hi => ?_
  rw [openFd_setFd id i hF hfd] at hi
  split at hi
  · rename_i hid
    obtain ⟨fd, -, hfd⟩ := Option.map_eq_some_iff.mp hi
    rw [hid, ← Option.some.inj hfd]
    exact .inr hdir
  · exact .inl hi

theorem append (w : World) (ino : Ino) (bytes : Bytes) : Retains w (w.append ino bytes) :=
  of_files (Grows.append w.fs ino bytes) (fun _ => rfl) rfl

theorem create (w : World) (name : Name) (hname : ∀ i, name ≠ fileName i .tempData) :
    Retains w { w with fs := (w.fs.create name).1 } :=
  of_files (Grows.create w.fs name) (fun i => w.fs.dir_create_of_ne name (hname i).symm) rfl

/-- A hint file may go. -/
theorem unlink (w : World) (id : Nat) : Retains w { w with fs := w.fs.unlink (fileName id .hint) } := by
  refine of_files ⟨Nat.le_refl _, fun _ _ => List.prefix_refl _, fun i ino hdir => ?_⟩ (fun i => ?_) rfl
  · show (w.fs.unlink _).dir _ = _
    rw [Fs.dir_unlink, if_neg (by simp)]
    exact hdir
  · show (w.fs.unlink _).dir _ = _
    rw [Fs.dir_unlink, if_neg (by simp)]

end Retains

section Calls

variable {w : World}

theorem modify_retains {f : World → World} (hf : ∀ w, (f w).fs = w.fs ∧ (f w).files = w.files) :
    Moves Retains (Prog.modify f) :=
  Moves.modify fun w => Retains.of_memory (hf w).1 (hf w).2

theorem modify_bind_retains {α : Type} {f : World → World} {k : Unit → Sys α}
    (hf : ∀ w, (f w).fs = w.fs ∧ (f w).files = w.files) (hk : ∀ u, Moves Retains (k u)) :
    Moves Retains (Prog.modify f >>= k) :=
  (modify_retains hf).bind hk

/-- A change of a file that leaves its descriptor. -/
theorem setFile_retains (id : Nat) {F : CcaskFile → CcaskFile} (hF : ∀ f, (F f).fileId = f.fileId)
    (hfd : ∀ f, (F f).fd = f.fd) : Moves Retains (Prog.modify fun w => w.setFile id F) := by
  refine Moves.modify fun w => Retains.of_fds (Grows.refl w.fs) (fun _ => rfl) fun i ino hi => .inl ?_
  rw [openFd_setFile id i hF hfd] at hi
  exact hi

theorem ccaskKeydirUpsert_retains (record : KeydirRecord) : Moves Retains (ccaskKeydirUpsert record) := by
  have hput : Moves Retains (do
      Prog.modify fun w => { w with hashTable := Index.put KeydirRecord.key record w.hashTable }
      pure (.ok ()) : Sys Status) :=
    modify_bind_retains (fun _ => ⟨rfl, rfl⟩) fun _ => Moves.pure _
  refine Moves.state fun w => ?_
  split
  · exact Moves.block w
  · split
    · exact hput w
    · refine Moves.bind malloc_moves (fun b => ?_) w
      cases b with
      | false => exact Moves.pure _
      | true =>
          refine malloc_moves.bind fun b => ?_
          cases b with
          | false => exact Moves.pure _
          | true => exact hput

theorem ccaskHintfileGenerate_retains (id : Nat) : Moves Retains (ccaskHintfileGenerate id) := by
  have hstart : Moves Retains (do
      Prog.modify fun w => { w with threads := id :: w.threads }
      pure (.ok ()) : Sys Status) :=
    modify_bind_retains (fun _ => ⟨rfl, rfl⟩) fun _ => Moves.pure _
  refine malloc_moves.bind fun b => ?_
  cases b with
  | false => exact Moves.pure _
  | true =>
      refine Moves.call fun r => ?_
      cases r with
      | done n => exact hstart
      | intr => exact hstart
      | transient => exact Moves.pure _
      | fail => exact Moves.pure _

/-- What is found after a file has joined the list was there before, or is that file. -/
theorem find?_linkFile {f g : CcaskFile} {files : List CcaskFile} {i : Nat}
    (h : (linkFile f files).find? (fun g => g.fileId = i) = some g) :
    g = f ∧ f.fileId = i ∨ files.find? (fun g => g.fileId = i) = some g := by
  induction files with
  | nil =>
      rw [linkFile, List.find?_singleton] at h
      split at h
      · rename_i hi
        exact .inl ⟨(Option.some.inj h).symm, of_decide_eq_true hi⟩
      · cases h
  | cons c files ih =>
      rw [linkFile] at h
      split at h
      · rw [List.find?_cons] at h ⊢
        split at h
        · exact .inr h
        · exact ih h
      · rw [List.find?_cons] at h
        split at h
        · rename_i hi
          exact .inl ⟨(Option.some.inj h).symm, of_decide_eq_true hi⟩
        · exact .inr h

theorem find?_addFile {f g : CcaskFile} {files : List CcaskFile} {i : Nat}
    (h : (addFile f files).find? (fun g => g.fileId = i) = some g) :
    g = f ∧ f.fileId = i ∨ files.find? (fun g => g.fileId = i) = some g := by
  cases files with
  | nil => exact find?_linkFile h
  | cons c files =>
      rw [addFile] at h
      split at h
      · rename_i hid
        rw [List.find?_cons] at h ⊢
        split at h
        · exact .inr h
        · rename_i hi
          rw [List.find?_cons, ← hid, hi] at h
          exact .inr h
      · exact find?_linkFile h

/-- A new file whose descriptor leads where its name leads may join the list. -/
theorem Retains.addFile {f : CcaskFile} (hf : ∀ ino, f.fd = some ino →
    w.fs.dir (fileName f.fileId .data) = some ino) :
    Retains w { w with files := Model.addFile f w.files } := by
  refine Retains.of_fds (Grows.refl w.fs) (fun _ => rfl) fun i ino hi => ?_
  rw [openFd, ccaskFilesGetFile, Option.map_eq_some_iff] at hi
  obtain ⟨g, hget, hfd⟩ := hi
  obtain ⟨rfl, hid⟩ | hget := find?_addFile hget
  · rw [← hid]
    exact .inr (hf ino hfd)
  · rw [openFd, ccaskFilesGetFile, hget]
    exact .inl (congrArg some hfd)

/-- Where the descriptor of a new active file leads. -/
theorem createNewActiveDatafile_ensures (id : Nat) : Ensures (fun _ => True) (createNewActiveDatafile id) w
    (fun r v => Retains w v ∧ ∀ file, r = .ok file → ∀ ino, file.fd = some ino →
      v.fs.dir (fileName file.fileId .data) = some ino) (Retains w) := by
  have hopen := (openCreate_ensures (w := w) (fileName id .data)).mono (fun _ _ h => h)
    fun v hv => (hv ▸ refl_of Retains w : Retains w v)
  refine hopen.bind fun r v hv => ?_
  rcases hv with ⟨hr, rfl⟩ | ⟨rfl, rfl⟩
  · cases r with
    | ok ino => cases hr
    | fail e => exact Ensures.pure ⟨refl_of Retains v, fun file h => by cases h⟩
    | retry e => exact Ensures.pure ⟨refl_of Retains v, fun file h => by cases h⟩
  · refine Ensures.state_bind (Ensures.pure ⟨Retains.create w _ (by simp), fun file h ino hino => ?_⟩)
    cases h
    cases hino
    exact Fs.dir_create_self w.fs _

theorem after_retains {α : Type} {m : Sys α} {v : World} (hm : Moves Retains m) (h : Retains w v) :
    Ensures (fun _ => True) m v (fun _ u => Retains w u) (Retains w) :=
  (hm v).mono (fun _ _ hu => trans_of Retains h hu) fun _ hu => trans_of Retains h hu

theorem ccaskFilesRotate_retains : Moves Retains ccaskFilesRotate := by
  refine malloc_moves.bind fun b => ?_
  cases b with
  | false => exact Moves.pure _
  | true =>
      refine Moves.state fun w => ?_
      cases w.files with
      | nil => exact Moves.block w
      | cons head rest =>
          refine (createNewActiveDatafile_ensures _).bind fun r v hv => ?_
          obtain ⟨hv, hfile⟩ := hv
          cases r with
          | fail e => exact Ensures.pure hv
          | retry e => exact Ensures.pure hv
          | ok file =>
              refine Ensures.modify_bind (Ensures.modify_bind (Ensures.state_bind ?_))
              have hadd := Retains.addFile (f := file)
                (w := v.setFile head.fileId fun g => { g with fd := none, isActive := false }) (hfile file rfl)
              have hall := trans_of Retains hv (trans_of Retains (Retains.close v head.fileId) hadd)
              have hrest : ∀ id, Moves Retains (do
                  let _ ← attempt 5 (ccaskHintfileGenerate id)
                  pure (.ok ()) : Sys Status) := fun id =>
                (attempt_moves (ccaskHintfileGenerate_retains id)).bind fun _ => Moves.pure _
              split
              · exact after_retains (hrest _) hall
              · exact Ensures.block hall

end Calls

section Put

variable [Zlib] {w : World} {r : DatafileRecord}

/-- The bytes of a record stand in a datafile. -/
def StandsAt (r : DatafileRecord) (id pos : Nat) (fs : Fs) : Prop :=
  ∃ c, fs.read (fileName id .data) = some c ∧ r.bytes <+: c.drop pos

omit [Zlib] in
theorem StandsAt.grows {id pos : Nat} {fs fs' : Fs} (h : StandsAt r id pos fs) (hg : Grows fs fs') :
    StandsAt r id pos fs' := by
  obtain ⟨c, hread, hr⟩ := h
  obtain ⟨ino, hdir, rfl⟩ := Fs.exists_of_read hread
  have hdata := hg.data ino (fs.fresh hdir)
  refine ⟨fs'.data ino, ?_, hr.trans (hdata.drop pos)⟩
  rw [Fs.read, hg.dir id ino hdir]
  rfl

omit [Zlib] in
theorem Anchored.active {file : CcaskFile} {ino : Ino} (h : Anchored w)
    (hactive : ccaskFilesGetActiveFile w = some file) (hfd : file.fd = some ino) :
    w.fs.dir (fileName file.fileId .data) = some ino := by
  refine h file.fileId ino ?_
  obtain ⟨rest, hfiles⟩ : ∃ rest, w.files = file :: rest := List.head?_eq_some_iff.mp hactive
  rw [openFd, ccaskFilesGetFile, hfiles, List.find?_cons, decide_eq_true rfl]
  exact congrArg some hfd

omit [Zlib] in
/-- One round writes the whole record behind what stands in the active file, or is no success. -/
theorem writeRecordRound_stands (h : Anchored w) (u : Unit) :
    Ensures (fun _ => True) (writeRecordRound r u) w
      (fun res v => Retains w v ∧ (res = .inr (.ok ()) → ∃ id pos, StandsAt r id pos v.fs)) (Retains w) := by
  refine Ensures.state_bind ?_
  cases hactive : ccaskFilesGetActiveFile w with
  | none => exact Ensures.block (refl_of Retains w)
  | some file =>
      have hseek := (lseekEnd_moves (R := Eq) file.fd w).mono (fun _ _ hv => hv)
        fun v hv => (hv ▸ refl_of Retains w : Retains w v)
      refine hseek.bind fun pos v hv => ?_
      cases hv
      cases pos with
      | none => exact Ensures.pure ⟨refl_of Retains w, fun hok => by cases hok⟩
      | some pos =>
          dsimp only
          split
          · exact (ccaskFilesRotate_retains w).bind fun _ v hv => Ensures.pure ⟨hv, fun hok => by cases hok⟩
          · cases hfd : file.fd with
            | none => exact Ensures.pure ⟨refl_of Retains w, fun hok => by cases hok⟩
            | some ino =>
                have hdir := h.active hactive hfd
                have hwrite := (@safeWritev_ensures ino w r.iov (fun _ => True) (iov_fits r)
                  (by simp [DatafileRecord.iov])).mono (fun _ _ hv => hv) fun v hv => by
                    obtain ⟨p, -, rfl⟩ := hv
                    exact Retains.append w ino p
                refine hwrite.bind fun res v hv => ?_
                rcases hv with ⟨rfl, -, rfl⟩ | ⟨rfl, -, p, -, rfl⟩
                · have hstands : StandsAt r file.fileId (w.fs.data ino).length (w.append ino r.bytes).fs := by
                    refine ⟨w.fs.data ino ++ r.bytes, ?_, ?_⟩
                    · rw [World.append, Fs.read_append hdir, Function.update_self]
                    · rw [List.drop_left]
                  rw [gather_iov]
                  have happend := Retains.append w ino r.bytes
                  have hupsert := ((attempt_moves (n := 5) (ccaskKeydirUpsert_retains
                    (datafileEntry file.fileId r pos))) (w.append ino r.bytes)).mono
                    (fun _ u hu => (⟨trans_of Retains happend hu, hstands.grows hu.grows⟩ :
                      Retains w u ∧ StandsAt r file.fileId (w.fs.data ino).length u.fs))
                    fun _ hu => trans_of Retains happend hu
                  refine hupsert.bind fun res u hu => ?_
                  cases res with
                  | ok _ => exact Ensures.pure ⟨hu.1, fun _ => ⟨_, _, hu.2⟩⟩
                  | fail e => exact Ensures.pure ⟨hu.1, fun hok => by cases hok⟩
                  | retry e => exact Ensures.pure ⟨hu.1, fun hok => by cases hok⟩
                · exact Ensures.pure ⟨Retains.append w ino p, fun hok => by cases hok⟩

omit [Zlib] in
theorem ccaskWriteRecordBlocking_stands (h : Anchored w) :
    Ensures (fun _ => True) (ccaskWriteRecordBlocking r) w
      (fun res v => Retains w v ∧ (res = .ok () → ∃ id pos, StandsAt r id pos v.fs)) (Retains w) := by
  refine Ensures.loop (I := fun _ v => Retains w v) (fun u v hv => ?_) (fun _ _ hv => hv) (refl_of Retains w)
  refine (writeRecordRound_stands (hv.anchored h) u).mono (fun res x hx => ?_)
    fun x hx => trans_of Retains hv hx
  have hkeep := trans_of Retains hv hx.1
  cases res with
  | inl s => exact hkeep
  | inr b => exact ⟨hkeep, fun hok => hx.2 (congrArg Sum.inr hok)⟩

/-- A put that returns CCASK_OK has written its record, whatever else went wrong. -/
theorem ccaskPutBlocking_stands (key value : Ptr) (h : Anchored w) :
    Ensures (fun _ => True) (ccaskPutBlocking key value) w
      (fun res v => Retains w v ∧ (res = .ok () →
        ∃ id pos, StandsAt (mkRecord (UInt32.ofNat w.clock) key value) id pos v.fs)) (Retains w) := by
  refine Ensures.state_bind ?_
  split
  · exact Ensures.pure ⟨refl_of Retains w, fun hok => by cases hok⟩
  · have hcreate := ((ccaskCreateDatafileRecord_ensures (w := w) (UInt32.ofNat w.clock) key value).and
      (ccaskCreateDatafileRecord_moves (R := Eq) (UInt32.ofNat w.clock) key value w)).mono
      (fun _ _ hv => hv.1) fun v hv => (hv.2 ▸ refl_of Retains w : Retains w v)
    refine hcreate.bind fun res v hv => ?_
    obtain ⟨rfl, hr⟩ := hv
    cases res with
    | fail e => exact Ensures.pure ⟨refl_of Retains v, fun hok => by cases hok⟩
    | retry e => exact Ensures.pure ⟨refl_of Retains v, fun hok => by cases hok⟩
    | ok record =>
        obtain rfl := hr record rfl
        refine (ccaskWriteRecordBlocking_stands h).bind fun res u hu => ?_
        cases res with
        | ok _ => exact Ensures.pure ⟨hu.1, fun _ => hu.2 rfl⟩
        | fail e => exact Ensures.pure ⟨hu.1, fun hok => by cases hok⟩
        | retry e => exact Ensures.pure ⟨hu.1, fun hok => by cases hok⟩

end Put

section Processes

theorem writeRecordRound_retains (r : DatafileRecord) (u : Unit) :
    Moves Retains (writeRecordRound r u) := by
  refine Moves.state fun w => ?_
  cases ccaskFilesGetActiveFile w with
  | none => exact Moves.block w
  | some file =>
      refine (lseekEnd_moves file.fd).bind (fun pos => ?_) w
      cases pos with
      | none => exact Moves.pure _
      | some pos =>
          dsimp only
          split
          · exact ccaskFilesRotate_retains.bind fun _ => Moves.pure _
          · refine (safeWritev_moves file.fd (iov_fits r) Retains.append).bind fun res => ?_
            cases res with
            | fail e => exact Moves.pure _
            | retry e => exact Moves.pure _
            | ok u =>
                refine (attempt_moves (ccaskKeydirUpsert_retains _)).bind fun res => ?_
                cases res with
                | ok u => exact Moves.pure _
                | fail e => exact Moves.pure _
                | retry e => exact Moves.pure _

theorem ccaskWriteRecordBlocking_retains (r : DatafileRecord) :
    Moves Retains (ccaskWriteRecordBlocking r) :=
  Moves.loop (writeRecordRound_retains r) ()

theorem ccaskPutBlocking_retains [Zlib] (key value : Ptr) : Moves Retains (ccaskPutBlocking key value) := by
  refine Moves.state fun w => ?_
  split
  · exact Moves.pure _ w
  · refine (ccaskCreateDatafileRecord_moves _ _ _).bind (fun res => ?_) w
    cases res with
    | fail e => exact Moves.pure _
    | retry e => exact Moves.pure _
    | ok r =>
        refine (ccaskWriteRecordBlocking_retains r).bind fun res => ?_
        cases res with
        | ok u => exact Moves.pure _
        | fail e => exact Moves.pure _
        | retry e => exact Moves.pure _

theorem ccaskPut_retains [Zlib] (key value : Ptr) : Moves Retains (ccaskPut key value) := by
  have hpush : ∀ timestamp, Moves Retains (ccaskWriterRingbufPush timestamp key value) := by
    refine fun timestamp => Moves.state fun w => ?_
    cases w.ringbuf with
    | none => exact Moves.block w
    | some ringbuf =>
        dsimp only
        split
        · exact Moves.pure _ w
        · refine (ccaskCreateDatafileRecord_moves _ _ _).bind (fun res => ?_) w
          cases res with
          | ok record => exact modify_bind_retains (fun _ => ⟨rfl, rfl⟩) fun _ => Moves.pure _
          | fail e => exact Moves.pure _
          | retry e => exact Moves.pure _
  refine Moves.state fun w => ?_
  split
  · exact Moves.pure _ w
  · refine (attempt_moves (hpush _)).bind (fun res => ?_) w
    cases res with
    | ok u => exact Moves.pure _
    | fail e => exact Moves.pure _
    | retry e => exact Moves.pure _

theorem writerThreadRound_retains (u : Unit) : Moves Retains (writerThreadRound u) := by
  have hpop : Moves Retains ccaskWriterRingbufPop := by
    refine Moves.state fun w => ?_
    cases w.ringbuf with
    | none => exact Moves.block w
    | some ringbuf =>
        dsimp only
        split
        · split
          · exact Moves.pure _ w
          · exact Moves.block w
        · split
          · exact Moves.block w
          · exact Moves.ensures (modify_bind_retains (fun _ => ⟨rfl, rfl⟩) fun _ => Moves.pure _)
  refine hpop.bind fun res => ?_
  cases res with
  | fail e => exact Moves.pure _
  | retry e => exact Moves.pure _
  | ok r => exact (ccaskWriteRecordBlocking_retains r).bind fun _ => Moves.pure _

theorem runGenerator_retains (id : Nat) : Moves Retains (runGenerator id) := by
  refine Moves.bind ?_ fun _ => modify_retains fun _ => ⟨rfl, rfl⟩
  refine (attempt_moves (openCreate_moves _ fun w => Retains.create w _ (by simp))).bind fun res => ?_
  cases res with
  | fail e => exact Moves.pure _
  | retry e => exact Moves.pure _
  | ok fd =>
      refine (attempt_moves (iterOpen_moves _ (ccaskFilesGetDatafileFd_moves _))).bind fun res => ?_
      cases res with
      | fail e => exact Moves.pure _
      | retry e => exact Moves.pure _
      | ok iter =>
          refine Moves.bind (Moves.loop (fun s => hintfileGeneratorRound_moves fd s Retains.append) (iter, .unset))
            fun b => ?_
          cases b with
          | true => exact setFile_retains id (fun _ => rfl) fun _ => rfl
          | false =>
              have hdelete : Moves Retains (ccaskFilesDelete id .hint) :=
                ccaskFilesDelete_moves id .hint fun w => Retains.unlink w id
              exact (attempt_moves hdelete).bind fun _ => Moves.pure _

theorem joinGenerators_retains (ts : List Nat) : Moves Retains (joinGenerators ts) := by
  induction ts with
  | nil => exact Moves.pure _
  | cons t ts ih => exact (runGenerator_retains t).bind fun _ => ih

theorem ccaskShutdown_retains : Moves Retains ccaskShutdown := by
  refine modify_bind_retains (fun _ => ⟨rfl, rfl⟩) fun _ => ?_
  refine (Moves.state fun w => joinGenerators_retains _ w).bind fun _ => ?_
  refine Moves.bind ?_ fun _ => Moves.bind ?_ fun _ => Moves.modify fun w => Retains.closed rfl rfl
  · refine modify_bind_retains (fun _ => ⟨rfl, rfl⟩) fun _ => ?_
    exact (Moves.loop writerThreadRound_retains ()).bind fun _ => modify_retains fun _ => ⟨rfl, rfl⟩
  · refine Moves.state fun w => ?_
    split
    · exact Moves.block w
    · exact Moves.ensures (modify_retains fun _ => ⟨rfl, rfl⟩)

theorem ccaskGet_retains [Zlib] (key : Buf) : Moves Retains (ccaskGet key) :=
  (ccaskGet_moves ccaskReadDatafileRecord_opens key).mono fun _ _ h => Retains.opens h

end Processes

section Start

theorem scanDirectory_retains (names : List Name) : Moves Retains (scanDirectory names) := by
  have hadd : ∀ id, Moves Retains (Prog.modify fun w : World => { w with
      files := addFile (datafileNode id (w.fs.dir (fileName id .hint)).isSome w.clock) w.files }) :=
    fun id => Moves.modify fun w => Retains.addFile fun ino hino => by cases hino
  have hentry : ∀ name, Moves Retains (scanEntry name) := by
    intro name
    unfold scanEntry
    split
    · exact Moves.pure _
    · refine Moves.call fun r => ?_
      cases r with
      | transient => exact Moves.pure _
      | fail => exact Moves.pure _
      | _ =>
          dsimp only
          split
          · exact Moves.block
          · refine malloc_moves.bind fun b => ?_
            cases b with
            | true => exact hadd _
            | false => exact Moves.block
          · exact Moves.pure _
  induction names with
  | nil => exact Moves.pure _
  | cons name names ih => exact (hentry name).bind fun _ => ih

/-- A new active file joins the list. -/
theorem newActiveFile_retains (id : Nat) : Moves Retains (do
    match ← createNewActiveDatafile id with
    | .ok file =>
      Prog.modify fun w => { w with files := addFile file w.files }
      pure (.ok ())
    | .fail e | .retry e => pure (.fail e) : Sys Status) := by
  intro w
  refine (createNewActiveDatafile_ensures id).bind fun r v hv => ?_
  obtain ⟨hv, hfile⟩ := hv
  cases r with
  | fail e => exact Ensures.pure hv
  | retry e => exact Ensures.pure hv
  | ok file =>
      exact Ensures.modify_bind (Ensures.pure (trans_of Retains hv (Retains.addFile (hfile file rfl))))

theorem chooseActiveFile_retains : Moves Retains chooseActiveFile := by
  have hnew : ∀ id, Moves Retains (do
      if ← malloc then
        match ← createNewActiveDatafile id with
        | .ok file =>
          Prog.modify fun w => { w with files := addFile file w.files }
          pure (.ok ())
        | .fail e | .retry e => pure (.fail e)
      else pure (.fail (some .noMemory)) : Sys Status) := by
    refine fun id => malloc_moves.bind fun b => ?_
    cases b with
    | true => exact newActiveFile_retains id
    | false => exact Moves.pure _
  refine Moves.state fun w => ?_
  cases w.files with
  | nil => exact hnew 0 w
  | cons head rest =>
      dsimp only
      split
      · exact hnew _ w
      · have hopen := (openCreate_ensures (w := w) (fileName head.fileId .data)).mono (fun _ _ h => h)
          fun v hv => (hv ▸ refl_of Retains w : Retains w v)
        refine hopen.bind fun r v hv => ?_
        rcases hv with ⟨hr, rfl⟩ | ⟨rfl, rfl⟩
        · cases r with
          | ok ino => cases hr
          | fail e => exact Ensures.pure (refl_of Retains v)
          | retry e => exact Ensures.pure (refl_of Retains v)
        · refine Ensures.modify_bind (Ensures.pure ?_)
          refine trans_of Retains (Retains.create w (fileName head.fileId .data) (by simp)) ?_
          exact Retains.anchor (fun _ => rfl) (fun _ => rfl) (Fs.dir_create_self w.fs _)

theorem ccaskFilesInit_retains (listing : List Name) (threshold : UInt64) :
    Moves Retains (ccaskFilesInit listing threshold) := by
  have hscan : Moves Retains (do
      if ← malloc then
        Prog.modify fun w => { w with files := [] }
        scanDirectory listing
        chooseActiveFile
      else pure (.retry (some .noMemory)) : Sys Status) := by
    refine malloc_moves.bind fun b => ?_
    cases b with
    | false => exact Moves.pure _
    | true =>
        have hclear : Moves Retains (Prog.modify fun w : World => { w with files := [] }) :=
          Moves.modify fun w => Retains.closed rfl rfl
        exact hclear.bind fun _ => (scanDirectory_retains listing).bind fun _ => chooseActiveFile_retains
  refine modify_bind_retains (fun _ => ⟨rfl, rfl⟩) fun _ => Moves.call fun r => ?_
  cases r with
  | done n => exact hscan
  | intr => exact hscan
  | transient => exact Moves.pure _
  | fail => exact Moves.pure _

theorem ccaskHintfileIterNext_moves {R : World → World → Prop} [Std.Refl R] [IsTrans World R] (iter : Iter) :
    Moves R (ccaskHintfileIterNext iter) := by
  unfold ccaskHintfileIterNext
  split
  · exact Moves.pure _
  · refine malloc_moves.bind fun b => ?_
    cases b with
    | false => exact Moves.pure _
    | true =>
        refine (safePread_moves _ _ _).bind fun r => ?_
        cases r with
        | fail e => exact Moves.pure _
        | retry e => exact Moves.pure _
        | ok header =>
            refine malloc_moves.bind fun b => ?_
            cases b with
            | false => exact Moves.pure _
            | true =>
                refine (safePreadv_moves _ _ ?_ ?_).bind fun r => ?_
                · intro v hv
                  obtain rfl := List.mem_singleton.mp hv
                  exact of_fits _
                · intro v hv
                  obtain rfl := List.mem_singleton.mp hv
                  rfl
                · cases r with
                  | fail e => exact Moves.pure _
                  | retry e => exact Moves.pure _
                  | ok bufs =>
                      split
                      · exact Moves.pure _
                      · exact Moves.block
                      · exact Moves.pure _
                      · exact Moves.pure _

theorem recoverFiles_retains (files : List CcaskFile) :
    Moves Retains (recoverFiles ccaskKeydirUpsert files) := by
  have hdata : ∀ id, Moves Retains (recoverDatafile ccaskKeydirUpsert id) := by
    refine fun id => (attempt_moves (iterOpen_moves _ (ccaskFilesGetDatafileFd_moves _))).bind fun res => ?_
    cases res with
    | fail e => exact Moves.pure _
    | retry e => exact Moves.pure _
    | ok iter =>
        refine Moves.loop (fun iter => (ccaskDatafileIterNext_moves iter).bind fun res => ?_) iter
        cases res with
        | fail e => exact Moves.pure _
        | retry e => exact Moves.pure _
        | ok p =>
            refine (attempt_moves (ccaskKeydirUpsert_retains _)).bind fun res => ?_
            cases res <;> exact Moves.pure _
  have hhint : ∀ id, Moves Retains (recoverHintfile ccaskKeydirUpsert id) := by
    refine fun id => (attempt_moves (iterOpen_moves _ (openCreate_moves _ fun w =>
      Retains.create w _ (by simp)))).bind fun res => ?_
    cases res with
    | fail e => exact Moves.pure _
    | retry e => exact Moves.pure _
    | ok iter =>
        refine Moves.loop (fun iter => (ccaskHintfileIterNext_moves iter).bind fun res => ?_) iter
        cases res with
        | fail e => exact Moves.pure _
        | retry e => exact Moves.pure _
        | ok p =>
            refine (attempt_moves (ccaskKeydirUpsert_retains _)).bind fun res => ?_
            cases res <;> exact Moves.pure _
  induction files with
  | nil => exact Moves.pure _
  | cons file files ih =>
      have hfile : Moves Retains (if file.hasHint then recoverHintfile ccaskKeydirUpsert file.fileId
          else recoverDatafile ccaskKeydirUpsert file.fileId) := by
        split
        · exact hhint file.fileId
        · exact hdata file.fileId
      rw [recoverFiles]
      refine hfile.bind fun res => ?_
      cases res with
      | ok u => exact ih
      | fail e => exact Moves.pure _
      | retry e => exact Moves.pure _

theorem ccaskInit_retains (opts : CcaskOptions) : Moves Retains (ccaskInit opts) := by
  have hkeydir : Moves Retains ccaskKeydirInit :=
    modify_bind_retains (fun _ => ⟨rfl, rfl⟩) fun _ => Moves.state fun w => recoverFiles_retains _ w
  have hstart : Moves Retains (ccaskWriterStart opts.writerRingbufCapacity) := by
    refine Moves.bind ((mallocAll_moves 2).bind fun res => ?_) fun res => ?_
    · cases res with
      | ok u => exact modify_bind_retains (fun _ => ⟨rfl, rfl⟩) fun _ => Moves.pure _
      | fail e => exact Moves.pure _
      | retry e => exact Moves.pure _
    · cases res with
      | fail e => exact Moves.pure _
      | retry e => exact Moves.pure _
      | ok u =>
          have hundo : Moves Retains (do
              ccaskWriterRingbufDestroy
              pure (.fail (some .couldntStartThread)) : Sys Status) :=
            modify_bind_retains (fun _ => ⟨rfl, rfl⟩) fun _ => Moves.pure _
          refine Moves.call fun r => ?_
          cases r with
          | done n => exact Moves.pure _
          | intr => exact Moves.pure _
          | transient => exact hundo
          | fail => exact hundo
  have hclear : Moves Retains ccaskFilesShutdown := Moves.modify fun w => Retains.closed rfl rfl
  have hfiles : Moves Retains (do
      ccaskFilesShutdown
      pure (.fail none) : Sys Status) := hclear.bind fun _ => Moves.pure _
  have hboth : Moves Retains (do
      ccaskKeydirShutdown
      ccaskFilesShutdown
      pure (.fail none) : Sys Status) := by
    refine Moves.bind (Moves.state fun w => ?_) fun _ => hfiles
    split
    · exact Moves.block w
    · exact Moves.ensures (modify_retains fun _ => ⟨rfl, rfl⟩)
  refine modify_bind_retains (fun _ => ⟨rfl, rfl⟩) fun _ => ?_
  refine (attempt_moves (ccaskFilesInit_retains _ _)).bind fun res => ?_
  cases res with
  | fail e => exact Moves.pure _
  | retry e => exact Moves.pure _
  | ok u =>
      refine (attempt_moves hkeydir).bind fun res => ?_
      cases res with
      | fail e => exact hfiles
      | retry e => exact hfiles
      | ok u =>
          refine (attempt_moves hstart).bind fun res => ?_
          cases res with
          | fail e => exact hboth
          | retry e => exact hboth
          | ok u => exact modify_bind_retains (fun _ => ⟨rfl, rfl⟩) fun _ => Moves.pure _

end Start

section Runs

variable [Zlib] {w v u : World}

/-- A call that a process makes, under any replies; it may come to its end or be cut short. -/
inductive Op where
  | init (opts : CcaskOptions)
  | get (key : Buf)
  | putBlocking (key value : Ptr)
  | deleteBlocking (key : Ptr)
  | put (key value : Ptr)
  | delete (key : Ptr)
  | writer
  | generator (id : Nat)
  | listKeys
  | shutdown

def Op.after (rs : List Reply) (w : World) : Op → World
  | init opts => ((ccaskInit opts).run rs w).state
  | get key => ((ccaskGet key).run rs w).state
  | putBlocking key value => ((ccaskPutBlocking key value).run rs w).state
  | deleteBlocking key => ((ccaskDeleteBlocking key).run rs w).state
  | put key value => ((ccaskPut key value).run rs w).state
  | delete key => ((ccaskDelete key).run rs w).state
  | writer => ((writerThreadRound ()).run rs w).state
  | generator id => ((runGenerator id).run rs w).state
  | listKeys => (ccaskListKeys.run rs w).state
  | shutdown => (ccaskShutdown.run rs w).state

/-- A call, a descriptor that is closed for being idle, the clock, or the next process: it has the
directory and no open file. -/
inductive Happens : World → World → Prop
  | call {w : World} (c : Op) (rs : List Reply) : Happens w (c.after rs w)
  | invalidate {w : World} (id : Nat) : Happens w (datafileFdInvalidate id w)
  | tick {w : World} (now : Nat) : Happens w { w with clock := now }
  | process {w v : World} : v.fs = w.fs → v.files = [] → Happens w v

omit [Zlib] in
theorem Retains.invalidate (id : Nat) (w : World) : Retains w (datafileFdInvalidate id w) := by
  refine of_fds (Grows.refl w.fs) (fun _ => rfl) fun i ino hi => .inl ?_
  rcases openFd_invalidate id i w with hsame | ⟨-, hclosed, -⟩
  · exact hsame.symm.trans hi
  · rw [hclosed] at hi
    cases hi

omit [Zlib] in
theorem retains_state {α : Type} {m : Sys α} (h : Moves Retains m) (rs : List Reply) (w : World) :
    Retains w (m.run rs w).state := by
  cases hrun : m.run rs w with
  | returned a rest v => exact (h w).returned (fun _ _ => trivial) hrun
  | pending v => exact (h w).pending (fun _ _ => trivial) hrun

theorem Happens.retains (h : Happens w v) : Retains w v := by
  cases h with
  | call c rs =>
      cases c with
      | init opts => exact retains_state (ccaskInit_retains opts) rs w
      | get key => exact retains_state (ccaskGet_retains key) rs w
      | putBlocking key value => exact retains_state (ccaskPutBlocking_retains key value) rs w
      | deleteBlocking key => exact retains_state (ccaskPutBlocking_retains key none) rs w
      | put key value => exact retains_state (ccaskPut_retains key value) rs w
      | delete key => exact retains_state (ccaskPut_retains key none) rs w
      | writer => exact retains_state (writerThreadRound_retains ()) rs w
      | generator id => exact retains_state (runGenerator_retains id) rs w
      | listKeys =>
          have hkeys : Moves Retains ccaskListKeys := by
            refine malloc_moves.bind fun b => ?_
            cases b with
            | false => exact Moves.pure _
            | true =>
                have hiter : Moves Retains ccaskKeydirRecordIter :=
                  modify_bind_retains (fun _ => ⟨rfl, rfl⟩) fun _ => Moves.state fun w => Moves.pure _ w
                exact hiter.bind fun _ => modify_bind_retains (fun _ => ⟨rfl, rfl⟩) fun _ => Moves.pure _
          exact retains_state hkeys rs w
      | shutdown => exact retains_state ccaskShutdown_retains rs w
  | invalidate id => exact Retains.invalidate id w
  | tick now => exact Retains.of_memory rfl rfl
  | process hfs hfiles => exact Retains.closed hfs hfiles

/-- Any number of calls of any number of processes. -/
theorem retains_of_runs (h : Relation.ReflTransGen Happens w v) : Retains w v := by
  induction h with
  | refl => exact refl_of Retains w
  | tail _ hstep ih => exact trans_of Retains ih hstep.retains

/-- In every run that starts with a process without open files and makes no compaction, whatever the system
answers and wherever processes die: the record of a put that returned CCASK_OK stands in a datafile, and
there it stands in every state that is reached later. -/
theorem acknowledged_put_stays {w₀ : World} (hnew : w₀.files = []) (hw : Relation.ReflTransGen Happens w₀ w)
    {key value : Ptr} {rs rest : List Reply}
    (hrun : (ccaskPutBlocking key value).run rs w = .returned (.ok ()) rest v) :
    ∃ id pos, ∀ u, Relation.ReflTransGen Happens v u →
      StandsAt (mkRecord (UInt32.ofNat w.clock) key value) id pos u.fs := by
  have hempty : Anchored w₀ := by
    intro i ino hi
    rw [openFd, ccaskFilesGetFile, hnew] at hi
    cases hi
  have hanchored := (retains_of_runs hw).anchored hempty
  obtain ⟨-, hstands⟩ := (ccaskPutBlocking_stands key value hanchored).returned (fun _ _ => trivial) hrun
  obtain ⟨id, pos, hat⟩ := hstands rfl
  exact ⟨id, pos, fun u hu => hat.grows (retains_of_runs hu).grows⟩

end Runs

section Sample

/-- The record of a put is there for the next process. -/
theorem acknowledged_put_stays_one : letI := zlib
    ∃ id pos, StandsAt (mkRecord 0 (bytePut 0 97 98).key (bytePut 0 97 98).value) id pos
      (World.boot writtenWorld.fs 5).fs := by
  let _ := zlib
  have hinit : (Op.init emptyOptions).after (List.replicate 9 (.done 0)) (World.boot Fs.empty 0) =
      startedWorld := by
    rw [Op.after, init_startedWorld]
    rfl
  have hstart : Happens (World.boot Fs.empty 0) startedWorld := hinit ▸ .call _ _
  obtain ⟨id, pos, hstands⟩ := acknowledged_put_stays rfl (.single hstart) put_writtenWorld
  exact ⟨id, pos, hstands _ (.single (.process rfl rfl))⟩

end Sample

end Ccask.Audit
