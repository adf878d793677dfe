import Ccask.Audit.AppendOnly
import Ccask.Audit.Recovery
import Ccask.Audit.Mount
import Ccask.Effect.Pool
import Ccask.Model.Sections

/-!
# Readers and the threads that close descriptors

A reader gives the lock of a file back between opening it and reading, and the descriptor
invalidator makes its test before it takes the lock. Both gaps let a descriptor be closed under a
reader.
-/

namespace Ccask.Audit

open Ccask.Effect Ccask.Model

theorem getFile_setFile {w : World} (id i : Nat) {F : CcaskFile → CcaskFile}
    (hF : ∀ f, (F f).fileId = f.fileId) : ccaskFilesGetFile i (w.setFile id F) =
      if i = id then (ccaskFilesGetFile i w).map F else ccaskFilesGetFile i w := by
  show (w.files.map fun file => if file.fileId = id then F file else file).find?
    (fun file => file.fileId = i) = _
  rw [List.find?_map]
  have hkey : ((fun file => decide (CcaskFile.fileId file = i)) ∘
      fun file => if file.fileId = id then F file else file) = fun file => decide (file.fileId = i) := by
    funext f
    show decide ((if f.fileId = id then F f else f).fileId = i) = _
    split
    · rw [hF]
    · rfl
  rw [hkey]
  cases hget : w.files.find? fun file => decide (file.fileId = i) with
  | none =>
      have hnone : ccaskFilesGetFile i w = none := hget
      rw [hnone]
      split <;> rfl
  | some f =>
      have hsome : ccaskFilesGetFile i w = some f := hget
      have hfid : f.fileId = i := by simpa using List.find?_some hget
      rw [hsome, Option.map_some, hfid]
      split <;> rfl

section Sequential

/-- The sections of a reader one after another are `ccask_read_datafile_record`. -/
theorem ccaskReadDatafileRecord_sections (fileId : Nat) (record : DatafileRecord) (recordPos : Nat) :
    ccaskReadDatafileRecord fileId record recordPos = (do
      match ← readCheck fileId with
      | .fail e | .retry e => pure (.fail e)
      | .ok needsOpen =>
        match ← (if needsOpen then readOpen fileId else pure (.ok ())) with
        | .fail e | .retry e => pure (.fail e)
        | .ok () => readTransfer fileId record recordPos) := by
  apply Prog.ext_run
  intro rs w
  cases hget : ccaskFilesGetFile fileId w with
  | none =>
      simp only [ccaskReadDatafileRecord, readCheck, bind_assoc]
      rw [Prog.run_state_bind, Prog.run_state_bind, hget]
      rfl
  | some file =>
      simp only [ccaskReadDatafileRecord, readCheck, bind_assoc]
      rw [Prog.run_state_bind, Prog.run_state_bind, hget]
      cases hfd : file.fd.isNone with
      | false => simp only [hfd]; rfl
      | true =>
          have hopen : (readOpen fileId).run rs w = (openForRead file).run rs w := by
            rw [readOpen, Prog.run_state_bind, hget]
            simp only [hfd]
            rfl
          simp only [hfd, if_true, pure_bind]
          rw [Prog.run_bind, Prog.run_bind, hopen]
          rfl

theorem setFile_congr {w : World} {id : Nat} {F G : CcaskFile → CcaskFile}
    (h : ∀ f ∈ w.files, f.fileId = id → F f = G f) : w.setFile id F = w.setFile id G := by
  unfold World.setFile
  congr 1
  apply List.map_congr_left
  intro f hf
  split
  · exact h f hf ‹_›
  · rfl

theorem setFile_id {w : World} {id : Nat} : w.setFile id (fun f => f) = w := by
  simp [World.setFile]

/-- A test and, when it is passed, the close behind it are the invalidation of an idle descriptor. -/
theorem invalidator_sections {w : World} (fileId : Nat) (h : (ids w).Nodup) :
    Computes (do if ← invalidatorTest fileId then invalidatorClose fileId) w ()
      (datafileFdInvalidate fileId w) := by
  cases hget : ccaskFilesGetFile fileId w with
  | none =>
      have hnone : ∀ f ∈ w.files, f.fileId ≠ fileId := by simpa using List.find?_eq_none.mp hget
      have hsame : datafileFdInvalidate fileId w = w := by
        rw [datafileFdInvalidate, setFile_congr (G := fun f => f) fun f hf hid =>
          absurd hid (hnone f hf), setFile_id]
      have htest : Computes (invalidatorTest fileId) w false w := by
        refine Computes.state_bind ?_
        rw [hget]
        exact Computes.pure _
      rw [hsame]
      exact htest.bind (Computes.pure _)
  | some file =>
      have honly : ∀ f ∈ w.files, f.fileId = fileId → f = file := by
        have hfid : file.fileId = fileId := by simpa using List.find?_some hget
        intro f hf hid
        exact List.inj_on_of_nodup_map h hf (List.mem_of_find?_eq_some hget) (hid.trans hfid.symm)
      have htest : Computes (invalidatorTest fileId) w (decide (file.isFdInvalidatorRunning ∧
          ¬ file.isActive ∧ file.fd.isSome ∧ 5 ≤ w.clock - file.lastAccessed)) w := by
        refine Computes.state_bind ?_
        rw [hget]
        exact Computes.pure _
      refine htest.bind ?_
      unfold datafileFdInvalidate
      split
      · rename_i hpass
        rw [setFile_congr (G := fun f => { f with fd := none, isFdInvalidatorRunning := false })]
        · exact Computes.modify _
        · intro f hf hid
          rw [honly f hf hid, if_pos (of_decide_eq_true hpass)]
      · rename_i hfail
        rw [setFile_congr (G := fun f => f), setFile_id]
        · exact Computes.pure _
        · intro f hf hid
          rw [honly f hf hid, if_neg (fun hpass => hfail (decide_eq_true hpass))]

end Sequential

section Descriptors

variable {w v : World} {id : Nat} {ino : Ino}

/-- The descriptor of a file that the process knows. -/
def openFd (id : Nat) (w : World) : Option (Option Ino) := (ccaskFilesGetFile id w).map CcaskFile.fd

theorem openFd_setFile (id i : Nat) {F : CcaskFile → CcaskFile} (hF : ∀ f, (F f).fileId = f.fileId)
    (hfd : ∀ f, (F f).fd = f.fd) : openFd i (w.setFile id F) = openFd i w := by
  rw [openFd, openFd, getFile_setFile id i hF]
  split
  · cases ccaskFilesGetFile i w with
    | none => rfl
    | some f =>
        show some (F f).fd = some f.fd
        rw [hfd]
  · rfl

theorem openFd_setFd (id i : Nat) {F : CcaskFile → CcaskFile} (hF : ∀ f, (F f).fileId = f.fileId)
    {fd : Option Ino} (hfd : ∀ f, (F f).fd = fd) :
    openFd i (w.setFile id F) = if i = id then (openFd i w).map fun _ => fd else openFd i w := by
  rw [openFd, openFd, getFile_setFile id i hF]
  split
  · cases ccaskFilesGetFile i w with
    | none => rfl
    | some f =>
        show some (F f).fd = some fd
        rw [hfd]
  · rfl

theorem setFile_setFile {F G : CcaskFile → CcaskFile} (hF : ∀ f, (F f).fileId = f.fileId) :
    (w.setFile id F).setFile id G = w.setFile id fun f => G (F f) := by
  simp only [World.setFile, List.map_map]
  congr 1
  apply List.map_congr_left
  intro f hf
  show (if (if f.fileId = id then F f else f).fileId = id then _ else _) = _
  by_cases hid : f.fileId = id
  · simp only [hid, if_true, hF]
  · simp only [hid, if_false]

theorem fileId_of_shape {F : CcaskFile → CcaskFile} (hF : ∀ f, shape (F f) = shape f) (f : CcaskFile) :
    (F f).fileId = f.fileId :=
  congrArg Prod.fst (hF f)

/-- The state after an invalidator has closed a file. -/
def closedFd (w : World) (id : Nat) : World :=
  w.setFile id fun file => { file with fd := none, isFdInvalidatorRunning := false }

/-- What the section of a thread in local state `t` leaves, with the descriptors of a reader that
opens a file and of an invalidator that closes one. -/
inductive Leaves (t : ReadThread) (w : World) : World → Prop
  | same : Leaves t w w
  | accessed (id : Nat) : Leaves t w (w.setFile id fun f => { f with lastAccessed := w.clock })
  | opened {id : Nat} {ino : Ino} {F : CcaskFile → CcaskFile} :
      w.fs.dir (fileName id .data) = some ino → openFd id w = some none →
      (∀ f, shape (F f) = shape f) → (∀ f, (F f).fd = some ino) → Leaves t w (w.setFile id F)
  | closed (id : Nat) : t = .closing id → Leaves t w (closedFd w id)
  | tick (now : Nat) : Leaves t w { w with clock := now }

namespace Leaves

variable {t : ReadThread}

theorem fs (h : Leaves t w v) : v.fs = w.fs := by
  cases h <;> rfl

/-- A descriptor is as before, is newly opened, or is closed by an invalidator. -/
theorem fds (h : Leaves t w v) (i : Nat) : openFd i v = openFd i w ∨
    (openFd i w = some none ∧ openFd i v = some (w.fs.dir (fileName i .data))) ∨
    (t = .closing i ∧ openFd i v = (openFd i w).map fun _ => none) := by
  cases h with
  | same => exact .inl rfl
  | accessed id => exact .inl (openFd_setFile id i (fun _ => rfl) fun _ => rfl)
  | tick now => exact .inl rfl
  | opened hdir hclosed hF hfd =>
      rw [openFd_setFd _ i (fileId_of_shape hF) hfd]
      split
      · rename_i hi
        subst hi
        rw [hclosed, hdir]
        exact .inr (.inl ⟨rfl, rfl⟩)
      · exact .inl rfl
  | closed id ht =>
      rw [closedFd, openFd_setFd id i
        (F := fun file => { file with fd := none, isFdInvalidatorRunning := false }) (fun _ => rfl)
        fun _ => rfl]
      split
      · rename_i hi
        subst hi
        exact .inr (.inr ⟨ht, rfl⟩)
      · exact .inl rfl

/-- A descriptor that is open stays, unless an invalidator closes it. -/
theorem keeps (h : Leaves t w v) (ht : t ≠ .closing id) (hopen : openFd id w = some (some ino)) :
    openFd id v = some (some ino) := by
  obtain hv | ⟨hv, -⟩ | ⟨hc, -⟩ := h.fds id
  · rw [hv, hopen]
  · rw [hopen] at hv
    cases hv
  · exact absurd hc ht

end Leaves

/-- A file with a datafile of this inode, whose descriptor is closed or one on it. -/
structure OnFile (w : World) (id : Nat) (ino : Ino) : Prop where
  dir : w.fs.dir (fileName id .data) = some ino
  fd : openFd id w = some none ∨ openFd id w = some (some ino)

theorem OnFile.leaves {t : ReadThread} (h : OnFile w id ino) (hl : Leaves t w v) : OnFile v id ino := by
  refine ⟨by rw [hl.fs]; exact h.dir, ?_⟩
  obtain hv | ⟨-, hv⟩ | ⟨-, hv⟩ := hl.fds id
  · rw [hv]
    exact h.fd
  · rw [hv, h.dir]
    exact .inr rfl
  · obtain hold | hold := h.fd <;> rw [hv, hold] <;> exact .inl rfl

theorem OnFile.known (h : OnFile w id ino) : ∃ file, ccaskFilesGetFile id w = some file ∧
    (file.fd = none ∨ file.fd = some ino) := by
  have hfd := h.fd
  unfold openFd at hfd
  cases hget : ccaskFilesGetFile id w with
  | none =>
      rw [hget] at hfd
      obtain hfd | hfd := hfd <;> cases hfd
  | some file =>
      rw [hget] at hfd
      exact ⟨file, rfl, by simpa using hfd⟩

end Descriptors

section Sections

variable {w : World} {id pos : Nat} {ino : Ino} {record : DatafileRecord}

/-- Whether the file has to be opened. -/
theorem readCheck_computes {file : CcaskFile} (h : ccaskFilesGetFile id w = some file) :
    Computes (readCheck id) w (.ok file.fd.isNone) w := by
  refine Computes.state_bind ?_
  rw [h]
  exact Computes.pure _

theorem readCheck_moves {R : World → World → Prop} [Std.Refl R] : Moves R (readCheck id) := by
  refine Moves.state fun w => ?_
  cases ccaskFilesGetFile id w with
  | none => exact Ensures.pure (refl_of R w)
  | some file => exact Ensures.pure (refl_of R w)

/-- What follows the open of a descriptor. -/
def startInvalidator (file : CcaskFile) : Sys Status := do
  if file.isFdInvalidatorRunning then pure (.ok ())
  else
    match ← Prog.call with
    | .transient | .fail => pure (.ok ())
    | .done _ | .intr =>
      Prog.modify fun w => w.setFile file.fileId fun f => { f with isFdInvalidatorRunning := true }
      pure (.ok ())

theorem openForRead_eq (file : CcaskFile) : openForRead file = (do
    match ← attempt 5 (ccaskFilesGetDatafileFd file.fileId) with
    | .fail e | .retry e => pure (.fail e)
    | .ok ino =>
      Prog.modify fun w => w.setFile file.fileId fun f => { f with fd := some ino }
      startInvalidator file) := rfl

/-- The thread could be started, or it could not; the file is open all the same. -/
theorem startInvalidator_ensures (file : CcaskFile) :
    Ensures (fun _ => True) (startInvalidator file) w
      (fun r v => r = .ok () ∧ (v = w ∨
        v = w.setFile file.fileId fun f => { f with isFdInvalidatorRunning := true }))
      (fun v => v = w) := by
  unfold startInvalidator
  split
  · exact Ensures.pure ⟨rfl, .inl rfl⟩
  · refine Ensures.call_bind rfl fun r _ => ?_
    cases r with
    | done n => exact Ensures.modify_bind (Ensures.pure ⟨rfl, .inr rfl⟩)
    | intr => exact Ensures.modify_bind (Ensures.pure ⟨rfl, .inr rfl⟩)
    | transient => exact Ensures.pure ⟨rfl, .inl rfl⟩
    | fail => exact Ensures.pure ⟨rfl, .inl rfl⟩

/-- An open that gives a descriptor gives one on the datafile. -/
theorem ccaskFilesGetDatafileFd_ensures : Ensures (fun _ => True) (attempt 5 (ccaskFilesGetDatafileFd id)) w
    (fun r v => v = w ∧ ∀ ino, r = .ok ino → w.fs.dir (fileName id .data) = some ino)
    (fun v => v = w) := by
  refine attempt_ensures (I := fun v => v = w) rfl (fun e v hv => ⟨hv, by simp⟩) ?_
  rintro v rfl
  refine Ensures.call_bind rfl fun r _ => ?_
  rcases r with n | _ | _ | _
  case transient => exact Ensures.pure rfl
  case fail => exact Ensures.pure ⟨rfl, by simp⟩
  all_goals
    refine Ensures.state_bind ?_
    cases hdir : v.fs.dir (fileName id .data) with
    | none => exact Ensures.pure ⟨rfl, by simp⟩
    | some ino => exact Ensures.pure ⟨rfl, fun i hi => by cases hi; rfl⟩

/-- Under the write lock a file that is closed is opened, or nothing happens. -/
theorem readOpen_ensures (t : ReadThread) :
    Ensures (fun _ => True) (readOpen id) w (fun _ v => Leaves t w v) (Leaves t w) := by
  refine Ensures.state_bind ?_
  cases hget : ccaskFilesGetFile id w with
  | none => exact Ensures.block .same
  | some file =>
      simp only
      split
      · rename_i hclosed
        have hfid : file.fileId = id := by simpa using List.find?_some hget
        have hfd : openFd id w = some none := by
          rw [openFd, hget, Option.map_some, Option.isNone_iff_eq_none.mp hclosed]
        rw [openForRead_eq, hfid]
        refine (ccaskFilesGetDatafileFd_ensures.mono (fun _ _ h => h) fun v hv => hv ▸ .same).bind ?_
        rintro r v ⟨rfl, hr⟩
        cases r with
        | fail e => exact Ensures.pure .same
        | retry e => exact Ensures.pure .same
        | ok ino =>
            have hopened : Leaves t v (v.setFile id fun f => { f with fd := some ino }) :=
              .opened (hr ino rfl) hfd (fun _ => rfl) fun _ => rfl
            refine Ensures.modify_bind ((startInvalidator_ensures file).mono ?_ ?_)
            · rintro r u ⟨-, rfl | rfl⟩
              · exact hopened
              · rw [hfid, setFile_setFile (F := fun f => { f with fd := some ino }) fun _ => rfl]
                exact .opened (hr ino rfl) hfd (fun _ => rfl) fun _ => rfl
            · rintro u rfl
              exact hopened
      · exact Ensures.pure .same

/-- A read leaves the time of the access. -/
theorem readTransfer_accesses : Ensures (fun _ => True) (readTransfer id record pos) w
    (fun _ v => v = w.setFile id fun f => { f with lastAccessed := w.clock }) (fun v => v = w) := by
  refine Ensures.state_bind ?_
  refine ((safePreadv_moves (R := Eq) _ _ (iov_fits record) (iov_fresh record)).ensures.mono
    (fun _ _ h => h) fun v hv => hv.symm).bind ?_
  rintro r v rfl
  split
  · exact Ensures.modify_bind (Ensures.pure rfl)
  · exact Ensures.block rfl
  · exact Ensures.modify_bind (Ensures.pure rfl)
  · exact Ensures.modify_bind (Ensures.pure rfl)

theorem readTransfer_ensures (t : ReadThread) :
    Ensures (fun _ => True) (readTransfer id record pos) w (fun _ v => Leaves t w v) (Leaves t w) :=
  readTransfer_accesses.mono (fun _ _ hv => hv ▸ .accessed id) fun _ hv => hv ▸ .same

theorem invalidatorTest_moves {R : World → World → Prop} [Std.Refl R] :
    Moves R (invalidatorTest id) := by
  refine Moves.state fun w => ?_
  cases ccaskFilesGetFile id w with
  | none => exact Ensures.pure (refl_of R w)
  | some file => exact Ensures.pure (refl_of R w)

end Sections

section Target

variable {w v : World} {id pos : Nat} {ino : Ino} {buffers r : DatafileRecord}

/-- A record with a value stands at a position of a file, and the buffers have the sizes of its parts. -/
structure RecordAt (w : World) (ino : Ino) (buffers : DatafileRecord) (pos : Nat) (r : DatafileRecord) :
    Prop where
  bytes : ∃ pre post, w.fs.data ino = pre ++ r.bytes ++ post ∧ pos = pre.length
  value : r.value ≠ []
  sizes : buffers.header.length = r.header.length ∧ buffers.key.length = r.key.length ∧
    buffers.value.length = r.value.length

theorem RecordAt.congr (h : RecordAt w ino buffers pos r) (hfs : v.fs = w.fs) :
    RecordAt v ino buffers pos r :=
  ⟨by rw [hfs]; exact h.bytes, h.value, h.sizes⟩

/-- A read through a descriptor on the file gives the record. -/
theorem readTransfer_computes (h : RecordAt w ino buffers pos r)
    (hfd : openFd id w = some (some ino)) : ∃ v, Computes (readTransfer id buffers pos) w (.ok r) v := by
  obtain ⟨pre, post, hdata, rfl⟩ := h.bytes
  obtain ⟨hheader, hkey, hvalue⟩ := h.sizes
  have hne : buffers.value ≠ [] := by
    rw [← List.length_pos_iff, hvalue, List.length_pos_iff]
    exact h.value
  have htotal : ccaskGetDatafileRecordTotalSize buffers = r.bytes.length := by
    rw [bytes_length, ccaskGetDatafileRecordTotalSize, ccaskGetDatafileRecordTotalSize, hheader, hkey,
      hvalue]
  have hread := safePreadv_computes (iov_fits buffers) (iov_fresh buffers) ((iov_last buffers).mpr hne)
    (show pre.length + wanted buffers.iov ≤ (w.fs.data ino).length by
      rw [wanted_iov, htotal, hdata]
      simp)
  have hbytes : ((w.fs.data ino).drop pre.length).take (wanted buffers.iov) = r.bytes := by
    rw [wanted_iov, htotal, hdata, List.append_assoc, List.drop_left, List.take_left]
  have hlens : buffers.iov.map (fun v => v.buf.length) = [r.header, r.key, r.value].map List.length := by
    show [buffers.header.length, buffers.key.length, buffers.value.length] = _
    rw [hheader, hkey, hvalue]
    rfl
  have hchunks : chunks ([r.header, r.key, r.value].map List.length) r.bytes =
      [r.header, r.key, r.value] := by
    have hparts := chunks_flatten [r.header, r.key, r.value]
    rwa [List.flatten_cons, List.flatten_cons, List.flatten_cons, List.flatten_nil, List.append_nil,
      ← List.append_assoc] at hparts
  rw [hbytes, hlens, hchunks] at hread
  have hget : (ccaskFilesGetFile id w).bind CcaskFile.fd = some ino := by
    cases hf : ccaskFilesGetFile id w with
    | none =>
        rw [openFd, hf] at hfd
        cases hfd
    | some file =>
        rw [openFd, hf] at hfd
        exact Option.some.inj hfd
  refine ⟨w.setFile id fun f => { f with lastAccessed := w.clock }, Computes.state_bind ?_⟩
  rw [hget]
  exact hread.bind (Computes.modify_bind (Computes.pure _))

/-- One try is enough when the first answer is no error. -/
theorem ccaskFilesGetDatafileFd_run {a : Reply} (ha : a.Clean) (rs : List Reply)
    (hdir : w.fs.dir (fileName id .data) = some ino) :
    (attempt 5 (ccaskFilesGetDatafileFd id)).run (a :: rs) w = .returned (.ok ino) rs w := by
  have hopen : (ccaskFilesGetDatafileFd id).run (a :: rs) w = .returned (.ok ino) rs w := by
    cases a with
    | transient => exact ha.elim
    | fail => exact ha.elim
    | done n =>
        rw [ccaskFilesGetDatafileFd, Prog.run_call_bind]
        simp only
        rw [Prog.run_state_bind, hdir]
        rfl
    | intr =>
        rw [ccaskFilesGetDatafileFd, Prog.run_call_bind]
        simp only
        rw [Prog.run_state_bind, hdir]
        rfl
  unfold attempt
  rw [Prog.run_bind_returned hopen]
  rfl

/-- After its open section a reader has a descriptor on the file. -/
theorem readOpen_opened (h : OnFile w id ino) {rs rest : List Reply} {res : Status}
    (hrs : ∀ a, rs.head? = some a → a.Clean) (hrun : (readOpen id).run rs w = .returned res rest v) :
    res = .ok () ∧ openFd id v = some (some ino) := by
  obtain ⟨file, hget, hfd⟩ := h.known
  have hfid : file.fileId = id := by simpa using List.find?_some hget
  have hbody : (readOpen id).run rs w =
      (if file.fd.isNone then openForRead file else pure (.ok ()) : Sys Status).run rs w := by
    rw [readOpen, Prog.run_state_bind, hget]
  rw [hbody] at hrun
  obtain hclosed | hopen := hfd
  · rw [hclosed, openForRead_eq, hfid] at hrun
    cases rs with
    | nil => cases hrun
    | cons a rs =>
        have hfirst := ccaskFilesGetDatafileFd_run (hrs a rfl) rs h.dir
        change ((attempt 5 (ccaskFilesGetDatafileFd id)) >>= _).run (a :: rs) w = _ at hrun
        rw [Prog.run_bind_returned hfirst] at hrun
        have hstarted := (Ensures.modify_bind (startInvalidator_ensures file)).returned
          (fun _ _ => trivial) hrun
        have hfd : openFd id (w.setFile id fun f => { f with fd := some ino }) = some (some ino) := by
          rw [openFd_setFd id id (F := fun f => { f with fd := some ino }) (fun _ => rfl) fun _ => rfl,
            if_pos rfl, openFd, hget]
          rfl
        refine ⟨hstarted.1, ?_⟩
        obtain hsame | hmarked := hstarted.2
        · rw [hsame]
          exact hfd
        · rw [hmarked, openFd_setFile _ id (F := fun f => { f with isFdInvalidatorRunning := true })
            (fun _ => rfl) fun _ => rfl]
          exact hfd
  · rw [hopen] at hrun
    cases hrun
    refine ⟨rfl, ?_⟩
    rw [openFd, hget, Option.map_some, hopen]

theorem openForRead_returns {file : CcaskFile} (hdir : w.fs.dir (fileName file.fileId .data) = some ino) :
    ∃ v, Computes (openForRead file) w (.ok ()) v := by
  have hopen := attempt_computes (n := 4) (ccaskFilesGetDatafileFd_computes hdir) (by simp)
  have hstart : ∃ v, Computes (startInvalidator file)
      (w.setFile file.fileId fun f => { f with fd := some ino }) (.ok ()) v := by
    unfold startInvalidator
    split
    · exact ⟨_, Computes.pure _⟩
    · exact ⟨_, call_clean (fun _ => rfl) (Computes.modify_bind (Computes.pure _))⟩
  obtain ⟨v, hstart⟩ := hstart
  exact ⟨v, hopen.bind (Computes.modify_bind hstart)⟩

/-- The open section can be made. -/
theorem OnFile.opening (h : OnFile w id ino) : ∃ v, Computes (readOpen id) w (.ok ()) v := by
  obtain ⟨file, hget, hfd⟩ := h.known
  have hfid : file.fileId = id := by simpa using List.find?_some hget
  have hbody : ∃ v, Computes (if file.fd.isNone then openForRead file else pure (.ok ())) w (.ok ()) v := by
    split
    · exact openForRead_returns (by rw [hfid]; exact h.dir)
    · exact ⟨w, Computes.pure _⟩
  obtain ⟨v, hv⟩ := hbody
  refine ⟨v, Computes.state_bind ?_⟩
  rw [hget]
  exact hv

end Target

section Race

variable {ι : Type} [DecidableEq ι] {w w₀ : World} {id pos : Nat} {ino : Ino}
  {buffers r : DatafileRecord}

/-- Every open and every read succeeds; a new thread may fail to start. -/
def Succeeds : ReadThread → List Reply → Prop
  | .opening _ _ _, rs => ∀ a, rs.head? = some a → a.Clean
  | _, rs => AllClean rs

/-- No invalidator closes a file while a reader of it has found or made its descriptor open and has
not read yet. -/
def Unhurried (c : Pool World ι ReadThread) (i : ι) : Prop :=
  ∀ id, c.thread i = .closing id → ∀ j buffers pos, c.thread j ≠ .reading id buffers pos

/-- How far a read of a record has come. -/
def Underway (id : Nat) (ino : Ino) (buffers : DatafileRecord) (pos : Nat) (r : DatafileRecord)
    (w : World) (t : ReadThread) : Prop :=
  t = .check id buffers pos ∨ t = .opening id buffers pos ∨
    (t = .reading id buffers pos ∧ openFd id w = some (some ino)) ∨ t = .done (.ok r)

/-- The directory of the start, the file of a read, and the read itself. -/
structure Reading (w₀ : World) (id : Nat) (ino : Ino) (buffers : DatafileRecord) (pos : Nat)
    (r : DatafileRecord) (w : World) (t : ReadThread) : Prop where
  fs : w.fs = w₀.fs
  file : OnFile w id ino
  underway : Underway id ino buffers pos r w t

/-- Every section is of this kind, whatever the answers. -/
theorem sect_leaves {A : ReadThread → List Reply → Prop} {t t' : ReadThread} {w v : World}
    (h : Section A ReadThread.sect w t v t') : Leaves t w v := by
  cases t with
  | check id buffers pos =>
      have hs := h.always rfl
        ((readCheck_moves (R := Eq) w).bind (R := fun _ v => w = v) fun r v hv => by
          cases r with
          | ok b => cases b <;> exact Ensures.pure hv
          | fail e => exact Ensures.pure hv
          | retry e => exact Ensures.pure hv)
      exact hs ▸ .same
  | opening id buffers pos =>
      exact h.always rfl
        ((readOpen_ensures _).bind (R := fun _ v => Leaves _ w v) fun r v hv => by
          cases r with
          | ok u => exact Ensures.pure hv
          | fail e => exact Ensures.pure hv
          | retry e => exact Ensures.pure hv)
  | reading id buffers pos =>
      exact h.always rfl
        ((readTransfer_ensures _).bind (R := fun _ v => Leaves _ w v) fun r v hv => Ensures.pure hv)
  | asleep id =>
      have hs := h.always rfl
        ((invalidatorTest_moves (R := Eq) w).bind (R := fun _ v => w = v) fun b v hv => by
          cases b with
          | true => exact Ensures.pure hv
          | false => exact Ensures.pure hv)
      exact hs ▸ .same
  | closing id =>
      have hs := h.always rfl (C := fun _ => True)
        (Ensures.modify_bind (Ensures.pure (Q := fun _ v => v = closedFd w id) rfl))
      exact hs ▸ .closed id rfl
  | clock times =>
      cases times with
      | nil => exact absurd rfl h.ne_none
      | cons now times =>
          have hs := h.always rfl (C := fun _ => True)
            (Ensures.modify_bind (Ensures.pure (Q := fun _ v => v = { w with clock := now }) rfl))
          exact hs ▸ .tick now
  | done res => exact absurd rfl h.ne_none
  | ended => exact absurd rfl h.ne_none

/-- The check sends a reader on to the open, or to the read of a descriptor that is open. -/
theorem OnFile.checked (h : OnFile w id ino) (buffers : DatafileRecord) (pos : Nat) :
    ∃ m t, (ReadThread.check id buffers pos).sect = some m ∧ Computes m w t w ∧
      (t = .opening id buffers pos ∨ t = .reading id buffers pos ∧ openFd id w = some (some ino)) := by
  obtain ⟨file, hget, hfd⟩ := h.known
  have hcheck := readCheck_computes hget
  obtain hfd | hfd := hfd
  · rw [hfd] at hcheck
    exact ⟨_, _, rfl, hcheck.bind (Computes.pure _), .inl rfl⟩
  · rw [hfd] at hcheck
    refine ⟨_, _, rfl, hcheck.bind (Computes.pure _), .inr ⟨rfl, ?_⟩⟩
    rw [openFd, hget, Option.map_some, hfd]

/-- What a reader's own section makes of its read. -/
theorem Reading.own {t t' : ReadThread} {v : World} (h : Reading w₀ id ino buffers pos r w t)
    (hrec : RecordAt w₀ ino buffers pos r)
    (hs : Section Succeeds ReadThread.sect w t v t') :
    Reading w₀ id ino buffers pos r v t' := by
  have hl := sect_leaves hs
  refine ⟨hl.fs.trans h.fs, h.file.leaves hl, ?_⟩
  obtain rfl | rfl | ⟨rfl, hopen⟩ | rfl := h.underway
  · obtain ⟨m, t, hsect, hm, ht⟩ := h.file.checked buffers pos
    obtain ⟨rfl, rfl⟩ := hs.computes hsect (fun _ h => h) hm
    obtain rfl | ⟨rfl, hfd⟩ := ht
    · exact .inr (.inl rfl)
    · exact .inr (.inr (.inl ⟨rfl, hfd⟩))
  · obtain ⟨hsect, hrs, hrun⟩ := hs
    obtain rfl := Option.some.inj hsect
    obtain ⟨res, mid, u, hopen, hrest⟩ := Prog.run_bind_eq_returned hrun
    obtain ⟨rfl, hfd⟩ := readOpen_opened h.file hrs hopen
    cases hrest
    exact .inr (.inr (.inl ⟨rfl, hfd⟩))
  · obtain ⟨u, hu⟩ := readTransfer_computes (hrec.congr h.fs) hopen
    obtain ⟨rfl, rfl⟩ := hs.computes rfl (fun _ h => h) (hu.bind (Computes.pure _))
    exact .inr (.inr (.inr rfl))
  · exact absurd rfl hs.ne_none

/-- What the section of another thread leaves of it. -/
theorem Reading.other {t u u' : ReadThread} {v : World} (h : Reading w₀ id ino buffers pos r w t)
    (hs : Section Succeeds ReadThread.sect w u v u')
    (hclose : u = .closing id → t ≠ .reading id buffers pos) :
    Reading w₀ id ino buffers pos r v t := by
  have hl := sect_leaves hs
  refine ⟨hl.fs.trans h.fs, h.file.leaves hl, ?_⟩
  obtain ht | ht | ⟨ht, hopen⟩ | ht := h.underway
  · exact .inl ht
  · exact .inr (.inl ht)
  · exact .inr (.inr (.inl ⟨ht, hl.keeps (fun hc => hclose hc ht) hopen⟩))
  · exact .inr (.inr (.inr ht))

variable {c c' : Pool World ι ReadThread} {i : ι}

/-- A run keeps every read on its way. -/
theorem Reading.run (hrun : Pool.Runs (Section Succeeds ReadThread.sect) Unhurried c c')
    (hrec : RecordAt w₀ ino buffers pos r)
    (h : Reading w₀ id ino buffers pos r c.shared (c.thread i)) :
    Reading w₀ id ino buffers pos r c'.shared (c'.thread i) := by
  refine Pool.Runs.inv (P := fun c => Reading w₀ id ino buffers pos r c.shared (c.thread i)) ?_ hrun h
  intro c j w t hc hok hs
  by_cases hj : j = i
  · subst hj
    rw [Pool.shared_set, Pool.thread_set_self]
    exact hc.own hrec hs
  · rw [Pool.shared_set, Pool.thread_set_of_ne c w t (Ne.symm hj)]
    exact hc.other hs fun hclose => hok id hclose i buffers pos

/-- How many sections a reader has left at most. -/
def sectionsLeft : ReadThread → Nat
  | .check _ _ _ => 3
  | .opening _ _ _ => 2
  | .reading _ _ _ => 1
  | _ => 0

/-- A reader that has not ended can make its next section. -/
theorem Reading.next {t : ReadThread} (h : Reading w₀ id ino buffers pos r w t)
    (hrec : RecordAt w₀ ino buffers pos r) (hne : t ≠ .done (.ok r)) :
    ∃ v t', Section Succeeds ReadThread.sect w t v t' ∧ sectionsLeft t' < sectionsLeft t := by
  obtain rfl | rfl | ⟨rfl, hopen⟩ | ht := h.underway
  · obtain ⟨m, t, hsect, hm, ht⟩ := h.file.checked buffers pos
    refine ⟨_, t, .of_computes hsect (fun _ h => h) hm, ?_⟩
    obtain rfl | ⟨rfl, -⟩ := ht
    · show 2 < 3
      omega
    · show 1 < 3
      omega
  · obtain ⟨v, hv⟩ := h.file.opening
    refine ⟨v, .reading id buffers pos, .of_computes rfl (fun rs hrs a ha => ?_)
      (hv.bind (Computes.pure _)), Nat.lt_succ_self 1⟩
    exact hrs a (List.mem_of_mem_head? ha)
  · obtain ⟨v, hv⟩ : ∃ v, Computes (readTransfer id _ _) _ _ v :=
      readTransfer_computes (hrec.congr h.fs) hopen
    refine ⟨v, .done (.ok r), .of_computes rfl (fun _ h => h) (hv.bind (Computes.pure _)), ?_⟩
    show 0 < 1
    omega
  · exact absurd ht hne

/-- So it can be brought to its end. -/
theorem Reading.finishes (h : Reading w₀ id ino buffers pos r c.shared (c.thread i))
    (hrec : RecordAt w₀ ino buffers pos r) :
    ∃ c', Pool.Runs (Section Succeeds ReadThread.sect) Unhurried c c' ∧
      c'.thread i = .done (.ok r) := by
  induction hn : sectionsLeft (c.thread i) using Nat.strongRecOn generalizing c with
  | ind n ih =>
      by_cases hdone : c.thread i = .done (.ok r)
      · exact ⟨c, .refl, hdone⟩
      · obtain ⟨v, t, hs, hlt⟩ := h.next hrec hdone
        have hok : Unhurried c i := by
          intro id' hclose
          obtain ht | ht | ⟨ht, -⟩ | ht := h.underway <;> rw [ht] at hclose <;> cases hclose
        have hnext : Reading w₀ id ino buffers pos r (c.set i v t).shared ((c.set i v t).thread i) := by
          rw [Pool.shared_set, Pool.thread_set_self]
          exact h.own hrec hs
        obtain ⟨c', hrun, hend⟩ := ih (sectionsLeft t) (by rw [← hn]; exact hlt) hnext
          (by rw [Pool.thread_set_self])
        exact ⟨c', .head (.mk i hok hs) hrun, hend⟩

/-- In every run in which no invalidator closes a file between the open and the read of a reader, a
read of a record with a value never comes to anything else than its bytes, and comes to them when the
reader gets on. -/
theorem reads_complete
    (hrun : Pool.Runs (Section Succeeds ReadThread.sect) Unhurried c c')
    (hread : c.thread i = .check id buffers pos) (hfile : OnFile c.shared id ino)
    (hrec : RecordAt c.shared ino buffers pos r) :
    (∀ res, c'.thread i = .done res → res = .ok r) ∧
      ∃ c'', Pool.Runs (Section Succeeds ReadThread.sect) Unhurried c' c'' ∧
        c''.thread i = .done (.ok r) := by
  have hstart : Reading c.shared id ino buffers pos r c.shared (c.thread i) :=
    ⟨rfl, hfile, .inl hread⟩
  have hend := hstart.run hrun hrec
  refine ⟨fun res hres => ?_, hend.finishes hrec⟩
  obtain ht | ht | ⟨ht, -⟩ | ht := hend.underway <;> rw [hres] at ht <;> cases ht
  rfl

end Race

section Sample

/-- A record of the key `a` and the value `b`. -/
def oneRecord : DatafileRecord := ⟨[0, 0, 0, 0, 0, 0, 0, 1, 0, 0, 0, 1, 0, 0, 0, 1], [97], [98]⟩

/-- A file with this record that is no longer written and not open, and a reader of the record. The
other thread is the invalidator that it starts. -/
def oneReader : Pool World Bool ReadThread where
  shared := { oneFile (fileName 0 .data) oneRecord.bytes with
    clock := 5
    files := [⟨1, some 1, 0, false, true, false⟩, ⟨0, none, 0, false, false, false⟩] }
  thread b := if b then .check 0 ⟨List.replicate 16 0, [0], [0]⟩ 0 else .asleep 0

theorem onFile_oneReader : OnFile oneReader.shared 0 0 := ⟨by decide, .inl rfl⟩

theorem recordAt_oneReader :
    RecordAt oneReader.shared 0 ⟨List.replicate 16 0, [0], [0]⟩ 0 oneRecord := by
  refine ⟨⟨[], [], ?_, rfl⟩, by decide, rfl, rfl, rfl⟩
  decide

/-- The file after the reader has opened it. -/
def openedFile : World :=
  { oneReader.shared with
    files := [⟨1, some 1, 0, false, true, false⟩, ⟨0, some 0, 0, false, false, true⟩] }

/-- The same file, open and idle for five seconds: the invalidator is about to close it as the reader
comes. -/
def idleFile : Pool World Bool ReadThread := { oneReader with shared := openedFile }

/-- The invalidator tests the file and closes it. Then the reader opens it again and reads. -/
theorem reads_complete_one : ∃ c', Pool.Runs (Section Succeeds ReadThread.sect) Unhurried idleFile c' ∧
    c'.thread false = .ended ∧ c'.thread true = .done (.ok oneRecord) ∧
    (∀ res, c'.thread true = .done res → res = .ok oneRecord) ∧
    ∃ c'', Pool.Runs (Section Succeeds ReadThread.sect) Unhurried c' c'' ∧
      c''.thread true = .done (.ok oneRecord) := by
  have hrun : Pool.Runs (Section Succeeds ReadThread.sect) Unhurried idleFile
      (((((idleFile.set false openedFile (.closing 0)).set false oneReader.shared .ended).set true
        oneReader.shared (.opening 0 ⟨List.replicate 16 0, [0], [0]⟩ 0)).set true openedFile
        (.reading 0 ⟨List.replicate 16 0, [0], [0]⟩ 0)).set true
        (openedFile.setFile 0 fun f => { f with lastAccessed := 5 }) (.done (.ok oneRecord))) := by
    refine ((((Pool.Runs.next .refl false [] ?_ rfl ?_ ⟨_, rfl⟩).next false [] ?_ rfl ?_ ⟨_, rfl⟩).next
      true [] ?_ rfl ?_ ⟨_, rfl⟩).next true [.done 0, .done 0] ?_ rfl ?_ ⟨_, rfl⟩).next true [.done 18]
      ?_ rfl ?_ ⟨_, rfl⟩
    · intro id h
      cases h
    · intro r hr
      cases hr
    · intro id h i buffers pos hread
      cases i <;> cases hread
    · intro r hr
      cases hr
    · intro id h
      cases h
    · intro r hr
      cases hr
    · intro id h
      cases h
    · intro r hr
      cases hr
      trivial
    · intro id h
      cases h
    · exact List.forall_mem_singleton.mpr trivial
  exact ⟨_, hrun, rfl, rfl,
    reads_complete hrun rfl ⟨by decide, .inr rfl⟩ (recordAt_oneReader.congr rfl)⟩

/-- The invalidator closes the file between the open and the read. -/
theorem not_reads_complete : ∃ c', Pool.Runs (Section Succeeds ReadThread.sect) (fun _ _ => True)
      oneReader c' ∧ OnFile oneReader.shared 0 0 ∧
    RecordAt oneReader.shared 0 ⟨List.replicate 16 0, [0], [0]⟩ 0 oneRecord ∧
    oneReader.thread true = .check 0 ⟨List.replicate 16 0, [0], [0]⟩ 0 ∧
    c'.thread true = .done (.fail (some .readFailed)) := by
  have hrun : Pool.Runs (Section Succeeds ReadThread.sect) (fun _ _ => True) oneReader
      (((((oneReader.set true oneReader.shared (.opening 0 ⟨List.replicate 16 0, [0], [0]⟩ 0)).set true
        openedFile (.reading 0 ⟨List.replicate 16 0, [0], [0]⟩ 0)).set false openedFile (.closing 0)).set
        false oneReader.shared .ended).set true
        (oneReader.shared.setFile 0 fun f => { f with lastAccessed := 5 })
        (.done (.fail (some .readFailed)))) := by
    refine (((((Pool.Runs.next .refl true [] trivial rfl ?_ ⟨_, rfl⟩).next true [.done 0, .done 0] trivial
      rfl ?_ ⟨_, rfl⟩).next false [] trivial rfl ?_ ⟨_, rfl⟩).next false [] trivial rfl ?_
      ⟨_, rfl⟩).next true [] trivial rfl ?_ ⟨_, rfl⟩)
    · intro r hr
      cases hr
    · intro r hr
      cases hr
      trivial
    · intro r hr
      cases hr
    · intro r hr
      cases hr
    · intro r hr
      cases hr
  exact ⟨_, hrun, onFile_oneReader, recordAt_oneReader, rfl, rfl⟩

end Sample

end Ccask.Audit
