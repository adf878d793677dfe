import Ccask.Audit.Calls
import Ccask.Model.Compactor

/-!
# Datafiles only grow

Whatever the system answers, puts, deletes, the hint generators and a shutdown take
nothing away from a datafile: they only append to it.
-/

namespace Ccask.Audit

open Ccask.Effect Ccask.Model

/-- Every datafile of `w` is there in `v`, with what it held and perhaps more; the temporary files
and the threshold are the same. -/
structure Extends (w v : World) : Prop where
  data : ∀ id c, w.fs.read (fileName id .data) = some c →
    ∃ more, v.fs.read (fileName id .data) = some (c ++ more)
  temps : ∀ i, v.fs.dir (fileName i .tempData) = w.fs.dir (fileName i .tempData)
  threshold : v.maxActiveFileSize = w.maxActiveFileSize

namespace Extends

variable {w v : World}

theorem of_fs (h : v.fs = w.fs) (ht : v.maxActiveFileSize = w.maxActiveFileSize) : Extends w v :=
  ⟨fun id c hc => ⟨[], by rw [h, List.append_nil]; exact hc⟩, fun i => by rw [h], ht⟩

instance : Std.Refl Extends := ⟨fun _ => of_fs rfl rfl⟩

instance : IsTrans World Extends := ⟨by
  intro w v u hwv hvu
  refine ⟨fun id c hc => ?_, fun i => (hvu.temps i).trans (hwv.temps i),
    hvu.threshold.trans hwv.threshold⟩
  obtain ⟨m, hm⟩ := hwv.data id c hc
  obtain ⟨n, hn⟩ := hvu.data id _ hm
  exact ⟨m ++ n, by rw [hn, List.append_assoc]⟩⟩

theorem tick (h : Extends w v) (now : Nat) : Extends w { v with clock := now } :=
  ⟨h.data, h.temps, h.threshold⟩

theorem append (w : World) (ino : Ino) (bytes : Bytes) : Extends w (w.append ino bytes) := by
  refine ⟨fun id c hc => ?_, fun _ => rfl, rfl⟩
  obtain ⟨i, hdir, rfl⟩ := Fs.exists_of_read hc
  by_cases hi : i = ino
  · subst hi
    refine ⟨bytes, ?_⟩
    rw [World.append, Fs.read_append hdir, Function.update_self]
  · refine ⟨[], ?_⟩
    rw [World.append, Fs.read, Fs.dir_append, hdir, Option.map_some,
      Fs.data_append_of_ne w.fs ino bytes hi, List.append_nil]

theorem create (w : World) (id : Nat) {ext : FileExt} (h : ext ≠ .tempData) :
    Extends w { w with fs := (w.fs.create (fileName id ext)).1 } := by
  refine ⟨fun i c hc => ⟨[], ?_⟩, fun i => ?_, rfl⟩
  · rw [Fs.read_create, Function.update_apply, List.append_nil]
    split
    · rename_i heq
      rw [← heq, hc]
      rfl
    · exact hc
  · exact Fs.dir_create_of_ne _ _ fun heq => h (fileName_inj.mp heq).2.symm

theorem unlink (w : World) (id : Nat) : Extends w { w with fs := w.fs.unlink (fileName id .hint) } := by
  refine ⟨fun i c hc => ⟨[], ?_⟩, fun i => ?_, rfl⟩
  · rw [Fs.read_unlink, Function.update_of_ne (by simp), List.append_nil]
    exact hc
  · change (w.fs.unlink _).dir _ = _
    rw [Fs.dir_unlink, if_neg (by simp)]

end Extends

section Calls

variable {R : World → World → Prop} [Std.Refl R]

/-- Reading changes nothing. -/
theorem safePread_moves (fd : Option Ino) (len offset : Nat) : Moves R (safePread fd len offset) := by
  intro w
  cases fd with
  | none => exact Ensures.pure (refl_of R w)
  | some ino =>
      refine (safePread_ensures (fun _ => True)).mono ?_ ?_
      · intro r v h
        rw [h.1]
        exact refl_of R w
      · intro v hv
        rw [hv]
        exact refl_of R w

theorem safePreadv_moves (fd : Option Ino) {iov : List Iovec} (offset : Nat)
    (hfits : ∀ v ∈ iov, v.Fits) (hfresh : ∀ v ∈ iov, v.iovBase = 0) :
    Moves R (safePreadv fd iov offset) := by
  intro w
  match fd, iov with
  | none, _ => exact Ensures.pure (refl_of R w)
  | some _, [] => exact Ensures.pure (refl_of R w)
  | some ino, v :: iov =>
      refine (safePreadv_ensures (fun _ => True) hfits hfresh (by simp)).mono ?_ ?_
      · intro r v h
        rw [h.1]
        exact refl_of R w
      · intro v hv
        rw [hv]
        exact refl_of R w

/-- A transfer appends to the one file it is given. -/
theorem safeWritev_moves_to {ino : Ino} {iov : List Iovec} (hfits : ∀ v ∈ iov, v.Fits)
    (hR : ∀ (w : World) bytes, R w (w.append ino bytes)) : Moves R (safeWritev (some ino) iov) := by
  intro w
  match iov with
  | [] => exact Ensures.pure (refl_of R w)
  | v :: iov =>
      refine (safeWritev_ensures (fun _ => True) hfits (by simp)).mono ?_ ?_
      · intro r u h
        obtain ⟨-, -, rfl⟩ | ⟨-, -, p, -, rfl⟩ := h
        · exact hR w _
        · exact hR w _
      · intro u h
        obtain ⟨p, -, rfl⟩ := h
        exact hR w _

theorem safeWritev_moves (fd : Option Ino) {iov : List Iovec} (hfits : ∀ v ∈ iov, v.Fits)
    (hR : ∀ (w : World) ino bytes, R w (w.append ino bytes)) : Moves R (safeWritev fd iov) := by
  cases fd with
  | none => exact fun w => Ensures.pure (refl_of R w)
  | some ino => exact safeWritev_moves_to hfits fun w => hR w ino

variable [IsTrans World R]

/-- What every try of a call may do, all tries may do. -/
theorem attempt_moves {α : Type} {n : Nat} {expr : Sys (Res α)} (h : Moves R expr) :
    Moves R (attempt n expr) := by
  induction n with
  | zero => exact Moves.pure _
  | succ n ih =>
      refine h.bind fun r => ?_
      cases r with
      | retry e =>
          change Moves R (if n = 0 then pure (.retry e) else attempt n expr)
          split
          · exact Moves.pure _
          · exact ih
      | ok a => exact Moves.pure _
      | fail e => exact Moves.pure _

theorem malloc_moves : Moves R malloc := by
  refine Moves.call fun r => ?_
  cases r with
  | done n => exact Moves.pure _
  | intr => exact Moves.pure _
  | transient => exact Moves.pure _
  | fail => exact Moves.pure _

theorem mallocAll_moves (n : Nat) : Moves R (mallocAll n) := by
  induction n with
  | zero => exact Moves.pure _
  | succ n ih =>
      refine malloc_moves.bind fun b => ?_
      cases b with
      | true => exact ih
      | false => exact Moves.pure _

theorem lseekEnd_moves (fd : Option Ino) : Moves R (lseekEnd fd) := by
  refine Moves.call fun r => ?_
  cases r with
  | done n => exact Moves.state fun w => Ensures.pure (refl_of R w)
  | intr => exact Moves.state fun w => Ensures.pure (refl_of R w)
  | transient => exact Moves.pure _
  | fail => exact Moves.pure _

theorem ccaskAllocateDatafileRecord_moves (keySize valueSize : UInt32) :
    Moves R (ccaskAllocateDatafileRecord keySize valueSize) := by
  refine (mallocAll_moves 3).bind fun r => ?_
  cases r with
  | ok u => exact Moves.pure _
  | fail e => exact Moves.pure _
  | retry e => exact Moves.pure _

theorem ccaskCreateDatafileRecord_moves [Zlib] (timestamp : UInt32) (key value : Ptr) :
    Moves R (ccaskCreateDatafileRecord timestamp key value) := by
  unfold ccaskCreateDatafileRecord
  split
  · exact Moves.block
  · refine (ccaskAllocateDatafileRecord_moves _ _).bind fun r => ?_
    cases r with
    | ok u => exact Moves.pure _
    | fail e => exact Moves.pure _
    | retry e => exact Moves.pure _

/-- The record that is made for a put, if memory is given. -/
theorem ccaskCreateDatafileRecord_ensures [Zlib] (timestamp : UInt32) (key value : Ptr) {w : World} :
    Ensures (fun _ => True) (ccaskCreateDatafileRecord timestamp key value) w
      (fun res v => v = w ∧ ∀ r, res = .ok r → r = mkRecord timestamp key value) (fun _ => True) := by
  unfold ccaskCreateDatafileRecord
  rw [calculateCrc32_eq]
  refine ((ccaskAllocateDatafileRecord_moves (R := Eq) _ _ w).mono (fun _ _ h => h)
    fun _ _ => trivial).bind ?_
  rintro res v rfl
  cases res with
  | ok _ => exact Ensures.pure ⟨rfl, fun r hr => (Res.ok.inj hr).symm⟩
  | fail e => exact Ensures.pure ⟨rfl, fun r hr => by cases hr⟩
  | retry e => exact Ensures.pure ⟨rfl, fun r hr => by cases hr⟩

theorem iterOpen_moves (fileId : Nat) {open' : Sys (Res Ino)} (h : Moves R open') :
    Moves R (iterOpen fileId open') := by
  refine (attempt_moves h).bind fun r => ?_
  cases r with
  | ok ino => exact (lseekEnd_moves _).bind fun _ => Moves.pure _
  | fail e => exact Moves.pure _
  | retry e => exact Moves.pure _

theorem ccaskFilesGetDatafileFd_moves (id : Nat) : Moves R (ccaskFilesGetDatafileFd id) := by
  refine Moves.call fun r => ?_
  rcases r with n | _ | _ | _
  case transient => exact Moves.pure _
  case fail => exact Moves.pure _
  all_goals
    refine Moves.state fun w => ?_
    cases w.fs.dir (fileName id .data) with
    | none => exact Ensures.pure (refl_of R w)
    | some ino => exact Ensures.pure (refl_of R w)

theorem ccaskDatafileIterNext_moves (iter : Iter) : Moves R (ccaskDatafileIterNext iter) := by
  unfold ccaskDatafileIterNext
  split
  · exact Moves.pure _
  · refine malloc_moves.bind fun b => ?_
    cases b with
    | false => exact Moves.pure _
    | true =>
        refine (safePread_moves _ _ _).bind fun r => ?_
        cases r with
        | fail e => exact Moves.pure _
        | retry e => exact Moves.pure _
        | ok header =>
            refine (mallocAll_moves 2).bind fun r => ?_
            cases r with
            | fail e => exact Moves.pure _
            | retry e => exact Moves.pure _
            | ok u =>
                refine (safePreadv_moves _ _ ?_ ?_).bind fun r => ?_
                · intro v hv
                  obtain rfl | rfl : v = _ ∨ v = _ := by simpa using hv
                  · exact of_fits _
                  · exact of_fits _
                · intro v hv
                  obtain rfl | rfl : v = _ ∨ v = _ := by simpa using hv
                  · rfl
                  · rfl
                · cases r with
                  | fail e => exact Moves.pure _
                  | retry e => exact Moves.pure _
                  | ok bufs =>
                      split
                      · exact Moves.pure _
                      · exact Moves.block
                      · exact Moves.pure _
                      · exact Moves.pure _

omit [Std.Refl R] in
theorem modify_bind_moves {α : Type} {f : World → World} {k : Unit → Sys α} (hf : ∀ w, R w (f w))
    (hk : ∀ u, Moves R (k u)) : Moves R (Prog.modify f >>= k) :=
  (Moves.modify hf).bind hk

theorem openCreate_moves (name : Name) (hR : ∀ w : World, R w { w with fs := (w.fs.create name).1 }) :
    Moves R (openCreate name) := by
  have hopen : Moves R (do
      let w ← Prog.state
      Prog.modify fun w => { w with fs := (w.fs.create name).1 }
      pure (.ok (w.fs.create name).2) : Sys (Res Ino)) :=
    Moves.state fun w => modify_bind_moves hR (fun _ => Moves.pure _) w
  refine Moves.call fun r => ?_
  cases r with
  | done n => exact hopen
  | intr => exact hopen
  | transient => exact Moves.pure _
  | fail => exact Moves.pure _

theorem ccaskFilesDelete_moves (id : Nat) (ext : FileExt)
    (hR : ∀ w : World, R w { w with fs := w.fs.unlink (fileName id ext) }) :
    Moves R (ccaskFilesDelete id ext) := by
  refine Moves.call fun r => ?_
  rcases r with n | _ | _ | _
  case transient => exact Moves.pure _
  case fail => exact Moves.pure _
  all_goals
    refine Moves.state fun w => ?_
    cases w.fs.dir (fileName id ext) with
    | none => exact Moves.pure _ w
    | some ino => exact modify_bind_moves hR (fun _ => Moves.pure _) w

theorem ccaskCreateHintfileRecord_moves (timestamp keySize valueSize : UInt32) (recordPos : UInt64) (key : Bytes)
    (buffers : HintfileBuffers) :
    Moves R (ccaskCreateHintfileRecord timestamp keySize valueSize recordPos key buffers) := by
  have hallocate : Moves R (ccaskAllocateHintfileRecord keySize buffers) := by
    refine malloc_moves.bind fun b => ?_
    cases b with
    | false => exact Moves.pure _
    | true =>
        refine malloc_moves.bind fun b => ?_
        cases b with
        | false => exact Moves.pure _
        | true => exact Moves.pure _
  refine hallocate.bind fun p => ?_
  obtain ⟨res, buffers⟩ := p
  cases res with
  | ok u => exact Moves.pure _
  | fail e => exact Moves.pure _
  | retry e => exact Moves.pure _

omit [IsTrans World R] in
theorem freeHintfileRecord_moves (buffers : HintfileBuffers) : Moves R (freeHintfileRecord buffers) := by
  unfold freeHintfileRecord
  split
  · exact Moves.block
  · exact Moves.pure _

theorem hintfileRecordWrite_moves {hintfileFd : Ino} (r : DatafileRecord) (pos : Nat)
    (buffers : HintfileBuffers) (hR : ∀ (w : World) bytes, R w (w.append hintfileFd bytes)) :
    Moves R (hintfileRecordWrite hintfileFd r pos buffers) := by
  refine (ccaskCreateHintfileRecord_moves _ _ _ _ _ _).bind fun p => ?_
  obtain ⟨res, buffers⟩ := p
  cases res with
  | fail e => exact (freeHintfileRecord_moves _).bind fun _ => Moves.pure _
  | retry e => exact (freeHintfileRecord_moves _).bind fun _ => Moves.pure _
  | ok hint =>
      refine (safeWritev_moves_to ?_ hR).bind fun res => ?_
      · intro v hv
        obtain rfl | rfl : v = _ ∨ v = _ := by simpa [HintfileRecord.iov] using hv
        · exact of_fits _
        · exact of_fits _
      · cases res with
        | ok u => exact (freeHintfileRecord_moves _).bind fun _ => Moves.pure _
        | fail e => exact (freeHintfileRecord_moves _).bind fun _ => Moves.pure _
        | retry e => exact (freeHintfileRecord_moves _).bind fun _ => Moves.pure _

theorem hintfileGeneratorRound_moves_to {hintfileFd : Ino} (s : Iter × HintfileBuffers)
    (hR : ∀ (w : World) bytes, R w (w.append hintfileFd bytes)) :
    Moves R (hintfileGeneratorRound hintfileFd s) := by
  refine (ccaskDatafileIterNext_moves s.1).bind fun res => ?_
  cases res with
  | fail e => exact Moves.pure _
  | retry e => exact Moves.pure _
  | ok p =>
      refine (hintfileRecordWrite_moves p.1 p.2.1 s.2 hR).bind fun b => ?_
      obtain ⟨written, buffers⟩ := b
      cases written with
      | true => exact Moves.pure _
      | false => exact Moves.pure _

theorem hintfileGeneratorRound_moves (hintfileFd : Ino) (s : Iter × HintfileBuffers)
    (hR : ∀ (w : World) ino bytes, R w (w.append ino bytes)) :
    Moves R (hintfileGeneratorRound hintfileFd s) :=
  hintfileGeneratorRound_moves_to s fun w => hR w hintfileFd

end Calls

section Extending

theorem modify_extends {f : World → World}
    (hf : ∀ w, (f w).fs = w.fs ∧ (f w).maxActiveFileSize = w.maxActiveFileSize) :
    Moves Extends (Prog.modify f) :=
  Moves.modify fun w => Extends.of_fs (hf w).1 (hf w).2

theorem modify_bind_extends {α : Type} {f : World → World} {k : Unit → Sys α}
    (hf : ∀ w, (f w).fs = w.fs ∧ (f w).maxActiveFileSize = w.maxActiveFileSize)
    (hk : ∀ u, Moves Extends (k u)) :
    Moves Extends (Prog.modify f >>= k) :=
  (modify_extends hf).bind hk

theorem openCreate_extends (id : Nat) {ext : FileExt} (h : ext ≠ .tempData) :
    Moves Extends (openCreate (fileName id ext)) :=
  openCreate_moves _ fun w => Extends.create w id h

theorem safeWritev_extends (fd : Option Ino) {iov : List Iovec} (hfits : ∀ v ∈ iov, v.Fits) :
    Moves Extends (safeWritev fd iov) :=
  safeWritev_moves fd hfits Extends.append

theorem ccaskKeydirUpsert_extends (record : KeydirRecord) :
    Moves Extends (ccaskKeydirUpsert record) := by
  have hput : Moves Extends (do
      Prog.modify fun w => { w with hashTable := Index.put KeydirRecord.key record w.hashTable }
      pure (.ok ()) : Sys Status) :=
    modify_bind_extends (fun _ => ⟨rfl, rfl⟩) fun _ => Moves.pure _
  have hnew : Moves Extends (do
      if ← malloc then
        if ← malloc then
          Prog.modify fun w => { w with hashTable := Index.put KeydirRecord.key record w.hashTable }
          pure (.ok ())
        else pure (.retry (some .noMemory))
      else pure (.retry (some .noMemory)) : Sys Status) := by
    refine malloc_moves.bind fun b => ?_
    cases b with
    | false => exact Moves.pure _
    | true =>
        refine malloc_moves.bind fun b => ?_
        cases b with
        | false => exact Moves.pure _
        | true => exact hput
  refine Moves.state fun w => ?_
  split
  · exact Moves.block w
  · split
    · exact hput w
    · exact hnew w

theorem createNewActiveDatafile_extends (id : Nat) : Moves Extends (createNewActiveDatafile id) := by
  refine (attempt_moves (openCreate_extends _ (by decide))).bind fun r => ?_
  cases r with
  | ok ino => exact Moves.state fun w => Ensures.pure (refl_of Extends w)
  | fail e => exact Moves.pure _
  | retry e => exact Moves.pure _

theorem ccaskHintfileGenerate_extends (id : Nat) : Moves Extends (ccaskHintfileGenerate id) := by
  have hstart : Moves Extends (do
      Prog.modify fun w => { w with threads := id :: w.threads }
      pure (.ok ()) : Sys Status) :=
    modify_bind_extends (fun _ => ⟨rfl, rfl⟩) fun _ => Moves.pure _
  refine malloc_moves.bind fun b => ?_
  cases b with
  | false => exact Moves.pure _
  | true =>
      refine Moves.call fun r => ?_
      cases r with
      | done n => exact hstart
      | intr => exact hstart
      | transient => exact Moves.pure _
      | fail => exact Moves.pure _

theorem ccaskFilesRotate_extends : Moves Extends ccaskFilesRotate := by
  refine malloc_moves.bind fun b => ?_
  cases b with
  | false => exact Moves.pure _
  | true =>
      refine Moves.state fun w => ?_
      cases w.files with
      | nil => exact Moves.block w
      | cons head rest =>
          refine (createNewActiveDatafile_extends _).bind (fun r => ?_) w
          cases r with
          | ok file =>
              refine modify_bind_extends (fun _ => ⟨rfl, rfl⟩) fun _ => ?_
              refine modify_bind_extends (fun _ => ⟨rfl, rfl⟩) fun _ => ?_
              refine Moves.state fun w => ?_
              split
              · exact (attempt_moves (ccaskHintfileGenerate_extends _)).bind (fun _ => Moves.pure _) w
              · exact Moves.block w
          | fail e => exact Moves.pure _
          | retry e => exact Moves.pure _

theorem writeRecordRound_extends (r : DatafileRecord) (u : Unit) :
    Moves Extends (writeRecordRound r u) := by
  refine Moves.state fun w => ?_
  cases ccaskFilesGetActiveFile w with
  | none => exact Moves.block w
  | some file =>
      refine (lseekEnd_moves file.fd).bind (fun pos => ?_) w
      cases pos with
      | none => exact Moves.pure _
      | some pos =>
          simp only []
          split
          · exact ccaskFilesRotate_extends.bind fun _ => Moves.pure _
          · refine (safeWritev_extends file.fd (iov_fits r)).bind fun res => ?_
            cases res with
            | fail e => exact Moves.pure _
            | retry e => exact Moves.pure _
            | ok u =>
                refine (attempt_moves (ccaskKeydirUpsert_extends _)).bind fun res => ?_
                cases res with
                | ok u => exact Moves.pure _
                | fail e => exact Moves.pure _
                | retry e => exact Moves.pure _

theorem ccaskWriteRecordBlocking_extends (r : DatafileRecord) :
    Moves Extends (ccaskWriteRecordBlocking r) :=
  Moves.loop (writeRecordRound_extends r) ()

/-- Puts and deletes only append. -/
theorem ccaskPutBlocking_extends [Zlib] (key value : Ptr) :
    Moves Extends (ccaskPutBlocking key value) := by
  refine Moves.state fun w => ?_
  split
  · exact Moves.pure _ w
  · refine (ccaskCreateDatafileRecord_moves _ _ _).bind (fun res => ?_) w
    cases res with
    | fail e => exact Moves.pure _
    | retry e => exact Moves.pure _
    | ok r =>
        refine (ccaskWriteRecordBlocking_extends r).bind fun res => ?_
        cases res with
        | ok u => exact Moves.pure _
        | fail e => exact Moves.pure _
        | retry e => exact Moves.pure _

theorem hintfileGeneratorThread_extends (id : Nat) :
    Moves Extends (hintfileGeneratorThread id) := by
  refine (attempt_moves (openCreate_extends _ (by decide))).bind fun res => ?_
  cases res with
  | fail e => exact Moves.pure _
  | retry e => exact Moves.pure _
  | ok fd =>
      refine (attempt_moves (iterOpen_moves _ (ccaskFilesGetDatafileFd_moves _))).bind fun res => ?_
      cases res with
      | fail e => exact Moves.pure _
      | retry e => exact Moves.pure _
      | ok iter =>
          refine (Moves.loop (fun s => hintfileGeneratorRound_moves fd s Extends.append) (iter, .unset)).bind fun b => ?_
          cases b with
          | true => exact modify_extends fun _ => ⟨rfl, rfl⟩
          | false =>
              have hdelete : Moves Extends (ccaskFilesDelete id .hint) :=
                ccaskFilesDelete_moves id .hint fun w => Extends.unlink w id
              exact (attempt_moves hdelete).bind fun _ => Moves.pure _

theorem runGenerator_extends (id : Nat) : Moves Extends (runGenerator id) :=
  (hintfileGeneratorThread_extends id).bind fun _ => modify_extends fun _ => ⟨rfl, rfl⟩

theorem joinGenerators_extends (ts : List Nat) : Moves Extends (joinGenerators ts) := by
  induction ts with
  | nil => exact Moves.pure _
  | cons t ts ih => exact (runGenerator_extends t).bind fun _ => ih

theorem writerThreadMain_extends : Moves Extends writerThreadMain := by
  have hpop : Moves Extends ccaskWriterRingbufPop := by
    refine Moves.state fun w => ?_
    split
    · exact Moves.block w
    · split
      · split
        · exact Moves.pure _ w
        · exact Moves.block w
      · split
        · exact Moves.block w
        · exact Moves.ensures (modify_bind_extends (fun _ => ⟨rfl, rfl⟩) fun _ => Moves.pure _)
  refine Moves.loop (fun _ => hpop.bind fun res => ?_) ()
  cases res with
  | fail e => exact Moves.pure _
  | retry e => exact Moves.pure _
  | ok r => exact (ccaskWriteRecordBlocking_extends r).bind fun _ => Moves.pure _

/-- So does a shutdown, with the generators and the writer that it waits for. -/
theorem ccaskShutdown_extends : Moves Extends ccaskShutdown := by
  refine modify_bind_extends (fun _ => ⟨rfl, rfl⟩) fun _ => ?_
  refine (Moves.state fun w => joinGenerators_extends _ w).bind fun _ => ?_
  refine Moves.bind ?_ fun _ => Moves.bind ?_ fun _ => modify_extends fun _ => ⟨rfl, rfl⟩
  · refine modify_bind_extends (fun _ => ⟨rfl, rfl⟩) fun _ => ?_
    exact writerThreadMain_extends.bind fun _ => modify_extends fun _ => ⟨rfl, rfl⟩
  · refine Moves.state fun w => ?_
    split
    · exact Moves.block w
    · exact Moves.ensures (modify_extends fun _ => ⟨rfl, rfl⟩)

end Extending

end Ccask.Audit
