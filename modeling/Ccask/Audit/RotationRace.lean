import Ccask.Audit.DescriptorRace

/-!
# Writers and rotations

A writer fetches the active file before it takes its lock. When the files rotate in between, it
comes to a file that is no longer written.
-/

namespace Ccask.Audit

open Ccask.Effect Ccask.Model

section Sections

variable {w : World} {f : CcaskFile} {rest : List CcaskFile} {ino : Ino} {r : DatafileRecord}

theorem Mounted.getHead (hfiles : w.files = f :: rest) : ccaskFilesGetFile f.fileId w = some f := by
  rw [ccaskFilesGetFile, hfiles, List.find?_cons_of_pos (by simp)]

theorem Mounted.head_active (h : Mounted w) (hfiles : w.files = f :: rest) : f.isActive = true := by
  obtain ⟨g, rest', hfiles', -, hactive, -⟩ := h.active
  rw [hfiles] at hfiles'
  cases hfiles'
  exact hactive

/-- Without other threads the fetch and the locked section are a round of
`ccask_write_record_blocking` up to the update of the key directory. -/
theorem writeRecordRound_sections (h : Mounted w) (r : DatafileRecord) (rs : List Reply) :
    (writeRecordRound r ()).run rs w = (do
      let fileId ← writeFetch
      match ← writeLocked r fileId with
      | .rotated => pure (.inl ())
      | .failed e => pure (.inr (.fail e))
      | .appended recordPos =>
        let res ← writeUpsert r fileId recordPos
        pure (.inr res) : Sys (Unit ⊕ Status)).run rs w := by
  obtain ⟨f, rest, hfiles, -, hactive, -⟩ := h.active
  have hfetch : ∀ rs, writeFetch.run rs w = .returned f.fileId rs w := by
    intro rs
    rw [writeFetch, Prog.run_state_bind, ccaskFilesGetActiveFile, hfiles]
    rfl
  rw [Prog.run_bind_returned (hfetch rs)]
  rw [writeRecordRound, writeLocked, bind_assoc, Prog.run_state_bind, Prog.run_state_bind,
    Mounted.getHead hfiles, ccaskFilesGetActiveFile, hfiles, List.head?_cons]
  simp only [bind_assoc]
  rw [Prog.run_bind, Prog.run_bind]
  cases hseek : (lseekEnd f.fd).run rs w with
  | pending v => rfl
  | returned pos rest v =>
      cases pos with
      | none => rfl
      | some pos =>
          simp only
          split
          · simp only [bind_assoc]
            rfl
          · simp only [bind_assoc]
            rw [Prog.run_bind, Prog.run_bind]
            cases hwrite : (safeWritev f.fd r.iov).run rest v with
            | pending u => rfl
            | returned res rest' u =>
                cases res with
                | fail e => rfl
                | retry e => rfl
                | ok _ =>
                    simp only [pure_bind, writeUpsert, bind_assoc]
                    rw [Prog.run_bind, Prog.run_bind]
                    cases hup : (attempt 5 (ccaskKeydirUpsert (datafileEntry f.fileId r pos))).run rest' u with
                    | pending x => rfl
                    | returned res rest'' x => cases res <;> rfl

theorem writeFetch_computes (hfiles : w.files = f :: rest) : Computes writeFetch w f.fileId w := by
  refine Computes.state_bind ?_
  rw [ccaskFilesGetActiveFile, hfiles]
  exact Computes.pure _

/-- Under the lock of the active file a record that fits is appended. -/
theorem writeLocked_fits (h : Mounted w) (hfiles : w.files = f :: rest)
    (hdir : w.fs.dir (fileName f.fileId .data) = some ino) (hvalue : r.value ≠ [])
    (hfits : (w.fs.data ino).length + r.bytes.length ≤ w.maxActiveFileSize.toNat) :
    Computes (writeLocked r f.fileId) w (.appended (w.fs.data ino).length) (w.append ino r.bytes) := by
  refine Computes.state_bind ?_
  rw [Mounted.getHead hfiles]
  refine (lseekEnd_computes f.fd).bind ?_
  rw [h.head_fd hfiles hdir, Option.map_some]
  simp only []
  rw [bytes_length] at hfits
  rw [if_neg (Nat.not_lt.mpr hfits), h.head_active hfiles, if_pos rfl]
  have hwrite : Computes (safeWritev (some ino) r.iov) w (.ok ()) _ :=
    safeWritev_computes (iov_fits r) ((iov_last r).mpr hvalue)
  rw [gather_iov] at hwrite
  exact hwrite.bind (Computes.pure _)

/-- For a record that does not fit the files rotate. -/
theorem writeLocked_full (h : Mounted w) (hfiles : w.files = f :: rest)
    (hdir : w.fs.dir (fileName f.fileId .data) = some ino) (hid : f.fileId + 1 < 2 ^ 64)
    (hfull : w.maxActiveFileSize.toNat < (w.fs.data ino).length + r.bytes.length) :
    Computes (writeLocked r f.fileId) w .rotated (rotated w f rest) := by
  refine Computes.state_bind ?_
  rw [Mounted.getHead hfiles]
  refine (lseekEnd_computes f.fd).bind ?_
  rw [h.head_fd hfiles hdir, Option.map_some]
  simp only []
  rw [bytes_length] at hfull
  rw [if_pos hfull]
  exact (ccaskFilesRotate_computes h hfiles hid).bind (Computes.pure _)

/-- While an iterator holds the read lock the update waits. -/
theorem writeUpsert_waits (hl : w.readLocks ≠ 0) (id pos : Nat) : Diverges (writeUpsert r id pos) w := by
  have hblock : Diverges (ccaskKeydirUpsert (datafileEntry id r pos)) w := by
    refine Ensures.state_bind ?_
    rw [if_pos hl]
    exact Ensures.block trivial
  exact Diverges.bind_left (Diverges.bind_left hblock _) _

end Sections

section Writers

variable {w v : World} {t t' : WriteCall}

/-- The record a call is to write. -/
def recordOf : WriteCall → Option DatafileRecord
  | .fetch r | .locked r _ | .upsert r _ _ => some r
  | .done _ => none

/-- The record of a call has been appended. -/
def Past : WriteCall → Prop
  | .upsert _ _ _ | .done _ => True
  | _ => False

/-- The file whose lock a call takes next is still the one that is written, and there is an id for
another one. -/
def Current (w : World) : WriteCall → Prop
  | .locked _ id => id + 1 < 2 ^ 64 ∧ ∃ file, ccaskFilesGetActiveFile w = some file ∧ file.fileId = id
  | _ => True

/-- What the next section of a call does. -/
inductive WriteStep (w : World) : WriteCall → World → WriteCall → Prop
  | fetch {f : CcaskFile} {rest : List CcaskFile} (r : DatafileRecord) :
      w.files = f :: rest → WriteStep w (.fetch r) w (.locked r f.fileId)
  | append {f : CcaskFile} {rest : List CcaskFile} {ino : Ino} (r : DatafileRecord) :
      w.files = f :: rest → w.fs.dir (fileName f.fileId .data) = some ino →
      WriteStep w (.locked r f.fileId) (w.append ino r.bytes)
        (.upsert r f.fileId (w.fs.data ino).length)
  | rotate {f : CcaskFile} {rest : List CcaskFile} (r : DatafileRecord) :
      w.files = f :: rest → WriteStep w (.locked r f.fileId) (rotated w f rest) (.fetch r)
  | upsert (r : DatafileRecord) (id pos : Nat) :
      WriteStep w (.upsert r id pos) (upserted w (datafileEntry id r pos)) (.done (.ok ()))

theorem WriteStep.of_section (h : Section (fun _ => AllClean) WriteCall.sect w t v t')
    (hm : Mounted w) (hvalue : ∀ r, recordOf t = some r → r.value ≠ []) (hcur : Current w t) :
    WriteStep w t v t' := by
  obtain ⟨f, rest, hfiles, -⟩ := hm.active
  cases t with
  | fetch r =>
      obtain ⟨rfl, rfl⟩ := h.computes rfl (fun _ h => h)
        ((writeFetch_computes hfiles).bind (Computes.pure _))
      exact .fetch r hfiles
  | locked r id =>
      obtain ⟨hid, file, hfile, rfl⟩ := hcur
      rw [ccaskFilesGetActiveFile, hfiles] at hfile
      obtain rfl := Option.some.inj hfile
      obtain ⟨ino, hdir⟩ := hm.head_dir hfiles
      by_cases hfits : (w.fs.data ino).length + r.bytes.length ≤ w.maxActiveFileSize.toNat
      · obtain ⟨rfl, rfl⟩ := h.computes rfl (fun _ h => h)
          ((writeLocked_fits hm hfiles hdir (hvalue r rfl) hfits).bind (Computes.pure _))
        exact .append r hfiles hdir
      · obtain ⟨rfl, rfl⟩ := h.computes rfl (fun _ h => h)
          ((writeLocked_full hm hfiles hdir hid (Nat.lt_of_not_le hfits)).bind (Computes.pure _))
        exact .rotate r hfiles
  | upsert r id pos =>
      by_cases hl : w.readLocks = 0
      · obtain ⟨rfl, rfl⟩ := h.computes rfl (fun _ h => h)
          ((writeUpsert_computes hl id pos).bind (Computes.pure _))
        exact .upsert r id pos
      · exact (h.ensures rfl (fun _ h => h) (Diverges.bind_left (writeUpsert_waits hl id pos) _)).elim
  | done res => exact absurd rfl h.ne_none

theorem WriteStep.mounted (h : WriteStep w t v t') (hm : Mounted w) : Mounted v := by
  cases h with
  | fetch r hfiles => exact hm
  | append r hfiles hdir => exact hm.congr rfl fun _ => rfl
  | rotate r hfiles => exact hm.rotated hfiles
  | upsert r id pos => exact hm.congr rfl fun _ => rfl

/-- No step forgets a file. -/
theorem WriteStep.ids_subset (h : WriteStep w t v t') : ∀ id ∈ ids w, id ∈ ids v := by
  intro id hid
  cases h with
  | fetch r hfiles => exact hid
  | append r hfiles hdir => exact hid
  | rotate r hfiles =>
      rw [ids_rotated hfiles]
      exact List.mem_cons_of_mem _ hid
  | upsert r i pos => exact hid

end Writers

section Readers

variable {w v : World} {t t' : ReadThread}

/-- A file that is known and not written. -/
def Inactive (w : World) (id : Nat) : Prop :=
  id ∈ ids w ∧ ∀ f ∈ w.files, f.fileId = id → f.isActive = false

theorem inactive_iff {id : Nat} : Inactive w id ↔
    (∃ s ∈ w.files.map shape, s.1 = id) ∧ ∀ s ∈ w.files.map shape, s.1 = id → s.2.2 = false := by
  simp [Inactive, ids, shape]

/-- Under the lock of a file that is not written any more nothing is ever appended. -/
theorem writeLocked_stale {id : Nat} (h : Inactive w id) (r : DatafileRecord) :
    Ensures (fun _ => True) (writeLocked r id) w (fun res _ => ∀ pos, res ≠ .appended pos)
      (fun _ => True) := by
  refine Ensures.state_bind ?_
  cases hget : ccaskFilesGetFile id w with
  | none => exact Ensures.block trivial
  | some file =>
      have hfid : file.fileId = id := by simpa using List.find?_some hget
      have hactive := h.2 file (List.mem_of_find?_eq_some hget) hfid
      refine Ensures.trivial.bind fun pos v _ => ?_
      cases pos with
      | none => exact Ensures.pure (by simp)
      | some pos =>
          simp only
          split
          · exact Ensures.trivial.bind fun res u _ => Ensures.pure (by simp)
          · rw [hactive]
            exact Ensures.pure (by simp)

/-- Readers leave what writers see of the files. -/
theorem Leaves.mounted (h : Leaves t w v) (hm : Mounted w) (hc : ∀ id, t = .closing id → Inactive w id) :
    Mounted v ∧ v.files.map shape = w.files.map shape := by
  have hset : ∀ id F, (∀ f, shape (F f) = shape f) → (∀ f, (F f).fd = f.fd) → Mounted (w.setFile id F) := by
    intro id F hF hfd
    by_cases hid : id ∈ ids w
    · obtain ⟨ino, hdir⟩ := hm.dir_of_mem hid
      exact hm.setFile hdir (fileId_of_shape hF) (fun f => congrArg (fun s => s.2.2) (hF f))
        fun f => .inl (hfd f)
    · rw [setFile_congr (G := fun f => f), setFile_id]
      · exact hm
      · intro f hf hfid
        exact absurd (by rw [← hfid]; exact List.mem_map_of_mem hf) hid
  have hshape : ∀ id F, (∀ f, shape (F f) = shape f) →
      (w.setFile id F).files.map shape = w.files.map shape :=
    fun id F hF => (Touched.setFile w id hF).files
  cases h with
  | same => exact ⟨hm, rfl⟩
  | accessed id => exact ⟨hset id _ (fun _ => rfl) fun _ => rfl, hshape id _ fun _ => rfl⟩
  | opened hdir hclosed hF hfd =>
      exact ⟨hm.setFile hdir (fileId_of_shape hF) (fun f => congrArg (fun s => s.2.2) (hF f))
        fun f => .inr (.inl (hfd f)), hshape _ _ hF⟩
  | closed id ht =>
      obtain ⟨hid, hinactive⟩ := hc id ht
      obtain ⟨ino, hdir⟩ := hm.dir_of_mem hid
      refine ⟨?_, hshape id _ fun _ => rfl⟩
      rw [closedFd, setFile_congr (G := fun file => if file.isActive then file else
        { file with fd := none, isFdInvalidatorRunning := false })]
      · refine hm.setFile hdir (fun f => ?_) (fun f => ?_) (fun f => ?_)
        · split <;> rfl
        · split <;> rfl
        · split
          · exact .inl rfl
          · rename_i hactive
            exact .inr (.inr ⟨rfl, by simpa using hactive⟩)
      · intro f hf hfid
        rw [hinactive f hf hfid]
        rfl
  | tick now => exact ⟨hm.congr rfl fun _ => rfl, rfl⟩

/-- What the test of an invalidator has found out. -/
theorem sect_inactive {A : ReadThread → List Reply → Prop} (h : Section A ReadThread.sect w t v t')
    (hnodup : (ids w).Nodup) {id : Nat} (hc : t' = .closing id) : Inactive w id := by
  revert hc
  cases t with
  | check i buffers pos =>
      refine h.always rfl
        (Q := fun t _ => t = .closing id → Inactive w id) (Ensures.trivial.bind fun r v _ => ?_)
      cases r with
      | ok b => cases b <;> exact Ensures.pure (by simp)
      | fail e => exact Ensures.pure (by simp)
      | retry e => exact Ensures.pure (by simp)
  | opening i buffers pos =>
      refine h.always rfl
        (Q := fun t _ => t = .closing id → Inactive w id) (Ensures.trivial.bind fun r v _ => ?_)
      cases r with
      | ok u => exact Ensures.pure (by simp)
      | fail e => exact Ensures.pure (by simp)
      | retry e => exact Ensures.pure (by simp)
  | reading i buffers pos =>
      exact h.always rfl
        (Q := fun t _ => t = .closing id → Inactive w id)
        (Ensures.trivial.bind fun r v _ => Ensures.pure (by simp))
  | asleep i =>
      refine h.always rfl (C := fun _ => True)
        (Q := fun t _ => t = .closing id → Inactive w id) (Ensures.bind (Ensures.state_bind
          (R := fun b _ => b = true → Inactive w i) ?_) fun b v hb => ?_)
      · cases hget : ccaskFilesGetFile i w with
        | none => exact Ensures.pure (by simp)
        | some file =>
            refine Ensures.pure fun hpass => ?_
            have hmem := List.mem_of_find?_eq_some hget
            have hfid : file.fileId = i := by simpa using List.find?_some hget
            refine ⟨hfid ▸ List.mem_map_of_mem hmem, fun f hf hid => ?_⟩
            rw [List.inj_on_of_nodup_map hnodup hf hmem (hid.trans hfid.symm)]
            simpa using (of_decide_eq_true hpass).2.1
      · cases b with
        | true =>
            refine Ensures.pure fun hc => ?_
            cases hc
            exact hb rfl
        | false => exact Ensures.pure (by simp)
  | closing i =>
      exact h.always rfl (C := fun _ => True)
        (Q := fun t _ => t = .closing id → Inactive w id) (Ensures.modify_bind (Ensures.pure (by simp)))
  | clock times =>
      cases times with
      | nil => exact absurd rfl h.ne_none
      | cons now times =>
          exact h.always rfl (C := fun _ => True)
            (Q := fun t _ => t = .closing id → Inactive w id)
            (Ensures.modify_bind (Ensures.pure (by simp)))
  | done res => exact absurd rfl h.ne_none
  | ended => exact absurd rfl h.ne_none

end Readers

section Race

/-- Writers, and the readers and invalidators beside them. -/
abbrev IoThread := WriteCall ⊕ ReadThread

def ioSect : IoThread → Option (Sys IoThread) := sumSect WriteCall.sect ReadThread.sect

/-- No call of a writer meets an error. -/
def Errorless : IoThread → List Reply → Prop
  | .inl _ => AllClean
  | .inr _ => fun _ => True

/-- A writer takes the lock of the file that it has fetched before that is rotated away. -/
def InOrder {ι : Type} (c : Pool World ι IoThread) (i : ι) : Prop :=
  ∀ t, c.thread i = .inl t → Current c.shared t

/-- Every thread is at its start: a call with a value, or a reader, or an invalidator before its test. -/
def AtStart {ι : Type} (c : Pool World ι IoThread) : Prop :=
  ∀ i, (∃ r, c.thread i = .inl (.fetch r) ∧ r.value ≠ []) ∨
    ∃ u, c.thread i = .inr u ∧ ∀ id, u ≠ .closing id

/-- The bytes that a thread is to write. -/
def bytesOf : IoThread → Bytes
  | .inl t => ((recordOf t).map DatafileRecord.bytes).getD []
  | .inr _ => []

variable {ι : Type} {c₀ c : Pool World ι IoThread} {i : ι} {l : List (ι × Nat)}

/-- What the calls `l`, each with the file it went to, have appended to a file. -/
def appended (c₀ : Pool World ι IoThread) (l : List (ι × Nat)) (id : Nat) : Bytes :=
  (l.filter fun x => x.2 = id).flatMap fun x => bytesOf (c₀.thread x.1)

/-- Every file holds what it held at the start and the records of calls that are past their append, each
of them once. -/
structure Logged (c₀ c : Pool World ι IoThread) (l : List (ι × Nat)) : Prop where
  nodup : (l.map Prod.fst).Nodup
  past : ∀ i, i ∈ l.map Prod.fst ↔ ∃ t, c.thread i = .inl t ∧ Past t
  files : ∀ x ∈ l, x.2 ∈ ids c.shared
  contents : ∀ id ∈ ids c.shared, c.shared.fs.read (fileName id .data) =
    some ((c₀.shared.fs.read (fileName id .data)).getD [] ++ appended c₀ l id)

/-- What every run of writers keeps. -/
structure WriteInv (c₀ c : Pool World ι IoThread) : Prop where
  mounted : Mounted c.shared
  locks : c.shared.readLocks = c₀.shared.readLocks
  limit : c.shared.maxActiveFileSize = c₀.shared.maxActiveFileSize
  known : ∀ id ∈ ids c₀.shared, id ∈ ids c.shared
  calls : ∀ i, (∃ r t, c₀.thread i = .inl (.fetch r) ∧ r.value ≠ [] ∧ c.thread i = .inl t ∧
      (recordOf t = some r ∨ t = .done (.ok ()))) ∨
    ∃ u u', c₀.thread i = .inr u ∧ c.thread i = .inr u' ∧ ∀ id, u' = .closing id → Inactive c.shared id
  logged : ∃ l, Logged c₀ c l

theorem appended_concat (l : List (ι × Nat)) (i : ι) (n id : Nat) : appended c₀ (l ++ [(i, n)]) id =
    appended c₀ l id ++ if n = id then bytesOf (c₀.thread i) else [] := by
  rw [appended, appended, List.filter_append, List.flatMap_append]
  congr 1
  by_cases h : n = id
  · simp [h]
  · simp [h]

/-- No call is past its append at the start. -/
theorem WriteInv.start (hm : Mounted c.shared) (hs : AtStart c) : WriteInv c c := by
  refine ⟨hm, rfl, rfl, fun _ h => h, fun i => ?_, [], List.nodup_nil, fun i => ?_, by simp, ?_⟩
  · obtain ⟨r, hi, hvalue⟩ | ⟨u, hi, hu⟩ := hs i
    · exact .inl ⟨r, _, hi, hvalue, hi, .inl rfl⟩
    · exact .inr ⟨u, u, hi, hi, fun id h => absurd h (hu id)⟩
  · simp only [List.map_nil, List.not_mem_nil, false_iff, not_exists, not_and]
    intro t ht hpast
    obtain ⟨r, hi, -⟩ | ⟨u, hi, -⟩ := hs i
    · rw [hi] at ht
      cases ht
      exact hpast
    · rw [hi] at ht
      cases ht
  · intro id hid
    obtain ⟨ino, hdir⟩ := hm.dir_of_mem hid
    rw [Fs.read, hdir]
    simp [appended]

variable [DecidableEq ι]

/-- A step that leaves the datafiles, and after which the same calls are past their append. -/
theorem Logged.same (h : Logged c₀ c l) {w : World} {t : IoThread} (hids : ids w = ids c.shared)
    (hread : ∀ id, w.fs.read (fileName id .data) = c.shared.fs.read (fileName id .data))
    (hpast : (∃ u, t = .inl u ∧ Past u) ↔ ∃ u, c.thread i = .inl u ∧ Past u) :
    Logged c₀ (c.set i w t) l := by
  refine ⟨h.nodup, fun j => ?_, ?_, ?_⟩
  · rw [h.past j]
    by_cases hj : j = i
    · rw [hj, Pool.thread_set_self]
      exact hpast.symm
    · rw [Pool.thread_set_of_ne c w t hj]
  · rw [Pool.shared_set, hids]
    exact h.files
  · rw [Pool.shared_set, hids]
    intro id hid
    rw [hread]
    exact h.contents id hid

/-- A new file has no records. -/
theorem Logged.rotated (h : Logged c₀ c l) (hm : Mounted c.shared)
    (hknown : ∀ id ∈ ids c₀.shared, id ∈ ids c.shared) (hm₀ : Mounted c₀.shared) {f : CcaskFile}
    {rest : List CcaskFile} (hfiles : c.shared.files = f :: rest) {r : DatafileRecord} {id : Nat}
    (hi : c.thread i = .inl (.locked r id)) :
    Logged c₀ (c.set i (Audit.rotated c.shared f rest) (.inl (.fetch r))) l := by
  have hnew : f.fileId + 1 ∉ ids c.shared := by
    intro hmem
    obtain ⟨ino, hdir⟩ := hm.dir_of_mem hmem
    have hnone := (Fs.read_eq_none _ _).mp (hm.next_absent hfiles)
    rw [hdir] at hnone
    cases hnone
  refine ⟨h.nodup, fun j => ?_, fun x hx => ?_, fun id hid => ?_⟩
  · rw [h.past j]
    by_cases hj : j = i
    · rw [hj, Pool.thread_set_self, hi]
      simp [Past]
    · rw [Pool.thread_set_of_ne _ _ _ hj]
  · rw [Pool.shared_set, ids_rotated hfiles]
    exact List.mem_cons_of_mem _ (h.files x hx)
  · rw [Pool.shared_set, ids_rotated hfiles, List.mem_cons] at hid
    rw [Pool.shared_set, read_rotated hm hfiles, Function.update_apply]
    split
    · rename_i heq
      obtain rfl : id = f.fileId + 1 := (fileName_inj.mp heq).1
      have hold : c₀.shared.fs.read (fileName (f.fileId + 1) .data) = none := by
        rw [← Option.not_isSome_iff_eq_none]
        exact fun hsome => hnew (hknown _ (hm₀.known _ hsome))
      have hnone : l.filter (fun x => x.2 = f.fileId + 1) = [] := by
        rw [List.filter_eq_nil_iff]
        intro x hx heq
        exact hnew (of_decide_eq_true heq ▸ h.files x hx)
      rw [hold, appended, hnone]
      rfl
    · rename_i hne
      obtain rfl | hid := hid
      · exact absurd rfl hne
      · exact h.contents id hid

/-- The record of a call goes behind what is in the active file. -/
theorem Logged.append (h : Logged c₀ c l) {f : CcaskFile} {rest : List CcaskFile}
    (hfiles : c.shared.files = f :: rest) {ino : Ino}
    (hdir : c.shared.fs.dir (fileName f.fileId .data) = some ino) {r : DatafileRecord} {pos : Nat}
    (hi : c.thread i = .inl (.locked r f.fileId)) (hr : bytesOf (c₀.thread i) = r.bytes) :
    Logged c₀ (c.set i (c.shared.append ino r.bytes) (.inl (.upsert r f.fileId pos)))
      (l ++ [(i, f.fileId)]) := by
  have hmem : f.fileId ∈ ids c.shared := by
    rw [ids, hfiles]
    exact List.mem_cons_self
  have hnot : i ∉ l.map Prod.fst := by
    rw [h.past i, hi]
    rintro ⟨t, ht, hpast⟩
    cases ht
    exact hpast
  refine ⟨?_, fun j => ?_, fun x hx => ?_, fun id hid => ?_⟩
  · rw [List.map_append]
    exact h.nodup.append (List.nodup_singleton i) (by simpa using hnot)
  · rw [List.map_append, List.mem_append, h.past j]
    by_cases hj : j = i
    · rw [hj, Pool.thread_set_self]
      simp [Past]
    · rw [Pool.thread_set_of_ne _ _ _ hj]
      simp [hj]
  · obtain hx | hx := List.mem_append.mp hx
    · exact h.files x hx
    · obtain rfl := List.mem_singleton.mp hx
      exact hmem
  · rw [Pool.shared_set]
    show (c.shared.fs.append ino r.bytes).read _ = _
    rw [Fs.read_append hdir, Function.update_apply, appended_concat]
    have hold := h.contents id hid
    split
    · rename_i heq
      obtain rfl : id = f.fileId := (fileName_inj.mp heq).1
      rw [Fs.read, hdir, Option.map_some] at hold
      rw [Option.some.inj hold, if_pos rfl, hr, List.append_assoc]
    · rename_i hne
      rw [hold, if_neg, List.append_nil]
      rintro rfl
      exact hne rfl

theorem Inactive.congr {w v : World} {id : Nat} (h : Inactive w id)
    (hshape : v.files.map shape = w.files.map shape) : Inactive v id := by
  rw [inactive_iff, hshape]
  exact inactive_iff.mp h

theorem Inactive.writes {t t' : WriteCall} {w v : World} {id : Nat} (h : Inactive w id)
    (hm : Mounted w) (hs : WriteStep w t v t') : Inactive v id := by
  cases hs with
  | fetch r hfiles => exact h
  | append r hfiles hdir => exact h
  | upsert r i pos => exact h
  | @rotate f rest r hfiles =>
      refine ⟨(WriteStep.rotate r hfiles).ids_subset id h.1, fun g hg hid => ?_⟩
      obtain rfl | rfl | hg : g = _ ∨ g = _ ∨ g ∈ rest := by
        simpa [rotated, rotatedFiles] using hg
      · have hmem := h.1
        rw [ids, hfiles, List.map_cons, List.mem_cons] at hmem
        obtain heq | hmem := hmem
        · have hid' : f.fileId + 1 = id := hid
          omega
        · obtain ⟨k, hk, hkid⟩ := List.mem_map.mp hmem
          have hlt := hm.head_gt hfiles k hk
          have hid' : f.fileId + 1 = id := hid
          omega
      · rfl
      · exact h.2 g (by rw [hfiles]; exact List.mem_cons_of_mem _ hg) hid

theorem WriteStep.keeps {t t' : WriteCall} {w v : World} (hs : WriteStep w t v t') :
    v.readLocks = w.readLocks ∧ v.maxActiveFileSize = w.maxActiveFileSize := by
  cases hs <;> exact ⟨rfl, rfl⟩

theorem WriteStep.record {t t' : WriteCall} {w v : World} (hs : WriteStep w t v t') :
    recordOf t' = recordOf t ∨ t' = .done (.ok ()) := by
  cases hs with
  | upsert r id pos => exact .inr rfl
  | _ => exact .inl rfl

/-- One step of any thread keeps the invariant. -/
theorem WriteInv.step (h : WriteInv c₀ c) (hm₀ : Mounted c₀.shared) (hok : InOrder c i) {w : World}
    {t : IoThread} (hs : Section Errorless ioSect c.shared (c.thread i) w t) :
    WriteInv c₀ (c.set i w t) := by
  obtain ⟨l, hl⟩ := h.logged
  obtain ⟨r, u, hstart, hvalue, hi, hu⟩ | ⟨u, u', hstart, hi, hu⟩ := h.calls i
  · rw [hi] at hs
    obtain ⟨u', rfl, hsect⟩ := Section.inl_iff.mp hs
    have hrec : ∀ r', recordOf u = some r' → r'.value ≠ [] := by
      intro r' hr'
      obtain hr | rfl := hu
      · rw [hr] at hr'
        cases hr'
        exact hvalue
      · cases hr'
    have hstep := WriteStep.of_section hsect h.mounted hrec (hok u hi)
    refine ⟨hstep.mounted h.mounted, hstep.keeps.1.trans h.locks, hstep.keeps.2.trans h.limit,
      fun id hid => hstep.ids_subset id (h.known id hid), fun j => ?_, ?_⟩
    · by_cases hj : j = i
      · subst hj
        refine .inl ⟨r, u', hstart, hvalue, Pool.thread_set_self .., ?_⟩
        obtain hsame | hdone := hstep.record
        · rw [hsame]
          obtain hr | rfl := hu
          · exact .inl hr
          · exact absurd rfl hsect.ne_none
        · exact .inr hdone
      · rw [Pool.thread_set_of_ne _ _ _ hj]
        obtain hcall | ⟨v, v', hv, hv', hclosing⟩ := h.calls j
        · exact .inl hcall
        · exact .inr ⟨v, v', hv, hv', fun id hc => (hclosing id hc).writes h.mounted hstep⟩
    · cases hstep with
      | fetch r hfiles => exact ⟨l, hl.same rfl (fun _ => rfl) (by rw [hi]; simp [Past])⟩
      | append r' hfiles hdir =>
          have hr : some r' = some r := by
            obtain hr | hr := hu
            · exact hr
            · cases hr
          refine ⟨_, hl.append hfiles hdir hi ?_⟩
          rw [hstart, ← Option.some.inj hr]
          rfl
      | rotate r hfiles => exact ⟨l, hl.rotated h.mounted h.known hm₀ hfiles hi⟩
      | upsert r id pos => exact ⟨l, hl.same rfl (fun _ => rfl) (by rw [hi]; simp [Past])⟩
  · rw [hi] at hs
    obtain ⟨x, rfl, hsect⟩ := Section.inr_iff.mp hs
    have hleaves := sect_leaves hsect
    obtain ⟨hm, hshape⟩ := hleaves.mounted h.mounted hu
    have hids : ids w = ids c.shared := by
      have hmap := congrArg (List.map Prod.fst) hshape
      simpa [ids, shape, Function.comp_def] using hmap
    have hkeep : w.readLocks = c.shared.readLocks ∧ w.maxActiveFileSize = c.shared.maxActiveFileSize := by
      cases hleaves <;> exact ⟨rfl, rfl⟩
    refine ⟨hm, hkeep.1.trans h.locks, hkeep.2.trans h.limit, fun id hid => ?_, fun j => ?_,
      l, hl.same hids (fun id => by rw [hleaves.fs]) (by rw [hi]; simp)⟩
    · rw [Pool.shared_set, hids]
      exact h.known id hid
    · by_cases hj : j = i
      · subst hj
        refine .inr ⟨u, x, hstart, Pool.thread_set_self .., fun id hc => ?_⟩
        exact (sect_inactive hsect (h.mounted.sorted.imp Nat.ne_of_gt) hc).congr hshape
      · rw [Pool.thread_set_of_ne _ _ _ hj]
        obtain hcall | ⟨v, v', hv, hv', hclosing⟩ := h.calls j
        · exact .inl hcall
        · exact .inr ⟨v, v', hv, hv', fun id hc => (hclosing id hc).congr hshape⟩

end Race

section Ends

variable {ι : Type} [DecidableEq ι] {c c' : Pool World ι IoThread} {i : ι} {r : DatafileRecord}

/-- The runs of writers. -/
abbrev WriteRuns : Pool World ι IoThread → Pool World ι IoThread → Prop :=
  Pool.Runs (Section Errorless ioSect) InOrder

/-- A section of a writer that can be made. -/
theorem write_next {t t' : WriteCall} {m : Sys WriteCall} {w : World} (hi : c.thread i = .inl t)
    (hsect : t.sect = some m) (hm : Computes m c.shared t' w) (hcur : Current c.shared t) :
    Pool.Step (Section Errorless ioSect) InOrder c (c.set i w (.inl t')) := by
  refine .mk i (fun u hu => ?_) ?_
  · rw [hi] at hu
    cases hu
    exact hcur
  · rw [hi]
    exact Section.inl_iff.mpr ⟨t', rfl, .of_computes hsect (fun _ h => h) hm⟩

theorem upsert_ends (hl : c.shared.readLocks = 0) {id pos : Nat}
    (hi : c.thread i = .inl (.upsert r id pos)) :
    ∃ c', WriteRuns c c' ∧ c'.thread i = .inl (.done (.ok ())) :=
  ⟨_, .single (write_next hi rfl ((writeUpsert_computes hl id pos).bind (Computes.pure _)) trivial),
    Pool.thread_set_self ..⟩

theorem fits_ends (hm : Mounted c.shared) (hl : c.shared.readLocks = 0) {f : CcaskFile}
    {rest : List CcaskFile} (hfiles : c.shared.files = f :: rest) {ino : Ino}
    (hdir : c.shared.fs.dir (fileName f.fileId .data) = some ino) (hid : f.fileId + 1 < 2 ^ 64)
    (hvalue : r.value ≠ [])
    (hfits : (c.shared.fs.data ino).length + r.bytes.length ≤ c.shared.maxActiveFileSize.toNat)
    (hi : c.thread i = .inl (.fetch r) ∨ c.thread i = .inl (.locked r f.fileId)) :
    ∃ c', WriteRuns c c' ∧ c'.thread i = .inl (.done (.ok ())) := by
  have hlocked : ∀ c : Pool World ι IoThread, Mounted c.shared → c.shared.readLocks = 0 →
      c.shared.files = f :: rest → c.shared.fs.dir (fileName f.fileId .data) = some ino →
      (c.shared.fs.data ino).length + r.bytes.length ≤ c.shared.maxActiveFileSize.toNat →
      c.thread i = .inl (.locked r f.fileId) →
      ∃ c', WriteRuns c c' ∧ c'.thread i = .inl (.done (.ok ())) := by
    intro c hm hl hfiles hdir hfits hi
    have hcur : Current c.shared (.locked r f.fileId) :=
      ⟨hid, f, by rw [ccaskFilesGetActiveFile, hfiles]; rfl, rfl⟩
    have hstep := write_next hi rfl
      ((writeLocked_fits hm hfiles hdir hvalue hfits).bind (Computes.pure _)) hcur
    obtain ⟨c', hrun, hend⟩ := upsert_ends (c := c.set i (c.shared.append ino r.bytes) _) hl
      (Pool.thread_set_self ..)
    exact ⟨c', .head hstep hrun, hend⟩
  obtain hi | hi := hi
  · have hstep := write_next hi rfl ((writeFetch_computes hfiles).bind (Computes.pure _)) trivial
    obtain ⟨c', hrun, hend⟩ := hlocked (c.set i _ _) hm hl hfiles hdir hfits (Pool.thread_set_self ..)
    exact ⟨c', .head hstep hrun, hend⟩
  · exact hlocked c hm hl hfiles hdir hfits hi

/-- A call whose record fits the threshold can be brought to its end, with at most one rotation. -/
theorem write_ends (hm : Mounted c.shared) (hl : c.shared.readLocks = 0) {f : CcaskFile}
    {rest : List CcaskFile} (hfiles : c.shared.files = f :: rest) (hid : f.fileId + 2 < 2 ^ 64)
    (hvalue : r.value ≠ []) (hsize : r.bytes.length ≤ c.shared.maxActiveFileSize.toNat)
    (hi : c.thread i = .inl (.fetch r) ∨ c.thread i = .inl (.locked r f.fileId)) :
    ∃ c', WriteRuns c c' ∧ c'.thread i = .inl (.done (.ok ())) := by
  obtain ⟨ino, hdir⟩ := hm.head_dir hfiles
  by_cases hfits : (c.shared.fs.data ino).length + r.bytes.length ≤ c.shared.maxActiveFileSize.toNat
  · exact fits_ends hm hl hfiles hdir (by omega) hvalue hfits hi
  · have hlocked : ∀ c : Pool World ι IoThread, Mounted c.shared → c.shared.readLocks = 0 →
        c.shared.files = f :: rest → c.shared.fs.dir (fileName f.fileId .data) = some ino →
        ¬ (c.shared.fs.data ino).length + r.bytes.length ≤ c.shared.maxActiveFileSize.toNat →
        r.bytes.length ≤ c.shared.maxActiveFileSize.toNat → c.thread i = .inl (.locked r f.fileId) →
        ∃ c', WriteRuns c c' ∧ c'.thread i = .inl (.done (.ok ())) := by
      intro c hm hl hfiles hdir hfits hsize hi
      have hcur : Current c.shared (.locked r f.fileId) :=
        ⟨by omega, f, by rw [ccaskFilesGetActiveFile, hfiles]; rfl, rfl⟩
      have hstep := write_next hi rfl ((writeLocked_full hm hfiles hdir (by omega)
        (Nat.lt_of_not_le hfits)).bind (Computes.pure _)) hcur
      have hempty := data_rotated hm hfiles
      obtain ⟨c', hrun, hend⟩ := fits_ends (c := c.set i (rotated c.shared f rest) (.inl (.fetch r)))
        (hm.rotated hfiles) hl rfl (Fs.dir_create_self _ _) hid hvalue
        (by rw [Pool.shared_set, hempty, List.length_nil, Nat.zero_add]; exact hsize)
        (.inl (Pool.thread_set_self ..))
      exact ⟨c', .head hstep hrun, hend⟩
    obtain hi | hi := hi
    · have hstep := write_next hi rfl ((writeFetch_computes hfiles).bind (Computes.pure _)) trivial
      obtain ⟨c', hrun, hend⟩ :=
        hlocked (c.set i _ _) hm hl hfiles hdir hfits hsize (Pool.thread_set_self ..)
      exact ⟨c', .head hstep hrun, hend⟩
    · exact hlocked c hm hl hfiles hdir hfits hsize hi

variable {c₀ : Pool World ι IoThread}

/-- What a section of a writer may do to the files: it appends its record whole at the end of the file
that is active at that moment, or it closes the descriptor of no file but the one whose lock it holds. -/
structure Careful (w : World) (t : IoThread) (v : World) (t' : IoThread) : Prop where
  appends : ∀ r id pos, t = .inl (.locked r id) → t' = .inl (.upsert r id pos) →
    ∃ file ino, ccaskFilesGetActiveFile w = some file ∧ file.fileId = id ∧
      w.fs.dir (fileName id .data) = some ino ∧ pos = (w.fs.data ino).length ∧
      v.fs = w.fs.append ino r.bytes
  closes : ∀ r id, t = .inl (.locked r id) → ∀ j, j ≠ id → ∀ ino, openFd j w = some (some ino) →
    openFd j v = some (some ino)

theorem WriteStep.careful {w v : World} {t t' : WriteCall} (hm : Mounted w) (hs : WriteStep w t v t') :
    Careful w (.inl t) v (.inl t') := by
  refine ⟨fun r id pos ht ht' => ?_, fun r id ht j hj ino hopen => ?_⟩
  · cases ht
    cases ht'
    cases hs with
    | append r hfiles hdir =>
        exact ⟨_, _, by rw [ccaskFilesGetActiveFile, hfiles]; rfl, rfl, hdir, rfl, rfl⟩
  · cases ht
    cases hs with
    | append r hfiles hdir => exact hopen
    | @rotate f rest r hfiles =>
        unfold openFd ccaskFilesGetFile at hopen ⊢
        rw [hfiles, List.find?_cons_of_neg (by simpa using Ne.symm hj)] at hopen
        obtain ⟨g, hg, -⟩ := Option.map_eq_some_iff.mp hopen
        have hgid : g.fileId = j := by simpa using List.find?_some hg
        have hlt := hm.head_gt hfiles g (List.mem_of_find?_eq_some hg)
        show Option.map CcaskFile.fd ((rotatedFiles w f rest).find? fun file => file.fileId = j) = _
        rw [rotatedFiles, List.find?_cons_of_neg (by simp; omega),
          List.find?_cons_of_neg (by simpa using Ne.symm hj)]
        exact hopen

/-- What concurrent writers come to. -/
structure WritesOnce (c₀ c : Pool World ι IoThread) : Prop where
  ok : ∀ i res, c.thread i = .inl (.done res) → res = .ok ()
  once : ∃ l, Logged c₀ c l
  careful : ∀ i w t, InOrder c i → Section Errorless ioSect c.shared (c.thread i) w t →
    Careful c.shared (c.thread i) w t
  returns : ∀ i r, c₀.thread i = .inl (.fetch r) →
    r.bytes.length ≤ c₀.shared.maxActiveFileSize.toNat → c₀.shared.readLocks = 0 → InOrder c i →
    (∀ file, ccaskFilesGetActiveFile c.shared = some file → file.fileId + 2 < 2 ^ 64) →
    ∃ c', WriteRuns c c' ∧ c'.thread i = .inl (.done (.ok ()))

/-- In every run in which writers take the lock of a file before it is rotated away, every call with a
record that fits the threshold appends it once and whole to the active file and returns CCASK_OK. -/
theorem writes_once (hm : Mounted c₀.shared) (hs : AtStart c₀) (hrun : WriteRuns c₀ c) :
    WritesOnce c₀ c := by
  have hinv : WriteInv c₀ c := Pool.Runs.inv (P := WriteInv c₀)
    (fun c i w t hc hok hs => hc.step hm hok hs) hrun (.start hm hs)
  refine ⟨fun i res hi => ?_, hinv.logged, fun i w t hok hsect => ?_, fun i r hi hsize hl hok hid => ?_⟩
  · obtain ⟨r, t, -, -, ht, hr⟩ | ⟨u, u', -, ht, -⟩ := hinv.calls i
    · rw [hi] at ht
      cases ht
      obtain hr | hr := hr
      · cases hr
      · cases hr
        rfl
    · rw [hi] at ht
      cases ht
  · obtain ⟨r, u, -, hvalue, hi, hu⟩ | ⟨u, u', -, hi, -⟩ := hinv.calls i
    · rw [hi] at hsect ⊢
      obtain ⟨u', rfl, hstep⟩ := Section.inl_iff.mp hsect
      refine (WriteStep.of_section hstep hinv.mounted (fun r' hr' => ?_) (hok u hi)).careful hinv.mounted
      obtain hr | rfl := hu
      · rw [hr] at hr'
        cases hr'
        exact hvalue
      · cases hr'
    · rw [hi]
      exact ⟨fun _ _ _ h => (by cases h), fun _ _ h => (by cases h)⟩
  · obtain ⟨r', t, hi', hvalue, ht, hr⟩ | ⟨u, u', hi', -⟩ := hinv.calls i
    · rw [hi] at hi'
      cases hi'
      obtain ⟨f, rest, hfiles, -⟩ := hinv.mounted.active
      have hactive : ccaskFilesGetActiveFile c.shared = some f := by
        rw [ccaskFilesGetActiveFile, hfiles]
        rfl
      have hl' : c.shared.readLocks = 0 := hinv.locks.trans hl
      have hsize' : r.bytes.length ≤ c.shared.maxActiveFileSize.toNat := by
        rw [hinv.limit]
        exact hsize
      cases t with
      | fetch r' =>
          obtain hr | hr := hr
          · cases hr
            exact write_ends hinv.mounted hl' hfiles (hid f hactive) hvalue hsize' (.inl ht)
          · cases hr
      | locked r' id =>
          obtain hr | hr := hr
          · cases hr
            obtain ⟨-, file, hfile, rfl⟩ := hok _ ht
            rw [hactive] at hfile
            cases hfile
            exact write_ends hinv.mounted hl' hfiles (hid f hactive) hvalue hsize' (.inr ht)
          · cases hr
      | upsert r' id pos => exact upsert_ends hl' ht
      | done res =>
          obtain hr | hr := hr
          · cases hr
          · cases hr
            exact ⟨c, .refl, ht⟩
    · rw [hi] at hi'
      cases hi'

end Ends

section Sample

/-- A file with one record, a second one of which does not fit any more. -/
def fullFile : World :=
  { oneFile (fileName 0 .data) oneRecord.bytes with
    files := [⟨0, some 0, 0, false, true, false⟩]
    maxActiveFileSize := 20 }

theorem mounted_fullFile : Mounted fullFile where
  sorted := List.pairwise_singleton _ _
  linked f hf := by
    obtain rfl := List.mem_singleton.mp hf
    exact ⟨0, by decide, .inr rfl⟩
  known id hid := by
    by_contra hne
    have hnone : fullFile.fs.read (fileName id .data) = none :=
      read_oneFile_of_ne (by simpa [ids, fullFile] using hne) _
    rw [hnone] at hid
    cases hid
  active := ⟨_, [], rfl, rfl, rfl, by simp⟩

/-- Two writers of the record once more. -/
def twoWriters : Pool World Bool IoThread := ⟨fullFile, fun _ => .inl (.fetch oneRecord)⟩

theorem atStart_twoWriters : AtStart twoWriters :=
  fun _ => .inl ⟨oneRecord, rfl, by decide⟩

/-- The files after a rotation, after a record has gone to the new file, and after another rotation. -/
def rotatedFile : World := rotated fullFile ⟨0, some 0, 0, false, true, false⟩ []

def refilledFile : World := rotatedFile.append 1 oneRecord.bytes

def rotatedTwice : World :=
  rotated refilledFile ⟨1, some 1, 0, false, true, false⟩ [⟨0, none, 0, false, false, false⟩]

theorem mounted_rotatedFile : Mounted rotatedFile := mounted_fullFile.rotated rfl

theorem locked_fullFile : Computes (writeLocked oneRecord 0) fullFile .rotated rotatedFile :=
  writeLocked_full mounted_fullFile rfl (show _ = some 0 by decide) (by decide) (by decide)

theorem rotates_fullFile : Section Errorless ioSect fullFile (.inl (.locked oneRecord 0)) rotatedFile
    (.inl (.fetch oneRecord)) :=
  Section.inl_iff.mpr ⟨_, rfl, .of_computes rfl (fun _ h => h) (locked_fullFile.bind (Computes.pure _))⟩

theorem locked_rotatedFile : Computes (writeLocked oneRecord 1) rotatedFile (.appended 0) refilledFile :=
  writeLocked_fits mounted_rotatedFile rfl (show _ = some 1 by decide) (by decide) (by decide)

theorem locked_refilledFile : Computes (writeLocked oneRecord 1) refilledFile .rotated rotatedTwice :=
  writeLocked_full (w := refilledFile) (mounted_rotatedFile.congr rfl fun _ => rfl) rfl
    (show _ = some 1 by decide) (by decide) (by decide)

/-- One writer rotates and appends to the new file; the other one, which has fetched that file as well,
finds it full and rotates again. -/
theorem writes_once_one : ∃ c, WriteRuns twoWriters c ∧ ids c.shared = [2, 1, 0] ∧
    c.thread true = .inl (.done (.ok ())) ∧ c.thread false = .inl (.fetch oneRecord) ∧
    WritesOnce twoWriters c := by
  have hrun := Relation.ReflTransGen.refl (r := Pool.Step (Section Errorless ioSect) InOrder)
    (a := twoWriters)
  have hrun := hrun.tail (write_next (i := true) rfl rfl
    ((writeFetch_computes rfl).bind (Computes.pure _)) trivial)
  have hrun := hrun.tail (write_next (i := true) rfl rfl (locked_fullFile.bind (Computes.pure _))
    ⟨by decide, _, rfl, rfl⟩)
  have hrun := hrun.tail (write_next (i := true) rfl rfl
    ((writeFetch_computes rfl).bind (Computes.pure _)) trivial)
  have hrun := hrun.tail (write_next (i := false) rfl rfl
    ((writeFetch_computes rfl).bind (Computes.pure _)) trivial)
  have hrun := hrun.tail (write_next (i := true) rfl rfl (locked_rotatedFile.bind (Computes.pure _))
    ⟨by decide, _, rfl, rfl⟩)
  have hrun := hrun.tail (write_next (i := false) rfl rfl (locked_refilledFile.bind (Computes.pure _))
    ⟨by decide, _, rfl, rfl⟩)
  have hrun := hrun.tail (write_next (i := true) rfl rfl
    ((writeUpsert_computes rfl 1 0).bind (Computes.pure _)) trivial)
  exact ⟨_, hrun, rfl, rfl, rfl, writes_once mounted_fullFile atStart_twoWriters hrun⟩

/-- Both writers fetch the file, one of them rotates it, and the other one finds it closed. -/
theorem not_writes_once : ∃ c, Pool.Runs (Section Errorless ioSect) (fun _ _ => True) twoWriters c ∧
    Mounted twoWriters.shared ∧ AtStart twoWriters ∧
    oneRecord.bytes.length ≤ twoWriters.shared.maxActiveFileSize.toNat ∧
    c.thread false = .inl (.done (.fail none)) := by
  have hfetch : Pool.Runs (Section Errorless ioSect) (fun _ _ => True) twoWriters
      ((twoWriters.set false fullFile (.inl (.locked oneRecord 0))).set true fullFile
        (.inl (.locked oneRecord 0))) := by
    refine (Pool.Runs.next .refl false [] trivial rfl ?_ ⟨_, rfl⟩).next true [] trivial rfl ?_ ⟨_, rfl⟩
    · intro r hr
      cases hr
    · intro r hr
      cases hr
  have hrotate := hfetch.tail (.mk true trivial rotates_fullFile)
  have hclean : AllClean [.done 0] := by
    intro r hr
    obtain rfl := List.mem_singleton.mp hr
    trivial
  have hrun := Pool.Runs.next (t := .inl (.done (.fail none))) (w := rotatedFile) hrotate false [.done 0]
    trivial rfl hclean ⟨_, rfl⟩
  exact ⟨_, hrun, mounted_fullFile, atStart_twoWriters, by decide, rfl⟩

end Sample

end Ccask.Audit
