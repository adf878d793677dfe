import Ccask.Audit.AppendOnly
import Ccask.Audit.Refinement

/-!
# Deletes

A delete is a put without a value. The write loop never steps over the empty segment
of the value, so the record of a delete reaches the file but its write never ends.
-/

namespace Ccask.Audit

open Ccask.Effect Ccask.Model

section Write

variable {v : World} {r : DatafileRecord}

/-- Whatever the system answers, the write of a record without a value does not return CCASK_OK. -/
theorem safeWritev_ok (fd : Option Ino) : Ensures (fun _ => True) (safeWritev fd r.iov) v
    (fun res _ => res = .ok () → r.value ≠ []) (fun _ => True) := by
  cases fd with
  | none => exact Ensures.pure (by simp)
  | some ino =>
      refine (safeWritev_ensures _ (iov_fits r) (by simp [DatafileRecord.iov])).mono ?_
        fun _ _ => trivial
      intro res u h hok
      obtain ⟨-, hlast, -⟩ | ⟨hres, -, -⟩ := h
      · exact (iov_last r).mp hlast
      · rw [hres] at hok
        cases hok

/-- A record whose write returns CCASK_OK has a value, and is not larger than a file may be. -/
theorem ccaskWriteRecordBlocking_ok : Ensures (fun _ => True) (ccaskWriteRecordBlocking r) v
    (fun res _ => res = .ok () → r.value ≠ [] ∧ r.bytes.length ≤ v.maxActiveFileSize.toNat)
    (fun _ => True) := by
  refine Ensures.loop (I := fun _ u => u.maxActiveFileSize = v.maxActiveFileSize) ?_
    (fun _ _ _ => trivial) rfl
  intro _ u hu
  refine Ensures.state.bind ?_
  rintro _ w ⟨rfl, rfl⟩
  cases ccaskFilesGetActiveFile w with
  | none => exact Ensures.block trivial
  | some file =>
      refine ((lseekEnd_moves (R := Extends) file.fd w).mono (fun _ _ h => h) fun _ _ => trivial).bind ?_
      intro pos w₁ hw₁
      have hmax := hw₁.threshold
      cases pos with
      | none => exact Ensures.pure (by simp)
      | some pos =>
          simp only []
          split
          · refine ((ccaskFilesRotate_extends w₁).mono (fun _ _ h => h) fun _ _ => trivial).bind ?_
            intro _ w₂ hw₂
            exact Ensures.pure (by simp only [Sum.elim_inl]; rw [hw₂.threshold, hmax, hu])
          · rename_i hfits
            refine (safeWritev_ok file.fd).bind ?_
            intro res _ hres
            cases res with
            | fail e => exact Ensures.pure (by simp)
            | retry e => exact Ensures.pure (by simp)
            | ok _ =>
                refine Ensures.bind Ensures.trivial ?_
                intro res _ _
                have hok : r.value ≠ [] ∧ r.bytes.length ≤ v.maxActiveFileSize.toNat := by
                  refine ⟨hres rfl, ?_⟩
                  rw [bytes_length, ← hu]
                  omega
                cases res with
                | ok _ => exact Ensures.pure fun _ => hok
                | fail e => exact Ensures.pure (by simp)
                | retry e => exact Ensures.pure (by simp)

/-- In a mounted store with room for the record the write never ends. -/
theorem ccaskWriteRecordBlocking_diverges (h : Mounted v) {f : CcaskFile} {rest : List CcaskFile}
    {ino : Ino} (hfiles : v.files = f :: rest)
    (hdir : v.fs.dir (fileName f.fileId .data) = some ino) (hr : r.value = [])
    (hfits : (v.fs.data ino).length + r.bytes.length ≤ v.maxActiveFileSize.toNat) :
    Diverges (ccaskWriteRecordBlocking r) v := by
  have hround : Diverges (writeRecordRound r ()) v := by
    refine Diverges.bind_right Computes.state ?_
    rw [ccaskFilesGetActiveFile, hfiles, List.head?_cons]
    refine Diverges.bind_right (lseekEnd_computes f.fd) ?_
    rw [h.head_fd hfiles hdir, Option.map_some]
    simp only []
    rw [bytes_length] at hfits
    rw [if_neg (Nat.not_lt.mpr hfits)]
    refine Diverges.bind_left (safeWritev_diverges (iov_fits r) (by simp [DatafileRecord.iov]) ?_) _
    exact fun hlast => (iov_last r).mp hlast hr
  rw [ccaskWriteRecordBlocking, Prog.loop_eq (writeRecordRound_consumes r)]
  exact hround.bind_left _

end Write

variable [Zlib]

section Ok

variable {w : World}

/-- A put that returns CCASK_OK has a value, and its record is not larger than a file may be. -/
theorem ccaskPutBlocking_ok (key value : Ptr) : Ensures (fun _ => True) (ccaskPutBlocking key value) w
    (fun res _ => res = .ok () → value.bytes ≠ [] ∧
      16 + key.bytes.length + value.bytes.length ≤ w.maxActiveFileSize.toNat) (fun _ => True) := by
  refine Ensures.state.bind ?_
  rintro w₁ _ ⟨rfl, rfl⟩
  split
  · exact Ensures.pure (by simp)
  · refine (ccaskCreateDatafileRecord_ensures _ _ _).bind ?_
    rintro res _ ⟨rfl, hres⟩
    cases res with
    | fail e => exact Ensures.pure (by simp)
    | retry e => exact Ensures.pure (by simp)
    | ok r =>
        obtain rfl := hres r rfl
        refine ccaskWriteRecordBlocking_ok.bind ?_
        intro res _ hok
        cases res with
        | ok _ =>
            refine Ensures.pure fun _ => ?_
            rw [← Put.length_record ⟨_, key, value⟩]
            exact hok rfl
        | fail e => exact Ensures.pure (by simp)
        | retry e => exact Ensures.pure (by simp)

end Ok

section Law

/-- The record that a delete of `k` writes. -/
def tombstone (timestamp : UInt32) (k : Buf) : DatafileRecord := Put.record ⟨timestamp, some k, none⟩

/-- What follows a delete of `k`, as long as nothing is put under `k`. -/
inductive Later (k : Buf) : World → World → Prop
  | refl (w : World) : Later k w w
  | step {w v u : World} {ps : List Put} :
      Later k w v → Step v ps u → (∀ p ∈ ps, p.key.bytes ≠ k.val) → Later k w u
  | delete {w v u : World} {key : Buf} {rs rest : List Reply} {res : Status} :
      Later k w v → AllClean rs → (ccaskDeleteBlocking (some key)).run rs v = .returned res rest u →
        Later k w u

/-- From `w'` on `k` is as if never stored, and every other key is as in `w`. -/
structure Deleted (k : Buf) (w w' : World) : Prop where
  missing : ∀ v, Later k w' v → ∃ v', Computes (ccaskGet k) v .missing v'
  unlisted : ∀ v, Later k w' v → ∃ keys v', Computes ccaskListKeys v (.ok keys) v' ∧ k.val ∉ keys
  others : ∀ k' : Buf, k'.val ≠ k.val → ∀ res u, Computes (ccaskGet k') w res u →
    ∃ u', Computes (ccaskGet k') w' res u'

/-- A delete of `k` completes with CCASK_OK and deletes `k`: at once when it blocks, else when
the writer takes its record out of the ring buffer. -/
structure DeletionLaw (w : World) (k : Buf) : Prop where
  blocking : ∃ w', Computes (ccaskDeleteBlocking (some k)) w (.ok ()) w' ∧ Deleted k w w'
  async : ∀ w₁ v u, Computes (ccaskDelete (some k)) w (.ok ()) w₁ → Later k w₁ v →
    Computes ccaskWriterRingbufPop v (.ok (tombstone (UInt32.ofNat w.clock) k)) u →
      ∃ u', Computes (ccaskWriteRecordBlocking (tombstone (UInt32.ofNat w.clock) k)) u (.ok ()) u' ∧
        Deleted k w u'

variable {w : World} {k : Buf}

/-- No delete ever returns CCASK_OK, whatever the state and the answers of the system. -/
theorem ccaskDeleteBlocking_not_ok :
    Ensures (fun _ => True) (ccaskDeleteBlocking (some k)) w (fun res _ => res ≠ .ok ())
      (fun _ => True) :=
  (ccaskPutBlocking_ok (some k) none).mono (fun _ _ h hok => (h hok).1 rfl) fun _ _ => trivial

theorem ccaskDeleteBlocking_not_computes {w' : World} :
    ¬ Computes (ccaskDeleteBlocking (some k)) w (.ok ()) w' := by
  intro h
  obtain ⟨rs, rest, -, hrun⟩ := h.exists_run
  exact ccaskDeleteBlocking_not_ok.returned (fun _ _ => trivial) hrun rfl

/-- Nor does the writer finish with a record that a delete has left in the ring buffer. -/
theorem tombstone_not_computes {timestamp : UInt32} {w' : World} :
    ¬ Computes (ccaskWriteRecordBlocking (tombstone timestamp k)) w (.ok ()) w' := by
  intro h
  obtain ⟨rs, rest, -, hrun⟩ := h.exists_run
  exact (ccaskWriteRecordBlocking_ok.returned (fun _ _ => trivial) hrun rfl).1 rfl

/-- In a store in use a delete does not even return. -/
theorem ccaskDeleteBlocking_diverges {seg : Nat → List Put} (h : Holds w seg)
    (hsize : 16 + k.val.length ≤ w.maxActiveFileSize.toNat) :
    Diverges (ccaskDeleteBlocking (some k)) w := by
  obtain ⟨f, rest, hfiles, -, -, -⟩ := h.store.mounted.active
  have hmem : f.fileId ∈ ids w := by rw [ids_eq hfiles]; exact List.mem_cons_self
  have hsmall := h.store.disk.small hmem
  obtain ⟨ino, hdir⟩ := h.store.mounted.dir_of_mem hmem
  have hlen : (tombstone (UInt32.ofNat w.clock) k).bytes.length = 16 + k.val.length := by
    rw [tombstone, Put.length_record]
    rfl
  refine Diverges.bind_right Computes.state ?_
  rw [h.running, if_neg Bool.false_ne_true]
  refine Diverges.bind_right (ccaskCreateDatafileRecord_computes _ _ _) (Diverges.bind_left ?_ _)
  by_cases hfits : (w.fs.data ino).length + (tombstone (UInt32.ofNat w.clock) k).bytes.length ≤
      w.maxActiveFileSize.toNat
  · exact ccaskWriteRecordBlocking_diverges h.store.mounted hfiles hdir rfl hfits
  · have hround := writeRecordRound_rotates h.store.mounted hfiles hdir (by omega)
      (Nat.lt_of_not_le hfits)
    have hempty := data_rotated h.store.mounted hfiles
    change Diverges (Prog.loop (writeRecordRound (tombstone (UInt32.ofNat w.clock) k)) ()) w
    rw [Prog.loop_eq (writeRecordRound_consumes _)]
    refine Diverges.bind_right hround ?_
    refine ccaskWriteRecordBlocking_diverges (h.store.mounted.rotated hfiles) rfl
      (Fs.dir_create_self _ _) rfl ?_
    rw [hempty, List.length_nil, Nat.zero_add, hlen]
    exact hsize

/-- A delete never completes with CCASK_OK, by neither of the two calls, and so never as the law
asks for it. -/
theorem not_deletionLaw (w : World) (k : Buf) : ¬ DeletionLaw w k ∧
    (∀ w', ¬ Computes (ccaskDeleteBlocking (some k)) w (.ok ()) w') ∧
    ∀ timestamp u u', ¬ Computes (ccaskWriteRecordBlocking (tombstone timestamp k)) u (.ok ()) u' := by
  refine ⟨?_, fun w' => ccaskDeleteBlocking_not_computes, fun _ u u' => tombstone_not_computes⟩
  intro h
  obtain ⟨w', hdelete, -⟩ := h.blocking
  exact ccaskDeleteBlocking_not_computes hdelete

end Law

omit [Zlib] in
/-- The delete of a key just put. -/
theorem not_deletionLaw_one : letI := zlib
    ∃ w, Run w [bytePut 0 97 98] ∧ ¬ DeletionLaw w ⟨[97], by decide⟩ := by
  let _ := zlib
  obtain ⟨w, hrun, -⟩ := exists_run_one
  refine ⟨w, hrun, fun h => ?_⟩
  obtain ⟨w', hdelete, -⟩ := h.blocking
  exact ccaskDeleteBlocking_not_computes hdelete

end Ccask.Audit
