import Ccask.Model.Compactor
import Ccask.Audit.Transfers

/-!
# The calls of the library without errors

One result for each small function: what it returns and the state it leaves when no
system call fails.
-/

namespace Ccask.Audit

open Ccask.Effect Ccask.Model

variable {w : World}

/-- A call whose clean replies are answered in one way. -/
theorem call_clean {β : Type} {k : Reply → Sys β} {b : β} {w' : World}
    (hk : ∀ n, k (.done n) = k .intr) (hm : Computes (k .intr) w b w') :
    Computes (Prog.call >>= k) w b w' := by
  refine Computes.call ?_ hm
  intro r hr
  cases r with
  | done n => exact hk n
  | intr => rfl
  | transient => exact False.elim hr
  | fail => exact False.elim hr

theorem malloc_computes : Computes malloc w true w :=
  call_clean (fun _ => rfl) (Computes.pure true)

/-- What follows deals with memory and with none. -/
theorem malloc_ensures {A : Reply → Prop} {α : Type} {k : Bool → Sys α} {Q : α → World → Prop}
    {C : World → Prop} (hC : C w) (hk : ∀ b, Ensures A (k b) w Q C) :
    Ensures A (malloc >>= k) w Q C := by
  unfold malloc
  rw [bind_assoc]
  refine Ensures.call_bind hC fun r _ => ?_
  cases r with
  | done n => exact hk true
  | intr => exact hk true
  | transient => exact hk false
  | fail => exact hk false

theorem malloc_uses : Prog.Uses malloc := Prog.uses_call _

theorem lseekEnd_uses (fd : Option Ino) : Prog.Uses (lseekEnd fd) := Prog.uses_call _

theorem mallocAll_computes (n : Nat) : Computes (mallocAll n) w (.ok ()) w := by
  induction n with
  | zero => exact Computes.pure _
  | succ n ih => exact malloc_computes.bind ih

theorem ccaskAllocateDatafileRecord_computes (keySize valueSize : UInt32) :
    Computes (ccaskAllocateDatafileRecord keySize valueSize) w
      (.ok ⟨List.replicate datafileRecordHeaderSize 0, freshBuf keySize, freshBuf valueSize⟩) w :=
  (mallocAll_computes 3).bind (Computes.pure _)

theorem openCreate_computes (name : Name) :
    Computes (openCreate name) w (.ok (w.fs.create name).2) { w with fs := (w.fs.create name).1 } :=
  call_clean (fun _ => rfl)
    (Computes.state.bind ((Computes.modify _).bind (Computes.pure _)))

theorem ccaskFilesGetDatafileFd_computes {id : Nat} {ino : Ino}
    (h : w.fs.dir (fileName id .data) = some ino) :
    Computes (ccaskFilesGetDatafileFd id) w (.ok ino) w := by
  refine call_clean (fun _ => rfl) (Computes.state.bind ?_)
  rw [h]
  exact Computes.pure _

theorem lseekEnd_computes (fd : Option Ino) :
    Computes (lseekEnd fd) w (fd.map fun ino => (w.fs.data ino).length) w :=
  call_clean (fun _ => rfl) (Computes.state.bind (Computes.pure _))

theorem createNewActiveDatafile_computes (id : Nat) :
    Computes (createNewActiveDatafile id) w
      (.ok ⟨id, some (w.fs.create (fileName id .data)).2, w.clock, false, true, false⟩)
      { w with fs := (w.fs.create (fileName id .data)).1 } := by
  refine (attempt_computes (openCreate_computes _) (by simp)).bind ?_
  exact Computes.state.bind (Computes.pure _)

theorem ccaskHintfileGenerate_computes (id : Nat) :
    Computes (ccaskHintfileGenerate id) w (.ok ()) { w with threads := id :: w.threads } := by
  refine malloc_computes.bind ?_
  exact call_clean (fun _ => rfl) (Computes.modify_bind (Computes.pure _))

/-- The state after an upsert. -/
def upserted (w : World) (record : KeydirRecord) : World :=
  { w with hashTable := Index.put KeydirRecord.key record w.hashTable }

theorem find_upserted (w : World) (record : KeydirRecord) (k : Bytes) :
    ccaskKeydirFind k (upserted w record) =
      if record.key = k then some record else ccaskKeydirFind k w :=
  Index.get_put k record w.hashTable

theorem ccaskKeydirUpsert_computes (record : KeydirRecord) (hl : w.readLocks = 0) :
    Computes (ccaskKeydirUpsert record) w (.ok ()) (upserted w record) := by
  refine Computes.state.bind ?_
  rw [if_neg (by simp [hl])]
  cases ccaskKeydirFind record.key w with
  | some _ => exact (Computes.modify _).bind (Computes.pure _)
  | none => exact malloc_computes.bind (malloc_computes.bind ((Computes.modify _).bind (Computes.pure _)))

section Records

/-- A record whose header tells the sizes of its key and value. -/
structure Sized (r : DatafileRecord) : Prop where
  header : r.header.length = datafileRecordHeaderSize
  key : (ccaskGetDatafileRecordHeader r).keySize.toNat = r.key.length
  value : (ccaskGetDatafileRecordHeader r).valueSize.toNat = r.value.length

theorem Sized.bytes_length {r : DatafileRecord} (h : Sized r) :
    r.bytes.length = 16 + r.key.length + r.value.length := by
  simp only [DatafileRecord.bytes, List.length_append, h.header, datafileRecordHeaderSize]

theorem bytes_length (r : DatafileRecord) : r.bytes.length = ccaskGetDatafileRecordTotalSize r := by
  simp only [DatafileRecord.bytes, List.length_append, ccaskGetDatafileRecordTotalSize]

theorem of_fits (b : Bytes) : (Iovec.of b).Fits := by simp [Iovec.of, Iovec.Fits]

@[simp] theorem of_window (b : Bytes) : (Iovec.of b).window = b := by simp [Iovec.of, Iovec.window]

theorem iov_fits (r : DatafileRecord) : ∀ v ∈ r.iov, v.Fits := by
  intro v hv
  simp only [DatafileRecord.iov, List.mem_cons, List.not_mem_nil, or_false] at hv
  rcases hv with rfl | rfl | rfl <;> exact of_fits _

theorem iov_fresh (r : DatafileRecord) : ∀ v ∈ r.iov, v.iovBase = 0 := by
  intro v hv
  simp only [DatafileRecord.iov, List.mem_cons, List.not_mem_nil, or_false] at hv
  rcases hv with rfl | rfl | rfl <;> rfl

theorem iov_last (r : DatafileRecord) : LastNonempty r.iov ↔ r.value ≠ [] := by
  simp [DatafileRecord.iov, Iovec.of, List.length_pos_iff]

theorem gather_iov (r : DatafileRecord) : gather r.iov = r.bytes := by
  simp [DatafileRecord.iov, DatafileRecord.bytes]

theorem wanted_iov (r : DatafileRecord) : wanted r.iov = ccaskGetDatafileRecordTotalSize r := by
  simp only [DatafileRecord.iov, wanted_cons, wanted_nil, Iovec.of, ccaskGetDatafileRecordTotalSize]
  omega

variable [Zlib]

/-- The checksum `ccask_create_datafile_record` stores; the buffers are as long as their sizes say. -/
def checksum (timestamp : UInt32) (key value : Ptr) : UInt32 :=
  (calculateCrc32 timestamp key.size value.size (key.map Subtype.val) (value.map Subtype.val)).getD 0

/-- The record `ccask_create_datafile_record` makes. -/
def mkRecord (timestamp : UInt32) (key value : Ptr) : DatafileRecord :=
  ⟨be32 (checksum timestamp key value) ++ be32 timestamp ++ be32 key.size ++ be32 value.size,
    key.bytes, value.bytes⟩

theorem zlibCrc32_isSome (crc : UInt32) (p : Ptr) :
    (zlibCrc32 crc (p.map Subtype.val) p.size).isSome := by
  cases p with
  | none => rfl
  | some b =>
      have h := Ptr.toNat_size (some b)
      simp only [Ptr.bytes, Option.map_some, Option.getD_some] at h
      simp [zlibCrc32, h]

theorem calculateCrc32_eq (timestamp : UInt32) (key value : Ptr) :
    calculateCrc32 timestamp key.size value.size (key.map Subtype.val) (value.map Subtype.val) =
      some (checksum timestamp key value) := by
  have h : (calculateCrc32 timestamp key.size value.size (key.map Subtype.val)
      (value.map Subtype.val)).isSome := by
    have h4 : ∀ c v, zlibCrc32 c (some (native32 v)) 4 = some (Zlib.crc32 c (native32 v)) := by
      intro c v
      simp only [zlibCrc32, length_native32]
      rfl
    simp only [calculateCrc32, h4, Option.bind_eq_bind, Option.bind_some]
    obtain ⟨c, hc⟩ := Option.isSome_iff_exists.mp (zlibCrc32_isSome
      (Zlib.crc32 (Zlib.crc32 (Zlib.crc32 0 (native32 timestamp)) (native32 key.size))
        (native32 value.size)) key)
    rw [hc]
    exact zlibCrc32_isSome c value
  obtain ⟨c, hc⟩ := Option.isSome_iff_exists.mp h
  rw [checksum, hc]
  rfl

theorem ccaskCreateDatafileRecord_computes (timestamp : UInt32) (key value : Ptr) :
    Computes (ccaskCreateDatafileRecord timestamp key value) w (.ok (mkRecord timestamp key value)) w := by
  unfold ccaskCreateDatafileRecord
  rw [calculateCrc32_eq]
  exact (ccaskAllocateDatafileRecord_computes _ _).bind (Computes.pure _)

@[simp] theorem header_mkRecord (timestamp : UInt32) (key value : Ptr) :
    ccaskGetDatafileRecordHeader (mkRecord timestamp key value) =
      ⟨checksum timestamp key value, timestamp, key.size, value.size⟩ := by
  simp only [ccaskGetDatafileRecordHeader, mkRecord, List.append_assoc, drop_be32, drop_be32_8,
    drop_be32_12, readBe32_be32, readBe32_be32_self]

theorem sized_mkRecord (timestamp : UInt32) (key value : Ptr) : Sized (mkRecord timestamp key value) := by
  constructor
  · rfl
  · rw [header_mkRecord]; exact key.toNat_size
  · rw [header_mkRecord]; exact value.toNat_size

/-- What a caller puts, with the time of the call. -/
structure Put where
  timestamp : UInt32
  key : Ptr
  value : Ptr

/-- Its record. -/
def Put.record (p : Put) : DatafileRecord := mkRecord p.timestamp p.key p.value

/-- The entry that leads to its record. -/
def Put.entry (p : Put) (fileId recordPos : Nat) : KeydirRecord :=
  ⟨p.key.bytes, fileId, recordPos, p.value.size, p.timestamp⟩

theorem Put.sized (p : Put) : Sized p.record := sized_mkRecord _ _ _

@[simp] theorem Put.record_key (p : Put) : p.record.key = p.key.bytes := rfl

@[simp] theorem Put.record_value (p : Put) : p.record.value = p.value.bytes := rfl

theorem Put.length_record (p : Put) :
    p.record.bytes.length = 16 + p.key.bytes.length + p.value.bytes.length :=
  p.sized.bytes_length

theorem datafileEntry_record (p : Put) (fileId recordPos : Nat) :
    datafileEntry fileId p.record recordPos = p.entry fileId recordPos := by
  simp only [datafileEntry, Put.entry, Put.record, header_mkRecord]
  rfl

end Records

end Ccask.Audit
