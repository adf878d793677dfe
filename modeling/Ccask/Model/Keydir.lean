import Ccask.Model.Files
import Ccask.Index.LastWrite

/-!
# The key directory, its iterators and its recovery (keydir.c, iterator.c)

uthash keeps the entries in insertion order and finds them by their key bytes.
Recovery takes the upsert as an argument, so that the calls it makes can be followed.
-/

namespace Ccask.Model

open Ccask.Effect

def ccaskKeydirFind (key : Bytes) (w : World) : Option KeydirRecord :=
  Index.get KeydirRecord.key key w.hashTable

/-- `ccask_keydir_upsert`. The write lock waits for iterators that hold the read lock. -/
def ccaskKeydirUpsert (record : KeydirRecord) : Sys Status := do
  let w ← Prog.state
  if w.readLocks ≠ 0 then Prog.block
  else
    match ccaskKeydirFind record.key w with
    | some _ =>
      Prog.modify fun w => { w with hashTable := Index.put KeydirRecord.key record w.hashTable }
      pure (.ok ())
    | none =>
      if ← malloc then
        if ← malloc then
          Prog.modify fun w => { w with hashTable := Index.put KeydirRecord.key record w.hashTable }
          pure (.ok ())
        else pure (.retry (some .noMemory))
      else pure (.retry (some .noMemory))

/-- `ccask_keydir_record_iter` takes the read lock; the entries it will give out. -/
def ccaskKeydirRecordIter : Sys (List KeydirRecord) := do
  Prog.modify fun w => { w with readLocks := w.readLocks + 1 }
  let w ← Prog.state
  pure w.hashTable

def ccaskKeydirRecordIterClose : Sys Unit :=
  Prog.modify fun w => { w with readLocks := w.readLocks - 1 }

/-- `ccask_datafile_iter_t` and `ccask_hintfile_iter_t`. -/
structure Iter where
  fileId : Nat
  fd : Ino
  offset : Nat
  totalSize : Nat
  deriving DecidableEq, Repr

/-- A `total_size` of -1 is stored as an unsigned number. -/
def iterOpen (fileId : Nat) (open' : Sys (Res Ino)) : Sys (Res Iter) := do
  match ← attempt 5 open' with
  | .fail e | .retry e => pure (.fail e)
  | .ok ino =>
    let size ← lseekEnd (some ino)
    pure (.ok ⟨fileId, ino, 0, size.getD (2 ^ 64 - 1)⟩)

def ccaskDatafileIterOpen (fileId : Nat) : Sys (Res Iter) :=
  iterOpen fileId (ccaskFilesGetDatafileFd fileId)

def ccaskHintfileIterOpen (fileId : Nat) : Sys (Res Iter) :=
  iterOpen fileId (ccaskFilesGetHintfileFd fileId)

/-- An end of file inside a header counts as the end of the iteration. -/
def iterErrno : Option Errno → Option Errno
  | some .unexpectedEof => some .iterEnd
  | e => e

/-- `ccask_datafile_iter_next`: the record, its position and the iterator after it. The step is
a sum of `uint32_t`. -/
def ccaskDatafileIterNext (iter : Iter) : Sys (Res (DatafileRecord × Nat × Iter)) := do
  if iter.totalSize ≤ iter.offset then pure (.fail (some .iterEnd))
  else if ← malloc then
    match ← safePread (some iter.fd) datafileRecordHeaderSize iter.offset with
    | .fail e | .retry e => pure (.fail (iterErrno e))
    | .ok headerBuf =>
      let header := ccaskGetDatafileRecordHeader ⟨headerBuf, [], []⟩
      match ← mallocAll 2 with
      | .fail e | .retry e => pure (.fail e)
      | .ok () =>
        match ← safePreadv (some iter.fd) [.of (freshBuf header.keySize), .of (freshBuf header.valueSize)]
          (iter.offset + datafileRecordHeaderSize) with
        | .ok [key, value] =>
          pure (.ok (⟨headerBuf, key, value⟩, iter.offset,
            { iter with offset := iter.offset + (16 + header.keySize + header.valueSize).toNat }))
        | .ok _ => Prog.block
        | .fail e | .retry e => pure (.fail e)
  else pure (.fail (some .noMemory))

/-- `ccask_hintfile_iter_next`. -/
def ccaskHintfileIterNext (iter : Iter) : Sys (Res (HintfileRecord × Nat × Iter)) := do
  if iter.totalSize ≤ iter.offset then pure (.fail (some .iterEnd))
  else if ← malloc then
    match ← safePread (some iter.fd) hintfileRecordHeaderSize iter.offset with
    | .fail e | .retry e => pure (.fail (iterErrno e))
    | .ok headerBuf =>
      let header := ccaskGetHintfileRecordHeader ⟨headerBuf, []⟩
      if ← malloc then
        match ← safePreadv (some iter.fd) [.of (freshBuf header.keySize)]
          (iter.offset + hintfileRecordHeaderSize) with
        | .ok [key] =>
          pure (.ok (⟨headerBuf, key⟩, iter.offset,
            { iter with offset := iter.offset + (20 + header.keySize).toNat }))
        | .ok _ => Prog.block
        | .fail e | .retry e => pure (.fail e)
      else pure (.fail (some .noMemory))
  else pure (.fail (some .noMemory))

section Recovery

variable (upsert : KeydirRecord → Sys Status)

/-- The entry that recovery makes of a record of a datafile. -/
def datafileEntry (fileId : Nat) (record : DatafileRecord) (recordPos : Nat) : KeydirRecord :=
  let header := ccaskGetDatafileRecordHeader record
  ⟨record.key, fileId, recordPos, header.valueSize, header.timestamp⟩

/-- The entry that recovery makes of a record of a hint file. -/
def hintfileEntry (fileId : Nat) (record : HintfileRecord) : KeydirRecord :=
  let header := ccaskGetHintfileRecordHeader record
  ⟨record.key, fileId, header.recordPos.toNat, header.valueSize, header.timestamp⟩

def recoverDatafileRound (fileId : Nat) (iter : Iter) : Sys (Iter ⊕ Status) := do
  match ← ccaskDatafileIterNext iter with
  | .ok (record, recordPos, iter') =>
    match ← attempt 5 (upsert (datafileEntry fileId record recordPos)) with
    | .ok () => pure (.inl iter')
    | .fail e | .retry e => pure (.inr (.fail e))
  | .fail _ | .retry _ => pure (.inr (.ok ()))

/-- `recover_datafile`; whatever ends the iteration is taken for the end of the file. -/
def recoverDatafile (fileId : Nat) : Sys Status := do
  match ← attempt 5 (ccaskDatafileIterOpen fileId) with
  | .fail e | .retry e => pure (.fail e)
  | .ok iter => Prog.loop (recoverDatafileRound upsert fileId) iter

def recoverHintfileRound (fileId : Nat) (iter : Iter) : Sys (Iter ⊕ Status) := do
  match ← ccaskHintfileIterNext iter with
  | .ok (record, _, iter') =>
    match ← attempt 5 (upsert (hintfileEntry fileId record)) with
    | .ok () => pure (.inl iter')
    | .fail e | .retry e => pure (.inr (.fail e))
  | .fail _ | .retry _ => pure (.inr (.ok ()))

/-- `recover_hintfile`. -/
def recoverHintfile (fileId : Nat) : Sys Status := do
  match ← attempt 5 (ccaskHintfileIterOpen fileId) with
  | .fail e | .retry e => pure (.fail e)
  | .ok iter => Prog.loop (recoverHintfileRound upsert fileId) iter

/-- `keydir_recover` over the files from the oldest on. -/
def recoverFiles : List CcaskFile → Sys Status
  | [] => pure (.ok ())
  | file :: files => do
    match ← (if file.hasHint then recoverHintfile upsert file.fileId
      else recoverDatafile upsert file.fileId) with
    | .ok () => recoverFiles files
    | .fail e | .retry e => pure (.fail e)

end Recovery

def keydirRecover : Sys Status := do
  let w ← Prog.state
  recoverFiles ccaskKeydirUpsert w.files.reverse

def ccaskKeydirInit : Sys Status := do
  Prog.modify fun w => { w with hashTable := [], readLocks := 0 }
  keydirRecover

/-- `ccask_keydir_shutdown` waits for iterators, too. -/
def ccaskKeydirShutdown : Sys Unit := do
  let w ← Prog.state
  if w.readLocks ≠ 0 then Prog.block
  else Prog.modify fun w => { w with hashTable := [] }

end Ccask.Model
