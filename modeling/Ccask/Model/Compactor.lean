import Ccask.Model.Core

/-!
# Compaction (compactor.c)

Every live record goes into numbered temporary files, then all old files are unlinked
from the oldest to the newest, then the temporary files are renamed.
-/

namespace Ccask.Model

open Ccask.Effect

/-- How the loop over the key directory ends: the id of the last temporary file, unless the
function returns from inside the loop. -/
inductive DumpEnd where
  | returned
  | cancelled (currTempId : Nat)
  | finished (currTempId : Nat)
  deriving DecidableEq, Repr

/-- The temporary file a record of this size goes to, or the id to cancel from. -/
def tempFileFor (currTempId : Nat) (fd : Ino) (recordSize : Nat) : Sys (Except Nat (Nat × Ino)) := do
  match ← lseekEnd (some fd) with
  | none => pure (.error currTempId)
  | some pos =>
    let w ← Prog.state
    if w.maxActiveFileSize.toNat < pos + recordSize then
      match ← attempt 5 (ccaskFilesGetTempDatafileFd (currTempId + 1)) with
      | .ok fd' => pure (.ok (currTempId + 1, fd'))
      | .fail _ | .retry _ => pure (.error (currTempId + 1))
    else pure (.ok (currTempId, fd))

/-- The loop over the entries. It holds the read lock, and so does the caller after every end
but `finished`. -/
def dumpEntries : List KeydirRecord → Nat → Ino → Sys DumpEnd
  | [], currTempId, _ => pure (.finished currTempId)
  | kd :: entries, currTempId, fd => do
    match ← ccaskAllocateDatafileRecord (UInt32.ofNat kd.key.length) kd.valueSize with
    | .fail _ | .retry _ => pure .returned
    | .ok buffers =>
      match ← attempt 5 (ccaskReadDatafileRecord kd.fileId buffers kd.recordPos) with
      | .fail _ | .retry _ => pure (.cancelled currTempId)
      | .ok record =>
        match ← tempFileFor currTempId fd (ccaskGetDatafileRecordTotalSize record) with
        | .error tempId => pure (.cancelled tempId)
        | .ok (tempId, fd') =>
          match ← safeWritev (some fd') record.iov with
          | .ok () => dumpEntries entries tempId fd'
          | .fail _ | .retry _ => pure (.cancelled tempId)

/-- Unlink the old files; an unlink that fails is remembered and the loop goes on. -/
def deleteFiles : List CcaskFile → Status → Sys Status
  | [], deleteRes => pure deleteRes
  | file :: files, deleteRes => do
    let data ← attempt 5 (ccaskFilesDelete file.fileId .data)
    let hint ← if file.hasHint then attempt 5 (ccaskFilesDelete file.fileId .hint) else pure (.ok ())
    deleteFiles files (if data.isOk && hint.isOk then deleteRes else .fail none)

/-- Rename the temporary files `i` to `n`; a failure is only reported. -/
def renameTemps : List Nat → Sys Unit
  | [] => pure ()
  | i :: is => do
    let _ ← attempt 5 (ccaskFilesChangeExt i .tempData .data)
    renameTemps is

/-- The ids of the clean-up loop, which counts an `int` down from `currTempId`. -/
def cancelIds (currTempId : Nat) : List Nat :=
  if currTempId % 2 ^ 32 < 2 ^ 31 then (List.range (currTempId % 2 ^ 32 + 1)).reverse else []

/-- Unlink the temporary files; the ids of those that stay are logged. -/
def deleteTemps : List Nat → Sys (List Nat)
  | [] => pure []
  | i :: is => do
    let res ← attempt 5 (ccaskFilesDelete i .tempData)
    let logged ← deleteTemps is
    pure (if res.isOk then logged else i :: logged)

/-- From the first open to the end of the loop, which leaves the iterator open. -/
def fillTemps : Sys (Res DumpEnd) := do
  match ← attempt 5 (ccaskFilesGetTempDatafileFd 0) with
  | .fail e | .retry e => pure (.fail e)
  | .ok fd =>
    let entries ← ccaskKeydirRecordIter
    let dumpEnd ← dumpEntries entries 0 fd
    pure (.ok dumpEnd)

/-- What follows the loop when it got to its end. -/
def replaceFiles (currTempId : Nat) : Sys Status := do
  let w ← Prog.state
  match ← deleteFiles w.files.reverse (.ok ()) with
  | .fail e | .retry e => pure (.fail e)
  | .ok () =>
    renameTemps (List.range (currTempId + 1))
    pure (.ok ())

/-- The status of `ccask_compactor_dump_keydir`, and the ids of the temporary files that it could
not delete. Only the way through the whole loop closes the iterator. -/
def compactKeydir : Sys (Status × List Nat) := do
  match ← fillTemps with
  | .fail e | .retry e => pure (.fail e, [])
  | .ok .returned => pure (.fail (some .noMemory), [])
  | .ok (.cancelled currTempId) =>
    let logged ← deleteTemps (cancelIds currTempId)
    pure (.fail none, logged)
  | .ok (.finished currTempId) =>
    ccaskKeydirRecordIterClose
    let res ← replaceFiles currTempId
    pure (res, [])

/-- `ccask_compactor_dump_keydir`. -/
def ccaskCompactorDumpKeydir : Sys Status := do
  let (res, _) ← compactKeydir
  pure res

end Ccask.Model
