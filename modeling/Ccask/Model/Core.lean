import Ccask.Model.Writer

/-!
# The API and the read path (core.c, reader.c)
-/

namespace Ccask.Model

open Ccask.Effect

/-- The descriptor of the file is opened for reading, and its invalidator started, when it is
closed. -/
def openForRead (file : CcaskFile) : Sys Status := do
  match ← attempt 5 (ccaskFilesGetDatafileFd file.fileId) with
  | .fail e | .retry e => pure (.fail e)
  | .ok ino =>
    Prog.modify fun w => w.setFile file.fileId fun f => { f with fd := some ino }
    if file.isFdInvalidatorRunning then pure (.ok ())
    else
      match ← Prog.call with
      | .transient | .fail => pure (.ok ())
      | .done _ | .intr =>
        Prog.modify fun w => w.setFile file.fileId fun f => { f with isFdInvalidatorRunning := true }
        pure (.ok ())

/-- `ccask_read_datafile_record` into buffers of the sizes the key directory has. -/
def ccaskReadDatafileRecord (fileId : Nat) (record : DatafileRecord) (recordPos : Nat) :
    Sys (Res DatafileRecord) := do
  let w ← Prog.state
  match ccaskFilesGetFile fileId w with
  | none => pure (.fail (some .noSuchDatafile))
  | some file =>
    match ← (if file.fd.isNone then openForRead file else pure (.ok ())) with
    | .fail e | .retry e => pure (.fail e)
    | .ok () =>
      let w ← Prog.state
      match ← safePreadv ((ccaskFilesGetFile fileId w).bind CcaskFile.fd) record.iov recordPos with
      | .ok [header, key, value] =>
        Prog.modify fun w => w.setFile fileId fun f => { f with lastAccessed := w.clock }
        pure (.ok ⟨header, key, value⟩)
      | .ok _ => Prog.block
      | .fail _ | .retry _ =>
        Prog.modify fun w => w.setFile fileId fun f => { f with lastAccessed := w.clock }
        pure (.fail (some .readFailed))

/-- The descriptor invalidator of a file finds it idle, open and not active. -/
def datafileFdInvalidate (fileId : Nat) (w : World) : World :=
  w.setFile fileId fun file =>
    if file.isFdInvalidatorRunning ∧ ¬ file.isActive ∧ file.fd.isSome ∧ 5 ≤ w.clock - file.lastAccessed
    then { file with fd := none, isFdInvalidatorRunning := false } else file

/-- `ccask_record_t` with a value that is not NULL. -/
structure CcaskRecord where
  timestamp : UInt32
  keySize : UInt32
  valueSize : UInt32
  value : Bytes
  deriving DecidableEq, Repr

/-- What `ccask_get` comes to: CCASK_OK with a record, CCASK_OK with value NULL, CCASK_FAIL,
or a read past the end of a buffer. -/
inductive GetResult where
  | found (record : CcaskRecord)
  | missing
  | fail (errno : Option Errno)
  | outOfBounds
  deriving DecidableEq, Repr

def ccaskGet [Zlib] (key : Buf) : Sys GetResult := do
  let w ← Prog.state
  match ccaskKeydirFind key.val w with
  | none => pure .missing
  | some kd =>
    match ← ccaskAllocateDatafileRecord (UInt32.ofNat kd.key.length) kd.valueSize with
    | .fail e | .retry e => pure (.fail e)
    | .ok buffers =>
      match ← attempt 5 (ccaskReadDatafileRecord kd.fileId buffers kd.recordPos) with
      | .fail e | .retry e => pure (.fail e)
      | .ok record =>
        let header := ccaskGetDatafileRecordHeader record
        match calculateCrc32 header.timestamp header.keySize header.valueSize (some record.key)
          (some record.value) with
        | none => pure .outOfBounds
        | some crc =>
          if crc ≠ header.crc then pure (.fail (some .crcInvalid))
          else if ← malloc then
            pure (.found ⟨header.timestamp, header.keySize, kd.valueSize,
              record.value.take kd.valueSize.toNat⟩)
          else pure (.fail (some .noMemory))

def ccaskPut [Zlib] (key value : Ptr) : Sys Status := do
  let w ← Prog.state
  if w.isShuttingDown then pure (.fail none)
  else
    match ← attempt 5 (ccaskWriterRingbufPush (UInt32.ofNat w.clock) key value) with
    | .ok () => pure (.ok ())
    | .fail e | .retry e => pure (.fail e)

def ccaskPutBlocking [Zlib] (key value : Ptr) : Sys Status := do
  let w ← Prog.state
  if w.isShuttingDown then pure (.fail none)
  else
    match ← ccaskCreateDatafileRecord (UInt32.ofNat w.clock) key value with
    | .fail e | .retry e => pure (.fail e)
    | .ok record =>
      match ← ccaskWriteRecordBlocking record with
      | .ok () => pure (.ok ())
      | .fail e | .retry e => pure (.fail e)

def ccaskDelete [Zlib] (key : Ptr) : Sys Status := ccaskPut key none

def ccaskDeleteBlocking [Zlib] (key : Ptr) : Sys Status := ccaskPutBlocking key none

/-- What `ccask_list_keys`, `ccask_keys_iter_next` until it ends and `ccask_keys_iter_close`
hand out. -/
def ccaskListKeys : Sys (Res (List Bytes)) := do
  if ← malloc then
    let entries ← ccaskKeydirRecordIter
    ccaskKeydirRecordIterClose
    pure (.ok (entries.map KeydirRecord.key))
  else pure (.fail (some .noMemory))

/-- `ccask_options_t` without the directory, whose entries come in the order of `listing`. -/
structure CcaskOptions where
  listing : List Name
  writerRingbufCapacity : Nat
  datafileRotateThreshold : UInt64

def ccaskInit (opts : CcaskOptions) : Sys Status := do
  Prog.modify fun w => { w with isShuttingDown := false }
  match ← attempt 5 (ccaskFilesInit opts.listing opts.datafileRotateThreshold) with
  | .fail _ | .retry _ => pure (.fail none)
  | .ok () =>
    match ← attempt 5 ccaskKeydirInit with
    | .fail _ | .retry _ =>
      ccaskFilesShutdown
      pure (.fail none)
    | .ok () =>
      match ← attempt 5 (ccaskWriterStart opts.writerRingbufCapacity) with
      | .fail _ | .retry _ =>
        ccaskKeydirShutdown
        ccaskFilesShutdown
        pure (.fail none)
      | .ok () =>
        ccaskHintfileGeneratorInit
        pure (.ok ())

def ccaskShutdown : Sys Unit := do
  Prog.modify fun w => { w with isShuttingDown := true }
  ccaskHintfileGeneratorShutdown
  ccaskWriterStop
  ccaskKeydirShutdown
  ccaskFilesShutdown

end Ccask.Model
