import Ccask.Model.Compactor

/-!
# Sections

What the calls do between taking a lock and giving it back. A thread runs its sections one
after another, and other threads run theirs in between.
-/

namespace Ccask.Model

open Ccask.Effect

section Upsert

/-- `ccask_keydir_find`, the lookup of `ccask_keydir_upsert`, under the read lock. No caller removes an
entry, so that its place stands for the pointer to it. -/
def upsertLookup (key : Bytes) : Sys (Option Nat) := do
  let w ← Prog.state
  pure (w.hashTable.findIdx? fun entry => entry.key = key)

/-- The rest of it, under the write lock. HASH_ADD_KEYPTR adds the entry at the end and does not look
for its key. -/
def upsertStore (record : KeydirRecord) (entry : Option Nat) : Sys Status := do
  let w ← Prog.state
  if w.readLocks ≠ 0 then Prog.block
  else
    match entry with
    | some i =>
      Prog.modify fun w => { w with hashTable := w.hashTable.modify i fun entry =>
        { record with key := entry.key } }
      pure (.ok ())
    | none =>
      if ← malloc then
        if ← malloc then
          Prog.modify fun w => { w with hashTable := w.hashTable ++ [record] }
          pure (.ok ())
        else pure (.retry (some .noMemory))
      else pure (.retry (some .noMemory))

/-- A thread in `ccask_keydir_upsert`. -/
inductive UpsertCall where
  | lookup (record : KeydirRecord)
  | store (record : KeydirRecord) (entry : Option Nat)
  | done (res : Status)

def UpsertCall.sect : UpsertCall → Option (Sys UpsertCall)
  | .lookup record => some do
    let entry ← upsertLookup record.key
    pure (.store record entry)
  | .store record entry => some do
    let res ← upsertStore record entry
    pure (.done res)
  | .done _ => none

end Upsert

section Get

/-- `ccask_get` asks for buffers of the sizes its entry has. The entry is read without a lock. -/
def getAllocate (entry : Nat) : Sys (Res DatafileRecord) := do
  let w ← Prog.state
  match w.hashTable[entry]? with
  | none => Prog.block
  | some kd => ccaskAllocateDatafileRecord (UInt32.ofNat kd.key.length) kd.valueSize

/-- The read at the file id and the position the entry has by then. -/
def getRead (entry : Nat) (buffers : DatafileRecord) : Sys (Res DatafileRecord) := do
  let w ← Prog.state
  match w.hashTable[entry]? with
  | none => Prog.block
  | some kd => attempt 5 (ccaskReadDatafileRecord kd.fileId buffers kd.recordPos)

/-- The check of the record, and the copy of as many bytes of its value as the entry says by then. -/
def getCopy [Zlib] (entry : Nat) (record : DatafileRecord) : Sys GetResult := do
  let w ← Prog.state
  match w.hashTable[entry]? with
  | none => Prog.block
  | some kd =>
    let header := ccaskGetDatafileRecordHeader record
    match calculateCrc32 header.timestamp header.keySize header.valueSize (some record.key)
      (some record.value) with
    | none => pure .outOfBounds
    | some crc =>
      if crc ≠ header.crc then pure (.fail (some .crcInvalid))
      else if ← malloc then
        if record.value.length < kd.valueSize.toNat then pure .outOfBounds
        else
          pure (.found ⟨header.timestamp, header.keySize, kd.valueSize,
            record.value.take kd.valueSize.toNat⟩)
      else pure (.fail (some .noMemory))

/-- A thread in `ccask_get`. -/
inductive GetCall where
  | lookup (key : Buf)
  | allocate (entry : Nat)
  | read (entry : Nat) (buffers : DatafileRecord)
  | copy (entry : Nat) (record : DatafileRecord)
  | done (res : GetResult)

def GetCall.sect [Zlib] : GetCall → Option (Sys GetCall)
  | .lookup key => some do
    match ← upsertLookup key.val with
    | none => pure (.done .missing)
    | some entry => pure (.allocate entry)
  | .allocate entry => some do
    match ← getAllocate entry with
    | .fail e | .retry e => pure (.done (.fail e))
    | .ok buffers => pure (.read entry buffers)
  | .read entry buffers => some do
    match ← getRead entry buffers with
    | .fail e | .retry e => pure (.done (.fail e))
    | .ok record => pure (.copy entry record)
  | .copy entry record => some do
    let res ← getCopy entry record
    pure (.done res)
  | .done _ => none

end Get

section Read

/-- Whether the file has to be opened, found out under the read lock. -/
def readCheck (fileId : Nat) : Sys (Res Bool) := do
  let w ← Prog.state
  match ccaskFilesGetFile fileId w with
  | none => pure (.fail (some .noSuchDatafile))
  | some file => pure (.ok file.fd.isNone)

/-- The open under the write lock, unless another thread has opened the file in the meantime. -/
def readOpen (fileId : Nat) : Sys Status := do
  let w ← Prog.state
  match ccaskFilesGetFile fileId w with
  | none => Prog.block
  | some file => if file.fd.isNone then openForRead file else pure (.ok ())

/-- The read, under the read lock again. -/
def readTransfer (fileId : Nat) (record : DatafileRecord) (recordPos : Nat) :
    Sys (Res DatafileRecord) := do
  let w ← Prog.state
  match ← safePreadv ((ccaskFilesGetFile fileId w).bind CcaskFile.fd) record.iov recordPos with
  | .ok [header, key, value] =>
    Prog.modify fun w => w.setFile fileId fun f => { f with lastAccessed := w.clock }
    pure (.ok ⟨header, key, value⟩)
  | .ok _ => Prog.block
  | .fail _ | .retry _ =>
    Prog.modify fun w => w.setFile fileId fun f => { f with lastAccessed := w.clock }
    pure (.fail (some .readFailed))

/-- The test of the descriptor invalidator, without a lock. A file whose invalidator has not been
started does not pass it. -/
def invalidatorTest (fileId : Nat) : Sys Bool := do
  let w ← Prog.state
  match ccaskFilesGetFile fileId w with
  | none => pure false
  | some file => pure (decide (file.isFdInvalidatorRunning ∧ ¬ file.isActive ∧ file.fd.isSome ∧
      5 ≤ w.clock - file.lastAccessed))

/-- What it does under the write lock. -/
def invalidatorClose (fileId : Nat) : Sys Unit :=
  Prog.modify fun w => w.setFile fileId fun file =>
    { file with fd := none, isFdInvalidatorRunning := false }

/-- A thread in `ccask_read_datafile_record`, or the invalidator of a file. What the clock shows next
is a thread as well. -/
inductive ReadThread where
  | check (fileId : Nat) (record : DatafileRecord) (recordPos : Nat)
  | opening (fileId : Nat) (record : DatafileRecord) (recordPos : Nat)
  | reading (fileId : Nat) (record : DatafileRecord) (recordPos : Nat)
  | done (res : Res DatafileRecord)
  | asleep (fileId : Nat)
  | closing (fileId : Nat)
  | ended
  | clock (times : List Nat)

def ReadThread.sect : ReadThread → Option (Sys ReadThread)
  | .check fileId record recordPos => some do
    match ← readCheck fileId with
    | .ok true => pure (.opening fileId record recordPos)
    | .ok false => pure (.reading fileId record recordPos)
    | .fail e | .retry e => pure (.done (.fail e))
  | .opening fileId record recordPos => some do
    match ← readOpen fileId with
    | .ok () => pure (.reading fileId record recordPos)
    | .fail e | .retry e => pure (.done (.fail e))
  | .reading fileId record recordPos => some do
    let res ← readTransfer fileId record recordPos
    pure (.done res)
  | .asleep fileId => some do
    if ← invalidatorTest fileId then pure (.closing fileId) else pure (.asleep fileId)
  | .closing fileId => some do
    invalidatorClose fileId
    pure .ended
  | .clock (now :: times) => some do
    Prog.modify fun w => { w with clock := now }
    pure (.clock times)
  | .done _ | .ended | .clock [] => none

end Read

section Write

/-- The active file is fetched before its lock is taken. -/
def writeFetch : Sys Nat := do
  let w ← Prog.state
  match ccaskFilesGetActiveFile w with
  | none => Prog.block
  | some file => pure file.fileId

/-- How the section under the lock of the file ends. -/
inductive Locked where
  | rotated
  | failed (errno : Option Errno)
  | appended (recordPos : Nat)

/-- What `ccask_write_record_blocking` does under the lock of the file it has fetched. The descriptor of
a file that is not active has been opened by a reader, for reading only. -/
def writeLocked (record : DatafileRecord) (fileId : Nat) : Sys Locked := do
  let w ← Prog.state
  match ccaskFilesGetFile fileId w with
  | none => Prog.block
  | some file =>
    match ← lseekEnd file.fd with
    | none => pure (.failed none)
    | some pos =>
      if w.maxActiveFileSize.toNat < pos + ccaskGetDatafileRecordTotalSize record then
        let _ ← ccaskFilesRotate
        pure .rotated
      else
        match ← safeWritev (if file.isActive then file.fd else none) record.iov with
        | .fail e | .retry e => pure (.failed e)
        | .ok () => pure (.appended pos)

/-- The update of the key directory, after the lock has been given back. -/
def writeUpsert (record : DatafileRecord) (fileId recordPos : Nat) : Sys Status := do
  match ← attempt 5 (ccaskKeydirUpsert (datafileEntry fileId record recordPos)) with
  | .ok () => pure (.ok ())
  | .fail e | .retry e => pure (.fail e)

/-- A thread in `ccask_write_record_blocking`. -/
inductive WriteCall where
  | fetch (record : DatafileRecord)
  | locked (record : DatafileRecord) (fileId : Nat)
  | upsert (record : DatafileRecord) (fileId recordPos : Nat)
  | done (res : Status)

def WriteCall.sect : WriteCall → Option (Sys WriteCall)
  | .fetch record => some do
    let fileId ← writeFetch
    pure (.locked record fileId)
  | .locked record fileId => some do
    match ← writeLocked record fileId with
    | .rotated => pure (.fetch record)
    | .failed e => pure (.done (.fail e))
    | .appended recordPos => pure (.upsert record fileId recordPos)
  | .upsert record fileId recordPos => some do
    let res ← writeUpsert record fileId recordPos
    pure (.done res)
  | .done _ => none

/-- Fetching the active file, and its lock, until the record has been appended: the file and the
position of the record. -/
def appendRound (record : DatafileRecord) (_ : Unit) : Sys (Unit ⊕ Res (Nat × Nat)) := do
  let w ← Prog.state
  match ccaskFilesGetActiveFile w with
  | none => Prog.block
  | some file =>
    match ← lseekEnd file.fd with
    | none => pure (.inr (.fail none))
    | some pos =>
      if w.maxActiveFileSize.toNat < pos + ccaskGetDatafileRecordTotalSize record then
        let _ ← ccaskFilesRotate
        pure (.inl ())
      else
        match ← safeWritev file.fd record.iov with
        | .fail e | .retry e => pure (.inr (.fail e))
        | .ok () => pure (.inr (.ok (file.fileId, pos)))

def writeAppend (record : DatafileRecord) : Sys (Res (Nat × Nat)) := Prog.loop (appendRound record) ()

/-- What of it comes before the write: the file and the position that the record goes to. -/
def seekRound (record : DatafileRecord) (_ : Unit) : Sys (Unit ⊕ Res (CcaskFile × Nat)) := do
  let w ← Prog.state
  match ccaskFilesGetActiveFile w with
  | none => Prog.block
  | some file =>
    match ← lseekEnd file.fd with
    | none => pure (.inr (.fail none))
    | some pos =>
      if w.maxActiveFileSize.toNat < pos + ccaskGetDatafileRecordTotalSize record then
        let _ ← ccaskFilesRotate
        pure (.inl ())
      else pure (.inr (.ok (file, pos)))

def writeSeek (record : DatafileRecord) : Sys (Res (CcaskFile × Nat)) := Prog.loop (seekRound record) ()

/-- The part of `ccask_put_blocking` in front of its write. -/
def putSeek [Zlib] (key value : Ptr) : Sys (Res (DatafileRecord × CcaskFile × Nat)) := do
  let w ← Prog.state
  if w.isShuttingDown then pure (.fail none)
  else
    match ← ccaskCreateDatafileRecord (UInt32.ofNat w.clock) key value with
    | .fail e | .retry e => pure (.fail e)
    | .ok record =>
      match ← writeSeek record with
      | .fail e | .retry e => pure (.fail e)
      | .ok (file, pos) => pure (.ok (record, file, pos))

/-- The write itself, and the update of the key directory behind it. -/
def putWrite (record : DatafileRecord) (file : CcaskFile) (pos : Nat) : Sys Status := do
  match ← safeWritev file.fd record.iov with
  | .fail e | .retry e => pure (.fail e)
  | .ok () =>
    match ← attempt 5 (ccaskKeydirUpsert (datafileEntry file.fileId record pos)) with
    | .ok () => pure (.ok ())
    | .fail e | .retry e => pure (.fail e)

/-- A thread in `ccask_write_record_blocking` whose append is one step. -/
inductive PutCall where
  | append (record : DatafileRecord)
  | upsert (record : DatafileRecord) (fileId recordPos : Nat)
  | done (res : Status)

def PutCall.sect : PutCall → Option (Sys PutCall)
  | .append record => some do
    match ← writeAppend record with
    | .ok (fileId, recordPos) => pure (.upsert record fileId recordPos)
    | .fail e | .retry e => pure (.done (.fail e))
  | .upsert record fileId recordPos => some do
    let res ← writeUpsert record fileId recordPos
    pure (.done res)
  | .done _ => none

end Write

section Generate

/-- A thread in `hintfile_generator_thread`: the hint file is made, the datafile is opened, one record
after another is written, and at the end the file has a hint file or it is deleted. -/
inductive GeneratorThread where
  | start
  | opening (hintfileFd : Ino)
  | scanning (hintfileFd : Ino) (s : Iter × HintfileBuffers)
  | completed
  | failed
  | ended

def GeneratorThread.sect (fileId : Nat) : GeneratorThread → Option (Sys GeneratorThread)
  | .start => some do
    match ← attempt 5 (ccaskFilesGetHintfileFd fileId) with
    | .fail _ | .retry _ => pure .ended
    | .ok hintfileFd => pure (.opening hintfileFd)
  | .opening hintfileFd => some do
    match ← attempt 5 (ccaskDatafileIterOpen fileId) with
    | .fail _ | .retry _ => pure .ended
    | .ok iter => pure (.scanning hintfileFd (iter, .unset))
  | .scanning hintfileFd s => some do
    match ← hintfileGeneratorRound hintfileFd s with
    | .inl s => pure (.scanning hintfileFd s)
    | .inr true => pure .completed
    | .inr false => pure .failed
  | .completed => some do
    Prog.modify fun w => w.setFile fileId fun file => { file with hasHint := true }
    pure .ended
  | .failed => some do
    let _ ← attempt 5 (ccaskFilesDelete fileId .hint)
    pure .ended
  | .ended => none

end Generate

section Shutdown

/-- The thread in `ccask_shutdown`. The list of generators is read once, and each of them is joined. -/
inductive ShutdownCall where
  | call
  | generators
  | joining (fileIds : List Nat)
  | joinWriter
  | destroy
  | keydir
  | files
  | returned
  deriving DecidableEq

/-- What it does next; `writerEnded` says whether the writer thread has ended. -/
def ShutdownCall.sect (writerEnded : Bool) : ShutdownCall → Option (Sys ShutdownCall)
  | .call => some do
    Prog.modify fun w => { w with isShuttingDown := true }
    pure .generators
  | .generators => some do
    let w ← Prog.state
    pure (.joining w.threads)
  | .joining (fileId :: fileIds) => some do
    let w ← Prog.state
    if fileId ∈ w.threads then Prog.block else pure (.joining fileIds)
  | .joining [] => some do
    Prog.modify fun w => { w with ringbuf := w.ringbuf.map fun r => { r with shutdown := true } }
    pure .joinWriter
  | .joinWriter => some (if writerEnded then pure .destroy else Prog.block)
  | .destroy => some do
    ccaskWriterRingbufDestroy
    pure .keydir
  | .keydir => some do
    ccaskKeydirShutdown
    pure .files
  | .files => some do
    ccaskFilesShutdown
    pure .returned
  | .returned => none

end Shutdown

section Queue

/-- The test of `ccask_put`. -/
def putTest : Sys Bool := do
  let w ← Prog.state
  pure w.isShuttingDown

/-- What is made of a try, after which there may be `left` more. -/
def putTried (left : Nat) : Status → Nat ⊕ Status
  | .ok () => .inr (.ok ())
  | .fail e => .inr (.fail e)
  | .retry e =>
    match left with
    | 0 => .inr (.fail e)
    | left + 1 => .inl left

/-- One try of its push. -/
def putTry [Zlib] (key value : Ptr) (left : Nat) : Sys (Nat ⊕ Status) := do
  let w ← Prog.state
  let res ← ccaskWriterRingbufPush (UInt32.ofNat w.clock) key value
  pure (putTried left res)

/-- A call that writes. -/
inductive Call where
  | put (key value : Ptr)
  | putBlocking (key value : Ptr)

def Call.key : Call → Ptr
  | .put key _ | .putBlocking key _ => key

def Call.value : Call → Ptr
  | .put _ value | .putBlocking _ value => value

/-- A caller with the calls it has made and those it is still to make, or the writer thread. What the
clock shows next is a thread as well. -/
inductive QueueThread where
  | calling (made : List (Call × Status)) (rest : List Call)
  | pushing (key value : Ptr) (left : Nat) (made : List (Call × Status)) (rest : List Call)
  | popping
  | writing (record : DatafileRecord)
  | ended
  | clock (times : List Nat)

def QueueThread.sect [Zlib] : QueueThread → Option (Sys QueueThread)
  | .calling made (.put key value :: rest) => some do
    if ← putTest then pure (.calling (made ++ [(.put key value, .fail none)]) rest)
    else pure (.pushing key value 4 made rest)
  | .calling made (.putBlocking key value :: rest) => some do
    let res ← ccaskPutBlocking key value
    pure (.calling (made ++ [(.putBlocking key value, res)]) rest)
  | .pushing key value left made rest => some do
    match ← putTry key value left with
    | .inl left => pure (.pushing key value left made rest)
    | .inr res => pure (.calling (made ++ [(.put key value, res)]) rest)
  | .popping => some do
    match ← ccaskWriterRingbufPop with
    | .ok record => pure (.writing record)
    | .fail _ | .retry _ => pure .ended
  | .writing record => some do
    let _ ← ccaskWriteRecordBlocking record
    pure .popping
  | .clock (now :: times) => some do
    Prog.modify fun w => { w with clock := now }
    pure (.clock times)
  | .calling _ [] | .ended | .clock [] => none

end Queue

end Ccask.Model
