import Ccask.Model.Hint

/-!
# The write path (writer.c, writer_ringbuf.c)
-/

namespace Ccask.Model

open Ccask.Effect

/-- One call of `ccask_write_record_blocking`; it calls itself again after a rotation, whatever
the rotation answered. -/
def writeRecordRound (record : DatafileRecord) (_ : Unit) : Sys (Unit ⊕ Status) := do
  let w ← Prog.state
  match ccaskFilesGetActiveFile w with
  | none => Prog.block
  | some file =>
    match ← lseekEnd file.fd with
    | none => pure (.inr (.fail none))
    | some pos =>
      if w.maxActiveFileSize.toNat < pos + ccaskGetDatafileRecordTotalSize record then
        let _ ← ccaskFilesRotate
        pure (.inl ())
      else
        match ← safeWritev file.fd record.iov with
        | .fail e | .retry e => pure (.inr (.fail e))
        | .ok () =>
          match ← attempt 5 (ccaskKeydirUpsert (datafileEntry file.fileId record pos)) with
          | .ok () => pure (.inr (.ok ()))
          | .fail e | .retry e => pure (.inr (.fail e))

def ccaskWriteRecordBlocking (record : DatafileRecord) : Sys Status :=
  Prog.loop (writeRecordRound record) ()

/-- The section of `ccask_writer_ringbuf_push` under the mutex. -/
def ccaskWriterRingbufPush [Zlib] (timestamp : UInt32) (key value : Ptr) : Sys Status := do
  let w ← Prog.state
  match w.ringbuf with
  | none => Prog.block
  | some ringbuf =>
    let next := (ringbuf.head + 1) % ringbuf.capacity
    if next = ringbuf.tail then pure (.retry (some .ringbufferFull))
    else
      match ← ccaskCreateDatafileRecord timestamp key value with
      | .ok record =>
        Prog.modify fun w => { w with ringbuf := some { ringbuf with
          buf := ringbuf.buf.set ringbuf.head record, head := next } }
        pure (.ok ())
      | .fail e | .retry e => pure (.fail e)

/-- `ccask_writer_ringbuf_pop`: it waits while the buffer is empty and no shutdown is asked for. -/
def ccaskWriterRingbufPop : Sys (Res DatafileRecord) := do
  let w ← Prog.state
  match w.ringbuf with
  | none => Prog.block
  | some ringbuf =>
    if ringbuf.tail = ringbuf.head then
      if ringbuf.shutdown then pure (.fail none) else Prog.block
    else
      match ringbuf.buf[ringbuf.tail]? with
      | none => Prog.block
      | some record =>
        Prog.modify fun w => { w with ringbuf := some { ringbuf with
          tail := (ringbuf.tail + 1) % ringbuf.capacity } }
        pure (.ok record)

/-- One round of `writer_thread_main`, which does not look at the result of the write. -/
def writerThreadRound (_ : Unit) : Sys (Unit ⊕ Unit) := do
  match ← ccaskWriterRingbufPop with
  | .fail _ | .retry _ => pure (.inr ())
  | .ok record =>
    let _ ← ccaskWriteRecordBlocking record
    pure (.inl ())

def writerThreadMain : Sys Unit := Prog.loop writerThreadRound ()

/-- The buffer that `calloc` leaves. -/
def Ringbuf.init (capacity : Nat) : Ringbuf :=
  ⟨List.replicate capacity ⟨[], [], []⟩, capacity, 0, 0, false⟩

def ccaskWriterRingbufInit (capacity : Nat) : Sys Status := do
  match ← mallocAll 2 with
  | .fail e | .retry e => pure (.fail e)
  | .ok () =>
    Prog.modify fun w => { w with ringbuf := some (.init capacity) }
    pure (.ok ())

def ccaskWriterRingbufDestroy : Sys Unit := Prog.modify fun w => { w with ringbuf := none }

/-- `ccask_writer_start`; a failed `pthread_create` never answers CCASK_RETRY. -/
def ccaskWriterStart (capacity : Nat) : Sys Status := do
  match ← ccaskWriterRingbufInit capacity with
  | .fail e | .retry e => pure (.fail e)
  | .ok () =>
    match ← Prog.call with
    | .done _ | .intr => pure (.ok ())
    | .transient | .fail =>
      ccaskWriterRingbufDestroy
      pure (.fail (some .couldntStartThread))

/-- `ccask_writer_stop`: the writer thread empties the buffer before it is joined. -/
def ccaskWriterStop : Sys Unit := do
  Prog.modify fun w => { w with ringbuf := w.ringbuf.map fun r => { r with shutdown := true } }
  writerThreadMain
  ccaskWriterRingbufDestroy

end Ccask.Model
