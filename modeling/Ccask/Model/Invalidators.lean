import Ccask.Effect.Simulation
import Ccask.Model.Sections

/-!
# Invalidators that come and go (reader.c)

`ccask_read_datafile_record` starts the invalidator of a file when it opens its descriptor. Here the
invalidators are part of the state: one joins when it is started and leaves when it ends.
-/

namespace Ccask.Model

open Ccask.Effect

/-- A live `datafile_fd_invalidator_thread`, before its test or behind it. -/
inductive Invalidator where
  | asleep (fileId : Nat)
  | closing (fileId : Nat)
  deriving DecidableEq, Repr

def Invalidator.fileId : Invalidator → Nat
  | .asleep fileId | .closing fileId => fileId

/-- What the threads share, with the invalidators that live. -/
structure Watched where
  world : World
  invalidators : List Invalidator

/-- A call that starts no invalidator. -/
def onShared {α : Type} (m : Sys α) : Prog Watched α :=
  m.zoom Watched.world fun w s => { s with world := w }

/-- How the open of a file ends; the thread of its invalidator may not have been created. -/
inductive Opening where
  | opened
  | unwatched
  | failed (errno : Option Errno)

/-- The open of a closed file, with the invalidator it starts. -/
def watchedOpen (file : CcaskFile) : Prog Watched Opening := do
  match ← onShared (attempt 5 (ccaskFilesGetDatafileFd file.fileId)) with
  | .fail e | .retry e => pure (.failed e)
  | .ok ino =>
    onShared (Prog.modify fun w => w.setFile file.fileId fun f => { f with fd := some ino })
    if file.isFdInvalidatorRunning then pure .opened
    else
      match ← Prog.call with
      | .transient | .fail => pure .unwatched
      | .done _ | .intr =>
        Prog.modify fun s => { s with invalidators := .asleep file.fileId :: s.invalidators }
        onShared (Prog.modify fun w =>
          w.setFile file.fileId fun f => { f with isFdInvalidatorRunning := true })
        pure .opened

/-- The section under the write lock: another thread may have opened the file in the meantime. -/
def watchedReadOpen (fileId : Nat) : Prog Watched Opening := do
  let s ← Prog.state
  match ccaskFilesGetFile fileId s.world with
  | none => Prog.block
  | some file => if file.fd.isNone then watchedOpen file else pure .opened

/-- A thread in `ccask_read_datafile_record`; `unwatched` goes on to read a file whose invalidator
could not be started. -/
inductive Reader where
  | check (fileId : Nat) (record : DatafileRecord) (recordPos : Nat)
  | opening (fileId : Nat) (record : DatafileRecord) (recordPos : Nat)
  | reading (fileId : Nat) (record : DatafileRecord) (recordPos : Nat)
  | unwatched (fileId : Nat) (record : DatafileRecord) (recordPos : Nat)
  | done (res : Res DatafileRecord)

def Reader.sect : Reader → Option (Prog Watched Reader)
  | .check fileId record recordPos => some do
    match ← onShared (readCheck fileId) with
    | .ok true => pure (.opening fileId record recordPos)
    | .ok false => pure (.reading fileId record recordPos)
    | .fail e | .retry e => pure (.done (.fail e))
  | .opening fileId record recordPos => some do
    match ← watchedReadOpen fileId with
    | .opened => pure (.reading fileId record recordPos)
    | .unwatched => pure (.unwatched fileId record recordPos)
    | .failed e => pure (.done (.fail e))
  | .reading fileId record recordPos | .unwatched fileId record recordPos => some do
    let res ← onShared (readTransfer fileId record recordPos)
    pure (.done res)
  | .done _ => none

/-- The test of the invalidator, without a lock. -/
def invalidatorPasses (fileId : Nat) (w : World) : Bool :=
  match ccaskFilesGetFile fileId w with
  | none => false
  | some file => decide (¬ file.isActive ∧ file.fd.isSome ∧ 5 ≤ w.clock - file.lastAccessed)

/-- The threads of a process: readers, the caller whose writes come one after another, and the
invalidators. -/
structure Threads (ι : Type) where
  shared : Watched
  reader : ι → Reader
  writer : WriteCall

namespace Threads

variable {ι : Type} [DecidableEq ι]

/-- One thread gets on. The creation of an invalidator succeeds. -/
inductive Step : Threads ι → Threads ι → Prop
  | read {c : Threads ι} {m : Prog Watched Reader} {rest : List Reply} {t : Reader} {s : Watched} (i : ι)
      (rs : List Reply) : (c.reader i).sect = some m → m.run rs c.shared = .returned t rest s →
      (∀ fileId record recordPos, t ≠ .unwatched fileId record recordPos) →
      Step c { c with shared := s, reader := Function.update c.reader i t }
  | call {c : Threads ι} {res : Res DatafileRecord} (i : ι) (fileId : Nat) (record : DatafileRecord)
      (recordPos : Nat) : c.reader i = .done res →
      Step c { c with reader := Function.update c.reader i (.check fileId record recordPos) }
  | write {c : Threads ι} {m : Sys WriteCall} {rest : List Reply} {t : WriteCall} {s : Watched}
      (rs : List Reply) : c.writer.sect = some m → (onShared m).run rs c.shared = .returned t rest s →
      Step c { c with shared := s, writer := t }
  | put {c : Threads ι} {res : Status} (record : DatafileRecord) : c.writer = .done res →
      Step c { c with writer := .fetch record }
  | test {c : Threads ι} {fileId : Nat} (k : Nat) : c.shared.invalidators[k]? = some (.asleep fileId) →
      invalidatorPasses fileId c.shared.world = true →
      Step c { c with shared := { c.shared with
        invalidators := c.shared.invalidators.set k (.closing fileId) } }
  | close {c : Threads ι} {fileId : Nat} (k : Nat) : c.shared.invalidators[k]? = some (.closing fileId) →
      Step c { c with shared := {
        world := c.shared.world.setFile fileId fun file =>
          { file with fd := none, isFdInvalidatorRunning := false }
        invalidators := c.shared.invalidators.eraseIdx k } }
  | hint {c : Threads ι} (fileId : Nat) :
      Step c { c with shared := { c.shared with
        world := c.shared.world.setFile fileId fun file => { file with hasHint := true } } }
  | clock {c : Threads ι} (now : Nat) :
      Step c { c with shared := { c.shared with world := { c.shared.world with clock := now } } }

end Threads

end Ccask.Model
