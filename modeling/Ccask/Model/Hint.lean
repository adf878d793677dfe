import Ccask.Model.Keydir

/-!
# Hint files (hint.c)

A generator scans a datafile that is no longer written and appends one hint record for
each record it finds. `threads` holds the generators that have not ended yet.
-/

namespace Ccask.Model

open Ccask.Effect

/-- One record of the generator's loop; `true` when it could be written. `buffers` are the pointers in
`hint_record`, which both ends of the round free. -/
def hintfileRecordWrite (hintfileFd : Ino) (record : DatafileRecord) (recordPos : Nat)
    (buffers : HintfileBuffers) : Sys (Bool × HintfileBuffers) := do
  let header := ccaskGetDatafileRecordHeader record
  match ← ccaskCreateHintfileRecord header.timestamp header.keySize header.valueSize
    (UInt64.ofNat recordPos) record.key buffers with
  | (.fail _, buffers) | (.retry _, buffers) => do
    let buffers ← freeHintfileRecord buffers
    pure (false, buffers)
  | (.ok hint, buffers) =>
    match ← safeWritev (some hintfileFd) hint.iov with
    | .ok () => do
      let buffers ← freeHintfileRecord buffers
      pure (true, buffers)
    | .fail _ | .retry _ => do
      let buffers ← freeHintfileRecord buffers
      pure (false, buffers)

/-- The loop ends with `true` when the iteration has ended, with `false` at `generation_failed`. -/
def hintfileGeneratorRound (hintfileFd : Ino) (s : Iter × HintfileBuffers) :
    Sys ((Iter × HintfileBuffers) ⊕ Bool) := do
  match ← ccaskDatafileIterNext s.1 with
  | .fail _ | .retry _ => pure (.inr true)
  | .ok (record, recordPos, iter') =>
    match ← hintfileRecordWrite hintfileFd record recordPos s.2 with
    | (true, buffers) => pure (.inl (iter', buffers))
    | (false, _) => pure (.inr false)

/-- `hintfile_generator_thread`. When the datafile cannot be opened the hint file stays. -/
def hintfileGeneratorThread (fileId : Nat) : Sys Unit := do
  match ← attempt 5 (ccaskFilesGetHintfileFd fileId) with
  | .fail _ | .retry _ => pure ()
  | .ok hintfileFd =>
    match ← attempt 5 (ccaskDatafileIterOpen fileId) with
    | .fail _ | .retry _ => pure ()
    | .ok iter =>
      if ← Prog.loop (hintfileGeneratorRound hintfileFd) (iter, .unset) then
        Prog.modify fun w => w.setFile fileId fun file => { file with hasHint := true }
      else
        let _ ← attempt 5 (ccaskFilesDelete fileId .hint)
        pure ()

/-- A generator that was started runs to its end. -/
def runGenerator (fileId : Nat) : Sys Unit := do
  hintfileGeneratorThread fileId
  Prog.modify fun w => { w with threads := w.threads.erase fileId }

def joinGenerators : List Nat → Sys Unit
  | [] => pure ()
  | fileId :: fileIds => do
    runGenerator fileId
    joinGenerators fileIds

def ccaskHintfileGeneratorInit : Sys Unit := Prog.modify fun w => { w with threads := [] }

/-- `ccask_hintfile_generator_shutdown` waits for every generator started so far. -/
def ccaskHintfileGeneratorShutdown : Sys Unit := do
  let w ← Prog.state
  joinGenerators w.threads

end Ccask.Model
