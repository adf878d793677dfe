import Ccask.Model.Sections
import Ccask.Effect.Pool

/-!
# A compaction beside other threads (compactor.c)

`ccask_compactor_dump_keydir` in sections. It holds the read lock of the key directory from the first entry to
the last one, and no lock while it unlinks and renames.
-/

namespace Ccask.Model

open Ccask.Effect

/-- `curr_file->previous`: the next newer file of the list. -/
def previousFile (fileId : Nat) (w : World) : Option Nat :=
  ((w.files.takeWhile fun file => file.fileId ≠ fileId).getLast?).map CcaskFile.fileId

/-- The thread in `ccask_compactor_dump_keydir`. A file is pointed to by its id. -/
inductive CompactCall where
  | dumping
  | cancelling (currTempId : Nat)
  | closing (currTempId : Nat)
  | deleting (currFile : Option Nat) (currTempId : Nat) (deleteRes : Status)
  | testing (currFile currTempId : Nat) (deleteRes : Status)
  | deletingHint (currFile currTempId : Nat) (deleteRes : Status)
  | advancing (currFile currTempId : Nat) (deleteRes : Status)
  | renamingTemps (i currTempId : Nat)
  | done (res : Status)

/-- An unlink that fails is remembered. -/
def remembered (deleteRes res : Status) : Status := if res.isOk then deleteRes else .fail none

def CompactCall.sect : CompactCall → Option (Sys CompactCall)
  | .dumping => some do
    match ← fillTemps with
    | .fail e | .retry e => pure (.done (.fail e))
    | .ok .returned => pure (.done (.fail (some .noMemory)))
    | .ok (.cancelled currTempId) => pure (.cancelling currTempId)
    | .ok (.finished currTempId) => pure (.closing currTempId)
  | .cancelling currTempId => some do
    let _ ← deleteTemps (cancelIds currTempId)
    pure (.done (.fail none))
  | .closing currTempId => some do
    ccaskKeydirRecordIterClose
    let w ← Prog.state
    pure (.deleting (w.files.getLast?.map CcaskFile.fileId) currTempId (.ok ()))
  | .deleting (some currFile) currTempId deleteRes => some do
    let res ← attempt 5 (ccaskFilesDelete currFile .data)
    pure (.testing currFile currTempId (remembered deleteRes res))
  | .testing currFile currTempId deleteRes => some do
    let w ← Prog.state
    match ccaskFilesGetFile currFile w with
    | none => Prog.block
    | some file => pure (if file.hasHint then .deletingHint currFile currTempId deleteRes
        else .advancing currFile currTempId deleteRes)
  | .deletingHint currFile currTempId deleteRes => some do
    let res ← attempt 5 (ccaskFilesDelete currFile .hint)
    pure (.advancing currFile currTempId (remembered deleteRes res))
  | .advancing currFile currTempId deleteRes => some do
    let w ← Prog.state
    pure (.deleting (previousFile currFile w) currTempId deleteRes)
  | .deleting none currTempId (.ok ()) => some (pure (.renamingTemps 0 currTempId))
  | .deleting none _ (.fail e) | .deleting none _ (.retry e) => some (pure (.done (.fail e)))
  | .renamingTemps i currTempId =>
    if i ≤ currTempId then some do
      let _ ← attempt 5 (ccaskFilesChangeExt i .tempData .data)
      pure (.renamingTemps (i + 1) currTempId)
    else some (pure (.done (.ok ())))
  | .done _ => none

/-- A compaction and the generators of hint files. -/
structure Compacting where
  shared : World
  compactor : CompactCall
  generator : Nat → GeneratorThread

/-- The thread that gets on. -/
inductive ActingThread where
  | compactor
  | generator (fileId : Nat)

namespace Compacting

/-- A compaction that is called while the generators of the list have been started. -/
def start (w : World) : Compacting where
  shared := w
  compactor := .dumping
  generator fileId := if fileId ∈ w.threads then .start else .ended

/-- One thread gets on, with replies that are allowed. -/
inductive Step (ok : Compacting → ActingThread → List Reply → Prop) (c : Compacting) : Compacting → Prop
  | compact {m : Sys CompactCall} {rs rest : List Reply} {t : CompactCall} {w : World} :
      ok c .compactor rs → c.compactor.sect = some m → m.run rs c.shared = .returned t rest w →
      Step ok c { c with shared := w, compactor := t }
  | generate {m : Sys GeneratorThread} {rs rest : List Reply} {t : GeneratorThread} {w : World} (fileId : Nat) :
      ok c (.generator fileId) rs → (c.generator fileId).sect fileId = some m →
      m.run rs c.shared = .returned t rest w →
      Step ok c { c with shared := w, generator := Function.update c.generator fileId t }

end Compacting

/-- A compaction and calls that put a record each. -/
structure CompactingPuts (ι : Type) where
  shared : World
  compactor : CompactCall
  put : ι → PutCall

namespace CompactingPuts

variable {ι : Type} [DecidableEq ι]

/-- A compaction that is called beside calls with these records. -/
def start (w : World) (record : ι → DatafileRecord) : CompactingPuts ι where
  shared := w
  compactor := .dumping
  put i := .append (record i)

/-- The compaction (`none`) or one of the calls gets on, with replies that are allowed. -/
inductive Step (ok : CompactingPuts ι → Option ι → List Reply → Prop) (c : CompactingPuts ι) :
    Option ι → CompactingPuts ι → Prop
  | compact {m : Sys CompactCall} {rs rest : List Reply} {t : CompactCall} {w : World} :
      ok c none rs → c.compactor.sect = some m → m.run rs c.shared = .returned t rest w →
      Step ok c none { c with shared := w, compactor := t }
  | put {m : Sys PutCall} {rs rest : List Reply} {t : PutCall} {w : World} (i : ι) :
      ok c (some i) rs → (c.put i).sect = some m → m.run rs c.shared = .returned t rest w →
      Step ok c (some i) { c with shared := w, put := Function.update c.put i t }

end CompactingPuts

end Ccask.Model
