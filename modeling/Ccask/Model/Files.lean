import Ccask.Model.Records

/-!
# The files of the store (files.c)

An `open` that fails is repeated only after an errno the library does not list. File
ids are `uint64_t`.
-/

namespace Ccask.Model

open Ccask.Effect

/-- The loop of `add_file_to_linked_list`: descending ids, a file before those with the same id. -/
def linkFile (file : CcaskFile) : List CcaskFile → List CcaskFile
  | [] => [file]
  | curr :: rest =>
    if file.fileId < curr.fileId then curr :: linkFile file rest else file :: curr :: rest

/-- `add_file_to_linked_list`. Two names may give one id (`0.data` and `00.data`): a file with the id of the
head is linked without becoming the head. -/
def addFile (file : CcaskFile) : List CcaskFile → List CcaskFile
  | [] => [file]
  | head :: rest =>
    if head.fileId = file.fileId then head :: file :: rest else linkFile file (head :: rest)

theorem addFile_eq_linkFile {file : CcaskFile} {files : List CcaskFile}
    (h : file.fileId ∉ files.map CcaskFile.fileId) : addFile file files = linkFile file files := by
  cases files with
  | nil => rfl
  | cons head rest =>
      rw [List.map_cons, List.mem_cons, not_or] at h
      exact if_neg (Ne.symm h.1)

theorem addFile_of_lt {file head : CcaskFile} (h : head.fileId < file.fileId) (rest : List CcaskFile) :
    addFile file (head :: rest) = file :: head :: rest := by
  rw [addFile, if_neg (Nat.ne_of_lt h), linkFile, if_neg (Nat.lt_asymm h)]

def ccaskFilesGetActiveFile (w : World) : Option CcaskFile := w.files.head?

/-- The hash table holds the nodes of the list. -/
def ccaskFilesGetFile (fileId : Nat) (w : World) : Option CcaskFile :=
  w.files.find? fun file => file.fileId = fileId

def World.setFile (w : World) (fileId : Nat) (f : CcaskFile → CcaskFile) : World :=
  { w with files := w.files.map fun file => if file.fileId = fileId then f file else file }

/-- `open` with O_CREAT. -/
def openCreate (name : Name) : Sys (Res Ino) := do
  match ← Prog.call with
  | .fail => pure (.fail (some .getFdFailed))
  | .transient => pure (.retry none)
  | .done _ | .intr =>
    let w ← Prog.state
    Prog.modify fun w => { w with fs := (w.fs.create name).1 }
    pure (.ok (w.fs.create name).2)

def ccaskFilesGetActiveDatafileFd (id : Nat) : Sys (Res Ino) := openCreate (fileName id .data)

def ccaskFilesGetHintfileFd (id : Nat) : Sys (Res Ino) := openCreate (fileName id .hint)

def ccaskFilesGetTempDatafileFd (id : Nat) : Sys (Res Ino) := openCreate (fileName id .tempData)

/-- `open` with O_RDONLY; a file that is not there is a lasting failure. -/
def ccaskFilesGetDatafileFd (id : Nat) : Sys (Res Ino) := do
  match ← Prog.call with
  | .fail => pure (.fail (some .getFdFailed))
  | .transient => pure (.retry none)
  | .done _ | .intr =>
    let w ← Prog.state
    match w.fs.dir (fileName id .data) with
    | some ino => pure (.ok ino)
    | none => pure (.fail (some .getFdFailed))

/-- `lseek(fd, 0, SEEK_END)`. -/
def lseekEnd (fd : Option Ino) : Sys (Option Nat) := do
  match ← Prog.call with
  | .transient | .fail => pure none
  | .done _ | .intr =>
    let w ← Prog.state
    pure (fd.map fun ino => (w.fs.data ino).length)

def createNewActiveDatafile (id : Nat) : Sys (Res CcaskFile) := do
  match ← attempt 5 (ccaskFilesGetActiveDatafileFd id) with
  | .ok ino =>
    let w ← Prog.state
    pure (.ok ⟨id, some ino, w.clock, false, true, false⟩)
  | .fail e | .retry e => pure (.fail e)

/-- `allocate_datafile_node`. -/
def datafileNode (id : Nat) (hasHint : Bool) (now : Nat) : CcaskFile :=
  ⟨id, none, now, hasHint, false, false⟩

/-- One entry of the directory scan. The caller does not check for a NULL node. -/
def scanEntry (name : Name) : Sys Unit := do
  if name = ['.'] ∨ name = ['.', '.'] then pure ()
  else
    match ← Prog.call with
    | .transient | .fail => pure ()
    | .done _ | .intr =>
      match parseFilename name with
      | none => Prog.block
      | some (.data, id) =>
        if ← malloc then
          Prog.modify fun w => { w with files := addFile (datafileNode id
            (w.fs.dir (fileName id .hint)).isSome w.clock) w.files }
        else Prog.block
      | some _ => pure ()

def scanDirectory : List Name → Sys Unit
  | [] => pure ()
  | name :: names => do
    scanEntry name
    scanDirectory names

/-- The file that takes the writes: a new one, or the newest one when it has no hint file. -/
def chooseActiveFile : Sys Status := do
  let w ← Prog.state
  match w.files with
  | [] =>
    if ← malloc then
      match ← createNewActiveDatafile 0 with
      | .ok file =>
        Prog.modify fun w => { w with files := addFile file w.files }
        pure (.ok ())
      | .fail e | .retry e => pure (.fail e)
    else pure (.fail (some .noMemory))
  | head :: _ =>
    if head.hasHint then
      if ← malloc then
        match ← createNewActiveDatafile ((head.fileId + 1) % 2 ^ 64) with
        | .ok file =>
          Prog.modify fun w => { w with files := addFile file w.files }
          pure (.ok ())
        | .fail e | .retry e => pure (.fail e)
      else pure (.fail (some .noMemory))
    else
      match ← attempt 5 (ccaskFilesGetActiveDatafileFd head.fileId) with
      | .ok ino =>
        Prog.modify fun w =>
          w.setFile head.fileId fun file => { file with isActive := true, fd := some ino }
        pure (.ok ())
      | .fail e | .retry e => pure (.fail e)

/-- `ccask_files_init`, with the entries of the directory in the order `readdir` gives them. -/
def ccaskFilesInit (listing : List Name) (activeFileMaxSize : UInt64) : Sys Status := do
  Prog.modify fun w => { w with maxActiveFileSize := activeFileMaxSize }
  match ← Prog.call with
  | .fail => pure (.fail none)
  | .transient => pure (.retry none)
  | .done _ | .intr =>
    if ← malloc then
      Prog.modify fun w => { w with files := [] }
      scanDirectory listing
      chooseActiveFile
    else pure (.retry (some .noMemory))

def ccaskFilesShutdown : Sys Unit := Prog.modify fun w => { w with files := [] }

/-- `ccask_files_delete`: `unlink`. -/
def ccaskFilesDelete (fileId : Nat) (ext : FileExt) : Sys Status := do
  match ← Prog.call with
  | .fail => pure (.fail none)
  | .transient => pure (.retry none)
  | .done _ | .intr =>
    let w ← Prog.state
    match w.fs.dir (fileName fileId ext) with
    | none => pure (.fail none)
    | some _ =>
      Prog.modify fun w => { w with fs := w.fs.unlink (fileName fileId ext) }
      pure (.ok ())

/-- `ccask_files_change_ext`: `rename`. -/
def ccaskFilesChangeExt (fileId : Nat) (src dst : FileExt) : Sys Status := do
  match ← Prog.call with
  | .fail => pure (.fail none)
  | .transient => pure (.retry none)
  | .done _ | .intr =>
    let w ← Prog.state
    match w.fs.dir (fileName fileId src) with
    | none => pure (.fail none)
    | some _ =>
      Prog.modify fun w => { w with fs := w.fs.rename (fileName fileId src) (fileName fileId dst) }
      pure (.ok ())

/-- `ccask_hintfile_generate`: start the generator thread of a file. -/
def ccaskHintfileGenerate (fileId : Nat) : Sys Status := do
  if ← malloc then
    match ← Prog.call with
    | .transient | .fail => pure (.fail (some .couldntStartThread))
    | .done _ | .intr =>
      Prog.modify fun w => { w with threads := fileId :: w.threads }
      pure (.ok ())
  else pure (.retry (some .noMemory))

/-- `ccask_files_rotate`. A new file is in place before the old one is closed. -/
def ccaskFilesRotate : Sys Status := do
  if ← malloc then
    let w ← Prog.state
    match w.files with
    | [] => Prog.block
    | head :: _ =>
      match ← createNewActiveDatafile ((head.fileId + 1) % 2 ^ 64) with
      | .ok file =>
        Prog.modify fun w =>
          w.setFile head.fileId fun file => { file with fd := none, isActive := false }
        Prog.modify fun w => { w with files := addFile file w.files }
        let w ← Prog.state
        match w.files with
        | _ :: next :: _ =>
          let _ ← attempt 5 (ccaskHintfileGenerate next.fileId)
          pure (.ok ())
        | _ => Prog.block
      | .fail _ | .retry _ => pure (.fail none)
  else pure (.fail (some .noMemory))

end Ccask.Model
