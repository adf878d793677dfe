import Ccask.Effect.Simulation
import Ccask.Index.Linked
import Ccask.Model.Files

/-!
# The file list in memory (files.c)

The nodes with their `next` and `previous` pointers, the head, the tail and the hash table. The list of
files that the rest of the model has is what stands between head and tail. A pointer that leads to no
node is not followed: the program gets no further.
-/

namespace Ccask.Model.Linked

open Ccask.Effect Ccask.Index

/-- `ccask_file_t *`; `none` is NULL. -/
abbrev FilePtr := Option Nat

/-- `ccask_file_t` with its pointers. -/
abbrev FileNode := Cell CcaskFile

/-- `files_state` and the nodes it leads to. `malloc` gives the addresses from `fresh` on. -/
structure FilesState where
  mem : Memory CcaskFile
  fresh : Nat
  hashTable : List Nat
  head : FilePtr
  tail : FilePtr

/-- Store through a pointer. -/
def FilesState.store (s : FilesState) (file : Nat) (f : FileNode → FileNode) : Option FilesState := do
  let node ← s.mem file
  some { s with mem := Function.update s.mem file (some (f node)) }

/-- The loop of `add_file_to_linked_list`; the list has no more nodes than were allocated. -/
def skipNewer (mem : Memory CcaskFile) (fileId : Nat) : Nat → FilePtr → Option FilePtr
  | 0, _ => none
  | _ + 1, none => some none
  | n + 1, some curr => do
    let node ← mem curr
    if fileId < node.value.fileId then skipNewer mem fileId n node.next else some (some curr)

def addFileToLinkedList (file : Nat) (s : FilesState) : Option FilesState := do
  match s.head with
  | none =>
    let s ← s.store file fun node => { node with next := none, previous := none }
    some { s with head := some file, tail := some file }
  | some curr =>
    let node ← s.mem file
    let head ← s.mem curr
    if head.value.fileId < node.value.fileId then
      let s ← s.store file fun node => { node with next := some curr, previous := none }
      let s ← s.store curr fun node => { node with previous := some file }
      some { s with head := some file }
    else
      match ← skipNewer s.mem node.value.fileId (s.fresh + 1) (some curr) with
      | none =>
        let tail ← s.tail
        let s ← s.store tail fun node => { node with next := some file }
        let s ← s.store file fun node => { node with previous := some tail, next := none }
        some { s with tail := some file }
      | some curr =>
        let c ← s.mem curr
        let s ← s.store file fun node => { node with next := some curr, previous := c.previous }
        let s ← (match c.previous with
          | some previous => s.store previous fun node => { node with next := some file }
          | none => some s)
        s.store curr fun node => { node with previous := some file }

/-- HASH_ADD behind it. -/
def addFile (file : Nat) (s : FilesState) : Option FilesState := do
  let s ← addFileToLinkedList file s
  some { s with hashTable := s.hashTable ++ [file] }

/-- One round of `ccask_files_shutdown`: the file is closed, unlinked, taken from the hash table and freed. -/
def shutdownFile (curr : Nat) (s : FilesState) : Option FilesState := do
  let s ← s.store curr fun node => { node with value := { node.value with fd := none } }
  let node ← s.mem curr
  let s ← (match node.previous with
    | some previous => s.store previous fun n => { n with next := node.next }
    | none => some { s with head := node.next })
  let s ← (match node.next with
    | some next => s.store next fun n => { n with previous := node.previous }
    | none => some { s with tail := node.previous })
  some { s with hashTable := s.hashTable.erase curr, mem := Function.update s.mem curr none }

/-- `ccask_files_shutdown`; HASH_ITER gives the files in some order. -/
def ccaskFilesShutdown (order : List Nat) (s : FilesState) : Option FilesState :=
  order.foldlM (fun s curr => shutdownFile curr s) s

/-- The process with the list as it is in memory; `world.files` is not used. -/
structure Process where
  world : World
  filesState : FilesState

/-- A call that does not touch the list. -/
def onWorld {α : Type} (m : Sys α) : Prog Process α :=
  m.zoom Process.world fun w p => { p with world := w }

/-- A step on the list. -/
def onFiles (f : FilesState → Option FilesState) : Prog Process Unit := do
  let p ← Prog.state
  match f p.filesState with
  | none => Prog.block
  | some s => Prog.modify fun p => { p with filesState := s }

/-- A node that `malloc` has given, with its fields set. -/
def allocate (file : CcaskFile) : Prog Process Nat := do
  let p ← Prog.state
  Prog.modify fun p => { p with filesState := { p.filesState with
    mem := Function.update p.filesState.mem p.filesState.fresh (some ⟨file, none, none⟩)
    fresh := p.filesState.fresh + 1 } }
  pure p.filesState.fresh

/-- What a pointer leads to. -/
def deref (file : FilePtr) : Prog Process FileNode := do
  let p ← Prog.state
  match file.bind p.filesState.mem with
  | none => Prog.block
  | some node => pure node

def scanEntry (name : Name) : Prog Process Unit := do
  if name = ['.'] ∨ name = ['.', '.'] then pure ()
  else
    match ← Prog.call with
    | .transient | .fail => pure ()
    | .done _ | .intr =>
      match parseFilename name with
      | none => Prog.block
      | some (.data, id) =>
        if ← onWorld malloc then
          let p ← Prog.state
          let file ← allocate (datafileNode id (p.world.fs.dir (fileName id .hint)).isSome p.world.clock)
          onFiles (addFile file)
        else Prog.block
      | some _ => pure ()

def scanDirectory : List Name → Prog Process Unit
  | [] => pure ()
  | name :: names => do
    scanEntry name
    scanDirectory names

/-- A new active file at the front of the list. -/
def addActiveFile (id : Nat) : Prog Process Status := do
  if ← onWorld malloc then
    match ← onWorld (createNewActiveDatafile id) with
    | .ok file =>
      let file ← allocate file
      onFiles (addFile file)
      pure (.ok ())
    | .fail e | .retry e => pure (.fail e)
  else pure (.fail (some .noMemory))

def chooseActiveFile : Prog Process Status := do
  let p ← Prog.state
  match p.filesState.head with
  | none => addActiveFile 0
  | some head =>
    let node ← deref (some head)
    if node.value.hasHint then addActiveFile ((node.value.fileId + 1) % 2 ^ 64)
    else
      match ← onWorld (attempt 5 (ccaskFilesGetActiveDatafileFd node.value.fileId)) with
      | .ok ino =>
        onFiles fun s => s.store head fun node =>
          { node with value := { node.value with isActive := true, fd := some ino } }
        pure (.ok ())
      | .fail e | .retry e => pure (.fail e)

/-- `ccask_files_init`. The list of an earlier call is forgotten. -/
def ccaskFilesInit (listing : List Name) (activeFileMaxSize : UInt64) : Prog Process Status := do
  onWorld (Prog.modify fun w => { w with maxActiveFileSize := activeFileMaxSize })
  match ← Prog.call with
  | .fail => pure (.fail none)
  | .transient => pure (.retry none)
  | .done _ | .intr =>
    if ← onWorld malloc then
      onFiles fun s => some { s with head := none, tail := none, hashTable := [] }
      scanDirectory listing
      chooseActiveFile
    else pure (.retry (some .noMemory))

/-- `ccask_files_rotate` up to the pointer it hands to `ccask_hintfile_generate`. -/
def rotateFiles : Prog Process (Res FilePtr) := do
  if ← onWorld malloc then
    let p ← Prog.state
    match p.filesState.head with
    | none => Prog.block
    | some head =>
      let node ← deref (some head)
      match ← onWorld (createNewActiveDatafile ((node.value.fileId + 1) % 2 ^ 64)) with
      | .ok file =>
        let file ← allocate file
        onFiles fun s => s.store head fun node =>
          { node with value := { node.value with fd := none, isActive := false } }
        onFiles (addFile file)
        let p ← Prog.state
        let node ← deref p.filesState.head
        pure (.ok node.next)
      | .fail _ | .retry _ => pure (.fail none)
  else pure (.fail (some .noMemory))

def ccaskFilesRotate : Prog Process Status := do
  match ← rotateFiles with
  | .ok file =>
    let node ← deref file
    let _ ← onWorld (attempt 5 (ccaskHintfileGenerate node.value.fileId))
    pure (.ok ())
  | .fail e | .retry e => pure (.fail e)

end Ccask.Model.Linked
