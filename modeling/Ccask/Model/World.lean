import Ccask.Effect.Program
import Ccask.Model.Names

/-!
# The state of the process and of its data directory

The directory maps names to inodes, and an open descriptor is modelled by the inode
it refers to: an unlinked file stays readable through it. Files are shorter than 2^63
bytes (`off_t`), so positions are natural numbers.
-/

namespace Ccask.Model

open Ccask.Effect

abbrev Bytes := List UInt8

/-- What a `void *` and its `uint32_t` size describe. -/
abbrev Buf := { b : Bytes // b.length < 2 ^ 32 }

/-- A pointer argument; `none` is NULL, whose size is 0. -/
abbrev Ptr := Option Buf

def Ptr.bytes (p : Ptr) : Bytes := (p.map Subtype.val).getD []

theorem Ptr.length_lt (p : Ptr) : p.bytes.length < 2 ^ 32 := by
  cases p with
  | none => decide
  | some b => exact b.2

/-- `ccask_error_e`. -/
inductive Errno where
  | unknown
  | noMemory
  | crcInvalid
  | noKey
  | iterEnd
  | getFdFailed
  | maxFdsOpened
  | noSuchDatafile
  | readFailed
  | writeFailed
  | couldntStartThread
  | unexpectedEof
  | ringbufferFull
  deriving DecidableEq, Repr

/-- `ccask_status_e` with what the call hands out, or the `ccask_errno` that it sets or hands on; with `none`
the one a call below has left, if any, stays as it is. -/
inductive Res (α : Type) where
  | ok (a : α)
  | fail (errno : Option Errno)
  | retry (errno : Option Errno)
  deriving DecidableEq, Repr

def Res.isOk {α : Type} : Res α → Bool
  | .ok _ => true
  | _ => false

abbrev Status := Res Unit

abbrev Ino := Nat

/-- The data directory. New files get the inode `next`; there are no hard links. -/
structure Fs where
  dir : Name → Option Ino
  data : Ino → Bytes
  next : Ino
  fresh : ∀ {n i}, dir n = some i → i < next
  single : ∀ {m n i}, dir m = some i → dir n = some i → m = n

namespace Fs

def empty : Fs where
  dir _ := none
  data _ := []
  next := 0
  fresh h := by cases h
  single h := by cases h

/-- The contents a name leads to. -/
def read (fs : Fs) (name : Name) : Option Bytes := (fs.dir name).map fs.data

/-- A write in append mode. -/
def append (fs : Fs) (ino : Ino) (bytes : Bytes) : Fs :=
  { fs with data := Function.update fs.data ino (fs.data ino ++ bytes) }

/-- Open with O_CREAT: the file that is there, or a new empty one. -/
def create (fs : Fs) (name : Name) : Fs × Ino :=
  match h : fs.dir name with
  | some ino => (fs, ino)
  | none =>
    ({ dir := Function.update fs.dir name (some fs.next)
       data := Function.update fs.data fs.next []
       next := fs.next + 1
       fresh := by
         intro n i hi
         by_cases hn : n = name
         · subst hn
           rw [Function.update_self] at hi
           cases hi
           exact Nat.lt_succ_self _
         · rw [Function.update_of_ne hn] at hi
           exact Nat.lt_succ_of_lt (fs.fresh hi)
       single := by
         intro m n i hm hn
         by_cases hm' : m = name <;> by_cases hn' : n = name
         · rw [hm', hn']
         · rw [hm', Function.update_self] at hm
           rw [Function.update_of_ne hn'] at hn
           cases hm
           exact absurd (fs.fresh hn) (Nat.lt_irrefl _)
         · rw [hn', Function.update_self] at hn
           rw [Function.update_of_ne hm'] at hm
           cases hn
           exact absurd (fs.fresh hm) (Nat.lt_irrefl _)
         · rw [Function.update_of_ne hm'] at hm
           rw [Function.update_of_ne hn'] at hn
           exact fs.single hm hn }, fs.next)

def unlink (fs : Fs) (name : Name) : Fs where
  dir := Function.update fs.dir name none
  data := fs.data
  next := fs.next
  fresh {n i} hi := by
    by_cases hn : n = name
    · rw [hn, Function.update_self] at hi; cases hi
    · rw [Function.update_of_ne hn] at hi; exact fs.fresh hi
  single {m n i} hm hn := by
    by_cases hm' : m = name
    · rw [hm', Function.update_self] at hm; cases hm
    · by_cases hn' : n = name
      · rw [hn', Function.update_self] at hn; cases hn
      · rw [Function.update_of_ne hm'] at hm
        rw [Function.update_of_ne hn'] at hn
        exact fs.single hm hn

/-- `rename`: the old name goes, and what the new name led to is no longer linked. -/
def rename (fs : Fs) (src dst : Name) : Fs where
  dir n := if n = dst then fs.dir src else if n = src then none else fs.dir n
  data := fs.data
  next := fs.next
  fresh {n i} hi := by
    split at hi
    · exact fs.fresh hi
    · split at hi
      · cases hi
      · exact fs.fresh hi
  single {m n i} hm hn := by
    split at hm <;> split at hn
    · rw [‹m = dst›, ‹n = dst›]
    · split at hn
      · cases hn
      · exact absurd (fs.single hn hm) ‹¬ n = src›
    · split at hm
      · cases hm
      · exact absurd (fs.single hm hn) ‹¬ m = src›
    · split at hm
      · cases hm
      · split at hn
        · cases hn
        · exact fs.single hm hn

section Lemmas

variable (fs : Fs) (ino : Ino) (bytes : Bytes) (name m n : Name)

@[simp] theorem dir_append : (fs.append ino bytes).dir = fs.dir := rfl

theorem data_append (i : Ino) : (fs.append ino bytes).data i =
    if i = ino then fs.data ino ++ bytes else fs.data i := by
  simp only [append, Function.update_apply]

@[simp] theorem data_append_self : (fs.append ino bytes).data ino = fs.data ino ++ bytes := by
  simp [data_append]

theorem data_append_of_ne {i : Ino} (h : i ≠ ino) : (fs.append ino bytes).data i = fs.data i := by
  simp [data_append, h]

theorem append_nil : fs.append ino [] = fs := by
  simp [append]

theorem append_append (more : Bytes) :
    (fs.append ino bytes).append ino more = fs.append ino (bytes ++ more) := by
  simp [append]

theorem create_of_some {i : Ino} (h : fs.dir name = some i) : fs.create name = (fs, i) := by
  unfold create
  split
  · rename_i j hj
    rw [h] at hj
    cases hj
    rfl
  · rename_i hj
    rw [h] at hj
    cases hj

theorem create_of_none (h : fs.dir name = none) : (fs.create name).2 = fs.next ∧
    (fs.create name).1.dir = Function.update fs.dir name (some fs.next) ∧
    (fs.create name).1.data = Function.update fs.data fs.next [] := by
  unfold create
  split
  · rename_i j hj
    rw [h] at hj
    cases hj
  · exact ⟨rfl, rfl, rfl⟩

theorem dir_create_self : (fs.create name).1.dir name = some (fs.create name).2 := by
  cases h : fs.dir name with
  | some i => rw [create_of_some fs name h]; exact h
  | none =>
      obtain ⟨hi, hd, -⟩ := create_of_none fs name h
      rw [hd, hi, Function.update_self]

theorem dir_create_of_ne {n : Name} (h : n ≠ name) : (fs.create name).1.dir n = fs.dir n := by
  cases hn : fs.dir name with
  | some i => rw [create_of_some fs name hn]
  | none => rw [(create_of_none fs name hn).2.1, Function.update_of_ne h]

/-- Creating a file leaves the contents of every other inode. -/
theorem data_create {i : Ino} (h : i < fs.next) : (fs.create name).1.data i = fs.data i := by
  cases hn : fs.dir name with
  | some j => rw [create_of_some fs name hn]
  | none => rw [(create_of_none fs name hn).2.2, Function.update_of_ne (Nat.ne_of_lt h)]

theorem next_le_create : fs.next ≤ (fs.create name).1.next := by
  unfold create
  split
  · exact Nat.le_refl _
  · exact Nat.le_succ _

theorem data_create_self :
    (fs.create name).1.data (fs.create name).2 = (fs.read name).getD [] := by
  cases hn : fs.dir name with
  | some j => rw [create_of_some fs name hn, read, hn]; rfl
  | none =>
      obtain ⟨hi, -, hd⟩ := create_of_none fs name hn
      rw [hd, hi, Function.update_self, read, hn]
      rfl

/-- A file that is opened or made under another name is another file. -/
theorem create_ne {m : Name} {i : Ino} (h : fs.dir m = some i) (name : Name) (hne : m ≠ name) :
    (fs.create name).2 ≠ i := by
  cases hn : fs.dir name with
  | some j =>
      rw [create_of_some fs name hn]
      rintro rfl
      exact hne (fs.single h hn)
  | none =>
      rw [(create_of_none fs name hn).1]
      exact Nat.ne_of_gt (fs.fresh h)

@[simp] theorem data_unlink : (fs.unlink name).data = fs.data := rfl

theorem dir_unlink : (fs.unlink name).dir n = if n = name then none else fs.dir n := by
  simp only [unlink, Function.update_apply]

@[simp] theorem data_rename : (fs.rename m n).data = fs.data := rfl

theorem dir_rename (x : Name) : (fs.rename m n).dir x =
    if x = n then fs.dir m else if x = m then none else fs.dir x := rfl

theorem read_append {fs : Fs} {ino : Ino} {name : Name} (h : fs.dir name = some ino) (bytes : Bytes) :
    (fs.append ino bytes).read = Function.update fs.read name (some (fs.data ino ++ bytes)) := by
  funext m
  rw [Function.update_apply]
  split
  · rename_i hm
    rw [hm, read, dir_append, h, Option.map_some, data_append_self]
  · rename_i hm
    rw [read, read, dir_append]
    cases hd : fs.dir m with
    | none => rfl
    | some i =>
        have hne : i ≠ ino := by
          rintro rfl
          exact hm (fs.single hd h)
        rw [Option.map_some, Option.map_some, data_append_of_ne fs ino bytes hne]

theorem read_create :
    (fs.create name).1.read = Function.update fs.read name (some ((fs.read name).getD [])) := by
  funext m
  rw [Function.update_apply]
  split
  · rename_i hm
    rw [hm, read, dir_create_self, Option.map_some, data_create_self]
  · rename_i hm
    rw [read, read, dir_create_of_ne fs name hm]
    cases hd : fs.dir m with
    | none => rfl
    | some i => rw [Option.map_some, Option.map_some, data_create fs name (fs.fresh hd)]

theorem read_unlink : (fs.unlink name).read = Function.update fs.read name none := by
  funext x
  rw [Function.update_apply, read, dir_unlink, data_unlink]
  split
  · rfl
  · rfl

theorem isSome_read : (fs.read name).isSome = (fs.dir name).isSome := Option.isSome_map

theorem read_eq_none : fs.read name = none ↔ fs.dir name = none := Option.map_eq_none_iff

end Lemmas

theorem exists_of_read {fs : Fs} {name : Name} {c : Bytes} (h : fs.read name = some c) :
    ∃ ino, fs.dir name = some ino ∧ fs.data ino = c :=
  Option.map_eq_some_iff.mp h

end Fs

/-- `ccask_file_t` without its lock; the list order stands for `next` and `previous`. -/
structure CcaskFile where
  fileId : Nat
  fd : Option Ino
  lastAccessed : Nat
  hasHint : Bool
  isActive : Bool
  isFdInvalidatorRunning : Bool
  deriving DecidableEq, Repr

/-- `ccask_keydir_record_t`; the size of the key is the length of its bytes. -/
structure KeydirRecord where
  key : Bytes
  fileId : Nat
  recordPos : Nat
  valueSize : UInt32
  timestamp : UInt32
  deriving DecidableEq, Repr

/-- `ccask_datafile_record_t`: the three buffers. -/
structure DatafileRecord where
  header : Bytes
  key : Bytes
  value : Bytes
  deriving DecidableEq, Repr

/-- `ccask_writer_ringbuf_t` without its mutex and condition. -/
structure Ringbuf where
  buf : List DatafileRecord
  capacity : Nat
  head : Nat
  tail : Nat
  shutdown : Bool
  deriving DecidableEq, Repr

/-- The statics of the library, with the directory and the clock. `files` runs from head to
tail, `hashTable` in uthash's insertion order, `readLocks` counts the read locks on it. -/
structure World where
  fs : Fs
  clock : Nat
  files : List CcaskFile
  maxActiveFileSize : UInt64
  hashTable : List KeydirRecord
  readLocks : Nat
  threads : List Nat
  ringbuf : Option Ringbuf
  isShuttingDown : Bool

/-- A process that has not called the library yet. -/
def World.boot (fs : Fs) (clock : Nat) : World where
  fs := fs
  clock := clock
  files := []
  maxActiveFileSize := 50
  hashTable := []
  readLocks := 0
  threads := []
  ringbuf := none
  isShuttingDown := false

abbrev Sys := Prog World

section Attempt

variable {α : Type}

/-- CCASK_ATTEMPT: go on while the answer is CCASK_RETRY. -/
def attempt : Nat → Sys (Res α) → Sys (Res α)
  | 0, _ => pure (.retry none)
  | n + 1, expr => do
    match ← expr with
    | .retry e => if n = 0 then pure (.retry e) else attempt n expr
    | r => pure r

theorem attempt_computes {n : Nat} {expr : Sys (Res α)} {w w' : World} {r : Res α}
    (h : Computes expr w r w') (hr : ∀ e, r ≠ .retry e) : Computes (attempt (n + 1) expr) w r w' := by
  refine h.bind ?_
  cases r with
  | retry e => exact absurd rfl (hr e)
  | ok a => exact Computes.pure _
  | fail e => exact Computes.pure _

/-- What every try ensures, all of them do, if a try that has to be repeated keeps `I`. -/
theorem attempt_ensures {A : Reply → Prop} {n : Nat} {expr : Sys (Res α)} {w : World}
    {I : World → Prop} {Q : Res α → World → Prop} {C : World → Prop} (hw : I w)
    (hQ : ∀ e v, I v → Q (.retry e) v)
    (h : ∀ v, I v → Ensures A expr v (fun r u => match r with | .retry _ => I u | r => Q r u) C) :
    Ensures A (attempt n expr) w Q C := by
  induction n generalizing w with
  | zero => exact Ensures.pure (hQ _ _ hw)
  | succ n ih =>
      refine (h w hw).bind ?_
      intro r u hr
      cases r with
      | retry e =>
          change Ensures A (if n = 0 then pure (.retry e) else attempt n expr) u Q C
          split
          · exact Ensures.pure (hQ _ _ hr)
          · exact ih hr
      | ok a => exact Ensures.pure hr
      | fail e => exact Ensures.pure hr

/-- There is at least one try, and the last answer is one of a try. -/
theorem attempt_succ_ensures {A : Reply → Prop} {n : Nat} {expr : Sys (Res α)} {w : World}
    {I : World → Prop} {Q : Res α → World → Prop} {C : World → Prop} (hw : I w)
    (h : ∀ v, I v → Ensures A expr v (fun r u => Q r u ∧ ∀ e, r = .retry e → I u) C) :
    Ensures A (attempt (n + 1) expr) w Q C := by
  induction n generalizing w with
  | zero =>
      refine (h w hw).bind ?_
      rintro r u ⟨hr, -⟩
      cases r with
      | retry e => exact Ensures.pure hr
      | ok a => exact Ensures.pure hr
      | fail e => exact Ensures.pure hr
  | succ n ih =>
      refine (h w hw).bind ?_
      rintro r u ⟨hr, hI⟩
      cases r with
      | retry e => exact ih (hI e rfl)
      | ok a => exact Ensures.pure hr
      | fail e => exact Ensures.pure hr

/-- The tries end when each of them does. -/
theorem attempt_returns {n N : Nat} {expr : Sys (Res α)} {w : World} {I : World → Prop} (hw : I w)
    (h : ∀ v, I v → Returns expr v N)
    (hI : ∀ v, I v → Ensures (fun _ => True) expr v (fun r u => ∀ e, r = .retry e → I u)
      (fun _ => True)) : Returns (attempt n expr) w (n * N) := by
  induction n generalizing w with
  | zero => exact Returns.pure _
  | succ n ih =>
      have hsum : (n + 1) * N = N + n * N := by rw [Nat.succ_mul, Nat.add_comm]
      rw [hsum]
      refine (h w hw).bind fun rs r rest u hr => ?_
      cases r with
      | retry e =>
          show Returns (if n = 0 then pure (.retry e) else attempt n expr) u (n * N)
          split
          · exact Returns.pure _
          · exact ih ((hI w hw).returned (fun _ _ => trivial) hr e rfl)
      | ok a => exact Returns.pure _
      | fail e => exact Returns.pure _

end Attempt

end Ccask.Model
