import Ccask.Model.World
import Mathlib.Algebra.BigOperators.Group.List.Basic

/-!
# Transfers that may be short (utils.c)

The `safe_*` functions repeat a system call until every segment is done. A segment is
done when the inner loop steps over it, and that loop stops as soon as no byte of the
last transfer is left: a final segment without bytes is never stepped over.
-/

namespace Ccask.Model

open Ccask.Effect

/-- `struct iovec`, with `iovBase` counted from the start of the buffer it points into. -/
structure Iovec where
  buf : Bytes
  iovBase : Nat
  iovLen : Nat
  deriving DecidableEq, Repr

namespace Iovec

/-- A segment for a whole buffer. -/
def of (b : Bytes) : Iovec := ⟨b, 0, b.length⟩

def window (v : Iovec) : Bytes := (v.buf.drop v.iovBase).take v.iovLen

/-- Store bytes at the base. -/
def fill (v : Iovec) (data : Bytes) : Iovec :=
  { v with buf := v.buf.take v.iovBase ++ data ++ v.buf.drop (v.iovBase + data.length) }

/-- The rest of the segment runs to the end of its buffer. -/
def Fits (v : Iovec) : Prop := v.iovBase + v.iovLen = v.buf.length

end Iovec

/-- Bytes that the segments still ask for (`iov_total_len`). -/
def wanted (iov : List Iovec) : Nat := (iov.map Iovec.iovLen).sum

def gather (iov : List Iovec) : Bytes := iov.flatMap Iovec.window

/-- What a vectored read stores into the segments. -/
def scatter : Bytes → List Iovec → List Iovec
  | _, [] => []
  | data, v :: iov => v.fill (data.take v.iovLen) :: scatter (data.drop v.iovLen) iov

/-- The inner loop: step over the segments that `moved` bytes have done and cut the next one. -/
def advance (moved : Nat) : List Iovec → List Iovec × List Iovec
  | [] => ([], [])
  | v :: iov =>
    if moved = 0 then ([], v :: iov)
    else if moved < v.iovLen then
      ([], { v with iovBase := v.iovBase + moved, iovLen := v.iovLen - moved } :: iov)
    else (v :: (advance (moved - v.iovLen) iov).1, (advance (moved - v.iovLen) iov).2)

/-- Where the outer loop stands: bytes moved so far, segments done, segments left. -/
structure Cursor where
  total : Nat
  past : List Iovec
  rest : List Iovec

/-- A vectored call: bytes moved so far, segments, the limit of its reply, state. -/
abbrev VecCall := Nat → List Iovec → Nat → World → Bytes × List Iovec × World

/-- The cursor after a call that moved `moved` bytes and left the segments `iov`. -/
def Cursor.next (c : Cursor) (moved : Nat) (iov : List Iovec) : Cursor :=
  ⟨c.total + moved, c.past ++ (advance moved iov).1, (advance moved iov).2⟩

/-- What the `safe_*v` functions make of a reply. Only the readers take a transfer of no
bytes for the end of the file. -/
def transferReply (sys : VecCall) (onZero : Option Errno) (onError : Errno) (c : Cursor) :
    Reply → Sys (Cursor ⊕ Res (List Iovec))
  | .intr => pure (.inl c)
  | .transient | .fail => pure (.inr (.fail (some onError)))
  | .done n => do
    let w ← Prog.state
    let (data, iov, w') := sys c.total c.rest n w
    Prog.modify fun _ => w'
    if data.length = 0 ∧ onZero.isSome then pure (.inr (.fail onZero))
    else pure (.inl (c.next data.length iov))

/-- One round of their outer loop. -/
def transferRound (sys : VecCall) (onZero : Option Errno) (onError : Errno) (c : Cursor) :
    Sys (Cursor ⊕ Res (List Iovec)) :=
  match c.rest with
  | [] => pure (.inr (.ok c.past))
  | _ :: _ => Prog.call >>= transferReply sys onZero onError c

def World.append (w : World) (ino : Ino) (bytes : Bytes) : World :=
  { w with fs := w.fs.append ino bytes }

/-- Up to `n` bytes from `offset` on. -/
def Fs.pread (fs : Fs) (ino : Ino) (n offset : Nat) : Bytes := ((fs.data ino).drop offset).take n

/-- Contents after a write at `offset`. A hole is filled with zeros. -/
def overwrite (contents : Bytes) (offset : Nat) (bytes : Bytes) : Bytes :=
  contents.take offset ++ List.replicate (offset - contents.length) 0 ++ bytes ++
    contents.drop (offset + bytes.length)

def Fs.pwrite (fs : Fs) (ino : Ino) (offset : Nat) (bytes : Bytes) : Fs :=
  if bytes = [] then fs
  else { fs with data := Function.update fs.data ino (overwrite (fs.data ino) offset bytes) }

def World.pwrite (w : World) (ino : Ino) (offset : Nat) (bytes : Bytes) : World :=
  { w with fs := w.fs.pwrite ino offset bytes }

def writevCall (ino : Ino) : VecCall := fun _ iov n w =>
  ((gather iov).take (n + 1), iov, w.append ino ((gather iov).take (n + 1)))

def preadvCall (ino : Ino) (offset : Nat) : VecCall := fun total iov n w =>
  let data := w.fs.pread ino (min (wanted iov) (n + 1)) (offset + total)
  (data, scatter data iov, w)

def pwritevCall (ino : Ino) (offset : Nat) : VecCall := fun total iov n w =>
  ((gather iov).take (n + 1), iov, w.pwrite ino (offset + total) ((gather iov).take (n + 1)))

/-- `readv` through a descriptor that stands at `position` before the first call; a call moves it by
what it reads. -/
def readvCall (ino : Ino) (position : Nat) : VecCall := fun total iov n w =>
  let data := w.fs.pread ino (min (wanted iov) (n + 1)) (position + total)
  (data, scatter data iov, w)

/-- `safe_writev` on a descriptor opened with O_APPEND. -/
def safeWritev (fd : Option Ino) (iov : List Iovec) : Sys Status :=
  match fd, iov with
  | none, _ | _, [] => pure (.fail none)
  | some ino, iov => do
    match ← Prog.loop (transferRound (writevCall ino) none .writeFailed) ⟨0, [], iov⟩ with
    | .ok _ => pure (.ok ())
    | .fail e => pure (.fail e)
    | .retry e => pure (.retry e)

/-- `safe_preadv`; the buffers it has filled. -/
def safePreadv (fd : Option Ino) (iov : List Iovec) (offset : Nat) : Sys (Res (List Bytes)) :=
  match fd, iov with
  | none, _ | _, [] => pure (.fail none)
  | some ino, iov => do
    match ← Prog.loop (transferRound (preadvCall ino offset) (some .unexpectedEof) .readFailed)
      ⟨0, [], iov⟩ with
    | .ok iov => pure (.ok (iov.map Iovec.buf))
    | .fail e => pure (.fail e)
    | .retry e => pure (.retry e)

/-- What `safe_pread` makes of a reply; `got` is what `buf` holds before `p`. -/
def preadReply (ino : Ino) (len offset : Nat) (got : Bytes) : Reply → Sys (Bytes ⊕ Res Bytes)
  | .intr => pure (.inl got)
  | .transient | .fail => pure (.inr (.fail (some .readFailed)))
  | .done n => do
    let w ← Prog.state
    if w.fs.pread ino (min (len - got.length) (n + 1)) (offset + got.length) = [] then
      pure (.inr (.fail (some .unexpectedEof)))
    else pure (.inl (got ++ w.fs.pread ino (min (len - got.length) (n + 1)) (offset + got.length)))

def preadRound (ino : Ino) (len offset : Nat) (got : Bytes) : Sys (Bytes ⊕ Res Bytes) :=
  if len ≤ got.length then pure (.inr (.ok got)) else Prog.call >>= preadReply ino len offset got

/-- `safe_pread`; it leaves a bad descriptor to the call itself. -/
def safePread (fd : Option Ino) (len offset : Nat) : Sys (Res Bytes) :=
  match fd with
  | none => pure (.fail (some .readFailed))
  | some ino => Prog.loop (preadRound ino len offset) []

end Ccask.Model
