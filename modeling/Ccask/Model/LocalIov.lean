import Ccask.Model.Vectored

/-!
# The transfers on the array of the caller (utils.c)

The `safe_*v` functions work on a shallow copy of the array they are given: the entries
are copied, the buffers are shared.
-/

namespace Ccask.Model

open Ccask.Effect

/-- What a call works on: the array of the caller, the copy, the index of the first segment that is
not done, and the bytes moved so far. -/
structure VecFrame where
  iov : List Iovec
  localIov : List Iovec
  currentIovIdx : Nat
  total : Nat

namespace VecFrame

def start (iov : List Iovec) : VecFrame := ⟨iov, iov, 0, 0⟩

/-- The inner loop: what `moved` bytes do to the index and to the segment they end in. -/
def stepOver (f : VecFrame) (moved : Nat) : VecFrame :=
  if h : f.currentIovIdx < f.localIov.length ∧ 0 < moved then
    let v := f.localIov[f.currentIovIdx]
    if moved < v.iovLen then
      let cut : Iovec := { v with iovBase := v.iovBase + moved, iovLen := v.iovLen - moved }
      { f with localIov := f.localIov.set f.currentIovIdx cut }
    else stepOver { f with currentIovIdx := f.currentIovIdx + 1 } (moved - v.iovLen)
  else f
termination_by f.localIov.length - f.currentIovIdx

/-- What a call has stored through the copy is seen through the array of the caller. -/
def share (iov stored : List Iovec) : List Iovec :=
  List.zipWith (fun v u => { v with buf := u.buf }) iov stored

/-- The segments after a call that has stored into those from the index on. -/
def store (f : VecFrame) (rest : List Iovec) : VecFrame :=
  { f with
    iov := share f.iov (f.localIov.take f.currentIovIdx ++ rest)
    localIov := f.localIov.take f.currentIovIdx ++ rest }

end VecFrame

/-- What the functions make of a reply. -/
def vecReply (sys : VecCall) (onZero : Option Errno) (onError : Errno) (f : VecFrame) :
    Reply → Sys (VecFrame ⊕ (Status × VecFrame))
  | .intr => pure (.inl f)
  | .transient | .fail => pure (.inr (.fail (some onError), f))
  | .done n => do
    let w ← Prog.state
    let (data, rest, w') := sys f.total (f.localIov.drop f.currentIovIdx) n w
    Prog.modify fun _ => w'
    if data.length = 0 ∧ onZero.isSome then pure (.inr (.fail onZero, f.store rest))
    else
      pure (.inl (({ f.store rest with total := f.total + data.length } : VecFrame).stepOver
        data.length))

/-- One round of the outer loop. -/
def vecRound (sys : VecCall) (onZero : Option Errno) (onError : Errno) (f : VecFrame) :
    Sys (VecFrame ⊕ (Status × VecFrame)) :=
  if f.currentIovIdx < f.localIov.length then Prog.call >>= vecReply sys onZero onError f
  else pure (.inr (.ok (), f))

/-- A `safe_*v` function: its status, and the array of the caller afterwards. -/
def safeVec (sys : Ino → VecCall) (onZero : Option Errno) (onError : Errno) (fd : Option Ino)
    (iov : List Iovec) : Sys (Status × List Iovec) :=
  match fd, iov with
  | none, _ | _, [] => pure (.fail none, iov)
  | some ino, iov => do
    let (res, f) ← Prog.loop (vecRound (sys ino) onZero onError) (VecFrame.start iov)
    pure (res, f.iov)

namespace Iov

/-- `safe_writev` through a descriptor opened with O_APPEND. -/
def safeWritev (fd : Option Ino) (iov : List Iovec) : Sys (Status × List Iovec) :=
  safeVec writevCall none .writeFailed fd iov

/-- `safe_pwritev`. -/
def safePwritev (fd : Option Ino) (iov : List Iovec) (offset : Nat) : Sys (Status × List Iovec) :=
  safeVec (fun ino => pwritevCall ino offset) none .writeFailed fd iov

/-- `safe_readv` through a descriptor that stands at `position`. -/
def safeReadv (fd : Option Ino) (iov : List Iovec) (position : Nat) : Sys (Status × List Iovec) :=
  safeVec (fun ino => readvCall ino position) (some .unexpectedEof) .readFailed fd iov

/-- `safe_preadv`. -/
def safePreadv (fd : Option Ino) (iov : List Iovec) (offset : Nat) : Sys (Status × List Iovec) :=
  safeVec (fun ino => preadvCall ino offset) (some .unexpectedEof) .readFailed fd iov

end Iov

end Ccask.Model
