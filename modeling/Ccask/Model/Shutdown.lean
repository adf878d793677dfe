import Ccask.Effect.Pool
import Ccask.Model.Invalidators

/-!
# A process that shuts down (core.c, writer.c, hint.c, reader.c)

Callers read and write, the writer thread drains the ring buffer, the generators and the invalidators
that the library starts come and go, and one caller is in `ccask_shutdown`. Memory that has been freed is
not there: a thread that looks for it is stuck.
-/

namespace Ccask.Model

open Ccask.Effect

/-- A caller between two calls, in a read, or in a put: before the test of the flag or behind it. -/
inductive Caller where
  | idle
  | reading (t : Reader)
  | put (key value : Ptr)
  | pushing (key value : Ptr) (left : Nat)
  | putBlocking (key value : Ptr)
  | writing (t : WriteCall)

/-- A call that has just been made. -/
def Caller.Begins : Caller → Prop
  | .reading (.check _ _ _) | .put _ _ | .putBlocking _ _ => True
  | _ => False

def Caller.sect [Zlib] : Caller → Option (Prog Watched Caller)
  | .idle => none
  | .reading t => t.sect.map fun m => do
    let t ← m
    pure (.reading t)
  | .put key value => some do
    if ← onShared putTest then pure .idle else pure (.pushing key value 4)
  | .pushing key value left => some do
    match ← onShared (putTry key value left) with
    | .inl left => pure (.pushing key value left)
    | .inr _ => pure .idle
  | .putBlocking key value => some do
    let s ← Prog.state
    if s.world.isShuttingDown then pure .idle
    else
      match ← onShared (ccaskCreateDatafileRecord (UInt32.ofNat s.world.clock) key value) with
      | .ok record => pure (.writing (.fetch record))
      | .fail _ | .retry _ => pure .idle
  | .writing t => t.sect.map fun m => do
    let t ← onShared m
    pure (.writing t)

/-- The thread in `writer_thread_main`. -/
inductive WriterThread where
  | popping
  | writing (t : WriteCall)
  | ended

def WriterThread.sect : WriterThread → Option (Sys WriterThread)
  | .popping => some do
    match ← ccaskWriterRingbufPop with
    | .ok record => pure (.writing (.fetch record))
    | .fail _ | .retry _ => pure .ended
  | .writing t =>
    match t.sect with
    | none => some (pure .popping)
    | some m => some do
      let t ← m
      pure (.writing t)
  | .ended => none

def WriterThread.isEnded : WriterThread → Bool
  | .ended => true
  | _ => false

/-- The threads of a process. The generator of a file lives while the file is in `threads`, and
`generator` says how far it has come. -/
structure Process (ι : Type) where
  shared : Watched
  caller : ι → Caller
  writer : WriterThread
  generator : Nat → GeneratorThread
  shutdown : ShutdownCall

namespace Process

variable {ι : Type} [DecidableEq ι]

/-- The end of a generator. -/
def leave (fileId : Nat) (s : Watched) : Watched :=
  { s with world := { s.world with threads := s.world.threads.erase fileId } }

/-- One thread gets on. -/
inductive Step [Zlib] : Process ι → Process ι → Prop
  | caller {c : Process ι} {m : Prog Watched Caller} {rest : List Reply} {t : Caller} {s : Watched} (i : ι)
      (rs : List Reply) : (c.caller i).sect = some m → m.run rs c.shared = .returned t rest s →
      Step c { c with shared := s, caller := Function.update c.caller i t }
  | call {c : Process ι} {t : Caller} (i : ι) : (c.caller i).sect = none → t.Begins →
      Step c { c with caller := Function.update c.caller i t }
  | writer {c : Process ι} {m : Sys WriterThread} {rest : List Reply} {t : WriterThread} {s : Watched}
      (rs : List Reply) : c.writer.sect = some m → (onShared m).run rs c.shared = .returned t rest s →
      Step c { c with shared := s, writer := t }
  | generator {c : Process ι} {m : Sys GeneratorThread} {rest : List Reply} {t : GeneratorThread}
      {s : Watched} (fileId : Nat) (rs : List Reply) : fileId ∈ c.shared.world.threads →
      (c.generator fileId).sect fileId = some m → (onShared m).run rs c.shared = .returned t rest s →
      Step c { c with shared := s, generator := Function.update c.generator fileId t }
  | leave {c : Process ι} (fileId : Nat) : fileId ∈ c.shared.world.threads →
      (c.generator fileId).sect fileId = none →
      Step c { c with
        shared := leave fileId c.shared
        generator := Function.update c.generator fileId .start }
  | test {c : Process ι} {fileId : Nat} (k : Nat) : c.shared.invalidators[k]? = some (.asleep fileId) →
      invalidatorPasses fileId c.shared.world = true →
      Step c { c with shared := { c.shared with
        invalidators := c.shared.invalidators.set k (.closing fileId) } }
  | close {c : Process ι} {fileId : Nat} (k : Nat) : c.shared.invalidators[k]? = some (.closing fileId) →
      Step c { c with shared := {
        world := c.shared.world.setFile fileId fun file =>
          { file with fd := none, isFdInvalidatorRunning := false }
        invalidators := c.shared.invalidators.eraseIdx k } }
  | shutdown {c : Process ι} {m : Sys ShutdownCall} {rest : List Reply} {t : ShutdownCall} {s : Watched}
      (rs : List Reply) : c.shutdown.sect c.writer.isEnded = some m →
      (onShared m).run rs c.shared = .returned t rest s →
      Step c { c with shared := s, shutdown := t }
  | clock {c : Process ι} (now : Nat) :
      Step c { c with shared := { c.shared with world := { c.shared.world with clock := now } } }

end Process

/-- Callers of `ccask_put`, the writer thread, which takes a record and writes it, and a caller in
`ccask_shutdown`. A generator runs to its end. -/
structure Draining (ι : Type) where
  shared : World
  putter : ι → QueueThread
  writer : QueueThread
  shutdown : ShutdownCall

def QueueThread.isEnded : QueueThread → Bool
  | .ended => true
  | _ => false

namespace Draining

variable {ι : Type} [DecidableEq ι]

/-- One of them gets on, without an error. -/
inductive Step [Zlib] : Draining ι → Draining ι → Prop
  | putter {c : Draining ι} {w : World} {t : QueueThread} (i : ι) :
      Section (fun _ => AllClean) QueueThread.sect c.shared (c.putter i) w t →
      Step c { c with shared := w, putter := Function.update c.putter i t }
  | writer {c : Draining ι} {w : World} {t : QueueThread} :
      Section (fun _ => AllClean) QueueThread.sect c.shared c.writer w t →
      Step c { c with shared := w, writer := t }
  | generator {c : Draining ι} {w : World} {rs rest : List Reply} (fileId : Nat) :
      fileId ∈ c.shared.threads → AllClean rs → (runGenerator fileId).run rs c.shared = .returned () rest w →
      Step c { c with shared := w }
  | shutdown {c : Draining ι} {w : World} {t : ShutdownCall} :
      Section (fun _ => AllClean) (ShutdownCall.sect c.writer.isEnded) c.shared c.shutdown w t →
      Step c { c with shared := w, shutdown := t }
  | clock {c : Draining ι} (now : Nat) : Step c { c with shared := { c.shared with clock := now } }

end Draining

end Ccask.Model
