import Ccask.Effect.Pool
import Ccask.Model.Sections

/-!
# The ring buffer of the writer (writer_ringbuf.c)

`Queueing` takes each call on the ring buffer as one section under its mutex. `Locking` takes the calls
apart: a thread waits for the mutex, does its work, may wait for the condition variable, and gives the
mutex back.
-/

namespace Ccask.Model

open Ccask.Effect

/-- `ccask_writer_ringbuf_count`. -/
def ccaskWriterRingbufCount : Sys Nat := do
  let w ← Prog.state
  match w.ringbuf with
  | none => Prog.block
  | some ringbuf =>
    if ringbuf.tail ≤ ringbuf.head then pure (ringbuf.head - ringbuf.tail)
    else pure (ringbuf.capacity - (ringbuf.tail - ringbuf.head))

def ccaskWriterRingbufStartShutdown : Sys Unit := do
  let w ← Prog.state
  match w.ringbuf with
  | none => Prog.block
  | some ringbuf => Prog.modify fun w => { w with ringbuf := some { ringbuf with shutdown := true } }

section Queueing

/-- Where a caller of `ccask_put` stands after a try of its push. -/
def QueueThread.tried (key value : Ptr) (left : Nat) (made : List (Call × Status)) (rest : List Call)
    (res : Status) : QueueThread :=
  match putTried left res with
  | .inl left => .pushing key value left made rest
  | .inr res => .calling (made ++ [(.put key value, res)]) rest

/-- What happens at the ring buffer. -/
inductive RingEvent (ι : Type) where
  | push (caller : ι) (timestamp : UInt32) (key value : Ptr) (res : Status)
  | pop (res : Res DatafileRecord)
  | count (n : Nat)
  | startShutdown
  | aside

/-- Callers of `ccask_put` at the ring buffer. -/
structure Queueing (ι : Type) where
  shared : World
  putter : ι → QueueThread

namespace Queueing

variable {ι : Type} [DecidableEq ι]

/-- A caller tests the flag or tries to push; a record is popped, the records are counted, or the shutdown
is announced, by whatever thread. Memory is there. -/
inductive Step [Zlib] : Queueing ι → RingEvent ι → Queueing ι → Prop
  | test {c : Queueing ι} {w : World} {t : QueueThread} {key value : Ptr} {made : List (Call × Status)}
      {rest : List Call} (i : ι) : c.putter i = .calling made (.put key value :: rest) →
      Section (fun _ => AllClean) QueueThread.sect c.shared (c.putter i) w t →
      Step c .aside ⟨w, Function.update c.putter i t⟩
  | push {c : Queueing ι} {w : World} {key value : Ptr} {left : Nat} {made : List (Call × Status)}
      {rest : List Call} {rs rs' : List Reply} {res : Status} (i : ι) :
      c.putter i = .pushing key value left made rest → AllClean rs →
      (ccaskWriterRingbufPush (UInt32.ofNat c.shared.clock) key value).run rs c.shared =
        .returned res rs' w →
      Step c (.push i (UInt32.ofNat c.shared.clock) key value res)
        ⟨w, Function.update c.putter i (.tried key value left made rest res)⟩
  | pop {c : Queueing ι} {w : World} {rs rs' : List Reply} {res : Res DatafileRecord} : AllClean rs →
      ccaskWriterRingbufPop.run rs c.shared = .returned res rs' w → Step c (.pop res) ⟨w, c.putter⟩
  | count {c : Queueing ι} {w : World} {rs rs' : List Reply} {n : Nat} : AllClean rs →
      ccaskWriterRingbufCount.run rs c.shared = .returned n rs' w → Step c (.count n) ⟨w, c.putter⟩
  | startShutdown {c : Queueing ι} {w : World} {rs rs' : List Reply} : AllClean rs →
      ccaskWriterRingbufStartShutdown.run rs c.shared = .returned () rs' w →
      Step c .startShutdown ⟨w, c.putter⟩
  | flag {c : Queueing ι} : Step c .aside ⟨{ c.shared with isShuttingDown := true }, c.putter⟩
  | clock {c : Queueing ι} (now : Nat) : Step c .aside ⟨{ c.shared with clock := now }, c.putter⟩

/-- Any interleaving, with what has happened. -/
inductive Run [Zlib] (c : Queueing ι) : List (RingEvent ι) → Queueing ι → Prop
  | refl : Run c [] c
  | tail {es : List (RingEvent ι)} {e : RingEvent ι} {c' c'' : Queueing ι} :
      Run c es c' → Step c' e c'' → Run c (es ++ [e]) c''

end Queueing

end Queueing

section Locking

/-- A call on the ring buffer. -/
inductive RingOp where
  | push (timestamp : UInt32) (key value : Ptr)
  | pop
  | count
  | startShutdown

inductive RingAnswer where
  | push (res : Status)
  | pop (res : Res DatafileRecord)
  | count (n : Nat)
  | startShutdown

/-- How the work under the mutex ends: with `pthread_mutex_unlock`, with a return before it, or in
`pthread_cond_wait`. -/
inductive Worked where
  | unlock (answer : RingAnswer)
  | leave (answer : RingAnswer)
  | wait

/-- What a call does under the mutex. A push that gets no memory for its record returns at once. -/
def RingOp.work [Zlib] : RingOp → Sys Worked
  | .push timestamp key value => do
    let w ← Prog.state
    match w.ringbuf with
    | none => Prog.block
    | some ringbuf =>
      let next := (ringbuf.head + 1) % ringbuf.capacity
      if next = ringbuf.tail then pure (.unlock (.push (.retry (some .ringbufferFull))))
      else
        match ← ccaskCreateDatafileRecord timestamp key value with
        | .ok record =>
          Prog.modify fun w => { w with ringbuf := some { ringbuf with
            buf := ringbuf.buf.set ringbuf.head record, head := next } }
          pure (.unlock (.push (.ok ())))
        | .fail e | .retry e => pure (.leave (.push (.fail e)))
  | .pop => do
    let w ← Prog.state
    match w.ringbuf with
    | none => Prog.block
    | some ringbuf =>
      if ringbuf.tail = ringbuf.head then
        if ringbuf.shutdown then pure (.unlock (.pop (.fail none))) else pure .wait
      else
        match ringbuf.buf[ringbuf.tail]? with
        | none => Prog.block
        | some record =>
          Prog.modify fun w => { w with ringbuf := some { ringbuf with
            tail := (ringbuf.tail + 1) % ringbuf.capacity } }
          pure (.unlock (.pop (.ok record)))
  | .count => do
    let n ← ccaskWriterRingbufCount
    pure (.unlock (.count n))
  | .startShutdown => do
    ccaskWriterRingbufStartShutdown
    pure (.unlock .startShutdown)

/-- A thread outside of these functions, with the last answer it got, or inside of one of them. -/
inductive RingCall where
  | outside (last : Option RingAnswer)
  | locking (op : RingOp)
  | working (op : RingOp)
  | waiting
  | unlocking (answer : RingAnswer)

/-- The mutex and its owner, and where the threads stand. -/
structure Locking (ι : Type) where
  shared : World
  mutex : Option ι
  thread : ι → RingCall

namespace Locking

variable {ι : Type} [DecidableEq ι]

/-- Where the work leaves the thread that does it, and whether it keeps the mutex. -/
def after (i : ι) (c : Locking ι) (w : World) : Worked → Locking ι
  | .unlock answer => ⟨w, c.mutex, Function.update c.thread i (.unlocking answer)⟩
  | .leave answer => ⟨w, c.mutex, Function.update c.thread i (.outside (some answer))⟩
  | .wait => ⟨w, none, Function.update c.thread i .waiting⟩

/-- Thread `i` gets on, and these are the replies that its calls of `malloc` use up. A wait may end at any
time. -/
inductive Step [Zlib] (i : ι) : Locking ι → List Reply → Locking ι → Prop
  | call {c : Locking ι} {last : Option RingAnswer} (op : RingOp) : c.thread i = .outside last →
      Step i c [] { c with thread := Function.update c.thread i (.locking op) }
  | lock {c : Locking ι} {op : RingOp} : c.thread i = .locking op → c.mutex = none →
      Step i c [] ⟨c.shared, some i, Function.update c.thread i (.working op)⟩
  | work {c : Locking ι} {op : RingOp} {rs rest : List Reply} {how : Worked} {w : World} :
      c.thread i = .working op → op.work.run (rs ++ rest) c.shared = .returned how rest w →
      Step i c rs (after i c w how)
  | wake {c : Locking ι} : c.thread i = .waiting → c.mutex = none →
      Step i c [] ⟨c.shared, some i, Function.update c.thread i (.working .pop)⟩
  | unlock {c : Locking ι} {answer : RingAnswer} : c.thread i = .unlocking answer →
      Step i c [] ⟨c.shared, none, Function.update c.thread i (.outside (some answer))⟩

/-- Any interleaving: the steps, each with the state before it, the replies and the state after it. -/
inductive Run [Zlib] (c : Locking ι) : List (Locking ι × List Reply × Locking ι) → Locking ι → Prop
  | refl : Run c [] c
  | tail {steps : List (Locking ι × List Reply × Locking ι)} {rs : List Reply} {c' c'' : Locking ι}
      (i : ι) : Run c steps c' → Step i c' rs c'' → Run c (steps ++ [(c', rs, c'')]) c''

end Locking

end Locking

end Ccask.Model
