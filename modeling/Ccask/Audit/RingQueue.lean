import Ccask.Audit.Draining
import Ccask.Index.Queue
import Ccask.Model.Ringbuf

/-!
# The ring buffer is a queue

Head, tail and the places between them stand for a list of less than `capacity` records. Each call on the
ring buffer does to the list what a bounded queue does.
-/

namespace Ccask.Audit

open Ccask.Effect Ccask.Model

/-- The ring buffer holds the queue. -/
def Queued (w : World) (cap : Nat) (q : Index.Queue DatafileRecord) : Prop :=
  ∃ r, w.ringbuf = some r ∧ r.capacity = cap ∧ r.shutdown = q.closed ∧ r.head < cap ∧ r.tail < cap ∧
    Index.Ring r.buf cap r.head r.tail q.items

section Calls

variable {w : World} {cap : Nat} {q : Index.Queue DatafileRecord} {a : DatafileRecord}
  {l : List DatafileRecord}

theorem Queued.of_ring {r : Ringbuf} (hr : w.ringbuf = some r) (hcap : r.capacity = cap)
    (hdown : r.shutdown = q.closed) (hring : Index.Ring r.buf cap r.head r.tail q.items) :
    Queued w cap q :=
  ⟨r, hr, hcap, hdown, hring.head_lt, hring.tail_lt, hring⟩

theorem Queued.congr (h : Queued w cap q) {v : World} (hv : v.ringbuf = w.ringbuf) :
    Queued v cap q := by
  obtain ⟨r, hr, hrest⟩ := h
  exact ⟨r, hv.trans hr, hrest⟩

theorem Queued.bounded (h : Queued w cap q) : q.items.length ≤ cap - 1 := by
  obtain ⟨r, -, -, -, -, -, hring⟩ := h
  have hroom := hring.room
  omega

/-- A push takes its record while there is room. -/
theorem Queued.push [Zlib] (h : Queued w cap q) (hroom : q.items.length < cap - 1)
    (timestamp : UInt32) (key value : Ptr) :
    ∃ v, Computes (ccaskWriterRingbufPush timestamp key value) w (.ok ()) v ∧
      Queued v cap { q with items := q.items ++ [mkRecord timestamp key value] } := by
  obtain ⟨r, hr, hcap, hdown, -, -, hring⟩ := h
  have hfull : (r.head + 1) % r.capacity ≠ r.tail := by
    rw [hcap]
    intro heq
    have hlen := hring.full_iff.mp heq
    omega
  refine ⟨pushed w r (mkRecord timestamp key value), Computes.state_bind ?_, .of_ring rfl hcap hdown ?_⟩
  · rw [hr]
    simp only [if_neg hfull]
    exact (ccaskCreateDatafileRecord_computes _ _ _).bind (Computes.modify_bind (Computes.pure _))
  · have hpush := hring.push (hcap ▸ hfull) (mkRecord timestamp key value)
    rw [← hcap] at hpush ⊢
    exact hpush

/-- Without room it changes nothing. -/
theorem Queued.push_full [Zlib] (h : Queued w cap q) (hfull : ¬ q.items.length < cap - 1)
    (timestamp : UInt32) (key value : Ptr) : Computes (ccaskWriterRingbufPush timestamp key value) w
      (.retry (some .ringbufferFull)) w := by
  obtain ⟨r, hr, hcap, -, -, -, hring⟩ := h
  have hfull : (r.head + 1) % r.capacity = r.tail := by
    rw [hcap, hring.full_iff]
    have hroom := hring.room
    omega
  refine Computes.state_bind ?_
  rw [hr]
  simp only [if_pos hfull]
  exact Computes.pure _

/-- A pop takes the oldest record. -/
theorem Queued.pop (h : Queued w cap q) (hq : q.items = a :: l) :
    ∃ v, Computes ccaskWriterRingbufPop w (.ok a) v ∧ Queued v cap { q with items := l } := by
  obtain ⟨r, hr, hcap, hdown, -, -, hring⟩ := h
  rw [hq] at hring
  obtain ⟨hfirst, hrest⟩ := hring.pop
  have hne : r.tail ≠ r.head := fun heq => by cases hring.empty_iff.mp heq
  refine ⟨{ w with ringbuf := some { r with tail := (r.tail + 1) % r.capacity } }, Computes.state_bind ?_,
    .of_ring rfl hcap hdown ?_⟩
  · rw [hr]
    simp only [if_neg hne, hfirst]
    exact Computes.modify_bind (Computes.pure _)
  · rw [← hcap] at hrest ⊢
    exact hrest

/-- On an empty queue it fails after the announcement of a shutdown. -/
theorem Queued.pop_ended (h : Queued w cap q) (hq : q.items = []) (hclosed : q.closed = true) :
    Computes ccaskWriterRingbufPop w (.fail none) w := by
  obtain ⟨r, hr, hcap, hdown, -, -, hring⟩ := h
  refine Computes.state_bind ?_
  rw [hr]
  simp only [if_pos (hring.empty_iff.mpr hq), hdown, hclosed, if_true]
  exact Computes.pure _

/-- Before it, it waits. -/
theorem Queued.pop_waits (h : Queued w cap q) (hq : q.items = []) (hclosed : q.closed = false)
    (rs : List Reply) : ccaskWriterRingbufPop.run rs w = .pending w := by
  obtain ⟨r, hr, hcap, hdown, -, -, hring⟩ := h
  rw [ccaskWriterRingbufPop, Prog.run_state_bind, hr]
  simp only [if_pos (hring.empty_iff.mpr hq), hdown, hclosed]
  rfl

theorem Queued.count (h : Queued w cap q) :
    Computes ccaskWriterRingbufCount w q.items.length w := by
  obtain ⟨r, hr, hcap, -, -, -, hring⟩ := h
  refine Computes.state_bind ?_
  rw [hr, ← hring.length_eq, ← hcap]
  show Computes (if r.tail ≤ r.head then pure _ else pure _) _ _ _
  split
  · exact Computes.pure _
  · exact Computes.pure _

theorem Queued.startShutdown (h : Queued w cap q) :
    ∃ v, Computes ccaskWriterRingbufStartShutdown w () v ∧ Queued v cap { q with closed := true } := by
  obtain ⟨r, hr, hcap, -, -, -, hring⟩ := h
  refine ⟨{ w with ringbuf := some { r with shutdown := true } }, Computes.state_bind ?_,
    .of_ring rfl hcap rfl hring⟩
  rw [hr]
  exact Computes.modify _

end Calls

/-- What the next call on the ring buffer comes to, as on a queue of less than `cap` records. -/
structure ActsAsQueue [Zlib] (w : World) (cap : Nat) (q : Index.Queue DatafileRecord) : Prop where
  push : q.items.length < cap - 1 → ∀ timestamp key value, ∃ v,
    Computes (ccaskWriterRingbufPush timestamp key value) w (.ok ()) v ∧
      Queued v cap { q with items := q.items ++ [mkRecord timestamp key value] }
  full : ¬ q.items.length < cap - 1 → ∀ timestamp key value,
    Computes (ccaskWriterRingbufPush timestamp key value) w (.retry (some .ringbufferFull)) w
  pop : ∀ a l, q.items = a :: l → ∃ v, Computes ccaskWriterRingbufPop w (.ok a) v ∧
    Queued v cap { q with items := l }
  ended : q.items = [] → q.closed = true → Computes ccaskWriterRingbufPop w (.fail none) w
  waits : q.items = [] → q.closed = false → ∀ rs, ccaskWriterRingbufPop.run rs w = .pending w
  count : Computes ccaskWriterRingbufCount w q.items.length w
  close : ∃ v, Computes ccaskWriterRingbufStartShutdown w () v ∧ Queued v cap { q with closed := true }

section Runs

variable [Zlib] {ι : Type} [DecidableEq ι] {c c' c₀ : Queueing ι} {cap : Nat}
  {q : Index.Queue DatafileRecord} {e : RingEvent ι} {es : List (RingEvent ι)}

theorem Queued.acts {w : World} (h : Queued w cap q) : ActsAsQueue w cap q :=
  ⟨h.push, h.push_full, fun _ _ => h.pop, h.pop_ended, h.pop_waits, h.count, h.startShutdown⟩

/-- What an event is for the queue. -/
def effect : RingEvent ι → Option (Index.Queue.Event DatafileRecord)
  | .push _ timestamp key value res => some (.push (mkRecord timestamp key value) (decide (res = .ok ())))
  | .pop (.ok record) => some (.pop (some record))
  | .pop (.fail _) | .pop (.retry _) => some (.pop none)
  | .count n => some (.count n)
  | .startShutdown => some .close
  | .aside => none

/-- The keys and values a caller has pushed. -/
def pushedBy (i : ι) (es : List (RingEvent ι)) : List (Ptr × Ptr) :=
  es.filterMap fun
    | .push j _ key value res => if j = i ∧ res = .ok () then some (key, value) else none
    | _ => none

/-- Each step does to the queue what its event says. -/
theorem Queued.step (h : Queued c.shared cap q) (hs : Queueing.Step c e c') :
    ∃ q', Queued c'.shared cap q' ∧
      (effect e = none ∧ q' = q ∨ ∃ f, effect e = some f ∧ Index.Queue.Step (cap - 1) q f q') := by
  cases hs with
  | test i hi hs =>
      rw [hi] at hs
      obtain ⟨rfl, -⟩ := putTest_section hs
      exact ⟨q, h, .inl ⟨rfl, rfl⟩⟩
  | push i hi hrs hrun =>
      by_cases hroom : q.items.length < cap - 1
      · obtain ⟨v, hpush, hqueued⟩ := h.push hroom _ _ _
        obtain ⟨rfl, rfl⟩ := hpush.eq_of_returned hrs hrun
        exact ⟨_, hqueued, .inr ⟨_, rfl, .push hroom⟩⟩
      · obtain ⟨rfl, rfl⟩ := (h.push_full hroom _ _ _).eq_of_returned hrs hrun
        exact ⟨q, h, .inr ⟨_, rfl, .full hroom⟩⟩
  | pop hrs hrun =>
      obtain ⟨items, closed⟩ := q
      cases items with
      | cons a l =>
          obtain ⟨v, hpop, hqueued⟩ := h.pop rfl
          obtain ⟨rfl, rfl⟩ := hpop.eq_of_returned hrs hrun
          exact ⟨_, hqueued, .inr ⟨_, rfl, .pop⟩⟩
      | nil =>
          cases closed with
          | true =>
              obtain ⟨rfl, rfl⟩ := (h.pop_ended rfl rfl).eq_of_returned hrs hrun
              exact ⟨_, h, .inr ⟨_, rfl, .ended⟩⟩
          | false =>
              rw [h.pop_waits rfl rfl] at hrun
              cases hrun
  | count hrs hrun =>
      obtain ⟨rfl, rfl⟩ := h.count.eq_of_returned hrs hrun
      exact ⟨q, h, .inr ⟨_, rfl, .count⟩⟩
  | startShutdown hrs hrun =>
      obtain ⟨v, hstart, hqueued⟩ := h.startShutdown
      obtain ⟨-, rfl⟩ := hstart.eq_of_returned hrs hrun
      exact ⟨_, hqueued, .inr ⟨_, rfl, .close⟩⟩
  | flag => exact ⟨q, h.congr rfl, .inl ⟨rfl, rfl⟩⟩
  | clock now => exact ⟨q, h.congr rfl, .inl ⟨rfl, rfl⟩⟩

omit [Zlib] in
/-- A try of a push makes the call succeed exactly when it has pushed. -/
theorem accepted_tried (key value : Ptr) (left : Nat) (done : List (Call × Status)) (rest : List Call)
    (res : Status) : accepted (.tried key value left done rest res) =
      accepted (.pushing key value left done rest) ++ if res = .ok () then [(key, value)] else [] := by
  cases res with
  | ok u => exact accepted_concat done rest (.put key value) (.ok ())
  | fail e => exact accepted_concat done rest (.put key value) (.fail e)
  | retry e =>
      cases left with
      | zero => exact accepted_concat done rest (.put key value) (.fail e)
      | succ left => exact (List.append_nil _).symm

omit [Zlib] in
theorem pushedBy_push (i j : ι) (timestamp : UInt32) (key value : Ptr) (res : Status) :
    pushedBy i [.push j timestamp key value res] = if j = i ∧ res = .ok () then [(key, value)] else [] := by
  by_cases h : j = i ∧ res = .ok ()
  · simp [pushedBy, h]
  · simp [pushedBy, h]

/-- The section of a caller that pushes is one push and what is made of its answer. -/
theorem pushing_section {w v : World} {key value : Ptr} {left : Nat} {done : List (Call × Status)}
    {rest : List Call} {t : QueueThread} :
    Section (fun _ => AllClean) QueueThread.sect w (.pushing key value left done rest) v t ↔
      ∃ rs rs' res, AllClean rs ∧
        (ccaskWriterRingbufPush (UInt32.ofNat w.clock) key value).run rs w = .returned res rs' v ∧
        t = .tried key value left done rest res := by
  obtain ⟨m, hm, hsect⟩ : ∃ m, QueueThread.sect (.pushing key value left done rest) = some m ∧
      ∀ rs, m.run rs w = (do
        let res ← ccaskWriterRingbufPush (UInt32.ofNat w.clock) key value
        pure (.tried key value left done rest res) : Sys QueueThread).run rs w := by
    refine ⟨_, rfl, fun rs => ?_⟩
    show ((do
      let res ← ccaskWriterRingbufPush (UInt32.ofNat w.clock) key value
      pure (putTried left res)) >>= _ : Sys QueueThread).run rs w = _
    rw [bind_assoc]
    congr 2
    funext res
    rw [pure_bind, QueueThread.tried]
    cases putTried left res with
    | inl left => rfl
    | inr res => rfl
  constructor
  · rintro ⟨hs, hrs, hrun⟩
    cases hm.symm.trans hs
    obtain ⟨res, mid, u, hpush, hrest⟩ := Prog.run_bind_eq_returned ((hsect _).symm.trans hrun)
    cases hrest
    exact ⟨_, _, res, hrs, hpush, rfl⟩
  · rintro ⟨rs, rs', res, hrs, hpush, rfl⟩
    exact .mk hm hrs ((hsect rs).trans (Prog.run_bind_returned hpush))

/-- Each step adds to the calls of a caller that have succeeded what it has pushed. -/
theorem pushed_step (hs : Queueing.Step c e c') (i : ι) :
    accepted (c'.putter i) = accepted (c.putter i) ++ pushedBy i [e] := by
  cases hs with
  | test j hj hs =>
      rw [hj] at hs
      obtain ⟨-, rfl⟩ := putTest_section hs
      show accepted (Function.update c.putter j _ i) = _ ++ []
      rw [List.append_nil]
      by_cases hij : i = j
      · rw [hij, Function.update_self, hj]
        split
        · rw [accepted_concat, if_neg (by simp), List.append_nil]
          rfl
        · rfl
      · rw [Function.update_of_ne hij]
  | push j hj hrs hrun =>
      show accepted (Function.update c.putter j _ i) = _
      rw [pushedBy_push]
      by_cases hij : i = j
      · rw [hij, Function.update_self, accepted_tried, hj]
        simp
      · rw [Function.update_of_ne hij, if_neg fun h => hij h.1.symm, List.append_nil]
  | pop _ _ => exact (List.append_nil _).symm
  | count _ _ => exact (List.append_nil _).symm
  | startShutdown _ _ => exact (List.append_nil _).symm
  | flag => exact (List.append_nil _).symm
  | clock now => exact (List.append_nil _).symm

/-- A ring buffer just initialised, with some room or none, and callers that have not begun. -/
structure QueueStarts (c : Queueing ι) (cap : Nat) : Prop where
  pos : 0 < cap
  ring : c.shared.ringbuf = some (.init cap)
  putter : ∀ i, ∃ calls, c.putter i = .calling [] calls

omit [Zlib] [DecidableEq ι] in
theorem QueueStarts.queued (h : QueueStarts c cap) : Queued c.shared cap ⟨[], false⟩ :=
  .of_ring h.ring rfl rfl (Index.Ring.init h.pos _)

/-- The run of the ring buffer is a run of a queue. -/
theorem QueueStarts.run (h : QueueStarts c₀ cap) (hrun : Queueing.Run c₀ es c) :
    ∃ q, Queued c.shared cap q ∧ Index.Queue.Run (cap - 1) ⟨[], false⟩ (es.filterMap effect) q := by
  induction hrun with
  | refl => exact ⟨_, h.queued, .refl⟩
  | tail _ hs ih =>
      obtain ⟨q, hqueued, hqueue⟩ := ih
      obtain ⟨q', hqueued', ⟨hnone, rfl⟩ | ⟨f, hf, hstep⟩⟩ := hqueued.step hs
      · refine ⟨q', hqueued', ?_⟩
        rw [List.filterMap_append, List.filterMap_cons_none hnone, List.filterMap_nil, List.append_nil]
        exact hqueue
      · refine ⟨q', hqueued', ?_⟩
        rw [List.filterMap_append, List.filterMap_cons_some hf, List.filterMap_nil]
        exact hqueue.tail hstep

theorem QueueStarts.pushed (h : QueueStarts c₀ cap) (hrun : Queueing.Run c₀ es c) (i : ι) :
    accepted (c.putter i) = pushedBy i es := by
  induction hrun with
  | refl =>
      obtain ⟨calls, hcalls⟩ := h.putter i
      rw [hcalls]
      rfl
  | tail _ hs ih => rw [pushed_step hs, ih, pushedBy, pushedBy, pushedBy, List.filterMap_append]

/-- In every interleaving the ring buffer holds a queue of less than `cap` records, and each call does
what it says on it. What has been popped is the beginning of what has been pushed, and all of it when a
pop has failed and nothing has been pushed after the announcement of the shutdown; and the calls of
`ccask_put` that returned CCASK_OK are the ones whose records have been pushed, each of them once. -/
theorem ring_is_queue (h : QueueStarts c₀ cap) (hrun : Queueing.Run c₀ es c) :
    ∃ q, Queued c.shared cap q ∧ ActsAsQueue c.shared cap q ∧ q.items.length ≤ cap - 1 ∧
      Index.Queue.Run (cap - 1) ⟨[], false⟩ (es.filterMap effect) q ∧
      Index.Queue.pushed (es.filterMap effect) = Index.Queue.popped (es.filterMap effect) ++ q.items ∧
      (Index.Queue.Settled (es.filterMap effect) → .pop none ∈ es.filterMap effect →
        Index.Queue.popped (es.filterMap effect) = Index.Queue.pushed (es.filterMap effect)) ∧
      ∀ i, accepted (c.putter i) = pushedBy i es := by
  obtain ⟨q, hqueued, hqueue⟩ := h.run hrun
  exact ⟨q, hqueued, hqueued.acts, hqueued.bounded, hqueue, hqueue.conserves, hqueue.drained, h.pushed hrun⟩

end Runs

section Sample

/-- A ring buffer for one record, and one caller with one put. -/
def oneQueued : Queueing Unit :=
  ⟨{ World.boot Fs.empty 0 with ringbuf := some (.init 2) },
    fun _ => .calling [] [.put (bytePut 0 97 98).key (bytePut 0 97 98).value]⟩

theorem ring_is_queue_one : letI := zlib
    ∃ (c : Queueing Unit) (es : List (RingEvent Unit)), QueueStarts oneQueued 2 ∧ Queueing.Run oneQueued es c ∧
      accepted (c.putter ()) = [((bytePut 0 97 98).key, (bytePut 0 97 98).value)] ∧
      Index.Queue.popped (es.filterMap effect) = [(bytePut 0 97 98).record] ∧
      .pop none ∈ es.filterMap effect ∧ ∃ q, Queued c.shared 2 q ∧ q.items = [] := by
  let _ := zlib
  have hstarts : QueueStarts oneQueued 2 := ⟨by decide, rfl, fun _ => ⟨_, rfl⟩⟩
  have htest := putTest_computes (w := oneQueued.shared)
  have hs : Section (fun _ => AllClean) QueueThread.sect oneQueued.shared (oneQueued.putter ())
      oneQueued.shared onePushing := .of_computes rfl (fun _ h => h) (htest.bind (Computes.pure _))
  have hrun : Queueing.Run oneQueued _ _ := .tail .refl (.test () rfl hs)
  obtain ⟨v, hpush, hqueued⟩ := hstarts.queued.push (by decide) 0 (bytePut 0 97 98).key (bytePut 0 97 98).value
  obtain ⟨rs, rest, hrs, hpushed⟩ := hpush.exists_run
  have hrun := hrun.tail (.push () rfl hrs hpushed)
  obtain ⟨v, hstart, hqueued⟩ := hqueued.startShutdown
  obtain ⟨rs, rest, hrs, hannounced⟩ := hstart.exists_run
  have hrun := hrun.tail (.startShutdown hrs hannounced)
  obtain ⟨v, hpop, hqueued⟩ := hqueued.pop rfl
  obtain ⟨rs, rest, hrs, hpopped⟩ := hpop.exists_run
  have hrun := hrun.tail (.pop hrs hpopped)
  obtain ⟨rs, rest, hrs, hended⟩ := (hqueued.pop_ended rfl rfl).exists_run
  have hrun := hrun.tail (.pop hrs hended)
  obtain ⟨q, hqueue, -, -, hq, hconserves, -, haccepted⟩ := ring_is_queue hstarts hrun
  refine ⟨_, _, hstarts, hrun, haccepted (), rfl, ?_, q, hqueue, List.self_eq_append_right.mp hconserves⟩
  rw [List.filterMap_append]
  exact List.mem_append_right _ List.mem_cons_self

end Sample

end Ccask.Audit
