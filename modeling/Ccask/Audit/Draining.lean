import Ccask.Audit.MixedPuts
import Ccask.Audit.WriteEnds
import Ccask.Model.Shutdown

/-!
# Accepted puts and a shutdown

The writer thread ends when it finds the ring buffer empty after the shutdown has been announced there.
A put that has passed the test of its own flag by then still pushes its record.
-/

namespace Ccask.Audit

open Ccask.Effect Ccask.Model

section Beside

variable {w v : World}

/-- What a generator leaves alone. -/
structure Beside (w v : World) : Prop where
  ringbuf : v.ringbuf = w.ringbuf
  flag : v.isShuttingDown = w.isShuttingDown
  locks : v.readLocks = w.readLocks
  mounted : Mounted w → Mounted v

instance : Std.Refl Beside := ⟨fun _ => ⟨rfl, rfl, rfl, id⟩⟩

instance : IsTrans World Beside := ⟨fun _ _ _ h h' => ⟨h'.ringbuf.trans h.ringbuf, h'.flag.trans h.flag,
  h'.locks.trans h.locks, fun hm => h'.mounted (h.mounted hm)⟩⟩

/-- The hint file of a file is known from now on. -/
theorem Mounted.hinted (h : Mounted w) (id : Nat) :
    Mounted (w.setFile id fun file => { file with hasHint := true }) := by
  by_cases hid : id ∈ ids w
  · obtain ⟨ino, hdir⟩ := h.dir_of_mem hid
    exact h.setFile hdir (fun _ => rfl) (fun _ => rfl) fun _ => .inl rfl
  · have hsame : (w.setFile id fun file => { file with hasHint := true }).files = w.files := by
      show w.files.map _ = w.files
      conv => rhs; rw [← List.map_id w.files]
      apply List.map_congr_left
      intro f hf
      have hne : f.fileId ≠ id := fun heq => hid (heq ▸ List.mem_map_of_mem hf)
      exact if_neg hne
    exact h.congr hsame fun _ => rfl

theorem hintfileGeneratorThread_beside (id : Nat) : Moves Beside (hintfileGeneratorThread id) := by
  have happend : ∀ (w : World) ino bytes, Beside w (w.append ino bytes) :=
    fun w ino bytes => ⟨rfl, rfl, rfl, fun hm => hm.congr rfl fun _ => rfl⟩
  have hcreate : ∀ w : World, Beside w { w with fs := (w.fs.create (fileName id .hint)).1 } :=
    fun w => ⟨rfl, rfl, rfl, fun hm => hm.congr rfl fun _ => Fs.dir_create_of_ne _ _ (by simp)⟩
  have hunlink : ∀ w : World, Beside w { w with fs := w.fs.unlink (fileName id .hint) } := by
    refine fun w => ⟨rfl, rfl, rfl, fun hm => hm.congr rfl fun i => ?_⟩
    show (w.fs.unlink _).dir _ = _
    rw [Fs.dir_unlink, if_neg (by simp)]
  refine (attempt_moves (openCreate_moves _ hcreate)).bind fun res => ?_
  cases res with
  | fail e => exact Moves.pure _
  | retry e => exact Moves.pure _
  | ok fd =>
      refine (attempt_moves (iterOpen_moves _ (ccaskFilesGetDatafileFd_moves _))).bind fun res => ?_
      cases res with
      | fail e => exact Moves.pure _
      | retry e => exact Moves.pure _
      | ok iter =>
          refine (Moves.loop (fun s => hintfileGeneratorRound_moves fd s happend) (iter, .unset)).bind fun b => ?_
          cases b with
          | true => exact Moves.modify fun w => ⟨rfl, rfl, rfl, fun hm => hm.hinted id⟩
          | false => exact (attempt_moves (ccaskFilesDelete_moves id .hint hunlink)).bind fun _ => Moves.pure _

theorem runGenerator_beside (id : Nat) : Moves Beside (runGenerator id) :=
  (hintfileGeneratorThread_beside id).bind fun _ =>
    Moves.modify fun _ => ⟨rfl, rfl, rfl, fun hm => hm.congr rfl fun _ => rfl⟩

end Beside

variable [Zlib]

section Places

variable {ι : Type} {w v : World} {p : Put}

/-- A put of a caller, and the place where its record begins. -/
structure Placed (ι : Type) where
  caller : ι
  put : Put
  fileId : Nat
  pos : Nat

variable {x y : Placed ι}

/-- The record stands there. -/
def Placed.Lies (x : Placed ι) (w : World) : Prop :=
  ∃ pre post, w.fs.read (fileName x.fileId .data) = some (pre ++ x.put.record.bytes ++ post) ∧
    pre.length = x.pos

/-- The first one ends before the second one begins, if they are in one file. -/
def Placed.Before (x y : Placed ι) : Prop :=
  x.fileId = y.fileId → x.pos + x.put.record.bytes.length ≤ y.pos

theorem Placed.Lies.extends (h : x.Lies w) (he : Extends w v) : x.Lies v := by
  obtain ⟨pre, post, hread, hpos⟩ := h
  obtain ⟨more, hmore⟩ := he.data _ _ hread
  exact ⟨pre, post ++ more, by rw [hmore, List.append_assoc (pre ++ _)], hpos⟩

/-- The write of a record puts it behind everything that its file held. -/
theorem Mounted.write (h : Mounted w) (hl : w.readLocks = 0) (hp : Legible p)
    (hsize : p.record.bytes.length ≤ w.maxActiveFileSize.toNat) (hids : Overflows p.record w → HasIds w) :
    ∃ v id pre, Computes (ccaskWriteRecordBlocking p.record) w (.ok ()) v ∧ Mounted v ∧
      v.readLocks = 0 ∧ v.ringbuf = w.ringbuf ∧ v.isShuttingDown = w.isShuttingDown ∧ Extends w v ∧
      v.fs.read (fileName id .data) = some (pre ++ p.record.bytes) ∧
      ∀ c, w.fs.read (fileName id .data) = some c → c = pre := by
  have hextends : ∀ {v : World}, Computes (ccaskWriteRecordBlocking p.record) w (.ok ()) v → Extends w v := by
    intro v hwrite
    obtain ⟨rs, rest, -, hrun⟩ := hwrite.exists_run
    exact (ccaskWriteRecordBlocking_extends p.record).ensures.returned (fun _ _ => trivial) hrun
  obtain ⟨f, rest, hfiles, -⟩ := h.active
  obtain ⟨ino, hdir⟩ := h.head_dir hfiles
  have hread : w.fs.read (fileName f.fileId .data) = some (w.fs.data ino) := by rw [Fs.read, hdir]; rfl
  by_cases hfits : (w.fs.data ino).length + p.record.bytes.length ≤ w.maxActiveFileSize.toNat
  · have hwrite := ccaskWriteRecordBlocking_fits h hfiles hdir hl hp.value_ne hfits
    refine ⟨_, f.fileId, w.fs.data ino, hwrite, h.wrote _ _ _, hl, rfl, rfl, hextends hwrite, ?_, ?_⟩
    · rw [read_wrote hdir, Function.update_self]
    · intro c hc
      rw [hread] at hc
      exact (Option.some.inj hc).symm
  · have hfile : ccaskFilesGetActiveFile w = some f := by rw [ccaskFilesGetActiveFile, hfiles]; rfl
    have hover : Overflows p.record w := by
      refine ⟨f, ino, hfile, h.head_fd hfiles hdir, ?_⟩
      rw [← bytes_length]
      omega
    have hwrite := ccaskWriteRecordBlocking_rotates h hfiles hdir (hids hover f hfile) hl hp.value_ne
      (Nat.lt_of_not_le hfits) hsize
    refine ⟨_, f.fileId + 1, [], hwrite, (h.rotated hfiles).wrote _ _ _, hl, rfl, rfl, hextends hwrite, ?_, ?_⟩
    · rw [read_wrote (Fs.dir_create_self _ _), Function.update_self, data_rotated h hfiles]
    · intro c hc
      rw [h.next_absent hfiles] at hc
      cases hc

end Places

section Ring

variable {w : World} {t : QueueThread} {q : List DatafileRecord} {a : DatafileRecord}

/-- A push that finds room puts its record behind those that wait. -/
theorem Waiting.push (h : Waiting w t q) (key value : Ptr) (left : Nat) :
    (∃ v, Computes (putTry key value left) w (.inr (.ok ())) v ∧
      Waiting v t (q ++ [mkRecord (UInt32.ofNat w.clock) key value]) ∧ v = { w with ringbuf := v.ringbuf } ∧
      v.ringbuf.map Ringbuf.shutdown = w.ringbuf.map Ringbuf.shutdown) ∨
    Computes (putTry key value left) w (putTried left (.retry (some .ringbufferFull))) w := by
  obtain ⟨r, queue, hr, hring, rfl⟩ := h
  by_cases hfull : (r.head + 1) % r.capacity = r.tail
  · exact .inr (putTry_full hr hfull key value left)
  · have hpush := hring.push hfull (mkRecord (UInt32.ofNat w.clock) key value)
    refine .inl ⟨_, putTry_room hr hfull key value left, ⟨_, _, rfl, hpush, ?_⟩, rfl, ?_⟩
    · rw [List.append_assoc]
    · rw [hr]
      rfl

omit [Zlib] in
/-- The oldest of them is taken. -/
theorem Waiting.pop (h : Waiting w .popping (a :: q)) : ∃ v, Computes ccaskWriterRingbufPop w (.ok a) v ∧
    Waiting v (.writing a) (a :: q) ∧ v = { w with ringbuf := v.ringbuf } ∧
    v.ringbuf.map Ringbuf.shutdown = w.ringbuf.map Ringbuf.shutdown := by
  obtain ⟨r, queue, hr, hring, hq⟩ := h
  obtain rfl : queue = a :: q := hq.symm
  obtain ⟨hfirst, hrest⟩ := hring.pop
  have hne : r.tail ≠ r.head := fun heq => by cases hring.empty_iff.mp heq
  have hpop : Computes ccaskWriterRingbufPop w (.ok a) { w with ringbuf := some { r with
      tail := (r.tail + 1) % r.capacity } } := by
    refine Computes.state_bind ?_
    rw [hr]
    simp only [if_neg hne, hfirst]
    exact Computes.modify_bind (Computes.pure _)
  refine ⟨_, hpop, ⟨_, q, rfl, hrest, rfl⟩, rfl, ?_⟩
  rw [hr]
  rfl

omit [Zlib] in
/-- When none waits, the writer thread is told so after the announcement, and waits before it. -/
theorem Waiting.pop_empty (h : Waiting w .popping []) :
    (∃ r, w.ringbuf = some r ∧ r.shutdown = true) ∧ Computes ccaskWriterRingbufPop w (.fail none) w ∨
    ∀ rs, ccaskWriterRingbufPop.run rs w = .pending w := by
  obtain ⟨r, queue, hr, hring, hq⟩ := h
  obtain rfl : queue = [] := hq.symm
  have hempty := hring.empty_iff.mpr rfl
  cases hdown : r.shutdown with
  | true =>
      refine .inl ⟨⟨r, hr, hdown⟩, Computes.state_bind ?_⟩
      rw [hr]
      simp only [if_pos hempty, hdown, if_true]
      exact Computes.pure _
  | false =>
      refine .inr fun rs => ?_
      rw [ccaskWriterRingbufPop, Prog.run_state_bind, hr]
      simp only [if_pos hempty, hdown]
      rfl

end Ring

section Invariant

variable {ι : Type} {w v : World} {t : QueueThread} {pending : List (ι × Put)}

/-- The writer thread is at work on the records of the pending puts. -/
structure Works (w : World) (writer : QueueThread) (pending : List (ι × Put)) : Prop where
  mounted : Mounted w
  unlocked : w.readLocks = 0
  waiting : Waiting w writer (pending.map fun x => x.2.record)
  busy : writer = .popping ∨ ∃ record, writer = .writing record
  announced : w.ringbuf.map Ringbuf.shutdown = some true → w.isShuttingDown = true

/-- Only puts are left to be made. -/
def PutsOnly : QueueThread → Prop
  | .calling _ rest | .pushing _ _ _ _ rest => ∀ call ∈ rest, ∃ key value, call = .put key value
  | _ => False

/-- The put has passed its test and has not been pushed. -/
def Pushing : QueueThread → Prop
  | .pushing _ _ _ _ _ => True
  | _ => False

/-- The keys and values of the calls that returned CCASK_OK. -/
def accepted (t : QueueThread) : List (Ptr × Ptr) :=
  (made t).filterMap fun x => if x.2 = .ok () then some (x.1.key, x.1.value) else none

/-- The keys and values of the puts of one caller. -/
def putsOf [DecidableEq ι] (i : ι) (l : List (ι × Put)) : List (Ptr × Ptr) :=
  l.filterMap fun x => if x.1 = i then some (x.2.key, x.2.value) else none

theorem Works.beside (h : Works w t pending) (hb : Beside w v) : Works v t pending := by
  refine ⟨hb.mounted h.mounted, hb.locks.trans h.unlocked, ?_, h.busy, ?_⟩
  · rw [Waiting, hb.ringbuf]
    exact h.waiting
  · rw [hb.ringbuf, hb.flag]
    exact h.announced

/-- Records come and go in the ring buffer. -/
theorem Works.aside (h : Works w t pending) {t' : QueueThread} {pending' : List (ι × Put)}
    (hv : v = { w with ringbuf := v.ringbuf })
    (hflag : v.ringbuf.map Ringbuf.shutdown = w.ringbuf.map Ringbuf.shutdown)
    (hwaiting : Waiting v t' (pending'.map fun x => x.2.record))
    (hbusy : t' = .popping ∨ ∃ record, t' = .writing record) : Works v t' pending' := by
  refine ⟨?_, ?_, hwaiting, hbusy, ?_⟩
  · rw [hv]
    exact h.mounted.congr rfl fun _ => rfl
  · rw [hv]
    exact h.unlocked
  · rw [hflag, hv]
    exact h.announced

end Invariant

section Runs

variable {ι : Type} [DecidableEq ι] {c c' c₀ : Draining ι} {places : List (Placed ι)}
  {pending : List (ι × Put)} {i : ι} {w : World} {t : QueueThread}

/-- The shutdown has joined the writer thread. -/
def Joined : ShutdownCall → Prop
  | .destroy | .keydir | .files | .returned => True
  | _ => False

/-- The writer thread has ended, and no put will be pushed any more. -/
structure Stopped (c : Draining ι) : Prop where
  ended : c.writer = .ended
  down : c.shared.isShuttingDown = true
  idle : ∀ i, ¬ Pushing (c.putter i)

def Placed.own (x : Placed ι) : ι × Put := (x.caller, x.put)

/-- The accepted puts have been written, or are pending while the writer thread is at work. -/
structure Drains (c : Draining ι) (places : List (Placed ι)) (pending : List (ι × Put)) : Prop where
  apart : places.Pairwise Placed.Before
  lies : ∀ x ∈ places, x.Lies c.shared
  legible : ∀ x ∈ pending, Legible x.2 ∧ x.2.record.bytes.length ≤ c.shared.maxActiveFileSize.toNat
  accepted : ∀ i, accepted (c.putter i) = putsOf i (places.map Placed.own ++ pending)
  ready : ∀ i, Ready c.shared (c.putter i) ∧ PutsOnly (c.putter i)
  down : c.shutdown ≠ .call → c.shared.isShuttingDown = true
  phase : Works c.shared c.writer pending ∧ ¬ Joined c.shutdown ∨ Stopped c ∧ pending = []

/-- Another thread has moved on, and the datafiles have only grown. -/
theorem Drains.move (h : Drains c places pending) (he : Extends c.shared c'.shared)
    (hputter : c'.putter = c.putter) (hdown : c'.shutdown ≠ .call → c'.shared.isShuttingDown = true)
    (hphase : Works c'.shared c'.writer pending ∧ ¬ Joined c'.shutdown ∨ Stopped c' ∧ pending = []) :
    Drains c' places pending := by
  refine ⟨h.apart, fun x hx => (h.lies x hx).extends he, ?_, ?_, ?_, hdown, hphase⟩
  · rw [he.threshold]
    exact h.legible
  · rw [hputter]
    exact h.accepted
  · rw [hputter]
    exact fun i => ⟨(h.ready i).1.congr he.threshold, (h.ready i).2⟩

/-- A caller has moved on without an effect. -/
theorem Drains.retry (h : Drains c places pending) (haccepted : Audit.accepted t = Audit.accepted (c.putter i))
    (hready : Ready c.shared t) (hputs : PutsOnly t) (hidle : Stopped c → ¬ Pushing t) :
    Drains { c with putter := Function.update c.putter i t } places pending := by
  refine ⟨h.apart, h.lies, h.legible, ?_, ?_, h.down, ?_⟩
  · show ∀ j, Audit.accepted (Function.update c.putter i t j) = _
    rw [Function.forall_update_iff c.putter fun j u => Audit.accepted u = putsOf j _]
    exact ⟨haccepted.trans (h.accepted i), fun j _ => h.accepted j⟩
  · show ∀ j, Ready c.shared (Function.update c.putter i t j) ∧ PutsOnly (Function.update c.putter i t j)
    rw [Function.forall_update_iff c.putter fun _ u => Ready c.shared u ∧ PutsOnly u]
    exact ⟨⟨hready, hputs⟩, fun j _ => h.ready j⟩
  · refine h.phase.imp_right fun ⟨hstopped, hnone⟩ => ⟨⟨hstopped.ended, hstopped.down, ?_⟩, hnone⟩
    show ∀ j, ¬ Pushing (Function.update c.putter i t j)
    rw [Function.forall_update_iff c.putter fun _ u => ¬ Pushing u]
    exact ⟨hidle hstopped, fun j _ => hstopped.idle j⟩

/-- A caller has pushed a record. -/
theorem Drains.pushed (h : Drains c places pending) {p : Put} (hp : Legible p)
    (hsize : p.record.bytes.length ≤ c.shared.maxActiveFileSize.toNat)
    (hw : w = { c.shared with ringbuf := w.ringbuf })
    (haccepted : Audit.accepted t = Audit.accepted (c.putter i) ++ [(p.key, p.value)])
    (hready : Ready c.shared t) (hputs : PutsOnly t)
    (hworks : Works w c.writer (pending ++ [(i, p)])) (hjoined : ¬ Joined c.shutdown) :
    Drains { c with shared := w, putter := Function.update c.putter i t } places (pending ++ [(i, p)]) := by
  have hfs : w.fs = c.shared.fs := by rw [hw]
  have hmax : w.maxActiveFileSize = c.shared.maxActiveFileSize := by rw [hw]
  have hputsOf : ∀ j, putsOf j (places.map Placed.own ++ (pending ++ [(i, p)])) =
      putsOf j (places.map Placed.own ++ pending) ++ if i = j then [(p.key, p.value)] else [] := by
    intro j
    rw [← List.append_assoc, putsOf, List.filterMap_append, putsOf]
    congr 1
    by_cases hij : i = j
    · simp [hij]
    · simp [hij]
  refine ⟨h.apart, fun x hx => (h.lies x hx).extends (.of_fs hfs hmax), ?_, ?_, ?_, ?_, .inl ⟨hworks, hjoined⟩⟩
  · intro x hx
    show _ ∧ _ ≤ w.maxActiveFileSize.toNat
    rw [hmax]
    obtain hx | hx := List.mem_append.mp hx
    · exact h.legible x hx
    · rw [List.mem_singleton.mp hx]
      exact ⟨hp, hsize⟩
  · show ∀ j, Audit.accepted (Function.update c.putter i t j) = _
    rw [Function.forall_update_iff c.putter fun j u => Audit.accepted u = putsOf j _]
    refine ⟨?_, fun j hj => ?_⟩
    · rw [hputsOf, if_pos rfl, haccepted, h.accepted]
    · rw [hputsOf, if_neg (Ne.symm hj), List.append_nil]
      exact h.accepted j
  · show ∀ j, Ready w (Function.update c.putter i t j) ∧ PutsOnly (Function.update c.putter i t j)
    rw [Function.forall_update_iff c.putter fun _ u => Ready w u ∧ PutsOnly u]
    exact ⟨⟨hready.congr hmax, hputs⟩, fun j _ => ⟨(h.ready j).1.congr hmax, (h.ready j).2⟩⟩
  · intro hphase
    show w.isShuttingDown = true
    rw [hw]
    exact h.down hphase

omit [Zlib] in
theorem accepted_concat (done : List (Call × Status)) (rest : List Call) (call : Call) (res : Status) :
    accepted (.calling (done ++ [(call, res)]) rest) =
      accepted (.calling done rest) ++ if res = .ok () then [(call.key, call.value)] else [] := by
  show (done ++ _).filterMap _ = done.filterMap _ ++ _
  rw [List.filterMap_append]
  congr 1
  by_cases hres : res = .ok ()
  · simp [hres]
  · simp [hres]

/-- A caller makes its next test, or tries to push. -/
theorem Drains.step_putter (h : Drains c places pending)
    (hs : Section (fun _ => AllClean) QueueThread.sect c.shared (c.putter i) w t) :
    ∃ pending', Drains { c with shared := w, putter := Function.update c.putter i t } places pending' := by
  obtain ⟨hready, hputs⟩ := h.ready i
  cases hc : c.putter i with
  | calling done rest =>
      rw [hc] at hs hready hputs
      cases rest with
      | nil => exact absurd rfl hs.ne_none
      | cons call rest =>
          obtain ⟨⟨key, value, rfl⟩, hothers⟩ := List.forall_mem_cons.mp hputs
          obtain ⟨hfits, hrest⟩ := List.forall_mem_cons.mp hready
          obtain ⟨rfl, rfl⟩ := putTest_section hs
          split
          · refine ⟨pending, h.retry ?_ hrest hothers fun _ => id⟩
            rw [accepted_concat, if_neg (by simp), List.append_nil, hc]
            rfl
          · rename_i hdown
            refine ⟨pending, h.retry ?_ ⟨hfits, hrest⟩ hothers fun hstopped => absurd hstopped.down hdown⟩
            rw [hc]
            rfl
  | pushing key value left done rest =>
      rw [hc] at hs hready hputs
      obtain ⟨hfits, hrest⟩ := hready
      obtain ⟨hlegible, hsize⟩ := hfits.legible
      obtain ⟨hworks, hjoined⟩ | ⟨hstopped, -⟩ := h.phase
      · obtain ⟨v, htry, hwaiting, hv, hflag⟩ | htry := hworks.waiting.push key value left
        · obtain ⟨rfl, rfl⟩ := hs.computes rfl (fun _ h => h) (htry.bind (Computes.pure _))
          refine ⟨_, h.pushed hlegible hsize hv ?_ hrest hputs (hworks.aside hv hflag ?_ hworks.busy) hjoined⟩
          · rw [accepted_concat, if_pos rfl, hc]
            rfl
          · rw [List.map_append]
            exact hwaiting
        · cases left with
          | zero =>
              obtain ⟨rfl, rfl⟩ := hs.computes rfl (fun _ h => h) (htry.bind (Computes.pure _))
              refine ⟨pending, h.retry ?_ hrest hputs fun _ => id⟩
              rw [accepted_concat, if_neg (by simp), List.append_nil, hc]
              rfl
          | succ left =>
              obtain ⟨rfl, rfl⟩ := hs.computes rfl (fun _ h => h) (htry.bind (Computes.pure _))
              refine ⟨pending, h.retry ?_ ⟨hfits, hrest⟩ hputs fun hstopped => ?_⟩
              · rw [hc]
                rfl
              · exact absurd (by rw [hc]; trivial) (hstopped.idle i)
      · exact absurd (by rw [hc]; trivial) (hstopped.idle i)
  | popping => rw [hc] at hready; exact hready.elim
  | writing record => rw [hc] at hready; exact hready.elim
  | ended => rw [hc] at hready; exact hready.elim
  | clock times => rw [hc] at hready; exact hready.elim

/-- The writer thread does not end while a put stands between its test and the end of its push, and
there is a 64-bit id for the file that a record needs. -/
structure Timely (c c' : Draining ι) : Prop where
  ends : c.writer = .popping → c'.writer = .ended → ∀ i, ¬ Pushing (c.putter i)
  room : ∀ record, c.writer = .writing record → c'.writer = .popping → Overflows record c.shared →
    HasIds c.shared

/-- The writer thread has written the oldest record. -/
theorem Drains.written {x : ι × Put} {rest : List (ι × Put)} (h : Drains c places (x :: rest)) {id : Nat}
    {pre : Bytes} (he : Extends c.shared w)
    (hread : w.fs.read (fileName id .data) = some (pre ++ x.2.record.bytes))
    (hpre : ∀ b, c.shared.fs.read (fileName id .data) = some b → b = pre)
    (hdown : w.isShuttingDown = c.shared.isShuttingDown) (hworks : Works w .popping rest)
    (hjoined : ¬ Joined c.shutdown) :
    Drains { c with shared := w, writer := .popping } (places ++ [⟨x.1, x.2, id, pre.length⟩]) rest := by
  refine ⟨?_, ?_, ?_, fun i => ?_, fun i => ⟨(h.ready i).1.congr he.threshold, (h.ready i).2⟩,
    fun hphase => hdown.trans (h.down hphase), .inl ⟨hworks, hjoined⟩⟩
  · refine List.pairwise_append.mpr ⟨h.apart, List.pairwise_singleton _ _, fun y hy z hz => ?_⟩
    rw [List.mem_singleton.mp hz]
    intro hid
    have hid : y.fileId = id := hid
    show _ ≤ pre.length
    obtain ⟨before, after, hcontents, hpos⟩ := h.lies y hy
    rw [hid] at hcontents
    rw [← hpre _ hcontents, List.length_append, List.length_append, hpos]
    omega
  · intro y hy
    obtain hy | hy := List.mem_append.mp hy
    · exact (h.lies y hy).extends he
    · rw [List.mem_singleton.mp hy]
      exact ⟨pre, [], by rw [List.append_nil]; exact hread, rfl⟩
  · rw [he.threshold]
    exact fun y hy => h.legible y (List.mem_cons_of_mem _ hy)
  · rw [List.map_append, List.append_assoc]
    exact h.accepted i

theorem writing_pops {v : World} {record : DatafileRecord}
    (hs : Section (fun _ => AllClean) QueueThread.sect v (.writing record) w t) : t = .popping := by
  obtain ⟨hsect, -, hrun⟩ := hs
  cases hsect
  obtain ⟨res, mid, u, -, hrest⟩ := Prog.run_bind_eq_returned hrun
  cases hrest
  rfl

/-- The writer thread takes a record, writes it, or ends. -/
theorem Drains.step_writer (h : Drains c places pending)
    (hs : Section (fun _ => AllClean) QueueThread.sect c.shared c.writer w t)
    (ht : Timely c { c with shared := w, writer := t }) :
    ∃ places' pending', Drains { c with shared := w, writer := t } places' pending' := by
  obtain ⟨hworks, hjoined⟩ | ⟨hstopped, -⟩ := h.phase
  · have hwaiting := hworks.waiting
    obtain hpopping | ⟨record, hwriting⟩ := hworks.busy
    · have hends := ht.ends hpopping
      rw [hpopping] at hs hwaiting
      cases pending with
      | nil =>
          obtain ⟨⟨r, hr, hdown⟩, hpop⟩ | hpop := hwaiting.pop_empty
          · obtain ⟨rfl, rfl⟩ := hs.computes rfl (fun _ h => h) (hpop.bind (Computes.pure _))
            have hannounced := hworks.announced (by rw [hr, Option.map_some, hdown])
            exact ⟨places, [], h.move (.of_fs rfl rfl) rfl h.down
              (.inr ⟨⟨rfl, hannounced, hends rfl⟩, rfl⟩)⟩
          · obtain ⟨hsect, -, hrun⟩ := hs
            cases hsect
            rw [Prog.run_bind_pending (hpop _)] at hrun
            cases hrun
      | cons x rest =>
          obtain ⟨v, hpop, hwaiting', hv, hflag⟩ := hwaiting.pop
          obtain ⟨rfl, rfl⟩ := hs.computes rfl (fun _ h => h) (hpop.bind (Computes.pure _))
          refine ⟨places, x :: rest, h.move (.of_fs ?_ ?_) rfl ?_
            (.inl ⟨hworks.aside hv hflag hwaiting' (.inr ⟨_, rfl⟩), hjoined⟩)⟩
          · show w.fs = _
            rw [hv]
          · show w.maxActiveFileSize = _
            rw [hv]
          · show c.shutdown ≠ .call → w.isShuttingDown = true
            rw [hv]
            exact h.down
    · have hroom := ht.room record hwriting
      rw [hwriting] at hs hwaiting
      obtain ⟨r, queue, hr, hring, hq⟩ := hwaiting
      cases pending with
      | nil => cases hq
      | cons x rest =>
          obtain ⟨rfl, rfl⟩ := List.cons.inj hq
          obtain ⟨hlegible, hsize⟩ := h.legible x List.mem_cons_self
          obtain rfl := writing_pops hs
          obtain ⟨v, id, pre, hwrite, hm, hl, hringbuf, hflag, he, hread, hpre⟩ :=
            hworks.mounted.write hworks.unlocked hlegible hsize (hroom rfl)
          obtain ⟨-, rfl⟩ := hs.computes rfl (fun _ h => h) (hwrite.bind (Computes.pure _))
          refine ⟨_, rest, h.written he hread hpre hflag ⟨hm, hl, ?_, .inl rfl, ?_⟩ hjoined⟩
          · exact ⟨r, _, hringbuf.trans hr, hring, rfl⟩
          · rw [hringbuf, hflag]
            exact hworks.announced
  · rw [hstopped.ended] at hs
    exact absurd rfl hs.ne_none

omit [DecidableEq ι] [Zlib] in
theorem Stopped.go_on {phase : ShutdownCall} (h : Stopped c) (hflag : w.isShuttingDown = true) :
    Stopped { c with shared := w, shutdown := phase } :=
  ⟨h.ended, hflag, h.idle⟩

/-- Once the writer thread has been joined, it has ended. -/
theorem Drains.stopped (h : Drains c places pending) (hjoined : Joined c.shutdown) :
    Stopped c ∧ pending = [] :=
  h.phase.resolve_left fun hworks => hworks.2 hjoined

/-- The shutdown gets on. -/
theorem Drains.step_shutdown {phase : ShutdownCall} (h : Drains c places pending)
    (hs : Section (fun _ => AllClean) (ShutdownCall.sect c.writer.isEnded) c.shared c.shutdown w phase) :
    Drains { c with shared := w, shutdown := phase } places pending := by
  have hdown := h.down
  have hstopped := h.stopped
  obtain ⟨hsect, -, hrun⟩ := hs
  cases hc : c.shutdown with
  | call =>
      rw [hc] at hsect
      cases hsect
      cases hrun
      refine h.move (.of_fs rfl rfl) rfl (fun _ => rfl) ?_
      refine h.phase.imp (fun ⟨hworks, _⟩ => ⟨⟨?_, hworks.unlocked, hworks.waiting, hworks.busy, ?_⟩, fun hj => hj⟩)
        fun ⟨hstopped, hnone⟩ => ⟨hstopped.go_on rfl, hnone⟩
      · exact hworks.mounted.congr rfl fun _ => rfl
      · exact fun _ => rfl
  | generators =>
      rw [hc] at hsect hdown
      have hflag := hdown nofun
      cases hsect
      cases hrun
      refine h.move (.of_fs rfl rfl) rfl (fun _ => hflag) ?_
      exact h.phase.imp (fun ⟨hworks, _⟩ => ⟨hworks, fun hj => hj⟩)
        fun ⟨hstopped, hnone⟩ => ⟨hstopped.go_on hflag, hnone⟩
  | joining ids =>
      rw [hc] at hsect hdown
      have hflag := hdown nofun
      cases ids with
      | cons id ids =>
          cases hsect
          change (if id ∈ c.shared.threads then Prog.block else pure _ : Sys ShutdownCall).run _ _ = _ at hrun
          split at hrun
          · cases hrun
          · cases hrun
            refine h.move (.of_fs rfl rfl) rfl (fun _ => hflag) ?_
            exact h.phase.imp (fun ⟨hworks, _⟩ => ⟨hworks, fun hj => hj⟩)
              fun ⟨hstopped, hnone⟩ => ⟨hstopped.go_on hflag, hnone⟩
      | nil =>
          cases hsect
          cases hrun
          refine h.move (.of_fs rfl rfl) rfl (fun _ => hflag) ?_
          refine h.phase.imp (fun ⟨hworks, _⟩ => ⟨⟨?_, hworks.unlocked, ?_, hworks.busy, ?_⟩, fun hj => hj⟩)
            fun ⟨hstopped, hnone⟩ => ⟨hstopped.go_on hflag, hnone⟩
          · exact hworks.mounted.congr rfl fun _ => rfl
          · obtain ⟨r, queue, hr, hring, hq⟩ := hworks.waiting
            exact ⟨{ r with shutdown := true }, queue, by show c.shared.ringbuf.map _ = _; rw [hr]; rfl, hring, hq⟩
          · exact fun _ => hflag
  | joinWriter =>
      rw [hc] at hsect hdown
      have hflag := hdown nofun
      cases hsect
      split at hrun
      · rename_i hended
        cases hrun
        refine h.move (.of_fs rfl rfl) rfl (fun _ => hflag) (.inr ?_)
        obtain ⟨hworks, -⟩ | ⟨hstopped, hnone⟩ := h.phase
        · obtain hw | ⟨record, hw⟩ := hworks.busy
          · rw [hw] at hended
            cases hended
          · rw [hw] at hended
            cases hended
        · exact ⟨hstopped.go_on hflag, hnone⟩
      · cases hrun
  | destroy =>
      rw [hc] at hsect hdown hstopped
      have hflag := hdown nofun
      obtain ⟨hstopped, hnone⟩ := hstopped trivial
      cases hsect
      cases hrun
      exact h.move (.of_fs rfl rfl) rfl (fun _ => hflag) (.inr ⟨hstopped.go_on hflag, hnone⟩)
  | keydir =>
      rw [hc] at hsect hdown hstopped
      have hflag := hdown nofun
      obtain ⟨hstopped, hnone⟩ := hstopped trivial
      cases hsect
      obtain ⟨u, mid, v, hr, hrest⟩ := Prog.run_bind_eq_returned hrun
      change (if c.shared.readLocks ≠ 0 then Prog.block else _ : Sys Unit).run _ _ = _ at hr
      split at hr
      · cases hr
      · cases hr
        cases hrest
        exact h.move (.of_fs rfl rfl) rfl (fun _ => hflag) (.inr ⟨hstopped.go_on hflag, hnone⟩)
  | files =>
      rw [hc] at hsect hdown hstopped
      have hflag := hdown nofun
      obtain ⟨hstopped, hnone⟩ := hstopped trivial
      cases hsect
      cases hrun
      exact h.move (.of_fs rfl rfl) rfl (fun _ => hflag) (.inr ⟨hstopped.go_on hflag, hnone⟩)
  | returned =>
      rw [hc] at hsect
      cases hsect

theorem Drains.step (h : Drains c places pending) (hs : Draining.Step c c') (ht : Timely c c') :
    ∃ places' pending', Drains c' places' pending' := by
  cases hs with
  | putter i hs =>
      obtain ⟨pending', hdrains⟩ := h.step_putter hs
      exact ⟨places, pending', hdrains⟩
  | writer hs => exact h.step_writer hs ht
  | generator id _ _ hrun =>
      have hb := (runGenerator_beside id).ensures.returned (fun _ _ => trivial) hrun
      have he := (runGenerator_extends id).ensures.returned (fun _ _ => trivial) hrun
      refine ⟨places, pending, h.move he rfl (fun hphase => hb.flag.trans (h.down hphase)) ?_⟩
      exact h.phase.imp (fun ⟨hworks, hjoined⟩ => ⟨hworks.beside hb, hjoined⟩) fun ⟨hstopped, hnone⟩ =>
        ⟨⟨hstopped.ended, hb.flag.trans hstopped.down, hstopped.idle⟩, hnone⟩
  | shutdown hs => exact ⟨places, pending, h.step_shutdown hs⟩
  | clock now =>
      have hb : Beside c.shared { c.shared with clock := now } :=
        ⟨rfl, rfl, rfl, fun hm => hm.congr rfl fun _ => rfl⟩
      refine ⟨places, pending, h.move (.of_fs rfl rfl) rfl h.down ?_⟩
      exact h.phase.imp (fun ⟨hworks, hjoined⟩ => ⟨hworks.beside hb, hjoined⟩) fun ⟨hstopped, hnone⟩ =>
        ⟨⟨hstopped.ended, hstopped.down, hstopped.idle⟩, hnone⟩

/-- A mounted store with an empty ring buffer, before any put. -/
structure DrainStarts (c : Draining ι) : Prop where
  mounted : Mounted c.shared
  unlocked : c.shared.readLocks = 0
  running : c.shared.isShuttingDown = false
  ring : ∃ n, 0 < n ∧ c.shared.ringbuf = some (.init n)
  putter : ∀ i, ∃ calls, c.putter i = .calling [] calls ∧
    ∀ call ∈ calls, (∃ key value, call = .put key value) ∧ Fits c.shared call
  writer : c.writer = .popping
  shutdown : c.shutdown = .call

/-- Any number of steps that meet the condition. -/
abbrev TimelyRun (c c' : Draining ι) : Prop :=
  Relation.ReflTransGen (fun c c' => Draining.Step c c' ∧ Timely c c') c c'

theorem DrainStarts.drains (h : DrainStarts c) : Drains c [] [] := by
  obtain ⟨n, hn, hring⟩ := h.ring
  refine ⟨.nil, nofun, nofun, fun i => ?_, fun i => ?_, fun hphase => absurd h.shutdown hphase,
    .inl ⟨⟨h.mounted, h.unlocked, ?_, .inl h.writer, ?_⟩, ?_⟩⟩
  · obtain ⟨calls, hcalls, -⟩ := h.putter i
    rw [hcalls]
    rfl
  · obtain ⟨calls, hcalls, hputs⟩ := h.putter i
    rw [hcalls]
    exact ⟨fun call hcall => (hputs call hcall).2, fun call hcall => (hputs call hcall).1⟩
  · rw [h.writer]
    exact ⟨_, [], hring, Index.Ring.init hn _, rfl⟩
  · rw [hring]
    nofun
  · rw [h.shutdown]
    exact fun hj => hj

theorem DrainStarts.run (h : DrainStarts c₀) (hrun : TimelyRun c₀ c) : ∃ places pending, Drains c places pending := by
  induction hrun with
  | refl => exact ⟨[], [], h.drains⟩
  | tail _ hs ih =>
      obtain ⟨places, pending, hdrains⟩ := ih
      exact hdrains.step hs.1 hs.2

/-- The records of the puts that returned CCASK_OK stand in the datafiles, each at a place of its own. -/
def Flushed (c : Draining ι) : Prop :=
  ∃ places : List (Placed ι), places.Pairwise Placed.Before ∧ (∀ x ∈ places, x.Lies c.shared) ∧
    ∀ i, accepted (c.putter i) = putsOf i (places.map Placed.own)

/-- Unless the writer thread ends while a put is between its test and its push, every put that
returned CCASK_OK has its record in a datafile when `ccask_shutdown` returns, and no put is about to be
pushed once the ring buffer has been destroyed. -/
theorem flushed_by_shutdown (h : DrainStarts c₀) (hrun : TimelyRun c₀ c) :
    (c.shutdown = .returned → Flushed c) ∧ (c.shared.ringbuf = none → ∀ i, ¬ Pushing (c.putter i)) := by
  obtain ⟨places, pending, hdrains⟩ := h.run hrun
  constructor
  · intro hreturned
    obtain ⟨-, hnone⟩ := hdrains.stopped (by rw [hreturned]; trivial)
    refine ⟨places, hdrains.apart, hdrains.lies, fun i => ?_⟩
    rw [hdrains.accepted, hnone, List.append_nil]
  · intro hdestroyed
    obtain ⟨hworks, -⟩ | ⟨hstopped, -⟩ := hdrains.phase
    · obtain ⟨r, queue, hr, -, -⟩ := hworks.waiting
      rw [hdestroyed] at hr
      cases hr
    · exact hstopped.idle

end Runs

section Sample

variable {w : World} {f : Bool → QueueThread} {ok : Draining Bool → Draining Bool → Prop}

/-- The steps that do not write. -/
def Allows (ok : Draining Bool → Draining Bool → Prop) (f : Bool → QueueThread) : Prop :=
  ∀ c c', c.putter = f → (∀ record, c.writer ≠ .writing record) → ok c c'

omit [Zlib] in
theorem allows_timely (hf : ∀ i, ¬ Pushing (f i)) : Allows Timely f := by
  intro c c' hputter hwriter
  refine ⟨fun _ _ i => ?_, fun record hrecord => absurd hrecord (hwriter record)⟩
  rw [hputter]
  exact hf i

/-- The ring buffer has been told of the shutdown. -/
def announced (w : World) : World :=
  { w with
    isShuttingDown := true
    ringbuf := w.ringbuf.map fun r => { r with shutdown := true } }

/-- The shutdown runs up to the join of the writer thread. -/
theorem announces (hok : Allows ok f) (hthreads : w.threads = []) :
    Relation.ReflTransGen (fun c c' => Draining.Step c c' ∧ ok c c') ⟨w, f, .popping, .call⟩
      ⟨announced w, f, .popping, .joinWriter⟩ := by
  have hgenerators : Computes (Prog.state >>= fun w => pure (.joining w.threads) : Sys ShutdownCall)
      { w with isShuttingDown := true } (.joining []) { w with isShuttingDown := true } := by
    refine Computes.state_bind ?_
    show Computes (pure (ShutdownCall.joining w.threads)) _ _ _
    rw [hthreads]
    exact Computes.pure _
  refine ((Relation.ReflTransGen.single ⟨.shutdown (.of_computes rfl (fun _ h => h)
    (Computes.modify_bind (Computes.pure _))), hok _ _ rfl nofun⟩).tail
    ⟨.shutdown (.of_computes rfl (fun _ h => h) hgenerators), hok _ _ rfl nofun⟩).tail
    ⟨.shutdown (.of_computes rfl (fun _ h => h) (Computes.modify_bind (Computes.pure _))), hok _ _ rfl nofun⟩

/-- The writer thread ends. -/
theorem ends (hok : Allows ok f) {r : Ringbuf} (hr : w.ringbuf = some r) (hdown : r.shutdown = true)
    (hempty : r.tail = r.head) (phase : ShutdownCall) :
    Relation.ReflTransGen (fun c c' => Draining.Step c c' ∧ ok c c') ⟨w, f, .popping, phase⟩
      ⟨w, f, .ended, phase⟩ := by
  have hpop : Computes ccaskWriterRingbufPop w (.fail none) w := by
    refine Computes.state_bind ?_
    rw [hr]
    simp only [if_pos hempty, hdown, if_true]
    exact Computes.pure _
  exact .single ⟨.writer (.of_computes rfl (fun _ h => h) (hpop.bind (Computes.pure _))), hok _ _ rfl nofun⟩

/-- The shutdown returns. -/
theorem returns (hok : Allows ok f) (hl : w.readLocks = 0) :
    Relation.ReflTransGen (fun c c' => Draining.Step c c' ∧ ok c c') ⟨w, f, .ended, .joinWriter⟩
      ⟨{ w with ringbuf := none, hashTable := [], files := [] }, f, .ended, .returned⟩ := by
  have hkeydir := ccaskKeydirShutdown_computes (w := { w with ringbuf := none }) hl
  refine (((Relation.ReflTransGen.single ⟨.shutdown (.of_computes rfl (fun _ h => h) (Computes.pure _)),
    hok _ _ rfl nofun⟩).tail
    ⟨.shutdown (.of_computes rfl (fun _ h => h) (Computes.modify_bind (Computes.pure _))),
      hok _ _ rfl nofun⟩).tail
    ⟨.shutdown (.of_computes rfl (fun _ h => h) (hkeydir.bind (Computes.pure _))), hok _ _ rfl nofun⟩).tail
    ⟨.shutdown (.of_computes rfl (fun _ h => h) (Computes.modify_bind (Computes.pure _))), hok _ _ rfl nofun⟩

/-- Two callers with one put each. -/
def twoPutters (w : World) : Draining Bool :=
  ⟨w, fun _ => .calling [] [.put (bytePut 0 97 98).key (bytePut 0 97 98).value], .popping, .call⟩

theorem exists_twoPutters : ∃ w, DrainStarts (twoPutters w) ∧ Appends w (fun _ => []) ∧ ids w = [0] ∧
    w.threads = [] ∧ w.maxActiveFileSize = 100 ∧ w.clock = 0 ∧ w.ringbuf = some (.init 4) := by
  obtain ⟨w, -, happends, hids, hthreads, hmax, hclock, hring⟩ := exists_run_nil
  refine ⟨w, ⟨happends.store.mounted, happends.store.unlocked, happends.running, ⟨4, by decide, hring⟩,
    fun i => ⟨_, rfl, fun call hcall => ?_⟩, rfl, rfl⟩, happends, hids, hthreads, hmax, hclock, hring⟩
  rw [List.mem_singleton.mp hcall]
  have hsize : 16 + 1 + 1 ≤ w.maxActiveFileSize.toNat := by rw [hmax]; decide
  exact ⟨⟨_, _, rfl⟩, rfl, (good_bytePut 0 97 98).value_ne, hsize⟩

def onePut (w : World) : Put := putNow w (.put (bytePut 0 97 98).key (bytePut 0 97 98).value)

/-- It has passed its test. -/
def onePushing : QueueThread := .pushing (bytePut 0 97 98).key (bytePut 0 97 98).value 4 [] []

/-- It has been accepted. -/
def oneAccepted : QueueThread :=
  .calling [(.put (bytePut 0 97 98).key (bytePut 0 97 98).value, .ok ())] []

theorem tests {c : Draining Bool} {i : Bool}
    (hi : c.putter i = .calling [] [.put (bytePut 0 97 98).key (bytePut 0 97 98).value])
    (hrun : c.shared.isShuttingDown = false) :
    Draining.Step c { c with putter := Function.update c.putter i onePushing } := by
  have htest := putTest_computes (w := c.shared)
  rw [hrun] at htest
  have hs : Section (fun _ => AllClean) QueueThread.sect c.shared (.calling [] [.put _ _]) c.shared onePushing :=
    .of_computes rfl (fun _ h => h) (htest.bind (Computes.pure _))
  rw [← hi] at hs
  exact .putter i hs

theorem pushes {c : Draining Bool} {i : Bool} (hi : c.putter i = onePushing) {r : Ringbuf}
    (hr : c.shared.ringbuf = some r) (hroom : (r.head + 1) % r.capacity ≠ r.tail) :
    Draining.Step c { c with
      shared := pushed c.shared r (onePut c.shared).record
      putter := Function.update c.putter i oneAccepted } := by
  have htry := putTry_room hr hroom (bytePut 0 97 98).key (bytePut 0 97 98).value 4
  have hs : Section (fun _ => AllClean) QueueThread.sect c.shared onePushing _ oneAccepted :=
    .of_computes rfl (fun _ h => h) (htry.bind (Computes.pure _))
  rw [← hi] at hs
  exact .putter i hs

theorem Appends.read_first (h : Appends w fun _ => []) (hids : ids w = [0]) {id : Nat} {b : Bytes}
    (hread : w.fs.read (fileName id .data) = some b) : b = [] := by
  obtain ⟨g, rest, hfiles, -⟩ := h.store.mounted.active
  have hmem := h.store.mounted.known id (by rw [hread]; rfl)
  have hg := ids_eq hfiles
  rw [hids] at hmem hg
  rw [List.mem_singleton.mp hmem, (List.cons.inj hg).1, h.top g rest hfiles] at hread
  exact (Option.some.inj hread).symm

theorem forget {c c' : Draining Bool}
    (h : Relation.ReflTransGen (fun c c' => Draining.Step c c' ∧ True) c c') :
    Relation.ReflTransGen Draining.Step c c' :=
  Relation.ReflTransGen.mono (fun _ _ h => h.1) _ _ h

omit [Zlib] in
/-- A put is accepted, the shutdown begins, and the writer thread still writes its record. -/
theorem flushed_by_shutdown_one : letI := zlib
    ∃ c₀ c : Draining Bool, DrainStarts c₀ ∧ c.shutdown = .returned ∧ c.putter true = oneAccepted ∧
      Flushed c ∧ ∀ i, ¬ Pushing (c.putter i) := by
  let _ := zlib
  obtain ⟨w, hstarts, happends, hids, hthreads, hmax, -, hring⟩ := exists_twoPutters
  obtain ⟨_, hcalls, hfits⟩ := hstarts.putter true
  cases hcalls
  obtain ⟨hlegible, hsize⟩ := (hfits _ List.mem_cons_self).2.legible
  have hupto : IdsUpTo w 0 := fun id hid => by
    rw [hids] at hid
    exact Nat.le_of_eq (List.mem_singleton.mp hid)
  have hidle : ∀ i, ¬ Pushing (Function.update (Function.update (twoPutters w).putter true onePushing) true
      oneAccepted i) := by
    intro i
    cases i with
    | true => exact fun h => h
    | false => exact fun h => h
  have hplain : ∀ c c' : Draining Bool, c.writer = .popping → c'.writer ≠ .ended → Timely c c' := by
    intro c c' h h'
    exact ⟨fun _ hended => absurd hended h', fun r hr => by cases h.symm.trans hr⟩
  have hrun : TimelyRun (twoPutters w) _ := .single ⟨tests (i := true) rfl happends.running, hplain _ _ rfl nofun⟩
  have hrun := hrun.tail ⟨pushes (i := true) rfl hring (by decide), hplain _ _ rfl nofun⟩
  have hrun := hrun.trans (announces (allows_timely hidle) hthreads)
  have hwaiting : Waiting (announced (pushed w (.init 4) (onePut w).record)) .popping [(onePut w).record] :=
    ⟨_, [_], rfl, (Index.Ring.init (by decide) _).push (by decide) _, rfl⟩
  obtain ⟨v, hpop, ⟨r, queue, hr, hqueue, hq⟩, hv, hflag⟩ := hwaiting.pop
  have hrun := hrun.tail ⟨.writer (.of_computes rfl (fun _ h => h) (hpop.bind (Computes.pure _))),
    hplain _ _ rfl nofun⟩
  have hmounted : Mounted v := by
    rw [hv]
    exact happends.store.mounted.congr rfl fun _ => rfl
  have hunlocked : v.readLocks = 0 := by
    rw [hv]
    exact happends.store.unlocked
  have hids' : HasIds v := by
    rw [hv]
    exact hupto.hasIds (by decide)
  obtain ⟨u, id, pre, hwrite, hm, hl, hringbuf, -⟩ := hmounted.write (p := onePut w) hunlocked hlegible
    (by rw [hv]; exact hsize) fun _ => hids'
  have hrun := hrun.tail ⟨.writer (.of_computes rfl (fun _ h => h) (hwrite.bind (Computes.pure _))),
    ⟨nofun, fun _ _ _ _ => hids'⟩⟩
  have hempty : queue = [] := (List.cons.inj hq).2.symm
  have hdown : r.shutdown = true := by
    rw [hr] at hflag
    exact Option.some.inj hflag
  have hrun := hrun.trans (ends (allows_timely hidle) (hringbuf.trans hr) hdown (hqueue.empty_iff.mpr hempty) _)
  have hrun := hrun.trans (returns (allows_timely hidle) hl)
  obtain ⟨hflushed, hpushing⟩ := flushed_by_shutdown hstarts hrun
  exact ⟨_, _, hstarts, rfl, rfl, hflushed rfl, hpushing rfl⟩

omit [Zlib] in
/-- A put has passed its test when the shutdown begins, and it is pushed when the writer thread has
ended: its record is in no datafile. Another one still stands before its push when the ring buffer is
gone. -/
theorem not_flushed : letI := zlib
    ∃ c₀ c : Draining Bool, DrainStarts c₀ ∧ Relation.ReflTransGen Draining.Step c₀ c ∧
      c.shutdown = .returned ∧ ¬ Flushed c ∧ c.shared.ringbuf = none ∧ Pushing (c.putter false) := by
  let _ := zlib
  obtain ⟨w, hstarts, happends, hids, hthreads, hmax, hclock, hring⟩ := exists_twoPutters
  have hok : ∀ f, Allows (fun _ _ => True) f := fun _ _ _ _ _ => trivial
  have htested := (Relation.ReflTransGen.single (tests (c := twoPutters w) (i := true) rfl happends.running)).tail
    (tests (i := false) rfl happends.running)
  have hannounced := forget (announces (hok (Function.update (Function.update (twoPutters w).putter true
    onePushing) false onePushing)) hthreads)
  have hring : (announced w).ringbuf = some { Ringbuf.init 4 with shutdown := true } := by
    show w.ringbuf.map _ = _
    rw [hring]
    rfl
  have hended := forget (ends (hok (Function.update (Function.update (twoPutters w).putter true onePushing)
    false onePushing)) hring rfl rfl .joinWriter)
  have hran := (htested.trans hannounced).trans hended
  have hpushed := hran.tail (pushes (i := true) rfl hring (by decide))
  have hreturned := hpushed.trans (forget (returns (hok _) happends.store.unlocked))
  refine ⟨_, _, hstarts, hreturned, rfl, ?_, rfl, trivial⟩
  rintro ⟨places, -, hlies, haccepted⟩
  cases places with
  | nil => cases haccepted true
  | cons x places =>
      obtain ⟨pre, post, hread, -⟩ := hlies x List.mem_cons_self
      have hread : w.fs.read (fileName x.fileId .data) = some (pre ++ x.put.record.bytes ++ post) := hread
      have hlen := congrArg List.length (happends.read_first hids hread)
      rw [List.length_append, List.length_append, Put.length_record, List.length_nil] at hlen
      omega

end Sample

end Ccask.Audit
