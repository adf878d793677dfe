import Ccask.Audit.Compaction
import Ccask.Effect.Pool
import Ccask.Index.Ring

/-!
# One caller, two ways to the log

`ccask_put` leaves its record in the ring buffer and `ccask_put_blocking` writes it at once. The
records reach the log in the order in which they are written, and the last one of a key is the
one that `ccask_get` finds.
-/

namespace Ccask.Audit

open Ccask.Effect Ccask.Model

/-- There is a 64-bit id for another file. -/
def HasIds (w : World) : Prop :=
  ∀ file, ccaskFilesGetActiveFile w = some file → file.fileId + 1 < 2 ^ 64

/-- No file has a greater id. -/
def IdsUpTo (w : World) (n : Nat) : Prop := ∀ id ∈ ids w, id ≤ n

section Ids

variable {w : World} {n : Nat}

theorem IdsUpTo.hasIds (h : IdsUpTo w n) (hn : n + 1 < 2 ^ 64) : HasIds w := by
  intro file hfile
  have hle := h file.fileId (List.mem_map_of_mem (List.mem_of_mem_head? hfile))
  omega

theorem IdsUpTo.rotated (h : IdsUpTo w n) {f : CcaskFile} {rest : List CcaskFile}
    (hfiles : w.files = f :: rest) : IdsUpTo (rotated w f rest) (n + 1) := by
  intro id hid
  rw [ids_rotated hfiles] at hid
  obtain rfl | hid := List.mem_cons.mp hid
  · exact Nat.succ_le_succ (h _ (by rw [ids_eq hfiles]; exact List.mem_cons_self))
  · exact Nat.le_succ_of_le (h id hid)

end Ids

variable [Zlib]

/-- A put that can be read back: a key that is not NULL, and a value. -/
structure Legible (p : Put) : Prop where
  key_some : p.key.isSome
  value_ne : p.value.bytes ≠ []

section Leads

variable {w : World} {ps : List Put} {p : Put}

/-- The key directory leads from every key to the record of its last put. -/
structure Leads (w : World) (ps : List Put) : Prop where
  mounted : Mounted w
  unlocked : w.readLocks = 0
  missing : ∀ k, Index.latest putKey k ps = none → ccaskKeydirFind k w = none
  found : ∀ k p, Index.latest putKey k ps = some p → Legible p ∧
    ∃ id pre post, ccaskKeydirFind k w = some (p.entry id pre.length) ∧ id ∈ ids w ∧
      w.fs.read (fileName id .data) = some (pre ++ p.record.bytes ++ post)

theorem Leads.get (h : Leads w ps) (key : Buf) :
    ∃ w', Computes (ccaskGet key) w (lookup ps key.val) w' := by
  cases hlast : Index.latest putKey key.val ps with
  | none =>
      refine ⟨w, ?_⟩
      rw [lookup, hlast]
      exact ccaskGet_missing (h.missing _ hlast)
  | some p =>
      obtain ⟨hp, id, pre, post, hfind, hid, hread⟩ := h.found _ _ hlast
      obtain ⟨w', hget, -⟩ := ccaskGet_found h.mounted hfind hid hread hp.key_some hp.value_ne
      refine ⟨w', ?_⟩
      rw [lookup, hlast]
      exact hget

theorem Holds.leads {seg : Nat → List Put} (h : Holds w seg) : Leads w (history (ids w) seg) := by
  refine ⟨h.store.mounted, h.store.unlocked, fun k hk => ?_, fun k p hk => ?_⟩
  · rw [← latest_log, Option.map_eq_none_iff] at hk
    rw [h.serves.find, hk]
    rfl
  · rw [← latest_log, Option.map_eq_some_iff] at hk
    obtain ⟨x, hx, rfl⟩ := hk
    obtain ⟨hid, hput, pre, post, hwritten, hpos⟩ := mem_log (List.mem_reverse.mp (Index.mem_of_get hx))
    obtain ⟨tail, htail⟩ := h.contents x.1 hid
    have hgood := h.good x.1 hid x.2.1 hput
    refine ⟨⟨Ptr.isSome_of_ne hgood.key_ne, hgood.value_ne⟩, x.1, pre, post ++ tail, ?_, hid, ?_⟩
    · rw [h.serves.find, hx, Option.map_some, logEntry, hpos]
    · rw [htail, hwritten, List.append_assoc]

/-- A rotation adds an empty file. -/
theorem Leads.rotated (h : Leads w ps) {f : CcaskFile} {rest : List CcaskFile}
    (hfiles : w.files = f :: rest) : Leads (rotated w f rest) ps := by
  refine ⟨h.mounted.rotated hfiles, h.unlocked, h.missing, fun k p hk => ?_⟩
  obtain ⟨hp, id, pre, post, hfind, hid, hread⟩ := h.found k p hk
  refine ⟨hp, id, pre, post, hfind, ?_, ?_⟩
  · rw [ids_rotated hfiles]
    exact List.mem_cons_of_mem _ hid
  · have hne : id ≠ f.fileId + 1 := by
      rintro rfl
      rw [h.mounted.next_absent hfiles] at hread
      cases hread
    rw [read_rotated h.mounted hfiles, Function.update_of_ne (fun heq => hne (fileName_inj.mp heq).1)]
    exact hread

/-- An append makes its record the one of its key. -/
theorem Leads.wrote (h : Leads w ps) (hp : Legible p) {id : Nat} {ino : Ino} (hid : id ∈ ids w)
    (hdir : w.fs.dir (fileName id .data) = some ino) :
    Leads (wrote w id ino p.record) (ps ++ [p]) := by
  have hread := read_wrote (r := p.record) hdir
  have hfind : ∀ k, ccaskKeydirFind k (Audit.wrote w id ino p.record) =
      if putKey p = k then some (p.entry id (w.fs.data ino).length) else ccaskKeydirFind k w := by
    intro k
    rw [Audit.wrote, find_upserted, datafileEntry_record]
    rfl
  refine ⟨h.mounted.wrote id ino p.record, h.unlocked, fun k hk => ?_, fun k q hk => ?_⟩
  · rw [Index.latest_concat] at hk
    rw [hfind]
    split at hk
    · cases hk
    · rw [if_neg ‹_›]
      exact h.missing k hk
  · rw [Index.latest_concat] at hk
    rw [hfind, hread]
    split at hk
    · obtain rfl := Option.some.inj hk
      refine ⟨hp, id, w.fs.data ino, [], if_pos ‹_›, hid, ?_⟩
      rw [Function.update_self, List.append_nil]
    · obtain ⟨hq, id', pre, post, hentry, hid', hcontents⟩ := h.found k q hk
      rw [if_neg ‹_›]
      by_cases hsame : id' = id
      · -- the new record lies behind the old one
        have hdata : w.fs.read (fileName id .data) = some (w.fs.data ino) := by rw [Fs.read, hdir]; rfl
        rw [hsame, hdata] at hcontents
        refine ⟨hq, id', pre, post ++ p.record.bytes, hentry, hid', ?_⟩
        rw [hsame, Function.update_self, Option.some.inj hcontents, List.append_assoc _ post]
      · refine ⟨hq, id', pre, post, hentry, hid', ?_⟩
        rw [Function.update_of_ne (fun heq => hsame (fileName_inj.mp heq).1)]
        exact hcontents

/-- The write of a record that fits the threshold. -/
theorem Leads.write (h : Leads w ps) (hp : Legible p)
    (hsize : p.record.bytes.length ≤ w.maxActiveFileSize.toNat) (hids : HasIds w) :
    ∃ v, Computes (ccaskWriteRecordBlocking p.record) w (.ok ()) v ∧ Leads v (ps ++ [p]) ∧
      v.maxActiveFileSize = w.maxActiveFileSize ∧ v.ringbuf = w.ringbuf ∧
      v.isShuttingDown = w.isShuttingDown ∧ ∀ n, IdsUpTo w n → IdsUpTo v (n + 1) := by
  obtain ⟨f, rest, hfiles, -⟩ := h.mounted.active
  obtain ⟨ino, hdir⟩ := h.mounted.head_dir hfiles
  by_cases hfits : (w.fs.data ino).length + p.record.bytes.length ≤ w.maxActiveFileSize.toNat
  · exact ⟨_, ccaskWriteRecordBlocking_fits h.mounted hfiles hdir h.unlocked hp.value_ne hfits,
      h.wrote hp (by rw [ids_eq hfiles]; exact List.mem_cons_self) hdir, rfl, rfl, rfl,
      fun n hn id hid => Nat.le_succ_of_le (hn id hid)⟩
  · have hid := hids f (by rw [ccaskFilesGetActiveFile, hfiles]; rfl)
    exact ⟨_, ccaskWriteRecordBlocking_rotates h.mounted hfiles hdir hid h.unlocked hp.value_ne
        (Nat.lt_of_not_le hfits) hsize,
      (h.rotated hfiles).wrote hp (by rw [ids_rotated hfiles]; exact List.mem_cons_self)
        (Fs.dir_create_self _ _), rfl, rfl, rfl, fun n hn => hn.rotated hfiles⟩

/-- Time passes, and records come and go in the ring buffer. -/
theorem Leads.aside (h : Leads w ps) {w' : World} (hfs : w'.fs = w.fs) (hfiles : w'.files = w.files)
    (htable : w'.hashTable = w.hashTable) (hlocks : w'.readLocks = w.readLocks) : Leads w' ps := by
  refine ⟨h.mounted.congr hfiles fun _ => by rw [hfs], hlocks.trans h.unlocked, fun k hk => ?_,
    fun k p hk => ?_⟩
  · rw [ccaskKeydirFind, htable]
    exact h.missing k hk
  · rw [ccaskKeydirFind, htable, hfs, ids, hfiles]
    exact h.found k p hk

end Leads

section Queue

variable {w : World} {writer : QueueThread} {done pending : List Put} {p : Put}

/-- The record the writer thread has popped and not yet written. -/
def hand : QueueThread → List DatafileRecord
  | .writing record => [record]
  | _ => []

/-- The records that are still to be written, oldest first. -/
def Waiting (w : World) (writer : QueueThread) (q : List DatafileRecord) : Prop :=
  ∃ r queue, w.ringbuf = some r ∧ Index.Ring r.buf r.capacity r.head r.tail queue ∧
    q = hand writer ++ queue

omit [Zlib] in
theorem Waiting.unique {q q' : List DatafileRecord} (h : Waiting w writer q)
    (h' : Waiting w writer q') : q = q' := by
  obtain ⟨r, queue, hr, hring, rfl⟩ := h
  obtain ⟨r', queue', hr', hring', rfl⟩ := h'
  rw [hr] at hr'
  obtain rfl := Option.some.inj hr'
  rw [hring.unique hring']

/-- The puts that have been written, and those whose records are on the way to the log. -/
structure Merging (w : World) (writer : QueueThread) (done pending : List Put) : Prop where
  leads : Leads w done
  running : w.isShuttingDown = false
  ring : ∃ r queue, w.ringbuf = some r ∧ r.shutdown = false ∧
    Index.Ring r.buf r.capacity r.head r.tail (queue.map Put.record) ∧
    (writer = .popping ∧ pending = queue ∨ ∃ p, writer = .writing p.record ∧ pending = p :: queue)
  legible : ∀ p ∈ pending, Legible p ∧ p.record.bytes.length ≤ w.maxActiveFileSize.toNat

theorem Merging.waiting (h : Merging w writer done pending) :
    Waiting w writer (pending.map Put.record) := by
  obtain ⟨r, queue, hr, -, hring, ⟨rfl, rfl⟩ | ⟨p, rfl, rfl⟩⟩ := h.ring
  · exact ⟨r, _, hr, hring, rfl⟩
  · exact ⟨r, _, hr, hring, rfl⟩

omit [Zlib] in
theorem putTest_computes : Computes putTest w w.isShuttingDown w :=
  Computes.state_bind (Computes.pure _)

/-- The test of a put: it is refused, or it goes on to its push. -/
theorem putTest_section {t : QueueThread} {v : World} {key value : Ptr} {made : List (Call × Status)}
    {rest : List Call}
    (hs : Section (fun _ => AllClean) QueueThread.sect w (.calling made (.put key value :: rest)) v t) :
    v = w ∧ t = if w.isShuttingDown then .calling (made ++ [(.put key value, .fail none)]) rest
      else .pushing key value 4 made rest := by
  have htest := putTest_computes (w := w)
  cases hdown : w.isShuttingDown with
  | true =>
      rw [hdown] at htest
      obtain ⟨rfl, rfl⟩ := hs.computes rfl (fun _ h => h) (htest.bind (Computes.pure _))
      exact ⟨rfl, rfl⟩
  | false =>
      rw [hdown] at htest
      obtain ⟨rfl, rfl⟩ := hs.computes rfl (fun _ h => h) (htest.bind (Computes.pure _))
      exact ⟨rfl, rfl⟩

/-- A push is repeated only when it has done nothing. -/
theorem push_retry {timestamp : UInt32} {key value : Ptr} {rs rest : List Reply} {e : Option Errno}
    {v : World} (h : (ccaskWriterRingbufPush timestamp key value).run rs w = .returned (.retry e) rest v) :
    rest = rs ∧ v = w := by
  rw [ccaskWriterRingbufPush, Prog.run_state_bind] at h
  split at h
  · cases h
  · simp only at h
    split at h
    · cases h
      exact ⟨rfl, rfl⟩
    · obtain ⟨r, mid, u, -, h⟩ := Prog.run_bind_eq_returned h
      cases r with
      | ok record => cases h
      | fail e => cases h
      | retry e => cases h

/-- The tries one after another are what CCASK_ATTEMPT does. -/
theorem putTry_attempt (key value : Ptr) (n : Nat) (rs : List Reply) (w : World) :
    (Prog.iterate (putTry key value) (n + 1) n).run rs w = (do
      match ← attempt (n + 1) (ccaskWriterRingbufPush (UInt32.ofNat w.clock) key value) with
      | .ok () => pure (.ok ())
      | .fail e | .retry e => pure (.fail e) : Sys Status).run rs w := by
  have hround : ∀ m, (Prog.iterate (putTry key value) (m + 1) m).run rs w =
      (ccaskWriterRingbufPush (UInt32.ofNat w.clock) key value >>= fun res =>
        Sum.elim (Prog.iterate (putTry key value) m) pure (putTried m res)).run rs w := by
    intro m
    rw [Prog.iterate, putTry]
    simp only [bind_assoc, pure_bind]
    rfl
  induction n with
  | zero =>
      rw [hround, attempt, bind_assoc, Prog.run_bind, Prog.run_bind]
      cases (ccaskWriterRingbufPush (UInt32.ofNat w.clock) key value).run rs w with
      | pending v => rfl
      | returned res rest v =>
          cases res with
          | ok u => rfl
          | fail e => rfl
          | retry e => rfl
  | succ n ih =>
      rw [hround, attempt, bind_assoc, Prog.run_bind, Prog.run_bind]
      cases hpush : (ccaskWriterRingbufPush (UInt32.ofNat w.clock) key value).run rs w with
      | pending v => rfl
      | returned res rest v =>
          cases res with
          | ok u => rfl
          | fail e => rfl
          | retry e =>
              obtain ⟨rfl, rfl⟩ := push_retry hpush
              exact ih

/-- The sections of a put one after another are `ccask_put`. -/
theorem ccaskPut_sections (key value : Ptr) (rs : List Reply) (w : World) :
    (ccaskPut key value).run rs w = (do
      if ← putTest then pure (.fail none)
      else Prog.iterate (putTry key value) 5 4 : Sys Status).run rs w := by
  show (if w.isShuttingDown then _ else _ : Sys Status).run rs w =
    (if w.isShuttingDown then _ else _ : Sys Status).run rs w
  split
  · rfl
  · exact (putTry_attempt key value 4 rs w).symm

/-- The state after a push. -/
def pushed (w : World) (r : Ringbuf) (record : DatafileRecord) : World :=
  { w with ringbuf := some { r with
      buf := r.buf.set r.head record, head := (r.head + 1) % r.capacity } }

theorem putTry_room {r : Ringbuf} (hr : w.ringbuf = some r) (hroom : (r.head + 1) % r.capacity ≠ r.tail)
    (key value : Ptr) (left : Nat) : Computes (putTry key value left) w (.inr (.ok ()))
      (pushed w r (mkRecord (UInt32.ofNat w.clock) key value)) := by
  have hpush : Computes (ccaskWriterRingbufPush (UInt32.ofNat w.clock) key value) w (.ok ())
      (pushed w r (mkRecord (UInt32.ofNat w.clock) key value)) := by
    refine Computes.state_bind ?_
    rw [hr]
    simp only [if_neg hroom]
    exact (ccaskCreateDatafileRecord_computes _ _ _).bind (Computes.modify_bind (Computes.pure _))
  exact Computes.state_bind (hpush.bind (Computes.pure _))

theorem putTry_full {r : Ringbuf} (hr : w.ringbuf = some r) (hfull : (r.head + 1) % r.capacity = r.tail)
    (key value : Ptr) (left : Nat) : Computes (putTry key value left) w
      (putTried left (.retry (some .ringbufferFull))) w := by
  have hpush : Computes (ccaskWriterRingbufPush (UInt32.ofNat w.clock) key value) w
      (.retry (some .ringbufferFull)) w := by
    refine Computes.state_bind ?_
    rw [hr]
    simp only [if_pos hfull]
    exact Computes.pure _
  exact Computes.state_bind (hpush.bind (Computes.pure _))

/-- A push that finds room puts its record behind the others. -/
theorem Merging.push (h : Merging w writer done pending) (hp : Legible p)
    (hsize : p.record.bytes.length ≤ w.maxActiveFileSize.toNat)
    (hts : p.timestamp = UInt32.ofNat w.clock) (left : Nat) :
    (∃ v, Computes (putTry p.key p.value left) w (.inr (.ok ())) v ∧
      Merging v writer done (pending ++ [p]) ∧ v = { w with ringbuf := v.ringbuf }) ∨
    (∃ r, w.ringbuf = some r ∧ (r.head + 1) % r.capacity = r.tail) ∧
      Computes (putTry p.key p.value left) w (putTried left (.retry (some .ringbufferFull))) w := by
  obtain ⟨r, queue, hr, hrun, hring, hwriter⟩ := h.ring
  by_cases hfull : (r.head + 1) % r.capacity = r.tail
  · exact .inr ⟨⟨r, hr, hfull⟩, putTry_full hr hfull _ _ left⟩
  · have htry := putTry_room hr hfull p.key p.value left
    rw [← hts] at htry
    refine .inl ⟨_, htry, ⟨h.leads.aside rfl rfl rfl rfl, h.running, ?_, fun q hq => ?_⟩, rfl⟩
    · have hpush := hring.push hfull p.record
      rw [← List.map_singleton, ← List.map_append] at hpush
      refine ⟨_, queue ++ [p], rfl, hrun, hpush, ?_⟩
      obtain ⟨hpop, rfl⟩ | ⟨q, hwrite, rfl⟩ := hwriter
      · exact .inl ⟨hpop, rfl⟩
      · exact .inr ⟨q, hwrite, List.cons_append⟩
    · obtain hq | hq := List.mem_append.mp hq
      · exact h.legible q hq
      · rw [List.mem_singleton.mp hq]
        exact ⟨hp, hsize⟩

/-- `ccask_put_blocking` overtakes them. -/
theorem Merging.putBlocking (h : Merging w writer done pending) (hp : Legible p)
    (hsize : p.record.bytes.length ≤ w.maxActiveFileSize.toNat)
    (hts : p.timestamp = UInt32.ofNat w.clock) (hids : HasIds w) :
    ∃ v, Computes (ccaskPutBlocking p.key p.value) w (.ok ()) v ∧
      Merging v writer (done ++ [p]) pending ∧ v.maxActiveFileSize = w.maxActiveFileSize ∧
      ∀ n, IdsUpTo w n → IdsUpTo v (n + 1) := by
  obtain ⟨v, hwrite, hleads, hmax, hring, hrun, hupto⟩ := h.leads.write hp hsize hids
  refine ⟨v, ccaskPutBlocking_computes h.running hts hwrite, ⟨hleads, hrun.trans h.running, ?_, ?_⟩, hmax,
    hupto⟩
  · rw [hring]
    exact h.ring
  · rw [hmax]
    exact h.legible

/-- The writer thread takes the oldest record. -/
theorem Merging.pop (h : Merging w .popping done (p :: pending)) :
    ∃ v, Computes ccaskWriterRingbufPop w (.ok p.record) v ∧
      Merging v (.writing p.record) done (p :: pending) ∧ v = { w with ringbuf := v.ringbuf } := by
  obtain ⟨r, queue, hr, hrun, hring, ⟨-, rfl⟩ | ⟨q, hq, -⟩⟩ := h.ring
  · obtain ⟨hfirst, hrest⟩ := hring.pop
    have hne : r.tail ≠ r.head := fun heq => by cases hring.empty_iff.mp heq
    have hpop : Computes ccaskWriterRingbufPop w (.ok p.record) { w with ringbuf := some { r with
        tail := (r.tail + 1) % r.capacity } } := by
      refine Computes.state_bind ?_
      rw [hr]
      simp only [if_neg hne, hfirst]
      exact Computes.modify_bind (Computes.pure _)
    exact ⟨_, hpop, ⟨h.leads.aside rfl rfl rfl rfl, h.running,
      ⟨_, pending, rfl, hrun, hrest, .inr ⟨p, rfl, rfl⟩⟩, h.legible⟩, rfl⟩
  · cases hq

/-- It waits while there is none. -/
theorem Merging.pop_waits (h : Merging w .popping done []) (rs : List Reply) :
    ccaskWriterRingbufPop.run rs w = .pending w := by
  obtain ⟨r, queue, hr, hrun, hring, ⟨-, rfl⟩ | ⟨q, hq, -⟩⟩ := h.ring
  · rw [ccaskWriterRingbufPop, Prog.run_state_bind, hr]
    simp only [if_pos (hring.empty_iff.mpr rfl), hrun]
    rfl
  · cases hq

/-- The writer thread writes what it has taken. -/
theorem Merging.write {record : DatafileRecord} (h : Merging w (.writing record) done pending)
    (hids : HasIds w) : ∃ p rest v, pending = p :: rest ∧ record = p.record ∧
      Computes (ccaskWriteRecordBlocking record) w (.ok ()) v ∧
      Merging v .popping (done ++ [p]) rest ∧ v.maxActiveFileSize = w.maxActiveFileSize := by
  obtain ⟨r, queue, hr, hrun, hring, ⟨hpop, -⟩ | ⟨p, hp, hpending⟩⟩ := h.ring
  · cases hpop
  · cases hp
    rw [hpending] at h
    obtain ⟨hlegible, hsize⟩ := h.legible p List.mem_cons_self
    obtain ⟨v, hwrite, hleads, hmax, hringbuf, hshut, -⟩ := h.leads.write hlegible hsize hids
    refine ⟨p, queue, v, hpending, rfl, hwrite, ⟨hleads, hshut.trans h.running, ?_, fun q hq => ?_⟩, hmax⟩
    · rw [hringbuf]
      exact ⟨r, queue, hr, hrun, hring, .inl ⟨rfl, rfl⟩⟩
    · rw [hmax]
      exact h.legible q (List.mem_cons_of_mem _ hq)

end Queue

/-- One caller, the writer thread and the clock. -/
inductive Party where
  | caller
  | writer
  | clock
  deriving DecidableEq

abbrev Mixed := Pool World Party QueueThread

section Caller

variable {w v : World} {t : QueueThread} {call : Call} {p : Put} {done pending : List Put}

/-- The call puts a value, with a record within the threshold. -/
structure Fits (w : World) (call : Call) : Prop where
  key_some : call.key.isSome
  value_ne : call.value.bytes ≠ []
  size : 16 + call.key.bytes.length + call.value.bytes.length ≤ w.maxActiveFileSize.toNat

/-- The calls that have returned, with what they returned. -/
def made : QueueThread → List (Call × Status)
  | .calling made _ | .pushing _ _ _ made _ => made
  | _ => []

/-- No call on the key has succeeded. -/
def Untouched (k : Bytes) (made : List (Call × Status)) : Prop :=
  ∀ x ∈ made, x.2 = .ok () → x.1.key.bytes ≠ k

/-- The value that a key has for good after a call that was made while these records were waiting. -/
def due (call : Call) (waiting : List DatafileRecord) : Bytes :=
  match call with
  | .put _ value => value.bytes
  | .putBlocking key value =>
    match Index.latest DatafileRecord.key key.bytes waiting with
    | some record => record.value
    | none => value.bytes

/-- Where the record of a call comes to lie. -/
def merged : Call → Put → List Put → List Put → List Put
  | .put _ _, p, done, pending => done ++ pending ++ [p]
  | .putBlocking _ _, p, done, pending => done ++ [p] ++ pending

omit [Zlib] in
/-- The puts of other keys are not touched by it. -/
theorem latest_merged_of_ne (call : Call) {k : Bytes} (h : putKey p ≠ k) :
    Index.latest putKey k (merged call p done pending) = Index.latest putKey k (done ++ pending) := by
  cases call with
  | put key value => rw [merged, Index.latest_concat, if_neg h]
  | putBlocking key value =>
      rw [merged, Index.latest_append, Index.latest_concat, if_neg h, Index.latest_append]

theorem latest_merged (done pending : List Put) (hkey : p.key = call.key) (hvalue : p.value = call.value) :
    ∃ q, Index.latest putKey call.key.bytes (merged call p done pending) = some q ∧
      q.value.bytes = due call (pending.map Put.record) := by
  have hp : putKey p = call.key.bytes := congrArg Ptr.bytes hkey
  cases call with
  | put key value =>
      exact ⟨p, by rw [merged, Index.latest_concat, if_pos hp], congrArg Ptr.bytes hvalue⟩
  | putBlocking key value =>
      have hp : putKey p = key.bytes := hp
      have hrecord : Index.latest DatafileRecord.key _ (pending.map Put.record) =
          (Index.latest putKey _ pending).map _ := Index.latest_map (fun _ => rfl) key.bytes pending
      show ∃ q, Index.latest putKey key.bytes _ = some q ∧ _
      rw [merged, Index.latest_append, Index.latest_concat, if_pos hp, due, hrecord]
      cases Index.latest putKey key.bytes pending with
      | none => exact ⟨p, rfl, congrArg Ptr.bytes hvalue⟩
      | some q => exact ⟨q, rfl, rfl⟩

/-- The put of a call made now. -/
def putNow (w : World) (call : Call) : Put := ⟨UInt32.ofNat w.clock, call.key, call.value⟩

theorem Fits.legible (h : Fits w call) : Legible (putNow w call) ∧
    (putNow w call).record.bytes.length ≤ w.maxActiveFileSize.toNat := by
  refine ⟨⟨h.key_some, h.value_ne⟩, ?_⟩
  rw [Put.length_record]
  exact h.size

/-- The calls that the caller is still to make fit. -/
def Ready (w : World) : QueueThread → Prop
  | .calling _ rest => ∀ call ∈ rest, Fits w call
  | .pushing key value _ _ rest => Fits w (.put key value) ∧ ∀ call ∈ rest, Fits w call
  | _ => False

omit [Zlib] in
theorem Fits.congr (h : Fits w call) (hmax : v.maxActiveFileSize = w.maxActiveFileSize) : Fits v call :=
  ⟨h.key_some, h.value_ne, by rw [hmax]; exact h.size⟩

omit [Zlib] in
theorem Ready.congr (h : Ready w t) (hmax : v.maxActiveFileSize = w.maxActiveFileSize) : Ready v t := by
  cases t with
  | calling made rest => exact fun call hcall => (h call hcall).congr hmax
  | pushing key value left made rest =>
      exact ⟨h.1.congr hmax, fun call hcall => (h.2 call hcall).congr hmax⟩
  | popping => exact h
  | writing record => exact h
  | ended => exact h
  | clock times => exact h

end Caller

section Runs

variable {c c₀ : Mixed} {i : Party} {w v : World} {t : QueueThread} {done pending : List Put}

structure Merge (c : Mixed) (done pending : List Put) : Prop
    extends Merging c.shared (c.thread .writer) done pending where
  caller : Ready c.shared (c.thread .caller)
  clock : ∃ times, c.thread .clock = .clock times

/-- What a step does to the calls made and to the order of the log. -/
inductive Lands (c c' : Mixed) (done pending : List Put) : List Put → Prop
  | aside : made (c'.thread .caller) = made (c.thread .caller) → Lands c c' done pending (done ++ pending)
  | refused {call : Call} {res : Status} : res ≠ .ok () →
      made (c'.thread .caller) = made (c.thread .caller) ++ [(call, res)] →
      Lands c c' done pending (done ++ pending)
  | accepted {call : Call} {p : Put} : p.key = call.key → p.value = call.value →
      made (c'.thread .caller) = made (c.thread .caller) ++ [(call, .ok ())] →
      Lands c c' done pending (merged call p done pending)

/-- A step of the caller. -/
theorem Merge.set_caller (h : Merge c done pending) {done' pending' : List Put}
    (hm : Merging w (c.thread .writer) done' pending') (ht : Ready w t) :
    Merge (c.set .caller w t) done' pending' :=
  ⟨hm, ht, h.clock⟩

/-- A step of the writer thread. -/
theorem Merge.set_writer (h : Merge c done pending) {done' pending' : List Put}
    (hm : Merging w t done' pending') (hmax : w.maxActiveFileSize = c.shared.maxActiveFileSize) :
    Merge (c.set .writer w t) done' pending' :=
  ⟨hm, h.caller.congr hmax, h.clock⟩

/-- The caller makes its next call, or tries again to push a record. -/
theorem Merge.step_caller (h : Merge c done pending) (hids : HasIds c.shared)
    (hs : Section (fun _ => AllClean) QueueThread.sect c.shared (c.thread .caller) w t) :
    ∃ done' pending', Merge (c.set .caller w t) done' pending' ∧
      Lands c (c.set .caller w t) done pending (done' ++ pending') := by
  have hready := h.caller
  cases hc : c.thread .caller with
  | calling made₀ rest =>
      have hmade : made (c.thread .caller) = made₀ := by rw [hc]; rfl
      rw [hc] at hs hready
      cases rest with
      | nil => exact absurd rfl hs.ne_none
      | cons call rest =>
          obtain ⟨hfits, hrest⟩ := List.forall_mem_cons.mp hready
          cases call with
          | put key value =>
              have htest := putTest_computes (w := c.shared)
              rw [h.running] at htest
              obtain ⟨rfl, rfl⟩ := hs.computes rfl (fun _ h => h) (htest.bind (Computes.pure _))
              exact ⟨done, pending, h.set_caller h.toMerging ⟨hfits, hrest⟩, .aside hmade.symm⟩
          | putBlocking key value =>
              obtain ⟨hlegible, hsize⟩ := hfits.legible
              obtain ⟨v, hput, hmerging, hmax, -⟩ := h.putBlocking hlegible hsize rfl hids
              obtain ⟨rfl, rfl⟩ := hs.computes rfl (fun _ h => h) (hput.bind (Computes.pure _))
              exact ⟨_, pending, h.set_caller hmerging fun call hcall => (hrest call hcall).congr hmax,
                .accepted (show _ = Call.key (.putBlocking key value) from rfl) rfl (by rw [hmade]; rfl)⟩
  | pushing key value left made₀ rest =>
      have hmade : made (c.thread .caller) = made₀ := by rw [hc]; rfl
      rw [hc] at hs hready
      obtain ⟨hfits, hrest⟩ := hready
      obtain ⟨hlegible, hsize⟩ := hfits.legible
      obtain ⟨v, htry, hmerging, hv⟩ | ⟨-, htry⟩ := h.push hlegible hsize rfl left
      · have hmax : v.maxActiveFileSize = c.shared.maxActiveFileSize := by rw [hv]
        obtain ⟨rfl, rfl⟩ := hs.computes rfl (fun _ h => h) (htry.bind (Computes.pure _))
        refine ⟨done, _, h.set_caller hmerging fun call hcall => (hrest call hcall).congr hmax, ?_⟩
        rw [← List.append_assoc]
        exact .accepted (show _ = Call.key (.put key value) from rfl) rfl (by rw [hmade]; rfl)
      · cases left with
        | zero =>
            obtain ⟨rfl, rfl⟩ := hs.computes rfl (fun _ h => h) (htry.bind (Computes.pure _))
            exact ⟨done, pending, h.set_caller h.toMerging hrest,
              .refused (show Res.fail (some .ringbufferFull) ≠ (.ok () : Status) by simp) (by rw [hmade]; rfl)⟩
        | succ left =>
            obtain ⟨rfl, rfl⟩ := hs.computes rfl (fun _ h => h) (htry.bind (Computes.pure _))
            exact ⟨done, pending, h.set_caller h.toMerging ⟨hfits, hrest⟩, .aside hmade.symm⟩
  | popping => rw [hc] at hready; exact hready.elim
  | writing record => rw [hc] at hready; exact hready.elim
  | ended => rw [hc] at hready; exact hready.elim
  | clock times => rw [hc] at hready; exact hready.elim

/-- The writer thread takes a record, or writes it. -/
theorem Merge.step_writer (h : Merge c done pending) (hids : HasIds c.shared)
    (hs : Section (fun _ => AllClean) QueueThread.sect c.shared (c.thread .writer) w t) :
    ∃ done' pending', Merge (c.set .writer w t) done' pending' ∧
      done' ++ pending' = done ++ pending := by
  obtain ⟨-, -, -, -, -, ⟨hpop, -⟩ | ⟨p, hwriting, -⟩⟩ := h.ring
  · have hmerging := h.toMerging
    rw [hpop] at hs hmerging
    cases pending with
    | nil =>
        obtain ⟨hsect, -, hrun⟩ := hs
        cases hsect
        rw [Prog.run_bind_pending (hmerging.pop_waits _)] at hrun
        cases hrun
    | cons p rest =>
        obtain ⟨v, hcall, hmerging', hv⟩ := hmerging.pop
        obtain ⟨rfl, rfl⟩ := hs.computes rfl (fun _ h => h) (hcall.bind (Computes.pure _))
        exact ⟨done, _, h.set_writer hmerging' (by rw [hv]), rfl⟩
  · have hmerging := h.toMerging
    rw [hwriting] at hs hmerging
    obtain ⟨q, rest, v, hpending, -, hcall, hmerging', hmax⟩ := hmerging.write hids
    obtain ⟨rfl, rfl⟩ := hs.computes rfl (fun _ h => h) (hcall.bind (Computes.pure _))
    refine ⟨_, rest, h.set_writer hmerging' hmax, ?_⟩
    rw [hpending, List.append_assoc]
    rfl

theorem Merge.step (h : Merge c done pending) (hids : HasIds c.shared)
    (hs : Section (fun _ => AllClean) QueueThread.sect c.shared (c.thread i) w t) :
    ∃ done' pending', Merge (c.set i w t) done' pending' ∧
      Lands c (c.set i w t) done pending (done' ++ pending') := by
  cases i with
  | caller => exact h.step_caller hids hs
  | writer =>
      obtain ⟨done', pending', hmerge, hline⟩ := h.step_writer hids hs
      exact ⟨done', pending', hmerge, by rw [hline]; exact .aside rfl⟩
  | clock =>
      obtain ⟨times, htimes⟩ := h.clock
      rw [htimes] at hs
      cases times with
      | nil => exact absurd rfl hs.ne_none
      | cons now times =>
          obtain ⟨rfl, rfl⟩ := hs.computes rfl (fun _ h => h)
            (Computes.modify_bind (Computes.pure _))
          exact ⟨done, pending, ⟨⟨h.leads.aside rfl rfl rfl rfl, h.running, h.ring, h.legible⟩,
            h.caller.congr rfl, times, rfl⟩, .aside rfl⟩

end Runs

section Order

variable {c c₀ c₁ c₂ : Mixed} {done pending hist : List Put} {k value : Bytes}

/-- Any schedule of the three. -/
abbrev MixedRuns : Mixed → Mixed → Prop :=
  Pool.Runs (Section (fun _ => AllClean) QueueThread.sect) fun c _ => HasIds c.shared

/-- The caller is to make some calls, and nothing waits in a ring buffer with places. -/
structure Starts (c : Mixed) (hist : List Put) : Prop where
  life : Life c.shared hist
  ring : ∃ n, 0 < n ∧ c.shared.ringbuf = some (.init n)
  caller : ∃ calls, c.thread .caller = .calling [] calls ∧ ∀ call ∈ calls, Fits c.shared call
  writer : c.thread .writer = .popping
  clock : ∃ times, c.thread .clock = .clock times

/-- The last call on the key that has succeeded: it returned in the step from `c₁` to `c₂`, and the
value is the one due for it. -/
structure LastCall (c₀ c : Mixed) (k value : Bytes) (c₁ c₂ : Mixed) (call : Call) : Prop where
  before : MixedRuns c₀ c₁
  returns : Pool.Step (Section (fun _ => AllClean) QueueThread.sect) (fun c _ => HasIds c.shared) c₁ c₂
  after : MixedRuns c₂ c
  ok : made (c₂.thread .caller) = made (c₁.thread .caller) ++ [(call, .ok ())]
  key : call.key.bytes = k
  last : ∃ later, made (c.thread .caller) = made (c₂.thread .caller) ++ later ∧ Untouched k later
  due : ∃ waiting, Waiting c₁.shared (c₁.thread .writer) waiting ∧ value = due call waiting

theorem Starts.merge (h : Starts c hist) : ∃ done, Merge c done [] ∧
    ∀ k, Index.latest putKey k (done ++ []) = Index.latest putKey k hist := by
  obtain ⟨seg, hreached, hhist⟩ := h.life.reached
  obtain ⟨n, hn, hring⟩ := h.ring
  obtain ⟨calls, hcalls, hfits⟩ := h.caller
  refine ⟨history (ids c.shared) seg, ⟨⟨hreached.toHolds.leads, hreached.running, ?_, by simp⟩, ?_,
    h.clock⟩, fun k => ?_⟩
  · exact ⟨_, [], hring, rfl, Index.Ring.init hn _, .inl ⟨h.writer, rfl⟩⟩
  · rw [hcalls]
    exact hfits
  · rw [List.append_nil, ← Index.get_replay_nil, hhist, Index.get_replay_nil]

theorem LastCall.step {c' : Mixed} {call : Call} (h : LastCall c₀ c k value c₁ c₂ call)
    (hs : Pool.Step (Section (fun _ => AllClean) QueueThread.sect) (fun c _ => HasIds c.shared) c c')
    {more : List (Call × Status)} (hmade : made (c'.thread .caller) = made (c.thread .caller) ++ more)
    (hmore : Untouched k more) : LastCall c₀ c' k value c₁ c₂ call := by
  obtain ⟨later, hlater, hlast⟩ := h.last
  refine ⟨h.before, h.returns, h.after.tail hs, h.ok, h.key, ⟨later ++ more, ?_, fun x hx => ?_⟩, h.due⟩
  · rw [hmade, hlater, List.append_assoc]
  · obtain hx | hx := List.mem_append.mp hx
    · exact hlast x hx
    · exact hmore x hx

/-- What the order of the log says of a key is what the calls say. -/
def Told (c₀ c : Mixed) (hist line : List Put) (k : Bytes) : Prop :=
  Untouched k (made (c.thread .caller)) ∧ Index.latest putKey k line = Index.latest putKey k hist ∨
  ∃ p c₁ c₂ call, Index.latest putKey k line = some p ∧ LastCall c₀ c k p.value.bytes c₁ c₂ call

/-- A step without a successful call on the key. -/
theorem Told.other {c' : Mixed} {line line' : List Put} (h : Told c₀ c hist line k)
    (hs : Pool.Step (Section (fun _ => AllClean) QueueThread.sect) (fun c _ => HasIds c.shared) c c')
    {more : List (Call × Status)} (hmade : made (c'.thread .caller) = made (c.thread .caller) ++ more)
    (hmore : Untouched k more) (hline : Index.latest putKey k line' = Index.latest putKey k line) :
    Told c₀ c' hist line' k := by
  obtain ⟨huntouched, hlast⟩ | ⟨p, c₁, c₂, call, hp, hcall⟩ := h
  · refine .inl ⟨fun x hx => ?_, hline.trans hlast⟩
    rw [hmade] at hx
    obtain hx | hx := List.mem_append.mp hx
    · exact huntouched x hx
    · exact hmore x hx
  · exact .inr ⟨p, c₁, c₂, call, hline.trans hp, hcall.step hs hmade hmore⟩

omit [Zlib] in
theorem untouched_singleton {x : Call × Status} (h : x.2 = .ok () → x.1.key.bytes ≠ k) :
    Untouched k [x] := by
  intro y hy
  rw [List.mem_singleton.mp hy]
  exact h

theorem Told.step {c' : Mixed} {line : List Put} (h : Told c₀ c hist (done ++ pending) k)
    (hm : Merge c done pending) (hruns : MixedRuns c₀ c)
    (hs : Pool.Step (Section (fun _ => AllClean) QueueThread.sect) (fun c _ => HasIds c.shared) c c')
    (hlands : Lands c c' done pending line) : Told c₀ c' hist line k := by
  cases hlands with
  | aside hmade =>
      exact h.other hs (hmade.trans (List.append_nil _).symm) (fun x hx => absurd hx List.not_mem_nil) rfl
  | refused hres hmade => exact h.other hs hmade (untouched_singleton fun hok => absurd hok hres) rfl
  | @accepted call p hkey hvalue hmade =>
      by_cases hk : call.key.bytes = k
      · obtain ⟨q, hq, hdue⟩ := latest_merged done pending hkey hvalue
        rw [hk] at hq
        exact .inr ⟨q, c, c', call, hq, hruns, hs, .refl, hmade, hk,
          ⟨[], (List.append_nil _).symm, fun x hx => absurd hx List.not_mem_nil⟩,
          _, hm.waiting, hdue⟩
      · refine h.other hs hmade (untouched_singleton fun _ => hk) (latest_merged_of_ne call ?_)
        rw [putKey, hkey]
        exact hk

/-- Every state of a run. -/
theorem Starts.told (h : Starts c₀ hist) (hrun : MixedRuns c₀ c) :
    ∃ done pending, Merge c done pending ∧ ∀ k, Told c₀ c hist (done ++ pending) k := by
  induction hrun with
  | refl =>
      obtain ⟨done, hmerge, hlast⟩ := h.merge
      obtain ⟨calls, hcalls, -⟩ := h.caller
      refine ⟨done, [], hmerge, fun k => .inl ⟨?_, hlast k⟩⟩
      rw [hcalls]
      exact fun x hx => absurd hx List.not_mem_nil
  | tail hruns hs ih =>
      obtain ⟨done, pending, hmerge, htold⟩ := ih
      have hstep := hs
      obtain ⟨i, hids, hsect⟩ := hs
      obtain ⟨done', pending', hmerge', hlands⟩ := hmerge.step hids hsect
      exact ⟨done', pending', hmerge', fun k => (htold k).step hmerge hruns hstep hlands⟩

/-- Once the ring buffer has been drained, nothing waits. -/
theorem Merging.drained {w : World} {writer : QueueThread} (h : Merging w writer done pending)
    (hdrained : Waiting w writer []) : pending = [] :=
  List.map_eq_nil_iff.mp (h.waiting.unique hdrained)

/-- Once the ring buffer has been drained, `ccask_get` gives for every key the value that is due for
the last call on it that has succeeded: its own, unless it is a `ccask_put_blocking` that was
made while records of the key were waiting, of which the last one comes to lie behind it. -/
theorem puts_in_order (h : Starts c₀ hist) (hrun : MixedRuns c₀ c)
    (hdrained : Waiting c.shared (c.thread .writer) []) (key : Buf) :
    (Untouched key.val (made (c.thread .caller)) ∧
      ∃ w', Computes (ccaskGet key) c.shared (lookup hist key.val) w') ∨
    ∃ record w' c₁ c₂ call, Computes (ccaskGet key) c.shared (.found record) w' ∧
      LastCall c₀ c key.val record.value c₁ c₂ call := by
  obtain ⟨done, pending, hmerge, htold⟩ := h.told hrun
  have hnone := hmerge.drained hdrained
  obtain ⟨w', hget⟩ := hmerge.leads.get key
  have hline := htold key.val
  rw [hnone, List.append_nil] at hline
  obtain ⟨huntouched, hlast⟩ | ⟨p, c₁, c₂, call, hp, hcall⟩ := hline
  · rw [lookup, hlast] at hget
    exact .inl ⟨huntouched, w', hget⟩
  · rw [lookup, hp] at hget
    exact .inr ⟨p.result, w', c₁, c₂, call, hget, hcall⟩

end Order

section Sample

variable {c c' : Mixed} {w : World} {t : QueueThread} {m : Sys QueueThread}

/-- A run goes on with a section that computes. -/
theorem mixed_next (h : MixedRuns c c') (i : Party) (hids : HasIds c'.shared)
    (hsect : (c'.thread i).sect = some m) (hm : Computes m c'.shared t w) : MixedRuns c (c'.set i w t) :=
  h.tail (.mk i hids (.of_computes hsect (fun _ h => h) hm))

/-- The calls of the sample: one key, first through the ring buffer. -/
def twoCalls : List Call :=
  [.put (bytePut 0 97 98).key (bytePut 0 97 98).value,
    .putBlocking (bytePut 0 97 99).key (bytePut 0 97 99).value]

def twoWays (w : World) : Mixed :=
  ⟨w, fun
    | .caller => .calling [] twoCalls
    | .writer => .popping
    | .clock => .clock []⟩

theorem legible_bytePut (t : UInt32) (k v : UInt8) (hmax : w.maxActiveFileSize = 100) :
    Legible (bytePut t k v) ∧ (bytePut t k v).record.bytes.length ≤ w.maxActiveFileSize.toNat := by
  refine ⟨⟨rfl, (good_bytePut t k v).value_ne⟩, ?_⟩
  rw [hmax, Put.length_record]
  show 16 + 1 + 1 ≤ 100
  decide

/-- The record that was put first comes to lie behind the other one. -/
theorem exists_overtaken : ∃ c₀ c, Starts c₀ [] ∧ MixedRuns c₀ c ∧
    Waiting c.shared (c.thread .writer) [] ∧
    made (c.thread .caller) = twoCalls.map (fun call => (call, .ok ())) ∧
    Leads c.shared [bytePut 0 97 99, bytePut 0 97 98] := by
  obtain ⟨w, hrun, happends, hids, -, hmax, hclock, hring⟩ := exists_run_nil
  have hstarts : Starts (twoWays w) [] := by
    refine ⟨.run hrun, ⟨4, by decide, hring⟩, ⟨twoCalls, rfl, fun call hcall => ?_⟩, rfl, [], rfl⟩
    have hsize : 16 + 1 + 1 ≤ w.maxActiveFileSize.toNat := by rw [hmax]; decide
    obtain rfl | hcall := List.mem_cons.mp hcall
    · exact ⟨rfl, (good_bytePut 0 97 98).value_ne, hsize⟩
    · rw [List.mem_singleton.mp hcall]
      exact ⟨rfl, (good_bytePut 0 97 99).value_ne, hsize⟩
  have hleads : Leads w (history (ids w) fun _ => []) := happends.toHolds.leads
  have hnothing : history (ids w) (fun _ => []) = [] := by rw [hids]; rfl
  rw [hnothing] at hleads
  have hmerging : Merging w .popping [] [] :=
    ⟨hleads, happends.running, ⟨_, [], hring, rfl, Index.Ring.init (by decide) _, .inl ⟨rfl, rfl⟩⟩,
      fun p hp => absurd hp List.not_mem_nil⟩
  have hupto : IdsUpTo w 0 := fun id hid => by
    rw [hids] at hid
    exact Nat.le_of_eq (List.mem_singleton.mp hid)
  have htest := putTest_computes (w := w)
  rw [hmerging.running] at htest
  have hrun₁ := mixed_next (.refl (a := twoWays w)) .caller (hupto.hasIds (by decide)) rfl
    (htest.bind (Computes.pure _))
  obtain ⟨hp, hsize⟩ := legible_bytePut 0 97 98 hmax
  obtain ⟨v₂, htry, hmerging₂, hv₂⟩ | ⟨⟨r, hr, hfull⟩, -⟩ :=
    hmerging.push hp hsize (by rw [hclock]; rfl) 4
  · have hupto₂ : IdsUpTo v₂ 0 := by rw [hv₂]; exact hupto
    obtain ⟨hq, hsize'⟩ := legible_bytePut (w := v₂) 0 97 99 (by rw [hv₂]; exact hmax)
    obtain ⟨v₃, hput, hmerging₃, -, hids₃⟩ := hmerging₂.putBlocking hq hsize'
      (by rw [hv₂, hclock]; rfl) (hupto₂.hasIds (by decide))
    have hupto₃ := hids₃ 0 hupto₂
    obtain ⟨v₄, hpop, hmerging₄, hv₄⟩ := hmerging₃.pop
    have hupto₄ : IdsUpTo v₄ 1 := by rw [hv₄]; exact hupto₃
    obtain ⟨p, rest, v₅, hpending, hrecord, hwrite, hmerging₅, -⟩ :=
      hmerging₄.write (hupto₄.hasIds (by decide))
    obtain ⟨rfl, rfl⟩ := List.cons.inj hpending
    have hrun₂ := mixed_next hrun₁ .caller (hupto.hasIds (by decide)) rfl (htry.bind (Computes.pure _))
    have hrun₃ := mixed_next hrun₂ .caller (hupto₂.hasIds (by decide)) rfl (hput.bind (Computes.pure _))
    have hrun₄ := mixed_next hrun₃ .writer (hupto₃.hasIds (by decide)) rfl (hpop.bind (Computes.pure _))
    have hrun₅ := mixed_next hrun₄ .writer (hupto₄.hasIds (by decide)) rfl (hwrite.bind (Computes.pure _))
    exact ⟨_, _, hstarts, hrun₅, hmerging₅.waiting, rfl, hmerging₅.leads⟩
  · rw [hring] at hr
    cases hr
    exact absurd hfull (by decide)

omit [Zlib] in
theorem puts_in_order_two : letI := zlib
    ∃ c₀ c : Mixed, Starts c₀ [] ∧ made (c.thread .caller) = twoCalls.map (fun call => (call, .ok ())) ∧
      ∃ record w' c₁ c₂ call, Computes (ccaskGet sampleKey) c.shared (.found record) w' ∧
        LastCall c₀ c sampleKey.val record.value c₁ c₂ call := by
  let _ := zlib
  obtain ⟨c₀, c, hstarts, hrun, hdrained, hmade, -⟩ := exists_overtaken
  refine ⟨c₀, c, hstarts, hmade, ?_⟩
  obtain ⟨huntouched, -⟩ | hlast := puts_in_order hstarts hrun hdrained sampleKey
  · rw [hmade] at huntouched
    exact absurd rfl (huntouched _ List.mem_cons_self rfl)
  · exact hlast

/-- `ccask_get` gives for every key the value of the last call on it that has succeeded. -/
def ProgramOrder (c : Mixed) : Prop :=
  ∀ (earlier later : List (Call × Status)) (call : Call) (key : Buf),
    made (c.thread .caller) = earlier ++ (call, .ok ()) :: later → call.key.bytes = key.val →
    Untouched key.val later → ∃ record w', Computes (ccaskGet key) c.shared (.found record) w' ∧
      record.value = call.value.bytes

omit [Zlib] in
/-- A `ccask_put_blocking` overtakes the `ccask_put` before it. -/
theorem not_program_order : letI := zlib
    ∃ c₀ c : Mixed, Starts c₀ [] ∧ MixedRuns c₀ c ∧ Waiting c.shared (c.thread .writer) [] ∧
      ¬ ProgramOrder c := by
  let _ := zlib
  obtain ⟨c₀, c, hstarts, hrun, hdrained, hmade, hleads⟩ := exists_overtaken
  refine ⟨c₀, c, hstarts, hrun, hdrained, fun horder => ?_⟩
  obtain ⟨record, w', hget, hvalue⟩ :=
    horder [_] [] _ sampleKey hmade rfl fun x hx => absurd hx List.not_mem_nil
  obtain ⟨v, hget'⟩ := hleads.get sampleKey
  have hres := (hget.unique hget').1
  cases hres
  cases hvalue

end Sample

end Ccask.Audit
