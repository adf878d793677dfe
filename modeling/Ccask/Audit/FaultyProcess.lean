import Ccask.Audit.PartialStart
import Ccask.Audit.MixedPuts
import Ccask.Audit.Tombstone

/-!
# A process under errors

Once `ccask_init` has returned CCASK_OK, a get gives the last put of its key or an error, whatever the
system answers to this call and to all the others: a put counts when its write has returned CCASK_OK, be it
the one of `ccask_put_blocking` or the one of the writer thread, and before all of these count the puts that
the start has recovered.
-/

namespace Ccask.Audit

open Ccask.Effect Ccask.Model Ccask.Index

section Passing

variable {w v u : World} {id : Nat}

/-- The key directory and the ring buffer are the same, and no file is forgotten. -/
structure PassesBy (w v : World) : Prop where
  table : v.hashTable = w.hashTable
  ringbuf : v.ringbuf = w.ringbuf
  known : ∀ i ∈ ids w, i ∈ ids v

instance : Std.Refl PassesBy := ⟨fun _ => ⟨rfl, rfl, fun _ hi => hi⟩⟩

instance : IsTrans World PassesBy := ⟨fun _ _ _ h h' =>
  ⟨h'.table.trans h.table, h'.ringbuf.trans h.ringbuf, fun i hi => h'.known i (h.known i hi)⟩⟩

theorem PassesBy.of_files (htable : v.hashTable = w.hashTable) (hring : v.ringbuf = w.ringbuf)
    (hfiles : v.files = w.files) : PassesBy w v := by
  refine ⟨htable, hring, fun i hi => ?_⟩
  rw [ids, hfiles]
  exact hi

theorem PassesBy.touched (h : Touched w v) : PassesBy w v := by
  refine ⟨h.hashTable_eq, by rw [h.same], fun i hi => ?_⟩
  rw [h.ids_eq]
  exact hi

theorem setFile_passesBy (id : Nat) {F : CcaskFile → CcaskFile} (hF : ∀ f, (F f).fileId = f.fileId) :
    Moves PassesBy (Prog.modify fun w => w.setFile id F) := by
  refine Moves.modify fun w => ⟨rfl, rfl, fun i hi => ?_⟩
  rw [ids_setFile w id hF]
  exact hi

theorem addFile_passesBy (file : CcaskFile) :
    Moves PassesBy (Prog.modify fun w => { w with files := addFile file w.files }) := by
  refine Moves.modify fun w => ⟨rfl, rfl, fun i hi => ?_⟩
  obtain ⟨f, hf, rfl⟩ := List.mem_map.mp hi
  exact List.mem_map_of_mem (mem_addFile.mpr (.inr hf))

theorem openCreate_passesBy (name : Name) : Moves PassesBy (openCreate name) :=
  openCreate_moves name fun _ => PassesBy.of_files rfl rfl rfl

theorem append_passesBy (w : World) (ino : Ino) (bytes : Bytes) : PassesBy w (w.append ino bytes) :=
  PassesBy.of_files rfl rfl rfl

theorem createNewActiveDatafile_passesBy (id : Nat) : Moves PassesBy (createNewActiveDatafile id) := by
  refine (attempt_moves (openCreate_passesBy _)).bind fun r => ?_
  cases r with
  | ok ino => exact Moves.state fun w => Ensures.pure (refl_of PassesBy w)
  | fail e => exact Moves.pure _
  | retry e => exact Moves.pure _

theorem ccaskHintfileGenerate_passesBy (id : Nat) : Moves PassesBy (ccaskHintfileGenerate id) := by
  have hstart : Moves PassesBy (do
      Prog.modify fun w => { w with threads := id :: w.threads }
      pure (.ok ()) : Sys Status) :=
    modify_bind_moves (fun _ => PassesBy.of_files rfl rfl rfl) fun _ => Moves.pure _
  refine malloc_moves.bind fun b => ?_
  cases b with
  | false => exact Moves.pure _
  | true =>
      refine Moves.call fun r => ?_
      cases r with
      | done n => exact hstart
      | intr => exact hstart
      | transient => exact Moves.pure _
      | fail => exact Moves.pure _

/-- A rotation adds a file, or nothing. -/
theorem ccaskFilesRotate_passesBy : Moves PassesBy ccaskFilesRotate := by
  refine malloc_moves.bind fun b => ?_
  cases b with
  | false => exact Moves.pure _
  | true =>
      refine Moves.state fun w => ?_
      cases w.files with
      | nil => exact Moves.block w
      | cons head rest =>
          refine (createNewActiveDatafile_passesBy _).bind (fun r => ?_) w
          cases r with
          | fail e => exact Moves.pure _
          | retry e => exact Moves.pure _
          | ok file =>
              refine (setFile_passesBy head.fileId (F := fun g => { g with fd := none, isActive := false })
                fun _ => rfl).bind fun _ => ?_
              refine (addFile_passesBy file).bind fun _ => ?_
              refine Moves.state fun v => ?_
              split
              · exact (attempt_moves (ccaskHintfileGenerate_passesBy _)).bind (fun _ => Moves.pure _) v
              · exact Moves.block v

theorem runGenerator_passesBy (id : Nat) : Moves PassesBy (runGenerator id) := by
  refine Moves.bind ?_ fun _ => Moves.modify fun _ => PassesBy.of_files rfl rfl rfl
  refine (attempt_moves (openCreate_passesBy _)).bind fun res => ?_
  cases res with
  | fail e => exact Moves.pure _
  | retry e => exact Moves.pure _
  | ok fd =>
      refine (attempt_moves (iterOpen_moves _ (ccaskFilesGetDatafileFd_moves _))).bind fun res => ?_
      cases res with
      | fail e => exact Moves.pure _
      | retry e => exact Moves.pure _
      | ok iter =>
          refine Moves.bind (Moves.loop (fun s => hintfileGeneratorRound_moves fd s append_passesBy) (iter, .unset))
            fun b => ?_
          cases b with
          | true => exact setFile_passesBy id fun _ => rfl
          | false =>
              have hdelete : Moves PassesBy (ccaskFilesDelete id .hint) :=
                ccaskFilesDelete_moves id .hint fun _ => PassesBy.of_files rfl rfl rfl
              exact (attempt_moves hdelete).bind fun _ => Moves.pure _

/-- What a step does that neither enters a record nor queues one. -/
structure Aside (w v : World) : Prop extends PassesBy w v where
  retains : Retains w v

instance : Std.Refl Aside := ⟨fun w => ⟨refl_of PassesBy w, refl_of Retains w⟩⟩

instance : IsTrans World Aside := ⟨fun _ _ _ h h' =>
  ⟨trans_of PassesBy h.toPassesBy h'.toPassesBy, trans_of Retains h.retains h'.retains⟩⟩

theorem aside_moves {α : Type} {m : Sys α} (h : Moves PassesBy m) (h' : Moves Retains m) : Moves Aside m :=
  fun w => ((h w).and (h' w)).mono (fun _ _ hv => ⟨hv.1, hv.2⟩) fun _ hv => ⟨hv.1, hv.2⟩

theorem ccaskGet_aside [Zlib] (key : Buf) : Moves Aside (ccaskGet key) :=
  aside_moves ((ccaskGet_moves ccaskReadDatafileRecord_touches key).mono fun _ _ h => PassesBy.touched h)
    (ccaskGet_retains key)

theorem datafileFdInvalidate_aside (id : Nat) (w : World) : Aside w (datafileFdInvalidate id w) :=
  ⟨PassesBy.touched (datafileFdInvalidate_touched id w), Retains.invalidate id w⟩

theorem ccaskListKeys_aside : Moves Aside ccaskListKeys := by
  have hread : Moves Aside ccaskKeydirRecordIter := by
    refine modify_bind_moves (fun w => ⟨PassesBy.of_files rfl rfl rfl, Retains.of_memory rfl rfl⟩) fun _ => ?_
    exact Moves.state fun w => Ensures.pure (refl_of Aside w)
  have hclose : Moves Aside ccaskKeydirRecordIterClose :=
    Moves.modify fun w => ⟨PassesBy.of_files rfl rfl rfl, Retains.of_memory rfl rfl⟩
  refine malloc_moves.bind fun b => ?_
  cases b with
  | false => exact Moves.pure _
  | true => exact hread.bind fun entries => hclose.bind fun _ => Moves.pure _

end Passing

section Write

variable {w v u : World} {hist : List Put} {p : Put} {r : DatafileRecord} {id pos : Nat}

/-- What a write comes to: nothing that shows, unless it has returned CCASK_OK. Then the whole record stands
where its entry leads, in a file that is known. -/
def Enters (r : DatafileRecord) (w : World) (res : Status) (v : World) : Prop :=
  (res ≠ .ok () ∧ Aside w v) ∨ (res = .ok () ∧ r.value ≠ [] ∧ ∃ u id pos, Aside w u ∧ id ∈ ids u ∧
    StandsAt r id pos u.fs ∧ v = upserted u (datafileEntry id r pos))

theorem Enters.after {res : Status} (h : Enters r v res u) (hw : Aside w v) : Enters r w res u := by
  rcases h with ⟨hres, hv⟩ | ⟨hres, hvalue, x, id, pos, hv, hrest⟩
  · exact .inl ⟨hres, trans_of Aside hw hv⟩
  · exact .inr ⟨hres, hvalue, x, id, pos, trans_of Aside hw hv, hrest⟩

theorem ccaskFilesRotate_aside : Moves Aside ccaskFilesRotate :=
  aside_moves ccaskFilesRotate_passesBy ccaskFilesRotate_retains

theorem append_aside (w : World) (ino : Ino) (bytes : Bytes) : Aside w (w.append ino bytes) :=
  ⟨append_passesBy w ino bytes, Retains.append w ino bytes⟩

/-- One round of a write. -/
theorem writeRecordRound_enters (h : Anchored w) (u : Unit) :
    Ensures (fun _ => True) (writeRecordRound r u) w
      (fun res v => (∃ t, res = .inl t ∧ Aside w v) ∨ ∃ b, res = .inr b ∧ Enters r w b v)
      (fun _ => True) := by
  refine Ensures.state_bind ?_
  cases hactive : ccaskFilesGetActiveFile w with
  | none => exact Ensures.block trivial
  | some file =>
      have hne : ∀ e, (.fail e : Status) ≠ .ok () := fun e h => by cases h
      have hfail : ∀ e, Ensures (fun _ => True) (pure (.inr (.fail e)) : Sys (Unit ⊕ Status)) w
          (fun res v => (∃ t, res = .inl t ∧ Aside w v) ∨ ∃ b, res = .inr b ∧ Enters r w b v)
          (fun _ => True) :=
        fun e => Ensures.pure (.inr ⟨_, rfl, .inl ⟨hne e, refl_of Aside w⟩⟩)
      refine (lseekEnd_answers file.fd).bind ?_
      rintro pos v ⟨rfl, hpos⟩
      cases pos with
      | none => exact hfail _
      | some pos =>
          dsimp only
          split
          · exact ((ccaskFilesRotate_aside v).mono (fun _ _ h => h) fun _ _ => trivial).bind
              fun _ x hx => Ensures.pure (.inl ⟨(), rfl, hx⟩)
          · cases hfd : file.fd with
            | none => exact hfail _
            | some ino =>
                have hlen : pos = (v.fs.data ino).length := by
                  rcases hpos with hpos | ⟨hpos, -⟩
                  · rw [hfd] at hpos
                    exact Option.some.inj hpos
                  · cases hpos
                have hdir := h.active hactive hfd
                have hid : file.fileId ∈ ids v :=
                  List.mem_map_of_mem (List.mem_of_mem_head? hactive)
                refine ((safeWritev_ensures (fun _ => True) (iov_fits r)
                  (by simp [DatafileRecord.iov])).mono (fun _ _ h => h) fun _ _ => trivial).bind ?_
                rintro res x (⟨rfl, hlast, rfl⟩ | ⟨rfl, -, bytes, -, rfl⟩)
                swap
                · exact Ensures.pure (.inr ⟨_, rfl, .inl ⟨hne _, append_aside v ino bytes⟩⟩)
                rw [gather_iov]
                have hstands : StandsAt r file.fileId pos (v.append ino r.bytes).fs := by
                  refine ⟨v.fs.data ino ++ r.bytes, ?_, ?_⟩
                  · rw [World.append, Fs.read_append hdir, Function.update_self]
                  · rw [hlen, List.drop_left]
                refine ((upserts_ensures _).mono (fun _ _ h => h) fun _ _ => trivial).bind ?_
                rintro res x (⟨rfl, rfl⟩ | ⟨hres, rfl⟩)
                · exact Ensures.pure (.inr ⟨_, rfl, .inr ⟨rfl, (iov_last r).mp hlast, _, _, _,
                    append_aside v ino r.bytes, hid, hstands, rfl⟩⟩)
                · cases res with
                  | ok _ => cases hres
                  | fail e => exact Ensures.pure (.inr ⟨_, rfl, .inl ⟨hne e, append_aside v ino r.bytes⟩⟩)
                  | retry e => exact Ensures.pure (.inr ⟨_, rfl, .inl ⟨hne e, append_aside v ino r.bytes⟩⟩)

/-- Any number of rotations come before the write. -/
theorem ccaskWriteRecordBlocking_enters (h : Anchored w) :
    Ensures (fun _ => True) (ccaskWriteRecordBlocking r) w (Enters r w) (fun _ => True) := by
  refine Ensures.loop (I := fun _ v => Aside w v) ?_ (fun _ _ _ => trivial) (refl_of Aside w)
  intro u v hv
  refine (writeRecordRound_enters (hv.retains.anchored h) u).mono ?_ fun _ _ => trivial
  rintro res x (⟨t, rfl, hx⟩ | ⟨b, rfl, hx⟩)
  · exact trans_of Aside hv hx
  · exact hx.after hv

theorem Upholds.aside [Zlib] (h : Upholds w hist) (hv : Aside w v) : Upholds v hist := by
  have hfind : ∀ k, ccaskKeydirFind k v = ccaskKeydirFind k w :=
    fun k => congrArg (Index.get KeydirRecord.key k) hv.table
  refine ⟨hv.retains.anchored h.anchored, fun k hk => (hfind k).trans (h.missing k hk), fun k p hp => ?_⟩
  obtain ⟨hlegible, id, pos, hentry, hid, hstands⟩ := h.found k p hp
  exact ⟨hlegible, id, pos, (hfind k).trans hentry, hv.known id hid, hstands.grows hv.retains.grows⟩

/-- The entry of a record that stands in a known file makes its put the last one of its key. -/
theorem Upholds.entered [Zlib] (h : Upholds w hist) (hp : Legible p) (hid : id ∈ ids w)
    (hstands : StandsAt p.record id pos w.fs) :
    Upholds (upserted w (datafileEntry id p.record pos)) (hist ++ [p]) := by
  have hfind : ∀ k, ccaskKeydirFind k (upserted w (datafileEntry id p.record pos)) =
      if putKey p = k then some (p.entry id pos) else ccaskKeydirFind k w := by
    intro k
    rw [find_upserted, datafileEntry_record]
    rfl
  refine ⟨h.anchored, fun k hk => ?_, fun k q hk => ?_⟩
  · rw [Index.latest_concat] at hk
    rw [hfind]
    split at hk
    · cases hk
    · rw [if_neg ‹_›]
      exact h.missing k hk
  · rw [Index.latest_concat] at hk
    rw [hfind]
    split at hk
    · obtain rfl := Option.some.inj hk
      exact ⟨hp, id, pos, if_pos ‹_›, hid, hstands⟩
    · rw [if_neg ‹_›]
      exact h.found k q hk

theorem Upholds.enters [Zlib] {res : Status} (h : Upholds w hist) (hkey : p.key.isSome)
    (hv : Enters p.record w res v) : Upholds v (if res = .ok () then hist ++ [p] else hist) := by
  rcases hv with ⟨hres, hv⟩ | ⟨rfl, hvalue, u, id, pos, hu, hid, hstands, rfl⟩
  · rw [if_neg hres]
    exact h.aside hv
  · rw [if_pos rfl]
    exact (h.aside hu).entered ⟨hkey, hvalue⟩ hid hstands

end Write

section Queue

variable [Zlib] {w v : World} {hist : List Put} {r : Ringbuf}

/-- Only what is read counts. -/
theorem Upholds.congr (h : Upholds w hist) (hfs : v.fs = w.fs) (hfiles : v.files = w.files)
    (htable : v.hashTable = w.hashTable) : Upholds v hist := by
  have hfind : ∀ k, ccaskKeydirFind k v = ccaskKeydirFind k w :=
    fun k => congrArg (Index.get KeydirRecord.key k) htable
  refine ⟨(Retains.of_memory hfs hfiles).anchored h.anchored, fun k hk => (hfind k).trans (h.missing k hk),
    fun k p hp => ?_⟩
  obtain ⟨hlegible, id, pos, hentry, hid, hstands⟩ := h.found k p hp
  refine ⟨hlegible, id, pos, (hfind k).trans hentry, ?_, ?_⟩
  · rw [ids, hfiles]
    exact hid
  · rw [hfs]
    exact hstands

/-- A put leaves its record in the ring buffer, or does nothing. -/
theorem ccaskPut_queues (hr : w.ringbuf = some r) (key value : Ptr) :
    Ensures (fun _ => True) (ccaskPut key value) w (fun res v => (res ≠ .ok () ∧ v = w) ∨
      (res = .ok () ∧ (r.head + 1) % r.capacity ≠ r.tail ∧
        v = pushed w r (mkRecord (UInt32.ofNat w.clock) key value))) (fun _ => True) := by
  refine Ensures.state_bind ?_
  split
  · exact Ensures.pure (.inl ⟨nofun, rfl⟩)
  have hpush : Ensures (fun _ => True) (attempt 5 (ccaskWriterRingbufPush (UInt32.ofNat w.clock) key value)) w
      (fun res v => (res ≠ .ok () ∧ v = w) ∨ (res = .ok () ∧ (r.head + 1) % r.capacity ≠ r.tail ∧
        v = pushed w r (mkRecord (UInt32.ofNat w.clock) key value))) (fun _ => True) := by
    refine attempt_succ_ensures (I := fun v => v = w) rfl ?_
    rintro v rfl
    refine Ensures.state_bind ?_
    rw [hr]
    dsimp only
    split
    · exact Ensures.pure ⟨.inl ⟨nofun, rfl⟩, fun _ _ => rfl⟩
    · rename_i hroom
      refine (ccaskCreateDatafileRecord_ensures _ key value).bind ?_
      rintro res u ⟨rfl, hrecord⟩
      cases res with
      | fail e => exact Ensures.pure ⟨.inl ⟨nofun, rfl⟩, nofun⟩
      | retry e => exact Ensures.pure ⟨.inl ⟨nofun, rfl⟩, nofun⟩
      | ok record =>
          obtain rfl := hrecord record rfl
          exact Ensures.modify_bind (Ensures.pure ⟨.inr ⟨rfl, hroom, rfl⟩, nofun⟩)
  refine hpush.bind fun res v hv => ?_
  rcases hv with ⟨hres, rfl⟩ | ⟨rfl, hroom, rfl⟩
  · cases res with
    | ok u => exact absurd rfl hres
    | fail e => exact Ensures.pure (.inl ⟨nofun, rfl⟩)
    | retry e => exact Ensures.pure (.inl ⟨nofun, rfl⟩)
  · exact Ensures.pure (.inr ⟨rfl, hroom, rfl⟩)

omit [Zlib] in
/-- The writer thread gets the oldest record of the queue. -/
theorem ccaskWriterRingbufPop_pops {q : List DatafileRecord} (hr : w.ringbuf = some r)
    (hring : Ring r.buf r.capacity r.head r.tail q) {record : DatafileRecord} {rs rest : List Reply}
    (hrun : ccaskWriterRingbufPop.run rs w = .returned (.ok record) rest v) : ∃ q', q = record :: q' ∧
      v = { w with ringbuf := some { r with tail := (r.tail + 1) % r.capacity } } ∧
      Ring r.buf r.capacity r.head ((r.tail + 1) % r.capacity) q' := by
  rw [ccaskWriterRingbufPop, Prog.run_state_bind, hr] at hrun
  dsimp only at hrun
  cases q with
  | nil =>
      rw [if_pos (hring.empty_iff.mpr rfl)] at hrun
      split at hrun
      · cases hrun
      · cases hrun
  | cons a q =>
      obtain ⟨hfirst, hrest⟩ := hring.pop
      have hne : r.tail ≠ r.head := fun heq => by cases hring.empty_iff.mp heq
      rw [if_neg hne, hfirst] at hrun
      cases hrun
      exact ⟨q, rfl, rfl, hrest⟩

theorem ccaskPutBlocking_enters (h : Anchored w) (key value : Ptr) :
    Ensures (fun _ => True) (ccaskPutBlocking key value) w
      (Enters (mkRecord (UInt32.ofNat w.clock) key value) w) (fun _ => True) := by
  have hfail : ∀ e, Ensures (fun _ => True) (pure (.fail e) : Sys Status) w
      (Enters (mkRecord (UInt32.ofNat w.clock) key value) w) (fun _ => True) :=
    fun e => Ensures.pure (.inl ⟨nofun, refl_of Aside w⟩)
  refine Ensures.state_bind ?_
  split
  · exact hfail _
  · refine (ccaskCreateDatafileRecord_ensures _ key value).bind ?_
    rintro res v ⟨rfl, hrecord⟩
    cases res with
    | fail e => exact hfail _
    | retry e => exact hfail _
    | ok record =>
        obtain rfl := hrecord record rfl
        refine (ccaskWriteRecordBlocking_enters h).bind fun res x hx => ?_
        cases res with
        | ok u => exact Ensures.pure hx
        | fail e => exact Ensures.pure (.inl ⟨nofun, (hx.resolve_right fun h => nomatch h.1).2⟩)
        | retry e => exact Ensures.pure (.inl ⟨nofun, (hx.resolve_right fun h => nomatch h.1).2⟩)

end Queue

section Runs

variable [Zlib] {w v u : World}

/-- The puts that are in the key directory, and those that are still in the ring buffer. -/
structure Tally where
  entered : List Put
  queued : List Put

/-- A write has returned. -/
def Tally.put (t : Tally) (p : Put) (res : Status) : Tally :=
  { t with entered := if res = .ok () then t.entered ++ [p] else t.entered }

/-- A call that queues has returned. -/
def Tally.queue (t : Tally) (p : Put) (res : Status) : Tally :=
  { t with queued := if res = .ok () then t.queued ++ [p] else t.queued }

/-- The writer thread has written the oldest one, or has failed to. -/
def Tally.write (t : Tally) (res : Status) : Tally :=
  match t.queued with
  | [] => t
  | p :: queued => { t with queued := queued }.put p res

/-- What callers and threads do once the process is started. The system may answer as it likes, but the
calls return. -/
inductive Proceeds : World → Tally → World → Tally → Prop
  | put {w v : World} {t : Tally} {key : Buf} {value : Ptr} {rs rest : List Reply} {res : Status} :
      (ccaskPutBlocking (some key) value).run rs w = .returned res rest v →
      Proceeds w t v (t.put ⟨UInt32.ofNat w.clock, some key, value⟩ res)
  | queue {w v : World} {t : Tally} {key : Buf} {value : Ptr} {rs rest : List Reply} {res : Status} :
      (ccaskPut (some key) value).run rs w = .returned res rest v →
      Proceeds w t v (t.queue ⟨UInt32.ofNat w.clock, some key, value⟩ res)
  | write {w u v : World} {t : Tally} {record : DatafileRecord} {rs mid rest : List Reply} {res : Status} :
      ccaskWriterRingbufPop.run rs w = .returned (.ok record) mid u →
      (ccaskWriteRecordBlocking record).run mid u = .returned res rest v → Proceeds w t v (t.write res)
  | get {w v : World} {t : Tally} {key : Buf} {rs rest : List Reply} {res : GetResult} :
      (ccaskGet key).run rs w = .returned res rest v → Proceeds w t v t
  | listKeys {w v : World} {t : Tally} {rs rest : List Reply} {res : Res (List Bytes)} :
      ccaskListKeys.run rs w = .returned res rest v → Proceeds w t v t
  | generate {w v : World} {t : Tally} {id : Nat} {rs rest : List Reply} :
      (runGenerator id).run rs w = .returned () rest v → Proceeds w t v t
  | invalidate {w : World} {t : Tally} (id : Nat) : Proceeds w t (datafileFdInvalidate id w) t
  | tick {w : World} {t : Tally} (now : Nat) : Proceeds w t { w with clock := now } t

/-- Any number of these. -/
inductive Proceeded (w : World) (t : Tally) : World → Tally → Prop
  | refl : Proceeded w t w t
  | tail {v u : World} {s s' : Tally} : Proceeded w t v s → Proceeds v s u s' → Proceeded w t u s'

/-- The key directory has the puts that are entered, and the ring buffer the records of the others. -/
structure Serving (w : World) (t : Tally) : Prop where
  upholds : Upholds w t.entered
  ring : ∃ r, w.ringbuf = some r ∧ Ring r.buf r.capacity r.head r.tail (t.queued.map Put.record)
  keyed : ∀ p ∈ t.queued, p.key.isSome

variable {t t' : Tally}

theorem Serving.aside (h : Serving w t) (hv : Aside w v) : Serving v t :=
  ⟨h.upholds.aside hv, by rw [hv.ringbuf]; exact h.ring, h.keyed⟩

omit [Zlib] in
theorem Enters.ringbuf {r : DatafileRecord} {res : Status} (h : Enters r w res v) : v.ringbuf = w.ringbuf := by
  rcases h with ⟨-, hv⟩ | ⟨-, -, u, id, pos, hu, -, -, rfl⟩
  · exact hv.ringbuf
  · exact hu.ringbuf

theorem Serving.put {p : Put} {res : Status} (h : Serving w t) (hkey : p.key.isSome)
    (hv : Enters p.record w res v) : Serving v (t.put p res) :=
  ⟨h.upholds.enters hkey hv, by rw [hv.ringbuf]; exact h.ring, h.keyed⟩

/-- Each step keeps the two in order. -/
theorem Serving.proceeds (h : Serving w t) (hs : Proceeds w t v t') : Serving v t' := by
  cases hs with
  | put hrun =>
      have hv := (ccaskPutBlocking_enters h.upholds.anchored _ _).returned (fun _ _ => trivial) hrun
      exact h.put (p := ⟨_, _, _⟩) rfl hv
  | queue hrun =>
      obtain ⟨r, hr, hring⟩ := h.ring
      rcases (ccaskPut_queues hr _ _).returned (fun _ _ => trivial) hrun with ⟨hres, rfl⟩ | ⟨rfl, hroom, rfl⟩
      · rw [Tally.queue, if_neg hres]
        exact h
      · rw [Tally.queue, if_pos rfl]
        refine ⟨h.upholds.congr rfl rfl rfl, ⟨_, rfl, ?_⟩, fun p hp => ?_⟩
        · rw [List.map_append]
          exact hring.push hroom _
        · rcases List.mem_append.mp hp with hp | hp
          · exact h.keyed p hp
          · rw [List.mem_singleton.mp hp]
            rfl
  | write hpop hwrite =>
      obtain ⟨r, hr, hring⟩ := h.ring
      obtain ⟨q, hq, rfl, hring'⟩ := ccaskWriterRingbufPop_pops hr hring hpop
      obtain ⟨p, queued, hqueued, rfl, rfl⟩ := List.map_eq_cons_iff.mp hq
      have hkeyed := h.keyed
      rw [hqueued] at hkeyed
      have hpopped : Serving { w with ringbuf := some { r with tail := (r.tail + 1) % r.capacity } }
          { t with queued := queued } :=
        ⟨h.upholds.congr rfl rfl rfl, ⟨_, rfl, hring'⟩, fun p hp => hkeyed p (List.mem_cons_of_mem _ hp)⟩
      have hv := (ccaskWriteRecordBlocking_enters hpopped.upholds.anchored).returned (fun _ _ => trivial) hwrite
      rw [Tally.write, hqueued]
      exact hpopped.put (hkeyed p List.mem_cons_self) hv
  | get hrun => exact h.aside ((ccaskGet_aside _).of_run hrun)
  | listKeys hrun => exact h.aside (ccaskListKeys_aside.of_run hrun)
  | generate hrun =>
      exact h.aside ((aside_moves (runGenerator_passesBy _) (runGenerator_retains _)).of_run hrun)
  | invalidate id => exact h.aside (datafileFdInvalidate_aside id w)
  | tick now => exact h.aside ⟨PassesBy.of_files rfl rfl rfl, Retains.of_memory rfl rfl⟩

/-- And so does a run. -/
theorem Serving.proceeded (h : Serving w t) (hs : Proceeded w t v t') : Serving v t' := by
  induction hs with
  | refl => exact h
  | tail _ hstep ih => exact ih.proceeds hstep

end Runs

section Start

variable {w v : World} {opts : CcaskOptions} {l : List Nat} {rs rest : List Reply}

/-- A start that returns CCASK_OK has an empty ring buffer. -/
theorem ccaskInit_ring : Ensures (fun _ => True) (ccaskInit opts) w
    (fun r v => r = .ok () → v.ringbuf = some (.init opts.writerRingbufCapacity)) (fun _ => True) := by
  have hstart : ∀ v, Ensures (fun _ => True) (attempt 5 (ccaskWriterStart opts.writerRingbufCapacity)) v
      (fun r u => r = .ok () → u.ringbuf = some (.init opts.writerRingbufCapacity)) (fun _ => True) := by
    intro v
    refine attempt_ensures (I := fun _ => True) trivial (fun _ _ _ => nofun) ?_
    intro u _
    have hinit : Ensures (fun _ => True) (ccaskWriterRingbufInit opts.writerRingbufCapacity) u
        (fun r x => r = .ok () → x.ringbuf = some (.init opts.writerRingbufCapacity)) (fun _ => True) :=
      mallocAll_ensures 2 trivial (Ensures.modify_bind (Ensures.pure fun _ => rfl)) (Ensures.pure nofun)
    refine hinit.bind fun r x hx => ?_
    cases r with
    | fail e => exact Ensures.pure nofun
    | retry e => exact Ensures.pure nofun
    | ok u =>
        refine Ensures.call_bind trivial fun r _ => ?_
        cases r with
        | done n => exact Ensures.pure fun _ => hx rfl
        | intr => exact Ensures.pure fun _ => hx rfl
        | transient => exact Ensures.modify_bind (Ensures.pure nofun)
        | fail => exact Ensures.modify_bind (Ensures.pure nofun)
  refine Ensures.modify_bind (Ensures.trivial.bind fun r v _ => ?_)
  cases r with
  | fail e => exact Ensures.pure nofun
  | retry e => exact Ensures.pure nofun
  | ok x =>
      refine Ensures.trivial.bind fun r v _ => ?_
      cases r with
      | fail e => exact Ensures.modify_bind (Ensures.pure nofun)
      | retry e => exact Ensures.modify_bind (Ensures.pure nofun)
      | ok x =>
          refine (hstart v).bind fun r v hv => ?_
          have hstop : Ensures (fun _ => True) (do
              ccaskKeydirShutdown
              ccaskFilesShutdown
              pure (.fail none) : Sys Status) v
              (fun r v => r = .ok () → v.ringbuf = some (.init opts.writerRingbufCapacity)) (fun _ => True) :=
            Ensures.trivial.bind fun _ _ _ => Ensures.modify_bind (Ensures.pure nofun)
          cases r with
          | fail e => exact hstop
          | retry e => exact hstop
          | ok x => exact Ensures.modify_bind (Ensures.pure fun _ => hv rfl)

variable [Zlib] {seg : Nat → List Put}

/-- Whatever the system answers to the start of a process and to everything it does later: there are numbers
such that in every state it comes to, every get gives an error or the last put of its key, and without errors
this last put. The puts are, in this order, as many of each datafile as the numbers say, from the oldest file
on, and those whose write has returned CCASK_OK. -/
theorem process_answers (h : Stored w.fs l seg) (hlists : Lists opts.listing w.fs)
    (hcurrent : ∀ id, (w.fs.read (fileName id .hint)).isSome → id ∈ l)
    (hring : 0 < opts.writerRingbufCapacity) (hinit : (ccaskInit opts).run rs w = .returned (.ok ()) rest v) :
    ∃ n : Nat → Nat, ∀ u t, Proceeded v ⟨history l fun i => (seg i).take (n i), []⟩ u t →
      GivesPuts u t.entered ∧ ∀ key, Ensures (fun _ => True) (ccaskGet key) u
        (fun res _ => res = lookup t.entered key.val ∨ ∃ e, res = .fail e) (fun _ => True) := by
  have hstart := (ccaskInit_starts h hlists hcurrent).returned (fun _ _ => trivial) hinit
  obtain ⟨n, hup⟩ := (hstart.2 rfl).upholds h.disk.sorted
  have hempty := ccaskInit_ring.returned (fun _ _ => trivial) hinit rfl
  refine ⟨n, fun u t hrun => ?_⟩
  have hserving : Serving v ⟨history l fun i => (seg i).take (n i), []⟩ :=
    ⟨hup, ⟨_, hempty, Ring.init hring _⟩, nofun⟩
  have hafter := hserving.proceeded hrun
  exact ⟨hafter.upholds.givesPuts, hafter.upholds.get⟩

end Start

section Sample

/-- The process of a start that missed the second entry of the hint file, because it could not read it. -/
def missedWorld : World :=
  letI := zlib
  ((ccaskInit againOptions).run (wholeReplies.take 19 ++ [.fail] ++ wholeReplies)
    (World.boot rotatedWorld.fs 0)).state

/-- The same after another put and a get that has failed. -/
def failedGet : Outcome World GetResult :=
  letI := zlib
  (ccaskGet sampleKey).run (wholeReplies.take 3 ++ [.fail])
    (afterPut (bytePut 0 102 103) missedWorld)

/-- It answers with the new put and without the one that it has missed. -/
theorem process_answers_one : letI := zlib
    failedGet.value = some (.fail (some .readFailed)) ∧ ∃ hist,
      GivesPuts failedGet.state (hist ++ [bytePut 0 102 103]) ∧
      lookup (hist ++ [bytePut 0 102 103]) [99] = .missing ∧
      lookup (hist ++ [bytePut 0 102 103]) [97] = .found (bytePut 0 97 101).result := by
  let _ := zlib
  have hbears : Bears rotatedWorld.fs filledPuts := bears_rotatedWorld
  obtain ⟨l, seg, hstored, hcurrent, -⟩ := hbears
  obtain ⟨rest, hinit⟩ : ∃ rest, (ccaskInit againOptions).run (wholeReplies.take 19 ++ [.fail] ++ wholeReplies)
      (World.boot rotatedWorld.fs 0) = .returned (.ok ()) rest missedWorld :=
    Outcome.of_value (by decide +kernel)
  obtain ⟨rest', hput⟩ : ∃ rest', (ccaskPutBlocking (bytePut 0 102 103).key (bytePut 0 102 103).value).run
      wholeReplies missedWorld = .returned (.ok ()) rest' (afterPut (bytePut 0 102 103) missedWorld) :=
    Outcome.of_value (by decide +kernel)
  have hfails : failedGet.value = some (.fail (some .readFailed)) := by decide +kernel
  obtain ⟨rest'', hget⟩ := Outcome.of_value hfails
  obtain ⟨n, hn⟩ := @process_answers (World.boot rotatedWorld.fs 0) missedWorld againOptions l _ rest zlib seg
    hstored lists_rotatedWorld hcurrent (Nat.succ_pos 3) hinit
  have hclock : missedWorld.clock = 0 := by decide +kernel
  have hrun : Proceeded missedWorld ⟨history l fun i => (seg i).take (n i), []⟩ failedGet.state
      ⟨(history l fun i => (seg i).take (n i)) ++ [bytePut 0 102 103], []⟩ := by
    have htwo : Proceeded missedWorld ⟨history l fun i => (seg i).take (n i), []⟩ failedGet.state
        (Tally.put _ ⟨UInt32.ofNat missedWorld.clock, _, _⟩ (.ok ())) :=
      .tail (.tail .refl (.put hput)) (.get hget)
    rw [hclock] at htwo
    exact htwo
  have hgives := (hn _ _ hrun).1
  have hanswer : ∀ (key : Buf) (res : GetResult),
      ((ccaskGet key).run wholeReplies failedGet.state).value = some res →
      lookup ((history l fun i => (seg i).take (n i)) ++ [bytePut 0 102 103]) key.val = res := by
    intro key res hvalue
    obtain ⟨rest, hrun⟩ := Outcome.of_value hvalue
    obtain ⟨v, hlookup⟩ := (hgives key _).mpr rfl
    exact (hlookup.eq_of_returned allClean_wholeReplies hrun).1.symm
  exact ⟨hfails, _, hgives, hanswer ⟨[99], Nat.one_lt_two_pow (by decide)⟩ _ (by decide +kernel),
    hanswer sampleKey _ (by decide +kernel)⟩

end Sample

end Ccask.Audit
