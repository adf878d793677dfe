import Ccask.Audit.Invalidators
import Ccask.Model.Shutdown

/-!
# Nothing runs after a shutdown

`ccask_shutdown` joins the generators it finds in the list, and then the writer. A rotation that comes
later starts a generator that nobody joins, and the invalidators are detached.
-/

namespace Ccask.Audit

open Ccask.Effect Ccask.Model

section Flags

/-- The files with their flags for the invalidator. -/
def flags (w : World) : List (Nat × Bool) := w.files.map fun f => (f.fileId, f.isFdInvalidatorRunning)

/-- The flag of a file says whether its invalidator lives. -/
structure Flagged (l : List (Nat × Bool)) (live : List Nat) : Prop where
  sorted : (l.map Prod.fst).Pairwise (· > ·)
  running : ∀ p ∈ l, p.2 = true ↔ p.1 ∈ live
  nodup : live.Nodup
  known : ∀ id ∈ live, id ∈ l.map Prod.fst

variable {w : World} {s s' : Watched} {l : List (Nat × Bool)} {live live' : List Nat} {id : Nat} {b : Bool}

/-- The flag of a file is set to `b`. -/
def mark (id : Nat) (b : Bool) (l : List (Nat × Bool)) : List (Nat × Bool) :=
  l.map fun p => if p.1 = id then (p.1, b) else p

theorem ids_mark : (mark id b l).map Prod.fst = l.map Prod.fst := by
  rw [mark, List.map_map]
  apply List.map_congr_left
  intro p _
  show (if p.1 = id then (p.1, b) else p).1 = p.1
  split
  · rfl
  · rfl

theorem flags_keep {F : CcaskFile → CcaskFile} (hF : ∀ f, (F f).fileId = f.fileId ∧
    (F f).isFdInvalidatorRunning = f.isFdInvalidatorRunning) : flags (w.setFile id F) = flags w := by
  rw [flags, World.setFile, List.map_map]
  apply List.map_congr_left
  intro f _
  show ((if f.fileId = id then F f else f).fileId, (if f.fileId = id then F f else f).isFdInvalidatorRunning) = _
  split
  · rw [(hF f).1, (hF f).2]
  · rfl

theorem flags_mark {F : CcaskFile → CcaskFile} (hF : ∀ f, (F f).fileId = f.fileId ∧
    (F f).isFdInvalidatorRunning = b) : flags (w.setFile id F) = mark id b (flags w) := by
  rw [flags, flags, mark, World.setFile, List.map_map, List.map_map]
  apply List.map_congr_left
  intro f _
  show ((if f.fileId = id then F f else f).fileId, (if f.fileId = id then F f else f).isFdInvalidatorRunning) =
    if f.fileId = id then (f.fileId, b) else (f.fileId, f.isFdInvalidatorRunning)
  split
  · rw [(hF f).1, (hF f).2]
  · rfl

theorem Flagged.mark (h : Flagged l live) (hother : ∀ i, i ≠ id → (i ∈ live' ↔ i ∈ live))
    (hown : b = true ↔ id ∈ live') (hnodup : live'.Nodup) (hknown : id ∈ l.map Prod.fst) :
    Flagged (mark id b l) live' := by
  refine ⟨by rw [ids_mark]; exact h.sorted, ?_, hnodup, fun i hi => ?_⟩
  · intro q hq
    obtain ⟨p, hp, rfl⟩ := List.mem_map.mp hq
    split
    · rename_i hid
      rw [hid]
      exact hown
    · rename_i hid
      rw [hother p.1 hid]
      exact h.running p hp
  · rw [ids_mark]
    by_cases hid : i = id
    · rw [hid]
      exact hknown
    · exact h.known i ((hother i hid).mp hi)

/-- A new file has no invalidator. -/
theorem Flagged.cons (h : Flagged l live) (hid : ∀ i ∈ l.map Prod.fst, i < id) :
    Flagged ((id, false) :: l) live := by
  have hnew : id ∉ live := fun hmem => Nat.lt_irrefl _ (hid id (h.known id hmem))
  refine ⟨List.pairwise_cons.mpr ⟨hid, h.sorted⟩, ?_, h.nodup, fun i hi => List.mem_cons_of_mem _ (h.known i hi)⟩
  intro p hp
  obtain rfl | hp := List.mem_cons.mp hp
  · exact iff_of_false Bool.false_ne_true hnew
  · exact h.running p hp

theorem Flagged.eq_nil (h : Flagged l live) (hl : ∀ p ∈ l, p.2 = false) : live = [] := by
  rw [List.eq_nil_iff_forall_not_mem]
  intro id hid
  obtain ⟨p, hp, rfl⟩ := List.mem_map.mp (h.known id hid)
  have htrue := (h.running p hp).mpr hid
  rw [hl p hp] at htrue
  cases htrue

/-- The flags and the invalidators agree. -/
abbrev TrueFlags (s : Watched) : Prop := Flagged (flags s.world) (watchedIds s)

theorem mem_flags {file : CcaskFile} (hget : ccaskFilesGetFile id w = some file) :
    (id, file.isFdInvalidatorRunning) ∈ flags w := by
  have hfid : file.fileId = id := by simpa using List.find?_some hget
  exact hfid ▸ List.mem_map_of_mem (List.mem_of_find?_eq_some hget)

theorem Guarded.trueFlags {active : Nat} (h : Guarded s active) : TrueFlags s := by
  have hids : (flags s.world).map Prod.fst = s.world.files.map CcaskFile.fileId := by
    rw [flags, List.map_map]
    rfl
  refine ⟨by rw [hids]; exact h.sorted, ?_, h.nodup, fun id hid => by rw [hids]; exact (h.known id hid).1⟩
  intro p hp
  obtain ⟨f, hf, rfl⟩ := List.mem_map.mp hp
  exact (h.kept f hf).running

theorem Flagged.alters (h : TrueFlags s) (hs : Alters s s') : TrueFlags s' := by
  cases hs with
  | same hfiles _ hlive =>
      show Flagged (List.map _ _) (List.map _ _)
      rw [hfiles, hlive]
      exact h
  | touched id hF =>
      show Flagged (flags (World.setFile _ _ _)) (watchedIds s)
      rw [flags_keep fun f => ⟨(hF f).1, (hF f).2.2.2⟩]
      exact h
  | opened ino hget hfd hrun =>
      rename_i id file
      have hmem := mem_flags hget
      rw [hrun] at hmem
      have hnot : id ∉ watchedIds s := fun hid => Bool.false_ne_true ((h.running _ hmem).mpr hid)
      show Flagged (flags (World.setFile _ _ _)) (id :: watchedIds s)
      rw [flags_mark (b := true)]
      · refine h.mark (fun i hi => ?_) (iff_of_true rfl List.mem_cons_self)
          (List.nodup_cons.mpr ⟨hnot, h.nodup⟩) (List.mem_map_of_mem hmem)
        rw [List.mem_cons]
        exact ⟨fun hor => hor.resolve_left hi, .inr⟩
      · exact fun _ => ⟨rfl, rfl⟩
  | reopened ino _ _ _ =>
      show Flagged (flags (World.setFile _ _ _)) (watchedIds s)
      rw [flags_keep]
      · exact h
      · exact fun _ => ⟨rfl, rfl⟩
  | closed hk =>
      rename_i id k
      obtain ⟨hmem, herase⟩ := erase_watched h.nodup hk
      show Flagged (flags (World.setFile _ _ _)) (List.map Invalidator.fileId (List.eraseIdx _ _))
      rw [flags_mark (b := false), herase]
      · refine h.mark (fun i hi => ?_) (iff_of_false Bool.false_ne_true h.nodup.not_mem_erase)
          (h.nodup.erase id) (h.known id hmem)
        rw [h.nodup.mem_erase_iff]
        exact ⟨fun hin => hin.2, fun hin => ⟨hi, hin⟩⟩
      · exact fun _ => ⟨rfl, rfl⟩

theorem Flagged.unwatched (h : TrueFlags s) (id : Nat) (ino : Ino) : TrueFlags (unwatched id ino s) := by
  show Flagged (flags (World.setFile _ _ _)) (watchedIds s)
  rw [flags_keep]
  · exact h
  · exact fun _ => ⟨rfl, rfl⟩

/-- A rotation below the last id. -/
theorem Flagged.rotated {v : World} (h : TrueFlags s) (hv : v.files = (afterRotation s.world).files)
    (hbelow : ∀ f, s.world.files.head? = some f → f.fileId < 2 ^ 64 - 1) : TrueFlags ⟨v, s.invalidators⟩ := by
  cases hfiles : s.world.files with
  | nil =>
      rw [afterRotation, hfiles] at hv
      show Flagged (List.map _ _) (watchedIds s)
      rw [hv]
      exact h
  | cons head rest =>
      have hlt := hbelow head (by rw [hfiles]; rfl)
      have hsorted : (s.world.files.map CcaskFile.fileId).Pairwise (· > ·) := by
        have := h.sorted
        rwa [flags, List.map_map] at this
      rw [afterRotation_files hfiles hsorted (by omega)] at hv
      have hflags : flags v = (head.fileId + 1, false) :: flags s.world := by
        rw [flags, flags, hv, hfiles]
        rfl
      show Flagged (flags v) (watchedIds s)
      rw [hflags]
      refine h.cons fun i hi => ?_
      rw [flags, List.map_map, hfiles] at hi
      rw [hfiles, List.map_cons, List.pairwise_cons] at hsorted
      obtain rfl | hi := List.mem_cons.mp hi
      · exact Nat.lt_succ_self _
      · exact Nat.lt_succ_of_lt (hsorted.1 i hi)

end Flags

section Turns

variable {s s' : Watched} {w v : World}

/-- What the section of a thread leaves of the files, the generators and the invalidators. -/
inductive Turn (s : Watched) : Watched → Prop
  | alters {s' : Watched} : Alters s s' → Turn s s'
  | unwatched (id : Nat) (ino : Ino) : Turn s (unwatched id ino s)
  | rotated {v : World} : RotatedTo s.world v → Turn s ⟨v, s.invalidators⟩

theorem Turn.of_unmoved (h : Unmoved s.world v) : Turn s ⟨v, s.invalidators⟩ :=
  .alters (.same h.1 h.2 rfl)

instance : Std.Refl Unmoved := ⟨fun _ => ⟨rfl, rfl⟩⟩

instance : IsTrans World Unmoved := ⟨fun _ _ _ h h' => ⟨h'.1.trans h.1, h'.2.trans h.2⟩⟩

/-- A section that leaves the files and the generators alone. -/
theorem Turn.of_moves {α : Type} {m : Sys α} {rs rest : List Reply} {a : α} (h : Moves Unmoved m)
    (hrun : (onShared m).run rs s = .returned a rest s') : Turn s s' := by
  obtain ⟨v, hrun', rfl⟩ := Prog.zoom_returned hrun
  exact .of_unmoved (h.of_run hrun')

theorem write_turn {t t' : WriteCall} {m : Sys WriteCall} {rs rest : List Reply} (hsect : t.sect = some m)
    (hrun : (onShared m).run rs s = .returned t' rest s') : Turn s s' := by
  obtain ⟨v, hrun', rfl⟩ := Prog.zoom_returned hrun
  obtain hsame | ⟨-, -, hrotated⟩ := writer_files hsect hrun'
  · exact .of_unmoved hsame
  · exact .rotated hrotated

theorem ringbufPush_unmoved [Zlib] (timestamp : UInt32) (key value : Ptr) :
    Moves Unmoved (ccaskWriterRingbufPush timestamp key value) := by
  refine Moves.state fun w => ?_
  split
  · exact Moves.block w
  · dsimp only
    split
    · exact Moves.pure _ w
    · refine (ccaskCreateDatafileRecord_moves _ _ _).bind (fun r => ?_) w
      cases r with
      | ok record => exact modify_bind_moves (fun _ => ⟨rfl, rfl⟩) fun _ => Moves.pure _
      | fail e => exact Moves.pure _
      | retry e => exact Moves.pure _

theorem ringbufPop_unmoved : Moves Unmoved ccaskWriterRingbufPop := by
  refine Moves.state fun w => ?_
  split
  · exact Moves.block w
  · split
    · split
      · exact Moves.pure _ w
      · exact Moves.block w
    · split
      · exact Moves.block w
      · exact modify_bind_moves (fun _ => ⟨rfl, rfl⟩) (fun _ => Moves.pure _) w

/-- A caller opens or reads a file, writes to the active one, or leaves the files alone. -/
theorem caller_turn [Zlib] {t t' : Caller} {m : Prog Watched Caller} {rs rest : List Reply}
    (hsect : t.sect = some m) (hrun : m.run rs s = .returned t' rest s') : Turn s s' := by
  cases t with
  | idle => cases hsect
  | reading t =>
      obtain ⟨m, hm, rfl⟩ := Option.map_eq_some_iff.mp hsect
      obtain ⟨u, mid, v, hr, hrest⟩ := Prog.run_bind_eq_returned hrun
      cases hrest
      obtain ⟨-, id, ino, rfl⟩ | h := Reader.alters hm hr
      · exact .unwatched id ino
      · exact .alters h
  | put key value =>
      cases hsect
      obtain ⟨b, mid, v, hr, hrest⟩ := Prog.run_bind_eq_returned hrun
      have hturn : Turn s v := .of_moves (Moves.state fun w => Ensures.pure (refl_of Unmoved w)) hr
      cases b <;> cases hrest <;> exact hturn
  | pushing key value left =>
      cases hsect
      obtain ⟨r, mid, v, hr, hrest⟩ := Prog.run_bind_eq_returned hrun
      have htry : Moves Unmoved (putTry key value left) :=
        Moves.state fun w => ((ringbufPush_unmoved _ key value).bind fun _ => Moves.pure _) w
      have hturn : Turn s v := .of_moves htry hr
      cases r <;> cases hrest <;> exact hturn
  | putBlocking key value =>
      cases hsect
      change (if s.world.isShuttingDown then _ else _ : Prog Watched Caller).run rs s = _ at hrun
      split at hrun
      · cases hrun
        exact .of_unmoved (refl_of Unmoved s.world)
      · obtain ⟨r, mid, v, hr, hrest⟩ := Prog.run_bind_eq_returned hrun
        have hturn : Turn s v := .of_moves (ccaskCreateDatafileRecord_moves _ key value) hr
        cases r <;> cases hrest <;> exact hturn
  | writing t =>
      obtain ⟨m, hm, rfl⟩ := Option.map_eq_some_iff.mp hsect
      obtain ⟨u, mid, v, hr, hrest⟩ := Prog.run_bind_eq_returned hrun
      cases hrest
      exact write_turn hm hr

/-- The writer thread takes a record from the ring buffer, or writes it. -/
theorem writer_turn {t t' : WriterThread} {m : Sys WriterThread} {rs rest : List Reply}
    (hsect : t.sect = some m) (hrun : (onShared m).run rs s = .returned t' rest s') : Turn s s' := by
  cases t with
  | popping =>
      cases hsect
      refine .of_moves (ringbufPop_unmoved.bind fun r => ?_) hrun
      cases r with
      | ok record => exact Moves.pure _
      | fail e => exact Moves.pure _
      | retry e => exact Moves.pure _
  | writing t =>
      obtain ⟨v, hrun', rfl⟩ := Prog.zoom_returned hrun
      rw [WriterThread.sect] at hsect
      cases ht : t.sect with
      | none =>
          rw [ht] at hsect
          cases hsect
          cases hrun'
          exact .of_unmoved (refl_of Unmoved s.world)
      | some n =>
          rw [ht] at hsect
          cases hsect
          obtain ⟨u, mid, v', hr, hrest⟩ := Prog.run_bind_eq_returned hrun'
          cases hrest
          obtain hsame | ⟨-, -, hrotated⟩ := writer_files ht hr
          · exact .of_unmoved hsame
          · exact .rotated hrotated
  | ended => cases hsect

/-- A generator changes files on the disk, and at its end the mark of its file. -/
theorem generator_turn {id : Nat} {t t' : GeneratorThread} {m : Sys GeneratorThread} {rs rest : List Reply}
    (hsect : t.sect id = some m) (hrun : (onShared m).run rs s = .returned t' rest s') : Turn s s' := by
  cases t with
  | start =>
      cases hsect
      refine .of_moves ((attempt_moves (openCreate_moves _ fun _ => ⟨rfl, rfl⟩)).bind fun r => ?_) hrun
      cases r with
      | ok fd => exact Moves.pure _
      | fail e => exact Moves.pure _
      | retry e => exact Moves.pure _
  | opening fd =>
      cases hsect
      refine .of_moves ((attempt_moves (iterOpen_moves _ (ccaskFilesGetDatafileFd_moves _))).bind fun r => ?_) hrun
      cases r with
      | ok iter => exact Moves.pure _
      | fail e => exact Moves.pure _
      | retry e => exact Moves.pure _
  | scanning fd s =>
      cases hsect
      refine .of_moves ((hintfileGeneratorRound_moves fd s fun _ _ _ => ⟨rfl, rfl⟩).bind fun r => ?_) hrun
      cases r with
      | inl s => exact Moves.pure _
      | inr b => cases b <;> exact Moves.pure _
  | completed =>
      cases hsect
      cases hrun
      exact .alters (.touched id fun _ => ⟨rfl, rfl, rfl, rfl⟩)
  | failed =>
      cases hsect
      exact .of_moves ((attempt_moves (ccaskFilesDelete_moves id .hint fun _ => ⟨rfl, rfl⟩)).bind fun _ =>
        Moves.pure _) hrun
  | ended => cases hsect

theorem Turn.trueFlags (h : TrueFlags s) (ht : Turn s s')
    (hbelow : s.world.files.length < s'.world.files.length →
      ∀ f, s.world.files.head? = some f → f.fileId < 2 ^ 64 - 1) : TrueFlags s' := by
  cases ht with
  | alters hs => exact h.alters hs
  | unwatched id ino => exact h.unwatched id ino
  | rotated hv =>
      refine h.rotated hv.1 fun f hf => hbelow ?_ f hf
      show _ < List.length (World.files _)
      rw [hv.1, length_afterRotation]
      · exact Nat.lt_succ_self _
      · intro hnil
        rw [hnil] at hf
        cases hf

/-- Without a new generator the list is as it was. -/
theorem Turn.threads (ht : Turn s s') (hle : s'.world.threads.length ≤ s.world.threads.length) :
    s'.world.threads = s.world.threads := by
  cases ht with
  | alters hs =>
      cases hs with
      | same _ hthreads _ => exact hthreads
      | touched id _ => rfl
      | opened ino _ _ _ => rfl
      | reopened ino _ _ _ => rfl
      | closed _ => rfl
  | unwatched id ino => rfl
  | rotated hv => exact (hv.2.eq_of_length_le hle).symm

theorem Turn.no_files (ht : Turn s s') (hnone : s.world.files = []) : s'.world.files = [] := by
  cases ht with
  | alters hs =>
      cases hs with
      | same hfiles _ _ => exact hfiles.trans hnone
      | touched id _ => exact List.map_eq_nil_iff.mpr hnone
      | opened ino _ _ _ => exact List.map_eq_nil_iff.mpr hnone
      | reopened ino _ _ _ => exact List.map_eq_nil_iff.mpr hnone
      | closed _ => exact List.map_eq_nil_iff.mpr hnone
  | unwatched id ino => exact List.map_eq_nil_iff.mpr hnone
  | rotated hv =>
      show World.files _ = []
      rw [hv.1, afterRotation, hnone]
      exact hnone

end Turns

section Runs

variable {ι : Type} {c c' : Process ι} {s s' : Watched} {w v : World}

/-- The library has been opened: the files are those of a successful `ccask_files_init`, no generator or
invalidator has been started, and nobody has asked for a shutdown. -/
structure ProcessStarts (c : Process ι) : Prop where
  mounted : FilesOf c.shared.world.files
  generators : c.shared.world.threads = []
  invalidators : c.shared.invalidators = []
  shutdown : c.shutdown = .call

/-- The steps of a run in which the shutdown misses nobody: no rotation starts a generator once the list
has been read, and when the files are freed no file has an invalidator. A rotation finds an active id
below 2^64 - 1. -/
structure Orderly (c c' : Process ι) : Prop where
  below : c.shared.world.files.length < c'.shared.world.files.length →
    ∀ f, c.shared.world.files.head? = some f → f.fileId < 2 ^ 64 - 1
  joined : c.shared.world.threads.length < c'.shared.world.threads.length →
    c.shutdown = .call ∨ c.shutdown = .generators
  freed : c.shutdown = .files → c'.shutdown = .returned →
    ∀ f ∈ c.shared.world.files, f.isFdInvalidatorRunning = false

/-- What has ended when the shutdown has come this far. -/
def Ended (c : Process ι) : Prop :=
  match c.shutdown with
  | .call | .generators => True
  | .joining fileIds => c.shared.world.threads ⊆ fileIds
  | .joinWriter => c.shared.world.threads ⊆ []
  | .destroy | .keydir | .files => c.shared.world.threads ⊆ [] ∧ c.writer = .ended
  | .returned => c.shared.world.threads ⊆ [] ∧ c.writer = .ended ∧ c.shared.world.files = []

/-- The other threads do not undo it: no generator comes, and the writer does not come back. -/
theorem Ended.mono (h : Ended c) (hshutdown : c'.shutdown = c.shutdown)
    (hthreads : c.shutdown = .call ∨ c.shutdown = .generators ∨
      c'.shared.world.threads ⊆ c.shared.world.threads)
    (hwriter : c.writer = .ended → c'.writer = .ended)
    (hfiles : c.shared.world.files = [] → c'.shared.world.files = []) : Ended c' := by
  unfold Ended at h ⊢
  rw [hshutdown]
  cases hphase : c.shutdown <;> rw [hphase] at h hthreads
  case call => trivial
  case generators => trivial
  all_goals have hsub := (hthreads.resolve_left nofun).resolve_left nofun
  case joining ids => exact List.Subset.trans hsub h
  case joinWriter => exact List.Subset.trans hsub h
  case destroy => exact ⟨List.Subset.trans hsub h.1, hwriter h.2⟩
  case keydir => exact ⟨List.Subset.trans hsub h.1, hwriter h.2⟩
  case files => exact ⟨List.Subset.trans hsub h.1, hwriter h.2⟩
  case returned => exact ⟨List.Subset.trans hsub h.1, hwriter h.2.1, hfiles h.2.2⟩

/-- The section of a thread other than the one in the shutdown. -/
theorem Ended.turn (h : Ended c) (ho : Orderly c c') (ht : Turn c.shared c'.shared)
    (hshutdown : c'.shutdown = c.shutdown) (hwriter : c.writer = .ended → c'.writer = .ended) :
    Ended c' := by
  refine h.mono hshutdown ?_ hwriter ht.no_files
  by_cases hlt : c.shared.world.threads.length < c'.shared.world.threads.length
  · exact (ho.joined hlt).imp_right .inl
  · exact .inr (.inr (ht.threads (Nat.not_lt.mp hlt) ▸ List.Subset.refl _))

/-- The thread in the shutdown gets on only when those it waits for have ended. -/
theorem Ended.shutdown {m : Sys ShutdownCall} {rs rest : List Reply} {t : ShutdownCall} (h : Ended c)
    (hsect : c.shutdown.sect c.writer.isEnded = some m)
    (hrun : m.run rs c.shared.world = .returned t rest w) :
    Ended { c with shared := ⟨w, c.shared.invalidators⟩, shutdown := t } ∧
      (w.files = c.shared.world.files ∨ (c.shutdown = .files ∧ t = .returned ∧ w.files = [])) := by
  unfold Ended at h
  cases hphase : c.shutdown with
  | call =>
      rw [hphase] at hsect
      cases hsect
      cases hrun
      exact ⟨trivial, .inl rfl⟩
  | generators =>
      rw [hphase] at hsect
      cases hsect
      cases hrun
      exact ⟨List.Subset.refl _, .inl rfl⟩
  | joining ids =>
      rw [hphase] at hsect h
      cases ids with
      | nil =>
          cases hsect
          cases hrun
          exact ⟨h, .inl rfl⟩
      | cons id ids =>
          cases hsect
          change (if id ∈ c.shared.world.threads then Prog.block else pure _ : Sys ShutdownCall).run rs _ = _ at hrun
          split at hrun
          · cases hrun
          · rename_i hnot
            cases hrun
            refine ⟨fun i hi => (List.mem_cons.mp (h hi)).resolve_left ?_, .inl rfl⟩
            rintro rfl
            exact hnot hi
  | joinWriter =>
      rw [hphase] at hsect h
      cases hsect
      split at hrun
      · rename_i hended
        cases hrun
        refine ⟨⟨h, ?_⟩, .inl rfl⟩
        show c.writer = .ended
        cases hw : c.writer with
        | ended => rfl
        | popping => rw [hw] at hended; cases hended
        | writing t => rw [hw] at hended; cases hended
      · cases hrun
  | destroy =>
      rw [hphase] at hsect h
      cases hsect
      cases hrun
      exact ⟨h, .inl rfl⟩
  | keydir =>
      rw [hphase] at hsect h
      cases hsect
      obtain ⟨u, mid, v, hr, hrest⟩ := Prog.run_bind_eq_returned hrun
      change (if c.shared.world.readLocks ≠ 0 then Prog.block else _ : Sys Unit).run rs _ = _ at hr
      split at hr
      · cases hr
      · cases hr
        cases hrest
        exact ⟨h, .inl rfl⟩
  | files =>
      rw [hphase] at hsect h
      cases hsect
      cases hrun
      exact ⟨⟨h.1, h.2, rfl⟩, .inr ⟨rfl, rfl, rfl⟩⟩
  | returned => rw [hphase] at hsect; cases hsect

variable [DecidableEq ι] [Zlib]

/-- One step of a run that meets the condition. -/
theorem Ended.step (hflags : TrueFlags c.shared) (h : Ended c) (hs : Process.Step c c') (ho : Orderly c c') :
    TrueFlags c'.shared ∧ Ended c' := by
  cases hs with
  | caller i rs hsect hrun =>
      have ht := caller_turn hsect hrun
      exact ⟨ht.trueFlags hflags ho.below, h.turn ho ht rfl id⟩
  | call i _ _ => exact ⟨hflags, h⟩
  | writer rs hsect hrun =>
      have ht := writer_turn hsect hrun
      refine ⟨ht.trueFlags hflags ho.below, h.turn ho ht rfl fun hended => ?_⟩
      rw [hended] at hsect
      cases hsect
  | generator fileId rs _ hsect hrun =>
      have ht := generator_turn hsect hrun
      exact ⟨ht.trueFlags hflags ho.below, h.turn ho ht rfl id⟩
  | leave fileId _ _ =>
      have hended : Ended ⟨Process.leave fileId c.shared, c.caller, c.writer,
          Function.update c.generator fileId .start, c.shutdown⟩ :=
        h.mono rfl (.inr (.inr List.erase_subset)) id id
      exact ⟨hflags, hended⟩
  | test k hk hpasses =>
      have halters : Alters c.shared _ := .same rfl rfl (watchedIds_set hk)
      exact ⟨hflags.alters halters, h.turn ho (.alters halters) rfl id⟩
  | close k hk => exact ⟨hflags.alters (.closed hk), h.turn ho (.alters (.closed hk)) rfl id⟩
  | shutdown rs hsect hrun =>
      obtain ⟨w, hrun', rfl⟩ := Prog.zoom_returned hrun
      obtain ⟨hended, hfiles | ⟨hphase, ht, hfiles⟩⟩ := h.shutdown hsect hrun'
      · refine ⟨?_, hended⟩
        show Flagged (List.map _ _) (watchedIds c.shared)
        rw [hfiles]
        exact hflags
      · refine ⟨?_, hended⟩
        have hnone : watchedIds c.shared = [] := hflags.eq_nil fun p hp => by
          obtain ⟨f, hf, rfl⟩ := List.mem_map.mp hp
          exact ho.freed hphase ht f hf
        show Flagged (List.map _ _) (watchedIds c.shared)
        rw [hfiles, hnone]
        exact ⟨.nil, nofun, .nil, nofun⟩
  | clock now => exact ⟨hflags, h⟩

/-- No thread that the library has started lives. -/
structure Quiet (c : Process ι) : Prop where
  writer : c.writer = .ended
  generators : c.shared.world.threads = []
  invalidators : c.shared.invalidators = []

/-- When the shutdown has returned, the writer, the generators and the invalidators have ended, and they do
not come back: in every run in which no rotation starts a generator once the list has been read, and no
file has an invalidator when the files are freed. -/
theorem quiet_after_shutdown (h : ProcessStarts c)
    (hrun : Relation.ReflTransGen (fun c c' => Process.Step c c' ∧ Orderly c c') c c')
    (hreturned : c'.shutdown = .returned) : Quiet c' := by
  have hall : TrueFlags c'.shared ∧ Ended c' := by
    clear hreturned
    induction hrun with
    | refl =>
        obtain ⟨active, hguarded⟩ := h.mounted.guarded h.invalidators
        refine ⟨hguarded.trueFlags, ?_⟩
        unfold Ended
        rw [h.shutdown]
        trivial
    | tail _ hs ih => exact ih.2.step ih.1 hs.1 hs.2
  obtain ⟨hflags, hended⟩ := hall
  unfold Ended at hended
  rw [hreturned] at hended
  obtain ⟨hthreads, hwriter, hfiles⟩ := hended
  refine ⟨hwriter, List.subset_nil.mp hthreads, ?_⟩
  have hnone : watchedIds c'.shared = [] := hflags.eq_nil fun p hp => by
    rw [flags, hfiles] at hp
    cases hp
  exact List.map_eq_nil_iff.mp hnone

end Runs

section Sample

variable {ι : Type} {c c' : Process ι}

/-- The ring buffer holds a record for which the active file has no room. One caller has made no call. -/
def oneCaller : Process Unit where
  shared := ⟨{ oneFile ['7', '.', 'd', 'a', 't', 'a'] [0, 0, 0] with
    files := [⟨7, some 0, 0, false, true, false⟩]
    maxActiveFileSize := 20
    ringbuf := some ⟨[oneRecord, oneRecord], 2, 1, 0, false⟩ }, []⟩
  caller _ := .idle
  writer := .popping
  generator _ := .start
  shutdown := .call

theorem processStarts_oneCaller : ProcessStarts oneCaller := by
  have hid : [['7', '.', 'd', 'a', 't', 'a']].filterMap dataId = [7] := by decide +kernel
  have hrun : ∃ rest v, (ccaskFilesInit [['7', '.', 'd', 'a', 't', 'a']] 20).run (List.replicate 5 (.done 0))
      (oneFile ['7', '.', 'd', 'a', 't', 'a'] [0, 0, 0]) = .returned (.ok ()) rest v ∧
      oneCaller.shared.world.files = v.files := ⟨_, _, rfl, by decide +kernel⟩
  obtain ⟨rest, v, hrun, hfiles⟩ := hrun
  refine ⟨⟨_, _, _, _, rest, _, ?_, ?_, hrun, hfiles⟩, rfl, rfl, rfl⟩
  · rw [hid]
    exact List.nodup_singleton 7
  · rw [hid]
    intro i hi
    rw [List.mem_singleton.mp hi]
    decide

/-- A step that neither rotates nor frees the files. -/
theorem Orderly.plain (hfiles : c'.shared.world.files.length ≤ c.shared.world.files.length)
    (hthreads : c'.shared.world.threads.length ≤ c.shared.world.threads.length)
    (hphase : c.shutdown ≠ .files) : Orderly c c' :=
  ⟨fun h => absurd hfiles (Nat.not_le.mpr h), fun h => absurd hthreads (Nat.not_le.mpr h),
    fun h => absurd h hphase⟩

variable [Zlib]

/-- A run whose steps all meet the condition. -/
abbrev OrderlyRun (c c' : Process Unit) : Prop :=
  Relation.ReflTransGen (fun c c' => Process.Step c c' ∧ Orderly c c') c c'

/-- The writer rotates the files. -/
def fullRotated : World :=
  { oneCaller.shared.world with
    fs := (oneCaller.shared.world.fs.create (fileName 8 .data)).1
    files := [⟨8, some 1, 0, false, true, false⟩, ⟨7, none, 0, false, false, false⟩]
    ringbuf := some ⟨[oneRecord, oneRecord], 2, 1, 1, false⟩
    threads := [7] }

theorem exists_rotated : ∃ c, OrderlyRun oneCaller c ∧
    c = { oneCaller with shared := ⟨fullRotated, []⟩, writer := .writing (.fetch oneRecord) } :=
  ⟨_, ((Relation.ReflTransGen.single ⟨.writer [] rfl rfl, .plain le_rfl le_rfl nofun⟩).tail
    ⟨.writer [] rfl rfl, .plain le_rfl le_rfl nofun⟩).tail
    ⟨.writer (List.replicate 5 (.done 0)) rfl rfl,
      ⟨fun _ f hf => by cases hf; decide, fun _ => .inl rfl, nofun⟩⟩, rfl⟩

/-- The generator of the full file has ended. -/
def fullHinted : World :=
  { fullRotated with
    fs := (fullRotated.fs.create (fileName 7 .hint)).1
    files := [⟨8, some 1, 0, false, true, false⟩, ⟨7, none, 0, true, false, false⟩]
    threads := [] }

theorem exists_hinted : ∃ g c, OrderlyRun
    { oneCaller with shared := ⟨fullRotated, []⟩, writer := .writing (.fetch oneRecord) } c ∧
    c = { oneCaller with shared := ⟨fullHinted, []⟩, writer := .writing (.fetch oneRecord), generator := g } :=
  ⟨_, _, ((((Relation.ReflTransGen.single
    ⟨.generator 7 [.done 0] List.mem_cons_self rfl rfl, .plain le_rfl le_rfl nofun⟩).tail
    ⟨.generator 7 (List.replicate 2 (.done 0)) List.mem_cons_self rfl rfl, .plain le_rfl le_rfl nofun⟩).tail
    ⟨.generator 7 (List.replicate 3 (.done 100)) List.mem_cons_self rfl rfl, .plain le_rfl le_rfl nofun⟩).tail
    ⟨.generator 7 [] List.mem_cons_self rfl rfl, .plain le_rfl le_rfl nofun⟩).tail
    ⟨.leave 7 List.mem_cons_self rfl, .plain le_rfl (Nat.zero_le _) nofun⟩, rfl⟩

/-- A reader has opened the full file, and its invalidator has closed it again. -/
theorem exists_closed (g : Nat → GeneratorThread) : ∃ f c, OrderlyRun
    { oneCaller with shared := ⟨fullHinted, []⟩, writer := .writing (.fetch oneRecord), generator := g } c ∧
    c = { oneCaller with
      shared := ⟨{ fullHinted with clock := 5 }, []⟩
      caller := f
      writer := .writing (.fetch oneRecord)
      generator := g } :=
  ⟨_, _, (((((Relation.ReflTransGen.single
    ⟨.call (t := .reading (.check 7 oneRecord 0)) () rfl trivial, .plain le_rfl le_rfl nofun⟩).tail
    ⟨.caller () [] rfl rfl, .plain le_rfl le_rfl nofun⟩).tail
    ⟨.caller () (List.replicate 2 (.done 0)) rfl rfl, .plain le_rfl le_rfl nofun⟩).tail
    ⟨.clock 5, .plain le_rfl le_rfl nofun⟩).tail
    ⟨.test 0 rfl rfl, .plain le_rfl le_rfl nofun⟩).tail
    ⟨.close 0 rfl, .plain le_rfl le_rfl nofun⟩, rfl⟩

theorem exists_stopped (f : Unit → Caller) (g : Nat → GeneratorThread) : ∃ c, OrderlyRun
    { oneCaller with
      shared := ⟨{ fullHinted with clock := 5 }, []⟩
      caller := f
      writer := .writing (.fetch oneRecord)
      generator := g } c ∧ c.shutdown = .returned :=
  ⟨_, (((((((((((Relation.ReflTransGen.single
    ⟨.writer [] rfl rfl, .plain le_rfl le_rfl nofun⟩).tail
    ⟨.writer (List.replicate 2 (.done 100)) rfl rfl, .plain le_rfl le_rfl nofun⟩).tail
    ⟨.writer (List.replicate 2 (.done 0)) rfl rfl, .plain le_rfl le_rfl nofun⟩).tail
    ⟨.writer [] rfl rfl, .plain le_rfl le_rfl nofun⟩).tail
    ⟨.shutdown [] rfl rfl, .plain le_rfl le_rfl nofun⟩).tail
    ⟨.shutdown [] rfl rfl, .plain le_rfl le_rfl nofun⟩).tail
    ⟨.shutdown [] rfl rfl, .plain le_rfl le_rfl nofun⟩).tail
    ⟨.writer [] rfl rfl, .plain le_rfl le_rfl nofun⟩).tail
    ⟨.shutdown [] rfl rfl, .plain le_rfl le_rfl nofun⟩).tail
    ⟨.shutdown [] rfl rfl, .plain le_rfl le_rfl nofun⟩).tail
    ⟨.shutdown [] rfl rfl, .plain le_rfl le_rfl nofun⟩).tail
    ⟨.shutdown [] rfl rfl, ⟨nofun, nofun, fun _ _ => List.forall_mem_cons.mpr
      ⟨rfl, List.forall_mem_cons.mpr ⟨rfl, nofun⟩⟩⟩⟩, rfl⟩

omit [Zlib] in
/-- All of it, one after another. -/
theorem quiet_after_shutdown_one : letI := zlib
    ∃ c, OrderlyRun oneCaller c ∧ c.shutdown = .returned ∧ Quiet c := by
  let _ := zlib
  obtain ⟨_, hrotated, rfl⟩ := exists_rotated
  obtain ⟨g, _, hhinted, rfl⟩ := exists_hinted
  obtain ⟨f, _, hclosed, rfl⟩ := exists_closed g
  obtain ⟨c, hstopped, hreturned⟩ := exists_stopped f g
  have hrun := ((hrotated.trans hhinted).trans hclosed).trans hstopped
  exact ⟨c, hrun, hreturned, quiet_after_shutdown processStarts_oneCaller hrun hreturned⟩

omit [Zlib] in
/-- The record is written into a new file while the shutdown waits for the writer, and the full one is
read. The generator of that file has not begun, and its invalidator sleeps, when the shutdown has
returned. -/
theorem not_quiet : letI := zlib
    ∃ c, ProcessStarts oneCaller ∧ Relation.ReflTransGen Process.Step oneCaller c ∧
      c.shutdown = .returned ∧ c.shared.world.threads = [7] ∧ c.generator 7 = .start ∧
      c.shared.invalidators = [.asleep 7] := by
  let _ := zlib
  exact ⟨_, processStarts_oneCaller,
    (((((((((((((((((.single (.shutdown [] rfl rfl) : Relation.ReflTransGen _ _ _).tail
      (.shutdown [] rfl rfl)).tail
      (.shutdown [] rfl rfl)).tail
      (.writer [] rfl rfl)).tail
      (.writer [] rfl rfl)).tail
      (.writer (List.replicate 5 (.done 0)) rfl rfl)).tail
      (.writer [] rfl rfl)).tail
      (.writer (List.replicate 2 (.done 100)) rfl rfl)).tail
      (.writer (List.replicate 2 (.done 0)) rfl rfl)).tail
      (.writer [] rfl rfl)).tail
      (.writer [] rfl rfl)).tail
      (.call (t := .reading (.check 7 oneRecord 0)) () rfl trivial)).tail
      (.caller () [] rfl rfl)).tail
      (.caller () (List.replicate 2 (.done 0)) rfl rfl)).tail
      (.shutdown [] rfl rfl)).tail
      (.shutdown [] rfl rfl)).tail
      (.shutdown [] rfl rfl)).tail
      (.shutdown [] rfl rfl), rfl, rfl, rfl, rfl⟩

end Sample

end Ccask.Audit
