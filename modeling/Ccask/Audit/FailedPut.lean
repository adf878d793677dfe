import Ccask.Audit.LogOrder
import Ccask.Audit.TornTail
import Ccask.Audit.WriteEnds

/-!
# Puts that fail

`ccask_put_blocking` commits twice: the record to the file, then the entry to the key directory.
What fails in front of the first byte of the record leaves the store as it was, but for files
without records that it may have rotated to. What fails later leaves bytes in the file that nobody
takes back.
-/

namespace Ccask.Audit

open Ccask.Effect Ccask.Model

section Seek

variable {w : World} {f : CcaskFile} {rest : List CcaskFile} {seg : Nat → List Put}

theorem seekRound_consumes (r : DatafileRecord) (u : Unit) : Prog.Consumes (seekRound r u) := by
  refine Prog.Uses.consumes (Prog.uses_bind _ fun w => ?_)
  cases ccaskFilesGetActiveFile w with
  | none => exact Prog.uses_block
  | some file => exact Prog.uses_bind_left (lseekEnd_uses file.fd) _

/-- The search for room and the write behind it are `ccask_write_record_blocking`. -/
theorem ccaskWriteRecordBlocking_seek (r : DatafileRecord) :
    ccaskWriteRecordBlocking r = (do
      match ← writeSeek r with
      | .ok (file, pos) => putWrite r file pos
      | .fail e | .retry e => pure (.fail e)) := by
  rw [writeSeek, Prog.loop_bind (seekRound_consumes r)]
  unfold ccaskWriteRecordBlocking
  congr 1
  funext u
  simp only [writeRecordRound, seekRound, bind_assoc]
  congr 1
  funext w
  cases ccaskFilesGetActiveFile w with
  | none => rfl
  | some file =>
      simp only [bind_assoc]
      congr 1
      funext pos
      cases pos with
      | none => rfl
      | some pos =>
          simp only
          split
          · simp only [bind_assoc]
            rfl
          · simp only [pure_bind, Prog.finish, putWrite, bind_assoc]
            congr 1
            funext res
            cases res with
            | fail e => rfl
            | retry e => rfl
            | ok _ =>
                simp only [bind_assoc]
                congr 1
                funext res
                cases res <;> rfl

theorem ccaskPutBlocking_seek [Zlib] (key value : Ptr) :
    ccaskPutBlocking key value = (do
      match ← putSeek key value with
      | .ok (record, file, pos) => putWrite record file pos
      | .fail e | .retry e => pure (.fail e)) := by
  unfold ccaskPutBlocking putSeek
  simp only [bind_assoc]
  congr 1
  funext w
  split
  · rfl
  · simp only [bind_assoc]
    congr 1
    funext res
    cases res with
    | fail e => rfl
    | retry e => rfl
    | ok record =>
        simp only [ccaskWriteRecordBlocking_seek, bind_assoc]
        congr 1
        funext res
        cases res with
        | fail e => rfl
        | retry e => rfl
        | ok p =>
            simp only [pure_bind, putWrite, bind_assoc]
            congr 1
            funext res
            cases res with
            | fail e => rfl
            | retry e => rfl
            | ok _ =>
                simp only [bind_assoc]
                congr 1
                funext res
                cases res <;> rfl

/-- What a rotation leads to is a rotated store, with or without the generator. -/
theorem afterRotation_eq (h : Mounted w) (hfiles : w.files = f :: rest)
    (hid : f.fileId + 1 < 2 ^ 64) : afterRotation w = { rotated w f rest with threads := w.threads } := by
  have hadd := addFile_rotated hfiles (h.head_gt hfiles)
  simp only [World.setFile] at hadd
  simp only [afterRotation, hfiles, Nat.mod_eq_of_lt hid, World.setFile, rotated] at hadd ⊢
  rw [hadd]

end Seek

variable [Zlib]

section Rotation

variable {w : World} {f : CcaskFile} {rest : List CcaskFile} {seg : Nat → List Put} {ts : List Nat}

omit [Zlib] in
/-- Generators that have not been started. -/
theorem Store.unstarted {L : Nat → List (DatafileRecord × Nat)} (h : Store w L) (hts : ts <:+ w.threads) :
    Store { w with threads := ts } L :=
  { h with
    mounted := h.mounted.congr rfl fun _ => rfl
    nodup := h.nodup.sublist hts.sublist
    pending := fun id hid => h.pending id (hts.mem hid) }

theorem Reached.unstarted (h : Reached w seg) (hts : ts <:+ w.threads) :
    Reached { w with threads := ts } seg := by
  have hholds := h.toHolds.transfer (h.store.unstarted hts) rfl (fun _ => rfl) rfl h.running
  exact h.of_fs (h.toAppends.transfer hholds rfl fun _ => rfl) rfl rfl

/-- A rotation without a put. -/
theorem Reached.rotated (h : Reached w seg) (hfiles : w.files = f :: rest)
    (hid : f.fileId + 1 < 2 ^ 31) :
    ∃ seg', Reached (Audit.rotated w f rest) seg' ∧
      history (ids (Audit.rotated w f rest)) seg' = history (ids w) seg := by
  have hids := ids_rotated (w := w) hfiles
  have hnext := h.numbered.next hfiles
  have hnot : f.fileId + 1 ∉ ids w := by
    intro hin
    have hsome := (h.store.disk.known _).mp hin
    rw [h.store.mounted.next_absent hfiles] at hsome
    cases hsome
  refine ⟨_, ⟨h.toHolds.rotated hfiles hid, ?_, fun i => ?_⟩, ?_⟩
  · have hlen : (Audit.rotated w f rest).files.length = w.files.length + 1 := by
      have hlen := congrArg List.length hids
      rwa [ids, List.length_map, List.length_cons, ids, List.length_map] at hlen
    rw [Numbered, hids, hlen, List.range_succ, List.reverse_append, hnext, h.numbered]
    rfl
  · show (w.fs.create (fileName (f.fileId + 1) .data)).1.dir (fileName i .tempData) = none
    rw [Fs.dir_create_of_ne _ _ (by simp)]
    exact h.noTemps i
  · rw [hids, ← map_log_put, log_rotated hnot, map_log_put]

/-- A rotation that goes through, with its generator or without it. -/
theorem Reached.afterRotation (h : Reached w seg) (hroom : w.files.length + 1 < 2 ^ 31)
    (hts : StartedFor w (Audit.afterRotation w).files ts) :
    ∃ seg', Reached { Audit.afterRotation w with threads := ts } seg' ∧
      history (ids (Audit.afterRotation w)) seg' = history (ids w) seg := by
  obtain ⟨f, rest, hfiles, -⟩ := h.store.mounted.active
  have hnext := h.numbered.next hfiles
  obtain ⟨seg', hreached, hhist⟩ := h.rotated hfiles (by omega)
  have hafter := afterRotation_eq h.store.mounted hfiles (by omega)
  have hsuffix : ts <:+ (Audit.rotated w f rest).threads := by
    obtain rfl | ⟨head, next, tl, heq, rfl⟩ := hts
    · exact List.suffix_cons _ _
    · rw [hafter] at heq
      obtain ⟨-, heq⟩ := List.cons.inj heq
      rw [← (List.cons.inj heq).1]
      exact List.suffix_refl _
  rw [hafter]
  exact ⟨seg', hreached.unstarted hsuffix, hhist⟩

end Rotation

section Tries

variable {w : World} {hist : List Put} {r : DatafileRecord} {file : CcaskFile} {pos : Nat}

/-- The store has had these puts, as long as there have been ids for its files. -/
def Remembers (w : World) (hist : List Put) : Prop :=
  w.files.length < 2 ^ 31 → ∃ seg, Reached w seg ∧ history (ids w) seg = hist

/-- A record goes to the end of the newest file, and fits there. -/
structure GoesTo (r : DatafileRecord) (file : CcaskFile) (pos : Nat) (w : World) : Prop where
  newest : ccaskFilesGetActiveFile w = some file
  behind : some pos = file.fd.map fun ino => (w.fs.data ino).length
  fits : pos + ccaskGetDatafileRecordTotalSize r ≤ w.maxActiveFileSize.toNat

theorem Remembers.afterRotation (h : Remembers w hist) (hne : w.files ≠ []) {ts : List Nat}
    (hts : StartedFor w (Audit.afterRotation w).files ts) :
    Remembers { Audit.afterRotation w with threads := ts } hist := by
  intro hroom
  have hlen : (Audit.afterRotation w).files.length < 2 ^ 31 := hroom
  rw [length_afterRotation hne] at hlen
  obtain ⟨seg, hreached, hhist⟩ := h (by omega)
  obtain ⟨seg', hreached', hhist'⟩ := hreached.afterRotation hlen hts
  exact ⟨seg', hreached', hhist'.trans hhist⟩

/-- However the rotations end, the search for room forgets no put. -/
theorem writeSeek_ensures (h : Remembers w hist) : Ensures (fun _ => True) (writeSeek r) w
    (fun res v => Remembers v hist ∧ ∀ file pos, res = .ok (file, pos) → GoesTo r file pos v)
    (fun _ => True) := by
  refine Ensures.loop_called (seekRound_consumes r) (I := fun _ v => Remembers v hist) ?_ h
  intro u v hv
  refine Ensures.state_bind ?_
  cases hactive : ccaskFilesGetActiveFile v with
  | none => exact Ensures.block trivial
  | some file =>
      have hne : v.files ≠ [] := by
        intro hnil
        rw [ccaskFilesGetActiveFile, hnil] at hactive
        cases hactive
      refine (lseekEnd_answers file.fd).bind ?_
      rintro pos _ ⟨rfl, hpos⟩
      cases pos with
      | none => exact Ensures.pure ⟨hv, fun _ _ h => by cases h⟩
      | some pos =>
          show Ensures _ (if _ then _ else _) _ _ _
          split
          · refine ccaskFilesRotate_answers.bind ?_
            rintro res _ (⟨-, ts, hts, rfl⟩ | ⟨-, rfl, -⟩)
            · exact Ensures.pure (hv.afterRotation hne hts)
            · exact Ensures.pure hv
          · rename_i hfits
            refine Ensures.pure ⟨hv, ?_⟩
            rintro _ _ ⟨⟩
            obtain hpos | ⟨hpos, -⟩ := hpos
            · exact ⟨hactive, hpos, Nat.le_of_not_lt hfits⟩
            · cases hpos

theorem putSeek_ensures (key value : Ptr) (h : Remembers w hist) :
    Ensures (fun _ => True) (putSeek key value) w
      (fun res v => Remembers v hist ∧ ∀ r file pos, res = .ok (r, file, pos) →
        r = mkRecord (UInt32.ofNat w.clock) key value ∧ GoesTo r file pos v) (fun _ => True) := by
  refine Ensures.state_bind ?_
  split
  · exact Ensures.pure ⟨h, fun _ _ _ heq => by cases heq⟩
  · refine (ccaskCreateDatafileRecord_ensures _ _ _).bind ?_
    rintro res _ ⟨rfl, hres⟩
    cases res with
    | fail e => exact Ensures.pure ⟨h, fun _ _ _ heq => by cases heq⟩
    | retry e => exact Ensures.pure ⟨h, fun _ _ _ heq => by cases heq⟩
    | ok r =>
        refine (writeSeek_ensures h).bind ?_
        rintro res v ⟨hv, hgoes⟩
        cases res with
        | fail e => exact Ensures.pure ⟨hv, fun _ _ _ heq => by cases heq⟩
        | retry e => exact Ensures.pure ⟨hv, fun _ _ _ heq => by cases heq⟩
        | ok p =>
            refine Ensures.pure ⟨hv, ?_⟩
            rintro _ _ _ ⟨⟩
            exact ⟨hres _ rfl, hgoes _ _ rfl⟩

/-- A record that a put leaves behind all others, and that the key directory leads to. -/
theorem Remembers.wrote {p : Put} (h : Remembers w hist) (hkey : p.key.bytes ≠ [])
    (hbound : 20 + p.key.bytes.length + p.value.bytes.length < 2 ^ 32) (hvalue : p.value.bytes ≠ [])
    {ino : Ino} (hgoes : GoesTo p.record file pos w) (hfd : file.fd = some ino) :
    Remembers (Audit.wrote w file.fileId ino p.record) (hist ++ [p]) := by
  intro hroom
  obtain ⟨seg, hreached, rfl⟩ := h hroom
  obtain ⟨f, rest, hfiles, -⟩ := hreached.store.mounted.active
  obtain rfl : f = file := by
    have hnewest := hgoes.newest
    rw [ccaskFilesGetActiveFile, hfiles] at hnewest
    exact Option.some.inj hnewest
  have hdir : w.fs.dir (fileName f.fileId .data) = some ino := by
    obtain ⟨ino', hdir, hclosed | hopen⟩ := hreached.store.mounted.linked f (by rw [hfiles]; exact List.mem_cons_self)
    · rw [hclosed] at hfd
      cases hfd
    · rw [hdir, ← hopen, hfd]
  have hlen : (w.fs.data ino).length + p.record.bytes.length < 2 ^ 64 := by
    have hbehind := hgoes.behind
    have hfits := hgoes.fits
    have hmax := w.maxActiveFileSize.toNat_lt
    rw [hfd, Option.map_some, Option.some.injEq] at hbehind
    rw [← bytes_length] at hfits
    omega
  have hnot := hreached.store.mounted.not_mem_rest hfiles
  have happends := hreached.toAppends.wrote hfiles hdir ⟨hkey, hvalue, hbound⟩ hlen
  refine ⟨_, ⟨happends, hreached.numbered.transfer rfl, hreached.noTemps⟩, ?_⟩
  show history (ids w) _ = _
  rw [ids_eq hfiles, ← map_log_put, log_wrote hnot, List.map_append, map_log_put]
  rfl

/-- When the write and the update of the key directory come through, the put is the last one. -/
theorem putWrite_ensures {p : Put} (h : Remembers w hist) (hkey : p.key.bytes ≠ [])
    (hbound : 20 + p.key.bytes.length + p.value.bytes.length < 2 ^ 32)
    (hgoes : GoesTo p.record file pos w) : Ensures (fun _ => True) (putWrite p.record file pos) w
      (fun res v => res = .ok () → Remembers v (hist ++ [p])) (fun _ => True) := by
  have hbehind := hgoes.behind
  cases hfd : file.fd with
  | none =>
      rw [hfd] at hbehind
      cases hbehind
  | some ino =>
      rw [hfd, Option.map_some, Option.some.injEq] at hbehind
      unfold putWrite
      rw [hfd]
      refine ((safeWritev_ensures (fun _ => True) (iov_fits p.record) (List.cons_ne_nil _ _)).mono
        (fun _ _ h => h) fun _ _ => trivial).bind ?_
      rintro res _ (⟨rfl, hlast, rfl⟩ | ⟨rfl, -, -⟩)
      · refine (upserts_answers _).bind ?_
        rintro res _ ⟨-, ⟨rfl, rfl⟩ | ⟨hres, rfl, -⟩⟩
        · refine Ensures.pure fun _ => ?_
          rw [gather_iov, hbehind]
          exact h.wrote hkey hbound ((iov_last _).mp hlast) hgoes hfd
        · cases res with
          | ok u => cases hres
          | fail e => exact Ensures.pure fun heq => by cases heq
          | retry e => exact Ensures.pure fun heq => by cases heq
      · exact Ensures.pure fun heq => by cases heq

/-- The first reply that does not interrupt the call is an error. -/
def Refused : List Reply → Prop
  | .intr :: rs => Refused rs
  | .transient :: _ | .fail :: _ => True
  | .done _ :: _ | [] => False

omit [Zlib] in
theorem safeWritev_refused {rs : List Reply} (h : Refused rs) {iov : List Iovec} (hne : iov ≠ [])
    (ino : Ino) (w : World) :
    ∃ rest, (safeWritev (some ino) iov).run rs w = .returned (.fail (some .writeFailed)) rest w := by
  obtain ⟨v, l, rfl⟩ := List.exists_cons_of_ne_nil hne
  have hloop : ∃ rest, (Prog.loop (transferRound (writevCall ino) none .writeFailed)
      ⟨0, [], v :: l⟩).run rs w = .returned (.fail (some .writeFailed)) rest w := by
    induction rs with
    | nil => cases h
    | cons r rs ih =>
        rw [Prog.loop_eq (transferRound_consumes _ _ _)]
        cases r with
        | intr => exact ih h
        | transient => exact ⟨rs, rfl⟩
        | fail => exact ⟨rs, rfl⟩
        | done n => cases h
  obtain ⟨rest, hrun⟩ := hloop
  exact ⟨rest, Prog.run_bind_returned hrun⟩

/-- The put fails in front of its write, or no byte of the write comes through. -/
def NothingWritten (key value : Ptr) (rs : List Reply) (w : World) : Prop :=
  ∀ x rest v, (putSeek key value).run rs w = .returned (.ok x) rest v → Refused rest

/-- A put that fails with nothing written leaves no trace. -/
theorem Remembers.refused {v : World} {key value : Ptr} {rs rest : List Reply} {res : Status}
    (h : Remembers w hist) (hnothing : NothingWritten key value rs w)
    (hrun : (ccaskPutBlocking key value).run rs w = .returned res rest v) : Remembers v hist := by
  rw [ccaskPutBlocking_seek] at hrun
  obtain ⟨x, mid, u, hseek, hwrite⟩ := Prog.run_bind_eq_returned hrun
  obtain ⟨hu, hgoes⟩ := (putSeek_ensures key value h).returned (fun _ _ => trivial) hseek
  cases x with
  | fail e =>
      cases hwrite
      exact hu
  | retry e =>
      cases hwrite
      exact hu
  | ok x =>
      obtain ⟨r, file, pos⟩ := x
      obtain ⟨-, hgoes⟩ := hgoes r file pos rfl
      have hbehind := hgoes.behind
      cases hfd : file.fd with
      | none =>
          rw [hfd] at hbehind
          cases hbehind
      | some ino =>
          have hne : r.iov ≠ [] := List.cons_ne_nil _ _
          obtain ⟨rest', hfails⟩ := safeWritev_refused (hnothing _ _ _ hseek) hne ino u
          change (putWrite r file pos).run mid u = _ at hwrite
          rw [putWrite, hfd, Prog.run_bind_returned hfails] at hwrite
          cases hwrite
          exact hu

/-- One that returns CCASK_OK is the last put, whatever errors it met with. -/
theorem Remembers.answered {v : World} {key value : Ptr} {rs rest : List Reply}
    (h : Remembers w hist) (hkey : key.bytes ≠ [])
    (hbound : 20 + key.bytes.length + value.bytes.length < 2 ^ 32)
    (hrun : (ccaskPutBlocking key value).run rs w = .returned (.ok ()) rest v) :
    Remembers v (hist ++ [⟨UInt32.ofNat w.clock, key, value⟩]) := by
  rw [ccaskPutBlocking_seek] at hrun
  obtain ⟨x, mid, u, hseek, hwrite⟩ := Prog.run_bind_eq_returned hrun
  obtain ⟨hu, hgoes⟩ := (putSeek_ensures key value h).returned (fun _ _ => trivial) hseek
  cases x with
  | fail e => cases hwrite
  | retry e => cases hwrite
  | ok x =>
      obtain ⟨r, file, pos⟩ := x
      obtain ⟨rfl, hgoes⟩ := hgoes r file pos rfl
      exact (putWrite_ensures (p := ⟨UInt32.ofNat w.clock, key, value⟩) hu hkey hbound hgoes).returned
        (fun _ _ => trivial) hwrite rfl

end Tries

section Tried

/-- A step of a run, or a put under any replies that returns CCASK_OK or of which nothing is written. -/
inductive Trial : World → List Put → World → Prop
  | step {w w' : World} {ps : List Put} : Step w ps w' → Trial w ps w'
  | put {w w' : World} {key value : Ptr} {rs rest : List Reply} :
      key.bytes ≠ [] → 20 + key.bytes.length + value.bytes.length < 2 ^ 32 →
      (ccaskPutBlocking key value).run rs w = .returned (.ok ()) rest w' → w'.files.length < 2 ^ 31 →
      Trial w [⟨UInt32.ofNat w.clock, key, value⟩] w'
  | failed {w w' : World} {key value : Ptr} {rs rest : List Reply} {res : Status} : res ≠ .ok () →
      NothingWritten key value rs w → (ccaskPutBlocking key value).run rs w = .returned res rest w' →
      w'.files.length < 2 ^ 31 → Trial w [] w'

/-- Lives in which puts may fail, with the puts that returned CCASK_OK: those before the last
compaction or the first trial, and those after it. -/
inductive Tried : World → List Put → List Put → Prop
  | life {w : World} {hist : List Put} : Life w hist → Tried w hist []
  | trial {w w' : World} {hist ps ps' : List Put} :
      Tried w hist ps → Trial w ps' w' → Tried w' hist (ps ++ ps')
  | compact {w w₁ w₂ w₃ w₄ : World} {hist ps : List Put} {opts : CcaskOptions}
      {rs rest rs' rest' rs'' rest'' : List Reply} {res res' : Status} :
      Tried w hist ps → w.threads = [] → AllClean rs →
      ccaskCompactorDumpKeydir.run rs w = .returned res rest w₁ →
      (∀ id, (w₁.fs.read (fileName id .data)).isSome → id < 2 ^ 31) → AllClean rs' →
      ccaskShutdown.run rs' w₁ = .returned () rest' w₂ → Restaged w₂.fs w₃.fs →
      Lists opts.listing w₃.fs → AllClean rs'' →
      (ccaskInit opts).run rs'' w₃ = .returned res' rest'' w₄ → Tried w₄ (hist ++ ps) []

variable {w w' : World} {hist ps : List Put} {seg : Nat → List Put}

/-- A trial adds the put that returned CCASK_OK, if any. -/
theorem Reached.trial (h : Reached w seg) (ht : Trial w ps w') :
    ∃ seg', Reached w' seg' ∧ history (ids w') seg' = history (ids w) seg ++ ps := by
  have hremembers : Remembers w (history (ids w) seg) := fun _ => ⟨seg, h, rfl⟩
  cases ht with
  | step hs => exact h.step hs
  | put hkey hbound hrun hroom => exact hremembers.answered hkey hbound hrun hroom
  | failed _ hnothing hrun hroom =>
      rw [List.append_nil]
      exact hremembers.refused hnothing hrun hroom

theorem Tried.reached (h : Tried w hist ps) : ∃ seg base, Reached w seg ∧
    history (ids w) seg = base ++ ps ∧ Index.replay putKey [] base = Index.replay putKey [] hist := by
  induction h with
  | life hlife =>
      obtain ⟨seg, hreached, hhist⟩ := hlife.reached
      exact ⟨seg, _, hreached, (List.append_nil _).symm, hhist⟩
  | trial _ ht ih =>
      obtain ⟨seg, base, hreached, hhist, hbase⟩ := ih
      obtain ⟨seg', hreached', hhist'⟩ := hreached.trial ht
      exact ⟨seg', base, hreached', by rw [hhist', hhist, List.append_assoc], hbase⟩
  | compact _ hthreads hrs hrun hroom hrs' hdown hr hlists hrs'' hinit ih =>
      obtain ⟨seg, base, hreached, hhist, hbase⟩ := ih
      obtain ⟨v₁, hrun', hdata, -, hafter⟩ := hreached.compact hthreads rfl
      obtain ⟨-, rfl⟩ := hrun'.eq_of_returned hrs hrun
      obtain ⟨v₂, hdown', hup⟩ := hafter (hroom _ (by rw [hdata, if_pos (Nat.lt_succ_self _)]; rfl))
      obtain ⟨-, rfl⟩ := hdown'.eq_of_returned hrs' hdown
      obtain ⟨v₄, hinit', hreached₄, hhist₄⟩ := hup _ _ hr hlists
      obtain ⟨-, rfl⟩ := hinit'.eq_of_returned hrs'' hinit
      refine ⟨_, _, hreached₄, (List.append_nil _).symm, ?_⟩
      rw [hhist₄, Index.replay_replay, hhist, Index.replay_append, hbase, ← Index.replay_append]

/-- The store answers with these puts alone, now and after a restart, which finds the records of the
later ones in the datafiles. -/
structure Stands (w : World) (hist ps : List Put) : Prop where
  get : ∀ key res, (∃ v, Computes (ccaskGet key) w res v) ↔ res = lookup (hist ++ ps) key.val
  restart : ∃ w₁, Computes ccaskShutdown w () w₁ ∧ ∀ w₂ opts, Restaged w₁.fs w₂.fs →
    Lists opts.listing w₂.fs → ∃ w₃, Computes (ccaskInit opts) w₂ (.ok ()) w₃ ∧
      (∀ key res, (∃ v, Computes (ccaskGet key) w₃ res v) ↔ res = lookup (hist ++ ps) key.val) ∧
      ∀ p ∈ ps, ∃ id c l pos, w₃.fs.read (fileName id .data) = some c ∧ Scan (recordAt c) 0 l ∧
        (p.record, pos) ∈ l

/-- The iterator finds the records of all puts. -/
theorem Holds.found (h : Holds w seg) {p : Put} (hp : p ∈ history (ids w) seg) :
    ∃ id c l pos, w.fs.read (fileName id .data) = some c ∧ Scan (recordAt c) 0 l ∧
      (p.record, pos) ∈ l := by
  obtain ⟨id, hid, hp⟩ := List.mem_flatMap.mp hp
  obtain ⟨c, hc, hscan⟩ := h.store.disk.scans id (List.mem_reverse.mp hid)
  have hplaced : p ∈ (placed (seg id)).map Prod.fst := by
    rw [placed, map_fst_locate]
    exact hp
  obtain ⟨⟨q, pos⟩, hq, rfl⟩ := List.mem_map.mp hplaced
  exact ⟨id, c, _, pos, hc, hscan, List.mem_map.mpr ⟨_, hq, rfl⟩⟩

/-- A put that fails with nothing written changes no answer, now or after a restart, and hides no
later put. -/
theorem failed_puts_stand (h : Tried w hist ps) : Stands w hist ps := by
  obtain ⟨seg, base, hreached, hhist, hbase⟩ := h.reached
  have hlookup : ∀ k, lookup (history (ids w) seg) k = lookup (hist ++ ps) k := by
    intro k
    apply lookup_congr
    rw [hhist, Index.replay_append, hbase, ← Index.replay_append]
  refine ⟨fun key res => ?_, ?_⟩
  · rw [hreached.serves.get_iff, hlookup]
  · obtain ⟨w₁, hdown, hup⟩ := hreached.restart
    refine ⟨w₁, hdown, fun w₂ opts hr hlists => ?_⟩
    obtain ⟨w₃, hinit, hholds, hids, -, -⟩ := hup w₂ opts hr hlists
    refine ⟨w₃, hinit, fun key res => ?_, fun p hp => hholds.found ?_⟩
    · rw [hholds.serves.get_iff, hids, hlookup]
    · rw [hids, hhist]
      exact List.mem_append_right _ hp

end Tried

section Sample

/-- The store can be shut down and started again. -/
theorem Filed.exists_restart {w : World} {seg : Nat → List Put} (h : Filed w seg) :
    ∃ w₁ w₂ opts w₃, Computes ccaskShutdown w () w₁ ∧ Restaged w₁.fs w₂.fs ∧
      Lists opts.listing w₂.fs ∧ Computes (ccaskInit opts) w₂ (.ok ()) w₃ ∧ Holds w₃ seg ∧
      ids w₃ = ids w := by
  obtain ⟨w₁, hdown, hup⟩ := h.stored.restart h.store
  obtain ⟨w₁', hdown', hdisk, -⟩ := ccaskShutdown_computes h.store
  obtain ⟨-, rfl⟩ := hdown'.unique hdown
  obtain ⟨fs, listing, hr, hlists⟩ := exists_listed w₁.fs (hdisk.sorted.imp Nat.ne_of_gt) hdisk.known
  obtain ⟨w₃, hinit, hholds, hids, -⟩ := hup (World.boot fs 0) ⟨listing, 4, 100⟩ hr hlists
  exact ⟨w₁, World.boot fs 0, _, w₃, hdown, hr, hlists, hinit, hholds, hids⟩

/-- A put that finds no memory for its record. -/
theorem put_noRecord : (ccaskPutBlocking (bytePut 0 97 98).key (bytePut 0 97 98).value).run [.fail]
    startedWorld = .returned (.fail (some .noMemory)) [] startedWorld := rfl

theorem noRecord_nothing :
    NothingWritten (bytePut 0 97 98).key (bytePut 0 97 98).value [.fail] startedWorld := by
  intro x rest v h
  cases h

/-- The replies of a put whose record is written, and for whose key there is no memory. -/
def noEntry : List Reply :=
  List.replicate 4 (.done 0) ++ [.done 17, .fail, .fail, .fail, .fail, .fail]

theorem put_noEntry : (ccaskPutBlocking (bytePut 0 97 98).key (bytePut 0 97 98).value).run noEntry
    startedWorld = .returned (.fail (some .noMemory)) []
      (startedWorld.append 0 (bytePut 0 97 98).record.bytes) := rfl

omit [Zlib] in
theorem failed_puts_stand_one : letI := zlib
    ∃ w, Tried w [] [bytePut 0 97 98] ∧ Stands w [] [bytePut 0 97 98] := by
  let _ := zlib
  have hroom : startedWorld.files.length < 2 ^ 31 := by decide
  have hfailed := Tried.trial (.life (.run run_startedWorld))
    (.failed (by simp) noRecord_nothing put_noRecord hroom)
  have htried := hfailed.trial (.step step_writtenWorld)
  exact ⟨writtenWorld, htried, failed_puts_stand htried⟩

omit [Zlib] in
/-- No memory is left for the key of a record that has been written: the put fails, and a restart finds
its record. -/
theorem failed_put_shows : letI := zlib
    ∃ w w', Life w [] ∧ (ccaskPutBlocking (bytePut 0 97 98).key (bytePut 0 97 98).value).run noEntry w =
      .returned (.fail (some .noMemory)) [] w' ∧ ¬ Stands w' [] [] := by
  let _ := zlib
  have hwrote := appends_startedWorld.wrote rfl rfl (good_bytePut 0 97 98)
    (by rw [Put.length_record]; decide)
  have hfiled : Filed (startedWorld.append 0 (bytePut 0 97 98).record.bytes) _ := ⟨_, hwrote⟩
  refine ⟨startedWorld, _, .run run_startedWorld, put_noEntry, fun h => ?_⟩
  obtain ⟨w₁, w₂, opts, w₃, hdown, hr, hlists, hinit, hholds, hids₃⟩ := hfiled.exists_restart
  obtain ⟨w₁', hdown', hup⟩ := h.restart
  obtain ⟨-, rfl⟩ := hdown'.unique hdown
  obtain ⟨w₃', hinit', hget, -⟩ := hup w₂ opts hr hlists
  obtain ⟨-, rfl⟩ := hinit'.unique hinit
  have hfound := (hholds.serves.get_iff ⟨[97], by decide⟩ _).mpr rfl
  rw [hget, hids₃] at hfound
  cases hfound

end Sample

end Ccask.Audit
