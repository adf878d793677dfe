import Ccask.Audit.PartialStart

/-!
# What a start may come to

No call looks beyond the replies it uses. So a start may lose the rest of each datafile at any record and
still return CCASK_OK, one file after another.
-/

namespace Ccask.Audit

open Ccask.Effect Ccask.Model Ccask.Index

section Online

theorem malloc_online : Online malloc := by
  refine Online.call_bind fun r => ?_
  cases r with
  | done n => exact Online.pure _
  | intr => exact Online.pure _
  | transient => exact Online.pure _
  | fail => exact Online.pure _

theorem mallocAll_online (n : Nat) : Online (mallocAll n) := by
  induction n with
  | zero => exact Online.pure _
  | succ n ih =>
      refine malloc_online.bind fun b => ?_
      cases b with
      | true => exact ih
      | false => exact Online.pure _

theorem attempt_online {α : Type} {m : Sys (Res α)} (hm : Online m) (n : Nat) : Online (attempt n m) := by
  induction n with
  | zero => exact Online.pure _
  | succ n ih =>
      refine hm.bind fun r => ?_
      cases r with
      | ok a => exact Online.pure _
      | fail e => exact Online.pure _
      | retry e =>
          dsimp only
          split
          · exact Online.pure _
          · exact ih

theorem openCreate_online (name : Name) : Online (openCreate name) := by
  have hopen : Online (do
      let w ← Prog.state
      Prog.modify fun w => { w with fs := (w.fs.create name).1 }
      pure (.ok (w.fs.create name).2) : Sys (Res Ino)) :=
    Online.state_bind fun _ => Online.modify_bind (Online.pure _)
  refine Online.call_bind fun r => ?_
  cases r with
  | done n => exact hopen
  | intr => exact hopen
  | transient => exact Online.pure _
  | fail => exact Online.pure _

theorem ccaskFilesGetDatafileFd_online (id : Nat) : Online (ccaskFilesGetDatafileFd id) := by
  refine Online.call_bind fun r => ?_
  cases r with
  | transient => exact Online.pure _
  | fail => exact Online.pure _
  | _ =>
      refine Online.state_bind fun w => ?_
      split
      · exact Online.pure _
      · exact Online.pure _

theorem lseekEnd_online (fd : Option Ino) : Online (lseekEnd fd) := by
  refine Online.call_bind fun r => ?_
  cases r with
  | done n => exact Online.state_bind fun _ => Online.pure _
  | intr => exact Online.state_bind fun _ => Online.pure _
  | transient => exact Online.pure _
  | fail => exact Online.pure _

theorem iterOpen_online {open' : Sys (Res Ino)} (h : Online open') (id : Nat) :
    Online (iterOpen id open') := by
  refine (attempt_online h 5).bind fun r => ?_
  cases r with
  | fail e => exact Online.pure _
  | retry e => exact Online.pure _
  | ok ino => exact (lseekEnd_online _).bind fun _ => Online.pure _

theorem transferRound_online (sys : VecCall) (onZero : Option Errno) (onError : Errno) (c : Cursor) :
    Online (transferRound sys onZero onError c) := by
  unfold transferRound
  split
  · exact Online.pure _
  · refine Online.call_bind fun r => ?_
    cases r with
    | intr => exact Online.pure _
    | transient => exact Online.pure _
    | fail => exact Online.pure _
    | done n =>
        refine Online.state_bind fun w => Online.modify_bind ?_
        split
        · exact Online.pure _
        · exact Online.pure _

theorem safePreadv_online (fd : Option Ino) (iov : List Iovec) (offset : Nat) :
    Online (safePreadv fd iov offset) := by
  unfold safePreadv
  split
  · exact Online.pure _
  · exact Online.pure _
  · refine (Online.loop (transferRound_consumes _ _ _) (transferRound_online _ _ _) _).bind fun r => ?_
    cases r with
    | ok a => exact Online.pure _
    | fail e => exact Online.pure _
    | retry e => exact Online.pure _

theorem safePread_online (fd : Option Ino) (len offset : Nat) : Online (safePread fd len offset) := by
  unfold safePread
  split
  · exact Online.pure _
  · refine Online.loop (preadRound_consumes len) (fun got => ?_) []
    unfold preadRound
    split
    · exact Online.pure _
    · refine Online.call_bind fun r => ?_
      cases r with
      | intr => exact Online.pure _
      | transient => exact Online.pure _
      | fail => exact Online.pure _
      | done n =>
          refine Online.state_bind fun w => ?_
          split
          · exact Online.pure _
          · exact Online.pure _

theorem ccaskDatafileIterNext_online (iter : Iter) : Online (ccaskDatafileIterNext iter) := by
  unfold ccaskDatafileIterNext
  split
  · exact Online.pure _
  · refine malloc_online.bind fun b => ?_
    cases b with
    | false => exact Online.pure _
    | true =>
        refine (safePread_online _ _ _).bind fun r => ?_
        cases r with
        | fail e => exact Online.pure _
        | retry e => exact Online.pure _
        | ok headerBuf =>
            refine (mallocAll_online 2).bind fun r => ?_
            cases r with
            | fail e => exact Online.pure _
            | retry e => exact Online.pure _
            | ok x =>
                refine (safePreadv_online _ _ _).bind fun r => ?_
                split
                · exact Online.pure _
                · exact Online.block
                · exact Online.pure _
                · exact Online.pure _

theorem ccaskHintfileIterNext_online (iter : Iter) : Online (ccaskHintfileIterNext iter) := by
  unfold ccaskHintfileIterNext
  split
  · exact Online.pure _
  · refine malloc_online.bind fun b => ?_
    cases b with
    | false => exact Online.pure _
    | true =>
        refine (safePread_online _ _ _).bind fun r => ?_
        cases r with
        | fail e => exact Online.pure _
        | retry e => exact Online.pure _
        | ok headerBuf =>
            refine malloc_online.bind fun b => ?_
            cases b with
            | false => exact Online.pure _
            | true =>
                refine (safePreadv_online _ _ _).bind fun r => ?_
                split
                · exact Online.pure _
                · exact Online.block
                · exact Online.pure _
                · exact Online.pure _

theorem ccaskKeydirUpsert_online (record : KeydirRecord) : Online (ccaskKeydirUpsert record) := by
  refine Online.state_bind fun w => ?_
  split
  · exact Online.block
  · split
    · exact Online.modify_bind (Online.pure _)
    · refine malloc_online.bind fun b => ?_
      cases b with
      | false => exact Online.pure _
      | true =>
          refine malloc_online.bind fun b => ?_
          cases b with
          | false => exact Online.pure _
          | true => exact Online.modify_bind (Online.pure _)

theorem createNewActiveDatafile_online (id : Nat) : Online (createNewActiveDatafile id) := by
  refine (attempt_online (openCreate_online _) 5).bind fun r => ?_
  cases r with
  | ok ino => exact Online.state_bind fun _ => Online.pure _
  | fail e => exact Online.pure _
  | retry e => exact Online.pure _

theorem scanDirectory_online (names : List Name) : Online (Model.scanDirectory names) := by
  have hentry : ∀ name, Online (Model.scanEntry name) := by
    intro name
    unfold Model.scanEntry
    split
    · exact Online.pure _
    · refine Online.call_bind fun r => ?_
      cases r with
      | transient => exact Online.pure _
      | fail => exact Online.pure _
      | _ =>
          dsimp only
          split
          · exact Online.block
          · refine malloc_online.bind fun b => ?_
            cases b with
            | true => exact Online.modify _
            | false => exact Online.block
          · exact Online.pure _
  induction names with
  | nil => exact Online.pure _
  | cons name names ih => exact (hentry name).bind fun _ => ih

theorem chooseActiveFile_online : Online Model.chooseActiveFile := by
  refine Online.state_bind fun w => ?_
  split
  · refine malloc_online.bind fun b => ?_
    cases b with
    | false => exact Online.pure _
    | true =>
        refine (createNewActiveDatafile_online _).bind fun r => ?_
        cases r with
        | ok file => exact Online.modify_bind (Online.pure _)
        | fail e => exact Online.pure _
        | retry e => exact Online.pure _
  · split
    · refine malloc_online.bind fun b => ?_
      cases b with
      | false => exact Online.pure _
      | true =>
          refine (createNewActiveDatafile_online _).bind fun r => ?_
          cases r with
          | ok file => exact Online.modify_bind (Online.pure _)
          | fail e => exact Online.pure _
          | retry e => exact Online.pure _
    · refine (attempt_online (openCreate_online _) 5).bind fun r => ?_
      cases r with
      | ok ino => exact Online.modify_bind (Online.pure _)
      | fail e => exact Online.pure _
      | retry e => exact Online.pure _

theorem ccaskFilesInit_online (listing : List Name) (threshold : UInt64) :
    Online (ccaskFilesInit listing threshold) := by
  refine Online.modify_bind (Online.call_bind fun r => ?_)
  cases r with
  | transient => exact Online.pure _
  | fail => exact Online.pure _
  | _ =>
      refine malloc_online.bind fun b => ?_
      cases b with
      | false => exact Online.pure _
      | true =>
          refine Online.modify_bind ?_
          exact (scanDirectory_online listing).bind fun _ => chooseActiveFile_online

theorem ccaskWriterStart_online (capacity : Nat) : Online (ccaskWriterStart capacity) := by
  refine Online.bind ((mallocAll_online 2).bind fun r => ?_) fun r => ?_
  · cases r with
    | ok x => exact Online.modify_bind (Online.pure _)
    | fail e => exact Online.pure _
    | retry e => exact Online.pure _
  · cases r with
    | fail e => exact Online.pure _
    | retry e => exact Online.pure _
    | ok x =>
        refine Online.call_bind fun r => ?_
        cases r with
        | done n => exact Online.pure _
        | intr => exact Online.pure _
        | transient => exact Online.modify_bind (Online.pure _)
        | fail => exact Online.modify_bind (Online.pure _)

end Online

section Lose

variable {w v : World} {id : Nat} {ino : Ino} {l : List Nat} {L : Nat → List (DatafileRecord × Nat)}
  {m : List (DatafileRecord × Nat)}

theorem malloc_can_fail : Can malloc w false w := Can.call_bind .fail (Can.pure false)

theorem attempt_can {α : Type} {expr : Sys (Res α)} {a : α} (h : Can expr w (.ok a) v) (n : Nat) :
    Can (attempt (n + 1) expr) w (.ok a) v :=
  h.bind (Can.pure _)

/-- An iterator that gets no memory stops, wherever it is. -/
theorem ccaskDatafileIterNext_can_stop (iter : Iter) :
    ∃ e, Can (ccaskDatafileIterNext iter) w (.fail e) w := by
  unfold ccaskDatafileIterNext
  split
  · exact ⟨_, Can.pure _⟩
  · exact ⟨_, malloc_can_fail.bind (Can.pure _)⟩

theorem ccaskHintfileIterNext_can_stop (iter : Iter) :
    ∃ e, Can (ccaskHintfileIterNext iter) w (.fail e) w := by
  unfold ccaskHintfileIterNext
  split
  · exact ⟨_, Can.pure _⟩
  · exact ⟨_, malloc_can_fail.bind (Can.pure _)⟩

theorem upserts_can (record : KeydirRecord) (hlocks : w.readLocks = 0) :
    Can (attempt 5 (ccaskKeydirUpsert record)) w (.ok ()) (upserted w record) :=
  attempt_can ((ccaskKeydirUpsert_upserts.computes record w hlocks).can (ccaskKeydirUpsert_online record)) 4

/-- Recovery by a scan may end behind any of the records. -/
theorem recoverDatafile_can (hdir : w.fs.dir (fileName id .data) = some ino)
    (hscan : Scan (recordAt (w.fs.data ino)) 0 m) (hlocks : w.readLocks = 0) (n : Nat) :
    Can (recoverDatafile ccaskKeydirUpsert id) w (.ok ()) (((entries id m).take n).foldl upserted w) := by
  have hopen := (ccaskDatafileIterOpen_computes hdir).can
    (iterOpen_online (ccaskFilesGetDatafileFd_online id) id)
  refine (attempt_can hopen 4).bind ?_
  rw [entries, ← List.map_take, List.foldl_map]
  refine Can.loop_prefix (s := fun off => ⟨id, ino, off, (w.fs.data ino).length⟩)
    (I := fun v => v.readLocks = 0 ∧ v.fs = w.fs) (recoverDatafileRound_consumes ccaskKeydirUpsert id)
    ?_ ?_ hscan (List.take_prefix n m) ⟨hlocks, rfl⟩
  · rintro off off' r v ⟨hv, hfs⟩ hr
    rw [← hfs] at hr ⊢
    refine ⟨?_, hv, rfl⟩
    refine ((ccaskDatafileIterNext_computes rfl hr).can (ccaskDatafileIterNext_online _)).bind ?_
    exact (upserts_can _ hv).bind (Can.pure _)
  · intro off v _
    obtain ⟨e, he⟩ := ccaskDatafileIterNext_can_stop (w := v) ⟨id, ino, off, (w.fs.data ino).length⟩
    exact he.bind (Can.pure _)

/-- So may recovery from a hint file. -/
theorem recoverHintfile_can (hdir : w.fs.dir (fileName id .hint) = some ino) (hm : ∀ p ∈ m, Hintable p)
    (hdata : w.fs.data ino = hints m) (hlocks : w.readLocks = 0) (n : Nat) :
    Can (recoverHintfile ccaskKeydirUpsert id) w (.ok ()) (((entries id m).take n).foldl upserted w) := by
  obtain ⟨hscan, hentries⟩ := scan_hints id hm
  rw [← hdata] at hscan
  have hopen := (ccaskHintfileIterOpen_computes hdir).can (iterOpen_online (openCreate_online _) id)
  refine (attempt_can hopen 4).bind ?_
  rw [← hentries, ← List.map_take, List.foldl_map]
  refine Can.loop_prefix (s := fun off => ⟨id, ino, off, (w.fs.data ino).length⟩)
    (I := fun v => v.readLocks = 0 ∧ v.fs = w.fs) (recoverHintfileRound_consumes ccaskKeydirUpsert id)
    ?_ ?_ hscan (List.take_prefix n _) ⟨hlocks, rfl⟩
  · rintro off off' r v ⟨hv, hfs⟩ hr
    rw [← hfs] at hr ⊢
    refine ⟨?_, hv, rfl⟩
    refine ((ccaskHintfileIterNext_computes rfl hr).can (ccaskHintfileIterNext_online _)).bind ?_
    exact (upserts_can _ hv).bind (Can.pure _)
  · intro off v _
    obtain ⟨e, he⟩ := ccaskHintfileIterNext_can_stop (w := v) ⟨id, ino, off, (w.fs.data ino).length⟩
    exact he.bind (Can.pure _)

theorem recoverFile_can (file : CcaskFile) (hdisk : Disk w.fs l L) (hmem : file.fileId ∈ l)
    (hhint : file.hasHint = true → (w.fs.read (fileName file.fileId .hint)).isSome)
    (hlocks : w.readLocks = 0) (n : Nat) :
    Can (if file.hasHint then recoverHintfile ccaskKeydirUpsert file.fileId
      else recoverDatafile ccaskKeydirUpsert file.fileId) w (.ok ())
      (((entries file.fileId (L file.fileId)).take n).foldl upserted w) := by
  cases hflag : file.hasHint with
  | true =>
      obtain ⟨c, hc⟩ := Option.isSome_iff_exists.mp (hhint hflag)
      obtain ⟨-, hdata⟩ := hdisk.hints file.fileId hmem c hc
      obtain ⟨ino, hdir, hino⟩ := Fs.exists_of_read hc
      exact recoverHintfile_can hdir (hdisk.hintable file.fileId hmem) (hino.trans hdata) hlocks n
  | false =>
      obtain ⟨c, hc, hscan⟩ := hdisk.scans file.fileId hmem
      obtain ⟨ino, hdir, rfl⟩ := Fs.exists_of_read hc
      exact recoverDatafile_can hdir hscan hlocks n

/-- Recovery may take any number of entries of each file. -/
theorem recoverFiles_can (files : List CcaskFile) (hdisk : Disk w.fs l L)
    (hfiles : ∀ file ∈ files, file.fileId ∈ l ∧
      (file.hasHint = true → (w.fs.read (fileName file.fileId .hint)).isSome))
    (hlocks : w.readLocks = 0) (n : Nat → Nat) :
    Can (recoverFiles ccaskKeydirUpsert files) w (.ok ())
      ((firstEntries (files.map CcaskFile.fileId) L n).foldl upserted w) := by
  induction files generalizing w with
  | nil => exact Can.pure _
  | cons file files ih =>
      obtain ⟨hmem, hhint⟩ := hfiles file List.mem_cons_self
      rw [List.map_cons, firstEntries_cons, List.foldl_append]
      refine (recoverFile_can file hdisk hmem hhint hlocks (n file.fileId)).bind ?_
      have hfs := fs_foldl_upserted ((entries file.fileId (L file.fileId)).take (n file.fileId)) w
      refine ih (by rwa [hfs]) ?_ ?_
      · rw [hfs]
        exact fun g hg => hfiles g (List.mem_cons_of_mem _ hg)
      · rw [foldl_upserted]
        exact hlocks

theorem ccaskKeydirInit_can (hdisk : Disk v.fs l L) (hids : ∀ i ∈ ids v, i ∈ l)
    (hhints : ∀ f ∈ v.files, f.hasHint = true → (v.fs.read (fileName f.fileId .hint)).isSome)
    (n : Nat → Nat) : Can ccaskKeydirInit v (.ok ()) { v with
      hashTable := Index.replay KeydirRecord.key [] (firstEntries (ids v).reverse L n)
      readLocks := 0 } := by
  have hrec := recoverFiles_can (w := { v with hashTable := [], readLocks := 0 }) v.files.reverse hdisk
    (fun file hfile => ⟨hids _ (List.mem_map_of_mem (List.mem_reverse.mp hfile)),
      hhints file (List.mem_reverse.mp hfile)⟩) rfl n
  rw [List.map_reverse, foldl_upserted] at hrec
  exact Can.modify_bind (Can.state_bind hrec)

end Lose

section Start

variable {w v : World} {opts : CcaskOptions} {l : List Nat} {L : Nat → List (DatafileRecord × Nat)}

/-- A start may lose the rest of any file, once the files are there. -/
theorem ccaskInit_can (hfiles : Can (ccaskFilesInit opts.listing opts.datafileRotateThreshold)
      { w with isShuttingDown := false } (.ok ()) v)
    (hdisk : Disk v.fs l L) (hids : ∀ i ∈ ids v, i ∈ l)
    (hhints : ∀ f ∈ v.files, f.hasHint = true → (v.fs.read (fileName f.fileId .hint)).isSome)
    (n : Nat → Nat) : Can (ccaskInit opts) w (.ok ())
      (started v opts.writerRingbufCapacity (firstEntries (ids v).reverse L n)) := by
  refine Can.modify_bind ((attempt_can hfiles 4).bind ?_)
  refine (attempt_can (ccaskKeydirInit_can hdisk hids hhints n) 4).bind ?_
  have hstart : Computes (ccaskWriterStart opts.writerRingbufCapacity)
      { v with
        hashTable := Index.replay KeydirRecord.key [] (firstEntries (ids v).reverse L n)
        readLocks := 0 }
      (.ok ()) { v with
        hashTable := Index.replay KeydirRecord.key [] (firstEntries (ids v).reverse L n)
        readLocks := 0
        ringbuf := some (.init opts.writerRingbufCapacity) } := by
    refine Computes.bind (a := .ok ()) ((mallocAll_computes 2).bind
      (Computes.modify_bind (Computes.pure _))) ?_
    exact call_clean (fun _ => rfl) (Computes.pure _)
  have hstarted := attempt_can (hstart.can (ccaskWriterStart_online _)) 4
  exact hstarted.bind (Can.modify_bind (Can.pure _))

variable [Zlib] {seg : Nat → List Put}

/-- A start may lose any last puts of any files, and return CCASK_OK. -/
theorem Stored.boots_partly (h : Stored w.fs l seg) (hlists : Lists opts.listing w.fs)
    (hcurrent : ∀ id, (w.fs.read (fileName id .hint)).isSome → id ∈ l) (n : Nat → Nat) :
    ∃ u, Can (ccaskInit opts) w (.ok ()) u ∧ Boots opts w (history l fun i => (seg i).take (n i)) u := by
  obtain ⟨v, seg', hfiles, hmounts, hstored, hcurrent', htemps, hold, hnew⟩ :=
    Stored.mounts (w := { w with isShuttingDown := false }) h hlists hcurrent opts.datafileRotateThreshold
  have hhist : history (ids v) (fun i => (seg' i).take (n i)) = history l fun i => (seg i).take (n i) := by
    apply history_congr h.disk.sorted hmounts.mounted.sorted
    · intro i _ hi
      simp only [(hold i hi).2]
    · intro i hi hn
      exact absurd (hold i hi).1 hn
    · intro i hi hl
      simp only [hnew i hi hl, List.take_nil]
  have hcan := ccaskInit_can (hfiles.can (ccaskFilesInit_online _ _)) hstored.disk (fun _ hi => hi)
    (fun f hf hflag => by rwa [← hmounts.flags f hf]) n
  rw [firstEntries_recordsOf] at hcan
  refine ⟨_, hcan, ?_⟩
  rw [← hhist]
  exact hmounts.boots hstored hcurrent' htemps fun _ _ => List.take_prefix _ _

/-- What a start under errors may come to, when it returns CCASK_OK: for each datafile any number of its
first puts, and with them the answers of a store that holds these puts and no others. -/
theorem ccaskInit_comes_to_iff (h : Stored w.fs l seg) (hlists : Lists opts.listing w.fs)
    (hcurrent : ∀ id, (w.fs.read (fileName id .hint)).isSome → id ∈ l) (answers : Buf → GetResult) :
    (∃ rs rest v, (ccaskInit opts).run rs w = .returned (.ok ()) rest v ∧
        ∀ key, ∃ u, Computes (ccaskGet key) v (answers key) u) ↔
      ∃ n : Nat → Nat, ∀ key, answers key = lookup (history l fun i => (seg i).take (n i)) key.val := by
  constructor
  · rintro ⟨rs, rest, v, hrun, hget⟩
    have hstart := (ccaskInit_starts h hlists hcurrent).returned (fun _ _ => trivial) hrun
    obtain ⟨n, hup⟩ := (hstart.2 rfl).upholds h.disk.sorted
    exact ⟨n, fun key => (hup.givesPuts key (answers key)).mp (hget key)⟩
  · rintro ⟨n, hn⟩
    obtain ⟨v, hcan, hboots⟩ := h.boots_partly hlists hcurrent n
    obtain ⟨rs, hrun⟩ := hcan.run
    exact ⟨rs, [], v, hrun, fun key => (hboots.givesPuts key (answers key)).mpr (hn key)⟩

end Start

section Sample

/-- A start over a directory with one put returns CCASK_OK and answers as if there were none. -/
theorem ccaskInit_comes_to_nothing : letI := zlib
    ∃ listing rs rest v, (ccaskInit ⟨listing, 4, 100⟩).run rs (World.boot writtenWorld.fs 5) =
      .returned (.ok ()) rest v ∧ ∀ key, ∃ u, Computes (ccaskGet key) v .missing u := by
  let _ := zlib
  obtain ⟨l, seg, hstored, hcurrent, -⟩ := bears_writtenWorld
  obtain ⟨listing, hlists⟩ := exists_lists hstored.disk.tidy
  have hnone : history l (fun i => (seg i).take 0) = [] :=
    List.flatMap_eq_nil_iff.mpr fun _ _ => List.take_zero
  obtain ⟨rs, rest, v, hrun, hget⟩ := (@ccaskInit_comes_to_iff (World.boot writtenWorld.fs 5)
    ⟨listing, 4, 100⟩ l zlib seg hstored hlists hcurrent fun _ => .missing).mpr
      ⟨fun _ => 0, fun key => by rw [hnone]; rfl⟩
  exact ⟨listing, rs, rest, v, hrun, hget⟩

end Sample

end Ccask.Audit
