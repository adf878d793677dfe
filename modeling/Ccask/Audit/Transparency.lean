import Ccask.Audit.OpenFiles
import Ccask.Audit.StaleTemps

/-!
# A process that goes on after a compaction

`ccask_compactor_dump_keydir` replaces the files on disk and leaves the file list and the key directory
as they are. The process reads on through the descriptors that the dump has opened, and writes on to a
file that has no name any more.
-/

namespace Ccask.Audit

open Ccask.Effect Ccask.Model Ccask.Index

section Rotations

variable {w v u : World} {f : CcaskFile} {rest : List CcaskFile} {ino : Ino}

/-- The file that a rotation adds. -/
def nextFile (w : World) (f : CcaskFile) : CcaskFile :=
  ⟨f.fileId + 1, some (w.fs.create (fileName (f.fileId + 1) .data)).2, w.clock, false, true, false⟩

theorem openFd_rotated (w : World) (f : CcaskFile) (hfiles : w.files = f :: rest) (i : Nat) :
    openFd i (rotated w f rest) =
      if i = f.fileId + 1 then some (nextFile w f).fd
      else if i = f.fileId then some none else openFd i w := by
  have hfind : ccaskFilesGetFile i (rotated w f rest) = if i = f.fileId + 1 then some (nextFile w f)
      else if i = f.fileId then some { f with fd := none, isActive := false }
      else ccaskFilesGetFile i w := by
    unfold ccaskFilesGetFile
    rw [hfiles]
    show List.find? _ (nextFile w f :: { f with fd := none, isActive := false } :: rest) = _
    rw [List.find?_cons, List.find?_cons, List.find?_cons]
    by_cases hnext : i = f.fileId + 1
    · simp [hnext, nextFile]
    · by_cases hold : i = f.fileId
      · simp [hold, nextFile]
      · simp [nextFile, hnext, hold, Ne.symm hnext, Ne.symm hold]
  unfold openFd
  rw [hfind]
  split
  · rfl
  · split
    · rfl
    · rfl

theorem rotated_grows (w : World) (f : CcaskFile) (rest : List CcaskFile) :
    Grows w.fs (rotated w f rest).fs :=
  Grows.create _ _

theorem read_hint_rotated (w : World) (f : CcaskFile) (rest : List CcaskFile) (id : Nat) :
    (rotated w f rest).fs.read (fileName id .hint) = w.fs.read (fileName id .hint) := by
  show (w.fs.create _).1.read _ = _
  rw [Fs.read_create, Function.update_of_ne (by simp)]

/-- What rotations leave, and the files that are older than the `n`-th with their descriptors. -/
structure RotatesTo (n : Nat) (w v : World) : Prop where
  grows : Grows w.fs v.fs
  table : v.hashTable = w.hashTable
  threshold : v.maxActiveFileSize = w.maxActiveFileSize
  locks : v.readLocks = w.readLocks
  fds : ∀ i < n, openFd i v = openFd i w

theorem RotatesTo.refl (n : Nat) (w : World) : RotatesTo n w w :=
  ⟨Grows.refl _, rfl, rfl, rfl, fun _ _ => rfl⟩

theorem RotatesTo.trans {n m : Nat} (h : RotatesTo n w v) (h' : RotatesTo m v u) (hnm : n ≤ m) :
    RotatesTo n w u :=
  ⟨h.grows.trans h'.grows, h'.table.trans h.table, h'.threshold.trans h.threshold,
    h'.locks.trans h.locks,
    fun i hi => (h'.fds i (Nat.lt_of_lt_of_le hi hnm)).trans (h.fds i hi)⟩

theorem RotatesTo.rotated (hfiles : w.files = f :: rest) :
    RotatesTo f.fileId w (Audit.rotated w f rest) := by
  refine ⟨rotated_grows w f rest, rfl, rfl, rfl, fun i hi => ?_⟩
  rw [openFd_rotated w f hfiles, if_neg (by omega), if_neg (by omega)]

/-- A round of the append that rotates. -/
theorem Front.appendRound_rotates {r : DatafileRecord} (h : Front w f rest ino)
    (hid : f.fileId + 1 < 2 ^ 64)
    (hfull : w.maxActiveFileSize.toNat < (w.fs.data ino).length + r.bytes.length) :
    Computes (appendRound r ()) w (.inl ()) (Audit.rotated w f rest) := by
  refine Computes.state_bind ?_
  rw [ccaskFilesGetActiveFile, h.files, List.head?_cons]
  refine (lseekEnd_computes f.fd).bind ?_
  rw [h.fd, Option.map_some]
  simp only []
  rw [bytes_length] at hfull
  rw [if_pos hfull]
  exact (ccaskFilesRotate_of_newest h.files h.newest hid).bind (Computes.pure _)

end Rotations

variable [Zlib]

section Directory

variable {fs fs' : Fs} {l tl : List Nat} {seg : Nat → List Put} {id : Nat}

theorem history_rotated (h : id ∉ l) : history (id :: l) (Function.update seg id []) = history l seg := by
  rw [← map_log_put, log_rotated h, map_log_put]

theorem history_wrote (h : id ∉ l) (p : Put) :
    history (id :: l) (Function.update seg id (seg id ++ [p])) = history (id :: l) seg ++ [p] := by
  rw [← map_log_put, log_wrote h, List.map_append, map_log_put]
  rfl

/-- A directory that holds the records of these puts and nothing else. -/
structure StoredExactly (fs : Fs) (l : List Nat) (seg : Nat → List Put) : Prop extends Stored fs l seg where
  whole : ∀ id ∈ l, fs.read (fileName id .data) = some (written (seg id))

/-- With a new file without records. -/
theorem StoredExactly.created (h : StoredExactly fs l seg) (hnewest : ∀ i ∈ l, i < id)
    (hid : id < 2 ^ 31) (hhint : fs.read (fileName id .hint) = none)
    (hread : fs'.read = Function.update fs.read (fileName id .data) (some [])) :
    StoredExactly fs' (id :: l) (Function.update seg id []) := by
  have hold : ∀ i ∈ l, i ≠ id := fun i hi => Nat.ne_of_lt (hnewest i hi)
  have hdisk := h.disk.created hnewest hid hhint hread
  have hwhole : ∀ i ∈ id :: l, fs'.read (fileName i .data) =
      some (written (Function.update seg id [] i)) := by
    intro i hi
    rw [hread]
    rcases List.mem_cons.mp hi with rfl | hi
    · rw [Function.update_self, Function.update_self]
      rfl
    · rw [Function.update_of_ne (by simpa using hold i hi), Function.update_of_ne (hold i hi)]
      exact h.whole i hi
  refine ⟨⟨?_, fun i hi => ⟨[], by rw [List.append_nil]; exact hwhole i hi⟩, ?_⟩, hwhole⟩
  · rw [recordsOf_update]
    exact hdisk
  · intro i hi p hp
    rcases List.mem_cons.mp hi with rfl | hi
    · rw [Function.update_self] at hp
      cases hp
    · rw [Function.update_of_ne (hold i hi)] at hp
      exact h.good i hi p hp

/-- With one more record in the newest file. -/
theorem StoredExactly.wrote (h : StoredExactly fs (id :: tl) seg) {p : Put} (hp : Good p)
    (hlen : (written (seg id ++ [p])).length < 2 ^ 64)
    (hread : fs'.read = Function.update fs.read (fileName id .data)
      (some (written (seg id ++ [p])))) :
    StoredExactly fs' (id :: tl) (Function.update seg id (seg id ++ [p])) := by
  have hgood := good_concat (h.good id List.mem_cons_self) hp
  have hdisk := h.disk.grown (scan_written fun q hq => (hgood q hq).size)
    (hintable_written hgood hlen) hread
  have hwhole : ∀ i ∈ id :: tl, fs'.read (fileName i .data) =
      some (written (Function.update seg id (seg id ++ [p]) i)) := by
    intro i hi
    rw [hread]
    by_cases hif : i = id
    · rw [hif, Function.update_self, Function.update_self]
    · rw [Function.update_of_ne (by simpa using hif), Function.update_of_ne hif]
      exact h.whole i hi
  refine ⟨⟨?_, fun i hi => ⟨[], by rw [List.append_nil]; exact hwhole i hi⟩, ?_⟩, hwhole⟩
  · rw [recordsOf_update]
    exact hdisk
  · intro i hi q hq
    by_cases hif : i = id
    · rw [hif, Function.update_self] at hq
      exact hgood q hq
    · rw [Function.update_of_ne hif] at hq
      exact h.good i hi q hq

end Directory

section Detached

variable {w v u : World} {f : CcaskFile} {rest : List CcaskFile} {ino : Ino} {l : List Nat}
  {seg : Nat → List Put} {p : Put}

/-- A process whose newest file is `f`, over a directory with the datafiles `l`. They need not be the
files that the process knows. -/
structure Detached (w : World) (f : CcaskFile) (rest : List CcaskFile) (ino : Ino) (l : List Nat)
    (seg : Nat → List Put) : Prop where
  front : Front w f rest ino
  active : f.isActive = true
  small : f.fileId < 2 ^ 31
  inode : ino < w.fs.next
  alone : ∀ name, w.fs.dir name = some ino → name = fileName f.fileId .data
  unlocked : w.readLocks = 0
  running : w.isShuttingDown = false
  idle : ∃ r, w.ringbuf = some r ∧ r.tail = r.head
  stored : StoredExactly w.fs l seg
  gapless : ∀ i ∈ l, ∀ j, f.fileId < j → j < i → j ∈ l
  hints : ∀ id, (w.fs.read (fileName id .hint)).isSome → id < f.fileId
  nodup : w.threads.Nodup
  pending : ∀ id ∈ w.threads, id < f.fileId ∧ w.fs.read (fileName id .hint) = none

/-- A rotation, over whatever the directory then is. -/
theorem Detached.rotated (h : Detached w f rest ino l seg) (hid : f.fileId + 1 < 2 ^ 31) {l' : List Nat}
    {seg' : Nat → List Put} (hstored : StoredExactly (Audit.rotated w f rest).fs l' seg')
    (hgap : ∀ i ∈ l', ∀ j, f.fileId + 1 < j → j < i → j ∈ l') :
    Detached (Audit.rotated w f rest) (nextFile w f) ({ f with fd := none, isActive := false } :: rest)
      (w.fs.create (fileName (f.fileId + 1) .data)).2 l' seg' := by
  refine ⟨h.front.rotated, rfl, hid, ?_, ?_, h.unlocked, h.running, h.idle, hstored, hgap, ?_, ?_, ?_⟩
  · exact (Audit.rotated w f rest).fs.fresh (Fs.dir_create_self _ _)
  · intro name hname
    exact (Audit.rotated w f rest).fs.single hname (Fs.dir_create_self _ _)
  · intro id hhint
    rw [read_hint_rotated] at hhint
    exact Nat.lt_succ_of_lt (h.hints id hhint)
  · refine List.nodup_cons.mpr ⟨fun hmem => ?_, h.nodup⟩
    exact Nat.lt_irrefl _ (h.pending _ hmem).1
  · intro id hmem
    rw [read_hint_rotated]
    rcases List.mem_cons.mp hmem with rfl | hmem
    · refine ⟨Nat.lt_succ_self _, ?_⟩
      rw [← Option.not_isSome_iff_eq_none]
      exact fun hhint => Nat.lt_irrefl _ (h.hints _ hhint)
    · exact ⟨Nat.lt_succ_of_lt (h.pending id hmem).1, (h.pending id hmem).2⟩

/-- The next id is that of a datafile that the process does not know. -/
theorem Detached.rotated_known (h : Detached w f rest ino l seg) (hmem : f.fileId + 1 ∈ l) :
    Detached (Audit.rotated w f rest) (nextFile w f) ({ f with fd := none, isActive := false } :: rest)
      (w.fs.create (fileName (f.fileId + 1) .data)).2 l seg := by
  have hsome := (h.stored.disk.known _).mp hmem
  rw [Fs.isSome_read, Option.isSome_iff_exists] at hsome
  obtain ⟨i, hdir⟩ := hsome
  have hfs : (Audit.rotated w f rest).fs = w.fs :=
    congrArg Prod.fst (Fs.create_of_some w.fs _ hdir)
  refine h.rotated (h.stored.disk.small hmem) ?_ fun i hi j hj => h.gapless i hi j (by omega)
  rw [hfs]
  exact h.stored

theorem Detached.below (h : Detached w f rest ino l seg) (hmem : f.fileId + 1 ∉ l) :
    ∀ i ∈ l, i < f.fileId + 1 := by
  intro i hi
  by_contra hge
  obtain hlt | rfl := Nat.lt_or_eq_of_le (Nat.le_of_not_lt hge)
  · exact hmem (h.gapless i hi _ (Nat.lt_succ_self _) hlt)
  · exact hmem hi

theorem Detached.next_absent (h : Detached w f rest ino l seg) (hmem : f.fileId + 1 ∉ l) :
    w.fs.read (fileName (f.fileId + 1) .data) = none := by
  rw [← Option.not_isSome_iff_eq_none]
  exact fun hsome => hmem ((h.stored.disk.known _).mpr hsome)

/-- The next id is new. -/
theorem Detached.rotated_new (h : Detached w f rest ino l seg) (hmem : f.fileId + 1 ∉ l)
    (hid : f.fileId + 1 < 2 ^ 31) :
    Detached (Audit.rotated w f rest) (nextFile w f) ({ f with fd := none, isActive := false } :: rest)
      (w.fs.create (fileName (f.fileId + 1) .data)).2 ((f.fileId + 1) :: l)
      (Function.update seg (f.fileId + 1) []) := by
  have hread : (Audit.rotated w f rest).fs.read =
      Function.update w.fs.read (fileName (f.fileId + 1) .data) (some []) := by
    show (w.fs.create _).1.read = _
    rw [Fs.read_create, h.next_absent hmem]
    rfl
  refine h.rotated hid (h.stored.created (h.below hmem) hid ?_ hread) fun i hi j hj hji => ?_
  · rw [← Option.not_isSome_iff_eq_none]
    intro hhint
    have hlt := h.hints _ hhint
    omega
  · rcases List.mem_cons.mp hi with rfl | hi
    · omega
    · have hlt := h.below hmem i hi
      omega

/-- Where an append ends: at the end of the newest file of the state `v` that the rotations led to. -/
structure AppendsTo (w : World) (f : CcaskFile) (seg : Nat → List Put) (l : List Nat) (p : Put)
    (v : World) (g : CcaskFile) (files : List CcaskFile) (i : Ino) : Prop where
  run : Computes (writeAppend p.record) w (.ok (g.fileId, (v.fs.data i).length))
    (v.append i p.record.bytes)
  front : Front v g files i
  inode : i < v.fs.next
  rotates : RotatesTo f.fileId w v
  fits : (v.fs.data i).length + p.record.bytes.length ≤ v.maxActiveFileSize.toNat
  after : (∀ j ∈ ids v, j < 2 ^ 31) → ∃ l' seg', Detached v g files i l' seg' ∧
    history l' seg' = history l seg ∧ v.fs.dir (fileName g.fileId .data) = some i ∧
    (∀ j ∈ l', j ≤ g.fileId) ∧ (l ≠ [] → l' ≠ [])

/-- A record that has room in the newest file goes there; otherwise it goes to the first of the next
files that has room, and the datafiles of the directory that are passed over are all full. -/
theorem Detached.appends (n : Nat) (h : Detached w f rest ino l seg) (hn : ∀ i ∈ l, i ≤ f.fileId + n)
    (hp : Good p) (hsize : p.record.bytes.length ≤ w.maxActiveFileSize.toNat)
    (hok : (w.fs.data ino).length + p.record.bytes.length ≤ w.maxActiveFileSize.toNat →
      w.fs.dir (fileName f.fileId .data) = some ino ∧ ∀ i ∈ l, i ≤ f.fileId)
    (hfull : ∀ i ∈ l, ∀ j ∈ l, f.fileId < i → i < j →
      w.maxActiveFileSize.toNat < (written (seg i)).length + p.record.bytes.length) :
    ∃ v g files i, AppendsTo w f seg l p v g files i ∧
      ((v = w ∧ (w.fs.data ino).length + p.record.bytes.length ≤ w.maxActiveFileSize.toNat) ∨
        (openFd f.fileId v = some none ∧
          w.maxActiveFileSize.toNat < (w.fs.data ino).length + p.record.bytes.length)) := by
  induction n using Nat.strongRecOn generalizing w f rest ino with
  | ind n ih =>
      obtain hfits | hover := Nat.lt_or_ge w.maxActiveFileSize.toNat
        ((w.fs.data ino).length + p.record.bytes.length) |>.symm
      · obtain ⟨hdir, hnewest⟩ := hok hfits
        exact ⟨w, f, rest, ino, ⟨h.front.append_fits hp.value_ne hfits, h.front, h.inode,
          RotatesTo.refl _ _, hfits, fun _ => ⟨l, seg, h, rfl, hdir, hnewest, fun hl => hl⟩⟩,
          .inl ⟨rfl, hfits⟩⟩
      · have hid : f.fileId + 1 < 2 ^ 64 := by
          have hsmall := h.small
          omega
        have hround := h.front.appendRound_rotates hid hover
        have hclosed : openFd f.fileId (Audit.rotated w f rest) = some none := by
          rw [openFd_rotated w f h.front.files, if_neg (by omega), if_pos rfl]
        have hrotates := RotatesTo.rotated h.front.files
        by_cases hmem : f.fileId + 1 ∈ l
        · have hnext := h.rotated_known hmem
          have hdir : (Audit.rotated w f rest).fs.dir (fileName (f.fileId + 1) .data) =
              some (w.fs.create (fileName (f.fileId + 1) .data)).2 := Fs.dir_create_self _ _
          have hdata : (Audit.rotated w f rest).fs.data
              (w.fs.create (fileName (f.fileId + 1) .data)).2 = written (seg (f.fileId + 1)) := by
            have hwhole := hnext.stored.whole _ hmem
            unfold Fs.read at hwhole
            rw [hdir] at hwhole
            exact Option.some.inj hwhole
          have hle := hn _ hmem
          obtain ⟨v, g, files, i, happ, hor⟩ := ih (n - 1) (by omega) hnext
            (fun i hi => by have := hn i hi; show i ≤ f.fileId + 1 + (n - 1); omega) hsize
            (fun hroom => ⟨hdir, fun i hi => by
              by_contra hgt
              have hlt : f.fileId + 1 < i := Nat.lt_of_not_le hgt
              have hover' := hfull _ hmem i hi (Nat.lt_succ_self _) hlt
              rw [hdata] at hroom
              exact absurd hover' (Nat.not_lt.mpr hroom)⟩)
            (fun i hi j hj hlt hij => hfull i hi j hj (Nat.lt_of_succ_lt hlt) hij)
          have hle' : f.fileId ≤ (nextFile w f).fileId := Nat.le_succ _
          refine ⟨v, g, files, i, ⟨?_, happ.front, happ.inode, hrotates.trans happ.rotates hle',
            happ.fits, happ.after⟩, .inr ⟨?_, hover⟩⟩
          · exact Computes.loop_next (appendRound_consumes _) hround happ.run
          · rw [happ.rotates.fds _ (Nat.lt_succ_self _)]
            exact hclosed
        · have hempty : (Audit.rotated w f rest).fs.data
              (w.fs.create (fileName (f.fileId + 1) .data)).2 = [] :=
            data_rotated_of_none (h.next_absent hmem)
          have hroom : ((Audit.rotated w f rest).fs.data
              (w.fs.create (fileName (f.fileId + 1) .data)).2).length + p.record.bytes.length ≤
              w.maxActiveFileSize.toNat := by
            rw [hempty, List.length_nil, Nat.zero_add]
            exact hsize
          refine ⟨_, nextFile w f, _, _, ⟨?_, h.front.rotated, ?_, hrotates, hroom, fun hids => ?_⟩,
            .inr ⟨hclosed, hover⟩⟩
          · exact Computes.loop_next (appendRound_consumes _) hround
              (h.front.rotated.append_fits hp.value_ne hroom)
          · exact (Audit.rotated w f rest).fs.fresh (Fs.dir_create_self _ _)
          · have hid : f.fileId + 1 < 2 ^ 31 := by
              refine hids _ ?_
              rw [ids_rotated h.front.files]
              exact List.mem_cons_self
            refine ⟨_, _, h.rotated_new hmem hid, history_rotated hmem, Fs.dir_create_self _ _, ?_,
              fun _ => List.cons_ne_nil _ _⟩
            intro j hj
            rcases List.mem_cons.mp hj with rfl | hj
            · exact Nat.le_refl _
            · exact Nat.le_of_lt (h.below hmem j hj)

/-- The record is behind the others. -/
theorem Detached.wrote (h : Detached w f rest ino l seg) (hdir : w.fs.dir (fileName f.fileId .data) = some ino)
    (hnewest : ∀ i ∈ l, i ≤ f.fileId) (hp : Good p)
    (hfits : (w.fs.data ino).length + p.record.bytes.length ≤ w.maxActiveFileSize.toNat) :
    Detached (Audit.wrote w f.fileId ino p.record) f rest ino l
        (Function.update seg f.fileId (seg f.fileId ++ [p])) ∧
      history l (Function.update seg f.fileId (seg f.fileId ++ [p])) = history l seg ++ [p] := by
  have hmax := w.maxActiveFileSize.toNat_lt
  have hmem : f.fileId ∈ l := by
    rw [h.stored.disk.known, Fs.isSome_read, hdir]
    rfl
  obtain ⟨tl, rfl⟩ : ∃ tl, l = f.fileId :: tl := by
    cases l with
    | nil => cases hmem
    | cons i tl =>
        refine ⟨tl, ?_⟩
        rcases List.mem_cons.mp hmem with rfl | htl
        · rfl
        · have hlt := (List.pairwise_cons.mp h.stored.disk.sorted).1 _ htl
          exact absurd (hnewest i List.mem_cons_self) (Nat.not_le.mpr hlt)
  have hnot : f.fileId ∉ tl := fun hin =>
    Nat.lt_irrefl _ ((List.pairwise_cons.mp h.stored.disk.sorted).1 _ hin)
  have hdata : w.fs.data ino = written (seg f.fileId) := by
    have hwhole := h.stored.whole _ hmem
    unfold Fs.read at hwhole
    rw [hdir] at hwhole
    exact Option.some.inj hwhole
  have hlen : (written (seg f.fileId ++ [p])).length < 2 ^ 64 := by
    rw [written_concat, List.length_append, ← hdata]
    omega
  have hread : (Audit.wrote w f.fileId ino p.record).fs.read =
      Function.update w.fs.read (fileName f.fileId .data) (some (written (seg f.fileId ++ [p]))) := by
    rw [read_wrote hdir, hdata, written_concat]
  have hhint : ∀ id, (Audit.wrote w f.fileId ino p.record).fs.read (fileName id .hint) =
      w.fs.read (fileName id .hint) := by
    intro id
    rw [hread, Function.update_of_ne (by simp)]
  refine ⟨⟨⟨h.front.files, h.front.fd, h.front.newest⟩, h.active, h.small, h.inode, h.alone, h.unlocked,
    h.running, h.idle, h.stored.wrote hp hlen hread, h.gapless, ?_, h.nodup, ?_⟩,
    history_wrote hnot p⟩
  · intro id hsome
    rw [hhint] at hsome
    exact h.hints id hsome
  · intro id hid
    rw [hhint]
    exact h.pending id hid

end Detached

section Steps

variable {w v : World} {hist : List Put} {id : Nat}

/-- The record that an entry leads to stands at the same place of the datafile with the name of its
file, for when the descriptor is closed. -/
def Rereads (w : World) (e : KeydirRecord) : Prop :=
  ∀ ino, openFd e.fileId w = some (some ino) → ∃ ino', w.fs.dir (fileName e.fileId .data) = some ino' ∧
    ((w.fs.data ino').drop e.recordPos).take (16 + e.key.length + e.valueSize.toNat) =
      ((w.fs.data ino).drop e.recordPos).take (16 + e.key.length + e.valueSize.toNat)

omit [Zlib] in
theorem Rereads.lies {e : KeydirRecord} (h : Rereads w e) {b : Bytes}
    (hlen : b.length = 16 + e.key.length + e.valueSize.toNat) (hb : LiesAt w e.fileId e.recordPos b)
    (hg : Grows w.fs v.fs) (hclosed : openFd e.fileId v = some none) :
    LiesAt v e.fileId e.recordPos b := by
  obtain ⟨ino, hserved, hino, hprefix⟩ := hb
  have hfound : ∀ i, w.fs.dir (fileName e.fileId .data) = some i →
      b <+: (w.fs.data i).drop e.recordPos → LiesAt v e.fileId e.recordPos b := by
    intro i hdir hi
    have hlt := w.fs.fresh hdir
    refine ⟨i, ?_, Nat.lt_of_lt_of_le hlt hg.next, hi.trans ((hg.data i hlt).drop _)⟩
    rw [servedBy_eq, hclosed]
    exact hg.dir _ _ hdir
  rw [servedBy_eq] at hserved
  cases hopen : openFd e.fileId w with
  | none =>
      rw [hopen] at hserved
      cases hserved
  | some fd =>
      rw [hopen] at hserved
      cases fd with
      | none => exact hfound ino hserved hprefix
      | some i =>
          obtain rfl : i = ino := Option.some.inj hserved
          obtain ⟨ino', hdir, hsame⟩ := h i hopen
          refine hfound ino' hdir ?_
          have htake := List.prefix_iff_eq_take.mp hprefix
          rw [hlen, ← hsame] at htake
          rw [htake]
          exact List.take_prefix _ _

/-- What a process after a compaction keeps: the key directory leads to the last puts through the
descriptors, and the directory holds them as well. -/
structure GoesOn (w : World) (hist : List Put) : Prop where
  recalls : ∀ k, Recalls w hist k
  detached : ∃ f rest ino l seg, Detached w f rest ino l seg ∧ l ≠ [] ∧
    (w.fs.dir (fileName f.fileId .data) = some ino → ∀ i ∈ l, i ≤ f.fileId) ∧
    ∀ k, latest putKey k (history l seg) = latest putKey k hist

omit [Zlib] in
/-- The newest file stays the newest. -/
theorem Front.touched {f : CcaskFile} {rest : List CcaskFile} {ino : Ino} (h : Front w f rest ino)
    (hshape : v.files.map shape = w.files.map shape) (hopen : openFd f.fileId v = some (some ino)) :
    ∃ f' rest', Front v f' rest' ino ∧ f'.fileId = f.fileId ∧ f'.isActive = f.isActive := by
  rw [h.files, List.map_cons] at hshape
  cases hfiles : v.files with
  | nil =>
      rw [hfiles] at hshape
      cases hshape
  | cons f' rest' =>
      rw [hfiles, List.map_cons] at hshape
      obtain ⟨hhead, htail⟩ := List.cons.inj hshape
      have hid : f'.fileId = f.fileId := congrArg Prod.fst hhead
      refine ⟨f', rest', ⟨hfiles, ?_, fun g hg => ?_⟩, hid, congrArg (fun s => s.2.2) hhead⟩
      · unfold openFd ccaskFilesGetFile at hopen
        rw [hfiles, List.find?_cons, hid, decide_eq_true rfl] at hopen
        exact Option.some.inj hopen
      · have hmem : shape g ∈ rest.map shape := by
          rw [← htail]
          exact List.mem_map_of_mem hg
        obtain ⟨g', hg', hshape'⟩ := List.mem_map.mp hmem
        have hgid : g'.fileId = g.fileId := congrArg Prod.fst hshape'
        rw [hid, ← hgid]
        exact h.newest g' hg'

omit [Zlib] in
theorem Front.openFd {f : CcaskFile} {rest : List CcaskFile} {ino : Ino} (h : Front w f rest ino) :
    openFd f.fileId w = some (some ino) := by
  unfold Audit.openFd ccaskFilesGetFile
  rw [h.files, List.find?_cons, decide_eq_true rfl, ← h.fd]
  rfl

/-- Another file list with the same newest file. -/
theorem Detached.touched {f f' : CcaskFile} {rest rest' : List CcaskFile} {ino : Ino} {l : List Nat}
    {seg : Nat → List Put} (h : Detached w f rest ino l seg) (hfront : Front v f' rest' ino)
    (hid : f'.fileId = f.fileId) (hactive : f'.isActive = f.isActive)
    (hsame : v = { w with files := v.files, clock := v.clock }) : Detached v f' rest' ino l seg := by
  have hfs : v.fs = w.fs := by rw [hsame]
  have hthreads : v.threads = w.threads := by rw [hsame]
  refine ⟨hfront, hactive.trans h.active, by rw [hid]; exact h.small, by rw [hfs]; exact h.inode,
    by rw [hfs, hid]; exact h.alone, by rw [hsame]; exact h.unlocked, by rw [hsame]; exact h.running, by rw [hsame]; exact h.idle,
    by rw [hfs]; exact h.stored, by rw [hid]; exact h.gapless, ?_, by rw [hthreads]; exact h.nodup, ?_⟩
  · rw [hfs, hid]
    exact h.hints
  · rw [hfs, hthreads, hid]
    exact h.pending

/-- Descriptors may be opened, and closed where the bytes can be read again. -/
theorem GoesOn.touched (h : GoesOn w hist) (ht : Touched w v)
    (hstays : ∀ f ino rest, Front w f rest ino → f.isActive = true →
      Audit.openFd f.fileId v = some (some ino))
    (hrecalls : ∀ k, Recalls v hist k) : GoesOn v hist := by
  obtain ⟨f, rest, ino, l, seg, hd, hne, hnewest, hlatest⟩ := h.detached
  obtain ⟨f', rest', hfront, hid, hactive⟩ :=
    hd.front.touched ht.files (hstays f ino rest hd.front hd.active)
  have hsame : v = { w with files := v.files, clock := v.clock } := by
    have hclock : v.clock = w.clock := by rw [ht.same]
    rw [hclock]
    exact ht.same
  refine ⟨hrecalls, f', rest', ino, l, seg, hd.touched hfront hid hactive hsame, hne, ?_, hlatest⟩
  rw [ht.fs_eq, hid]
  exact hnewest

/-- A get. -/
theorem GoesOn.get (h : GoesOn w hist) (ht : Touched w v) (ho : Opens w v) : GoesOn v hist := by
  refine h.touched ht (fun f ino rest hfront _ => ho.stays _ _ hfront.openFd) fun k => ?_
  refine (h.recalls k).congr ?_ fun e _ b _ hb => ?_
  · unfold ccaskKeydirFind
    rw [ht.hashTable_eq]
  · obtain ⟨ino, hserved, hino, hprefix⟩ := hb
    exact ⟨ino, by rw [ho.servedBy]; exact hserved, by rw [ho.fs]; exact hino,
      by rw [ho.fs]; exact hprefix⟩

theorem GoesOn.tick (h : GoesOn w hist) (now : Nat) : GoesOn { w with clock := now } hist := by
  obtain ⟨f, rest, ino, l, seg, hd, hrest⟩ := h.detached
  exact ⟨fun k => ⟨(h.recalls k).missing, (h.recalls k).found⟩, f, rest, ino, l, seg,
    hd.touched ⟨hd.front.files, hd.front.fd, hd.front.newest⟩ rfl rfl rfl, hrest⟩

omit [Zlib] in
theorem openFd_invalidate (id i : Nat) (w : World) :
    openFd i (datafileFdInvalidate id w) = openFd i w ∨
      (i = id ∧ openFd i (datafileFdInvalidate id w) = some none ∧
        ∃ f, ccaskFilesGetFile i w = some f ∧ f.isActive = false) := by
  unfold openFd datafileFdInvalidate
  rw [getFile_setFile id i (F := fun file =>
    if file.isFdInvalidatorRunning ∧ ¬ file.isActive ∧ file.fd.isSome ∧ 5 ≤ w.clock - file.lastAccessed
    then { file with fd := none, isFdInvalidatorRunning := false } else file)
    (fun f => by split <;> rfl)]
  split
  · rename_i hi
    cases hget : ccaskFilesGetFile i w with
    | none => exact .inl rfl
    | some f =>
        simp only [Option.map_some]
        split
        · rename_i hidle
          exact .inr ⟨hi, rfl, f, rfl, by simpa using hidle.2.1⟩
        · exact .inl rfl
  · exact .inl rfl

/-- An invalidator closes a file whose records can be read again. -/
theorem GoesOn.invalidate (h : GoesOn w hist) (hsafe : ∀ e ∈ w.hashTable, e.fileId = id → Rereads w e) :
    GoesOn (datafileFdInvalidate id w) hist := by
  have ht := datafileFdInvalidate_touched id w
  refine h.touched ht (fun f ino rest hfront hactive => ?_) fun k => ?_
  · rcases openFd_invalidate id f.fileId w with hsame | ⟨-, -, g, hget, hidle⟩
    · rw [hsame, hfront.openFd]
    · unfold ccaskFilesGetFile at hget
      rw [hfront.files, List.find?_cons, decide_eq_true rfl] at hget
      obtain rfl := Option.some.inj hget
      rw [hactive] at hidle
      cases hidle
  · refine (h.recalls k).congr ?_ fun e he b hlen hb => ?_
    · unfold ccaskKeydirFind
      rw [ht.hashTable_eq]
    · have hgrows : Grows w.fs (datafileFdInvalidate id w).fs := by
        rw [ht.fs_eq]
        exact Grows.refl _
      rcases openFd_invalidate id e.fileId w with hsame | ⟨hid, hclosed, -⟩
      · exact hb.grows hgrows hsame
      · exact (hsafe e (mem_of_get he) hid).lies hlen hb hgrows hclosed

end Steps

section Generate

variable {w u : World} {hist : List Put} {id : Nat} {f : CcaskFile} {rest : List CcaskFile}
  {ino : Ino} {l : List Nat} {seg : Nat → List Put} {fs fs' : Fs} {c : Bytes}

omit [Zlib] in
/-- A hint file without its datafile. -/
theorem Disk.orphaned {L : Nat → List (DatafileRecord × Nat)} (h : Disk fs l L) (hmem : id ∉ l)
    (hid : id < 2 ^ 31)
    (hread : fs'.read = Function.update fs.read (fileName id .hint) (some c)) : Disk fs' l L := by
  have hdata : ∀ i, fs'.read (fileName i .data) = fs.read (fileName i .data) := by
    intro i
    rw [hread, Function.update_of_ne (by simp)]
  refine ⟨h.sorted, ?_, ?_, h.hintable, ?_, ?_⟩
  · intro i
    rw [hdata]
    exact h.known i
  · intro i hi
    rw [hdata]
    exact h.scans i hi
  · intro i hi b hb
    have hne : i ≠ id := fun heq => hmem (heq ▸ hi)
    rw [hread, Function.update_of_ne (by simpa using hne)] at hb
    exact h.hints i hi b hb
  · intro name hname
    rw [hread, Function.update_apply] at hname
    split at hname
    · rename_i heq
      exact ⟨id, .hint, hid, by decide, heq⟩
    · exact h.tidy name hname

omit [Zlib] in
/-- The generator of a file that is not there any more leaves an empty hint file. -/
theorem runGenerator_missing (hdir : w.fs.dir (fileName id .data) = none) :
    Computes (runGenerator id) w () { hintOpened w id with threads := w.threads.erase id } := by
  have hdir' : (hintOpened w id).fs.dir (fileName id .data) = none := by
    rw [← hdir]
    exact Fs.dir_create_of_ne _ _ (by simp)
  have hfail : Computes (ccaskFilesGetDatafileFd id) (hintOpened w id) (.fail (some .getFdFailed))
      (hintOpened w id) := by
    refine call_clean (fun _ => rfl) (Computes.state.bind ?_)
    rw [hdir']
    exact Computes.pure _
  have hopen : Computes (ccaskDatafileIterOpen id) (hintOpened w id) (.fail (some .getFdFailed))
      (hintOpened w id) :=
    (attempt_computes hfail (by simp)).bind (Computes.pure _)
  have hgen : Computes (hintfileGeneratorThread id) w () (hintOpened w id) := by
    refine (attempt_computes (openCreate_computes _) (by simp)).bind ?_
    exact (attempt_computes hopen (by simp)).bind (Computes.pure _)
  exact hgen.bind (Computes.modify _)

/-- What a generator that ends has done: the hint file has been made, and nothing else. -/
structure Generates (w u : World) (id : Nat) (c : Bytes) : Prop where
  same : u = { w with fs := u.fs, files := u.files, threads := w.threads.erase id }
  grows : Grows w.fs u.fs
  dir : ∀ i, u.fs.dir (fileName i .data) = w.fs.dir (fileName i .data)
  old : ∀ name, ∀ i < w.fs.next, u.fs.dir name = some i → w.fs.dir name = some i
  read : u.fs.read = Function.update w.fs.read (fileName id .hint) (some c)
  fds : ∀ i, openFd i u = openFd i w
  front : ∀ f rest ino, f.fileId ≠ id → Front w f rest ino → ∃ rest', Front u f rest' ino

omit [Zlib] in
theorem dir_of_create {n name : Name} {i : Ino} (hi : i < fs.next)
    (h : (fs.create n).1.dir name = some i) : fs.dir name = some i := by
  by_cases hname : name = n
  · rw [hname, Fs.dir_create_self] at h
    obtain rfl := Option.some.inj h
    cases hdir : fs.dir n with
    | some j =>
        rw [Fs.create_of_some fs n hdir, hname]
        exact hdir
    | none =>
        rw [(Fs.create_of_none fs n hdir).1] at hi
        exact absurd hi (Nat.lt_irrefl _)
  · rwa [Fs.dir_create_of_ne _ _ hname] at h

omit [Zlib] in
theorem Generates.missing (hnone : w.fs.read (fileName id .hint) = none) :
    Generates w { hintOpened w id with threads := w.threads.erase id } id [] := by
  refine ⟨rfl, Grows.create _ _, fun i => Fs.dir_create_of_ne _ _ (by simp),
    fun _ _ hi h => dir_of_create hi h, ?_, fun _ => rfl, fun f rest ino _ h => ⟨rest, h.files, h.fd, h.newest⟩⟩
  show (w.fs.create _).1.read = _
  rw [Fs.read_create, hnone]
  rfl

omit [Zlib] in
theorem Generates.generated (hnone : w.fs.read (fileName id .hint) = none)
    (m : List (DatafileRecord × Nat)) : Generates w (generated w id m) id (hints m) := by
  refine ⟨rfl, (Grows.create _ _).trans (Grows.append _ _ _),
    fun i => Fs.dir_create_of_ne _ _ (by simp), fun _ _ hi h => dir_of_create hi h, ?_,
    fun i => openFd_setFile id i (fun _ => rfl) fun _ => rfl, fun f rest ino hne h => ?_⟩
  · have hread := read_hinted w id m
    rw [hnone] at hread
    exact hread
  · refine ⟨rest.map fun file => if file.fileId = id then { file with hasHint := true } else file,
      ?_, h.fd, ?_⟩
    · show w.files.map _ = _
      rw [h.files, List.map_cons, if_neg hne]
    · intro g hg
      obtain ⟨g', hg', rfl⟩ := List.mem_map.mp hg
      have hlt := h.newest g' hg'
      split
      · exact hlt
      · exact hlt

/-- The generator of a file of the directory makes its hint file, and that of another file an empty one.
The newest datafile of the directory must have none. -/
theorem Detached.runGenerator (h : Detached w f rest ino l seg) (hid : id ∈ w.threads)
    (hold : id ∈ l → id ∈ l.tail) : ∃ u rest' c, Computes (runGenerator id) w () u ∧
      Generates w u id c ∧ Detached u f rest' ino l seg := by
  obtain ⟨hlt, hnone⟩ := h.pending id hid
  have hsmall : id < 2 ^ 31 := Nat.lt_trans hlt h.small
  have hstays : ∀ u c, Generates w u id c → Disk u.fs l (recordsOf seg) →
      ∃ rest', Detached u f rest' ino l seg := by
    intro u c hg hdisk
    obtain ⟨rest', hfront⟩ := hg.front f rest ino (Nat.ne_of_gt hlt) h.front
    have hdata : ∀ i, u.fs.read (fileName i .data) = w.fs.read (fileName i .data) := by
      intro i
      rw [hg.read, Function.update_of_ne (by simp)]
    have hwhole : ∀ i ∈ l, u.fs.read (fileName i .data) = some (written (seg i)) := by
      intro i hi
      rw [hdata]
      exact h.stored.whole i hi
    have hthreads : u.threads = w.threads.erase id := by rw [hg.same]
    refine ⟨rest', hfront, h.active, h.small, Nat.lt_of_lt_of_le h.inode hg.grows.next,
      fun name hname => h.alone name (hg.old name ino h.inode hname), by rw [hg.same]; exact h.unlocked, by rw [hg.same]; exact h.running,
      by rw [hg.same]; exact h.idle,
      ⟨⟨hdisk, fun i hi => ⟨[], by rw [List.append_nil]; exact hwhole i hi⟩, h.stored.good⟩, hwhole⟩,
      h.gapless, ?_, by rw [hthreads]; exact h.nodup.erase id, ?_⟩
    · intro i hi
      rw [hg.read, Function.update_apply] at hi
      split at hi
      · rename_i heq
        obtain ⟨rfl, -⟩ := fileName_inj.mp heq
        exact hlt
      · exact h.hints i hi
    · intro i hi
      rw [hthreads] at hi
      obtain ⟨hne, hi⟩ := (List.Nodup.mem_erase_iff h.nodup).mp hi
      rw [hg.read, Function.update_of_ne (by simpa using hne)]
      exact h.pending i hi
  by_cases hmem : id ∈ l
  · have hwhole := h.stored.whole id hmem
    obtain ⟨c, hc, hscan⟩ := h.stored.disk.scans id hmem
    obtain ⟨i, hdir, rfl⟩ := Fs.exists_of_read hc
    have hkeys : ∀ p ∈ recordsOf seg id, (hintOf p).key ≠ [] := by
      intro p hp
      have hhint := h.stored.disk.hintable id hmem p hp
      rw [hhint.key_eq]
      exact hhint.key
    have hg := Generates.generated hnone (recordsOf seg id)
    obtain ⟨rest', hd⟩ := hstays _ _ hg (h.stored.disk.hinted (hold hmem) hg.read)
    exact ⟨_, rest', _, (hintfileGeneratorThread_computes hdir hkeys hscan).bind (Computes.modify _),
      hg, hd⟩
  · have hdir : w.fs.dir (fileName id .data) = none := by
      rw [← Option.not_isSome_iff_eq_none, ← Fs.isSome_read, ← h.stored.disk.known]
      exact hmem
    have hg := Generates.missing hnone
    obtain ⟨rest', hd⟩ := hstays _ _ hg (h.stored.disk.orphaned hmem hsmall hg.read)
    exact ⟨_, rest', _, runGenerator_missing hdir, hg, hd⟩

/-- A generator of a file that is gone, or of one with a newer one in the directory. -/
theorem GoesOn.generate (h : GoesOn w hist) (hid : id ∈ w.threads)
    (hold : (w.fs.read (fileName id .data)).isSome →
      ∃ j, id < j ∧ (w.fs.read (fileName j .data)).isSome) :
    ∃ u, Computes (Model.runGenerator id) w () u ∧ GoesOn u hist := by
  obtain ⟨f, rest, ino, l, seg, hd, hne, hnewest, hlatest⟩ := h.detached
  obtain ⟨u, rest', c, hrun, hg, hd'⟩ := hd.runGenerator hid fun hmem => by
    obtain ⟨j, hlt, hj⟩ := hold ((hd.stored.disk.known id).mp hmem)
    have hjl := (hd.stored.disk.known j).mpr hj
    cases l with
    | nil => cases hmem
    | cons i tl =>
        rcases List.mem_cons.mp hmem with rfl | htl
        · rcases List.mem_cons.mp hjl with rfl | hjl
          · exact absurd hlt (Nat.lt_irrefl _)
          · have hgt := (List.pairwise_cons.mp hd.stored.disk.sorted).1 _ hjl
            exact absurd hlt (Nat.not_lt.mpr (Nat.le_of_lt hgt))
        · exact htl
  refine ⟨u, hrun, fun k => ?_, f, rest', ino, l, seg, hd', hne, ?_, hlatest⟩
  · refine (h.recalls k).congr ?_ fun e _ b _ hb => hb.grows hg.grows (hg.fds _)
    unfold ccaskKeydirFind
    rw [hg.same]
  · rw [hg.dir]
    exact hnewest

end Generate

section Put

variable {w v : World} {hist : List Put} {f g : CcaskFile} {rest files : List CcaskFile} {ino i : Ino}
  {l : List Nat} {seg : Nat → List Put} {p : Put}

/-- When a put of `size` bytes under `key` does no harm. A record that has room in the newest file must
get into a file that still has its name. One that has none closes that file, so that the records of other
keys in it must be readable under its name, and it must go behind all the datafiles there are. -/
structure PutsOn (w : World) (key : Bytes) (size : Nat) : Prop where
  linked : ∀ f rest ino, Front w f rest ino →
    (w.fs.data ino).length + size ≤ w.maxActiveFileSize.toNat →
    w.fs.dir (fileName f.fileId .data) = some ino
  rereads : ∀ f rest ino, Front w f rest ino →
    w.maxActiveFileSize.toNat < (w.fs.data ino).length + size →
    ∀ e ∈ w.hashTable, e.fileId = f.fileId → e.key ≠ key → Rereads w e
  passed : ∀ f rest ino, Front w f rest ino →
    w.maxActiveFileSize.toNat < (w.fs.data ino).length + size →
    ∀ i j c, f.fileId < i → i < j → w.fs.read (fileName i .data) = some c →
      (w.fs.read (fileName j .data)).isSome → w.maxActiveFileSize.toNat < c.length + size

omit [Zlib] in
theorem Front.newest_of_served (h : Front w f rest ino) {id : Nat} (hserved : (servedBy id w).isSome) :
    id ≤ f.fileId := by
  rw [servedBy_eq] at hserved
  cases hopen : Audit.openFd id w with
  | none =>
      rw [hopen] at hserved
      cases hserved
  | some fd =>
      unfold Audit.openFd at hopen
      obtain ⟨g, hget, -⟩ := Option.map_eq_some_iff.mp hopen
      unfold ccaskFilesGetFile at hget
      have hid : g.fileId = id := by simpa using List.find?_some hget
      have hmem := List.mem_of_find?_eq_some hget
      rw [h.files] at hmem
      rcases List.mem_cons.mp hmem with rfl | hg
      · exact Nat.le_of_eq hid.symm
      · rw [← hid]
        exact Nat.le_of_lt (h.newest g hg)

/-- The new record is found, and so are those of the other keys. -/
theorem Recalls.wrote {k : Bytes} (h : Recalls w hist k) (hf : Front w f rest ino) (hp : Good p)
    (hv : Front v g files i) (hinode : i < v.fs.next) (hrotates : RotatesTo f.fileId w v)
    (hclosed : (∀ e ∈ w.hashTable, e.fileId = f.fileId → e.key ≠ p.key.bytes → Rereads w e) ∧
      Audit.openFd f.fileId v = some none ∨ v = w) :
    Recalls (Audit.wrote v g.fileId i p.record) (hist ++ [p]) k := by
  have hfind : ccaskKeydirFind k (Audit.wrote v g.fileId i p.record) =
      if p.key.bytes = k then some (p.entry g.fileId (v.fs.data i).length) else ccaskKeydirFind k w := by
    have htable : ccaskKeydirFind k (v.append i p.record.bytes) = ccaskKeydirFind k w := by
      unfold ccaskKeydirFind
      show Index.get _ k v.hashTable = _
      rw [hrotates.table]
    unfold Audit.wrote
    rw [find_upserted, datafileEntry_record, htable]
    rfl
  have hlatest : latest putKey k (hist ++ [p]) =
      if p.key.bytes = k then some p else latest putKey k hist := latest_concat k hist p
  by_cases hk : p.key.bytes = k
  · rw [if_pos hk] at hfind hlatest
    refine ⟨fun hnone => ?_, fun q hq => ?_⟩
    · rw [hlatest] at hnone
      cases hnone
    · rw [hlatest] at hq
      obtain rfl := Option.some.inj hq
      refine ⟨hp, g.fileId, _, hfind, i, ?_, hinode, ?_⟩
      · have hfront : Front (Audit.wrote v g.fileId i p.record) g files i := ⟨hv.files, hv.fd, hv.newest⟩
        rw [servedBy_eq, hfront.openFd]
        rfl
      · have hdata : (Audit.wrote v g.fileId i p.record).fs.data i = v.fs.data i ++ p.record.bytes :=
          Fs.data_append_self _ _ _
        rw [hdata, List.drop_left]
  · rw [if_neg hk] at hfind hlatest
    have hold : Recalls (Audit.wrote v g.fileId i p.record) hist k := by
      refine h.congr hfind fun e he b hlen hb => ?_
      have hgrows : Grows w.fs (Audit.wrote v g.fileId i p.record).fs :=
        hrotates.grows.trans (Grows.append _ _ _)
      obtain hlt | heq : e.fileId < f.fileId ∨ e.fileId = f.fileId := by
        obtain ⟨j, hserved, -⟩ := hb
        have hle := hf.newest_of_served (Option.isSome_of_eq_some hserved)
        omega
      · exact hb.grows hgrows (hrotates.fds _ hlt)
      · rcases hclosed with ⟨hrereads, hclosed⟩ | rfl
        · have hkey : e.key ≠ p.key.bytes := by
            rw [key_of_get he]
            exact Ne.symm hk
          refine (hrereads e (mem_of_get he) heq hkey).lies hlen hb hgrows ?_
          rw [heq]
          exact hclosed
        · exact hb.grows hgrows rfl
    refine ⟨fun hnone => hold.missing (hlatest.symm.trans hnone), fun q hq => hold.found q ?_⟩
    exact hlatest.symm.trans hq

/-- A put that does no harm returns CCASK_OK and is the last one in the process and in the directory. -/
theorem GoesOn.put (h : GoesOn w hist) (hp : Good p) (hts : p.timestamp = UInt32.ofNat w.clock)
    (hsize : p.record.bytes.length ≤ w.maxActiveFileSize.toNat)
    (hon : PutsOn w p.key.bytes p.record.bytes.length) :
    ∃ w', Computes (ccaskPutBlocking p.key p.value) w (.ok ()) w' ∧
      ((∀ j ∈ ids w', j < 2 ^ 31) → GoesOn w' (hist ++ [p])) := by
  obtain ⟨f, rest, ino, l, seg, hd, hne, hnewest, hlatest⟩ := h.detached
  have hfront := hd.front
  have hbound : ∀ i ∈ l, i ≤ f.fileId + 2 ^ 31 := fun i hi => by
    have hlt := hd.stored.disk.small hi
    omega
  have hpassed : ∀ i ∈ l, ∀ j ∈ l, f.fileId < i → i < j →
      w.maxActiveFileSize.toNat < (written (seg i)).length + p.record.bytes.length := by
    intro i hi j hj hlt hij
    obtain hfits | hover := Nat.lt_or_ge w.maxActiveFileSize.toNat
      ((w.fs.data ino).length + p.record.bytes.length) |>.symm
    · have hle := hnewest (hon.linked f rest ino hfront hfits) i hi
      omega
    · exact hon.passed f rest ino hfront hover i j _ hlt hij (hd.stored.whole i hi)
        ((hd.stored.disk.known j).mp hj)
  obtain ⟨v, g, files, i, happ, hor⟩ := hd.appends (2 ^ 31) hbound hp hsize (fun hfits => by
    have hdir := hon.linked f rest ino hfront hfits
    exact ⟨hdir, hnewest hdir⟩) hpassed
  have hlocks : (v.append i p.record.bytes).readLocks = 0 := happ.rotates.locks.trans hd.unlocked
  have hwrite : Computes (ccaskWriteRecordBlocking p.record) w (.ok ())
      (Audit.wrote v g.fileId i p.record) := by
    rw [ccaskWriteRecordBlocking_sections]
    exact happ.run.bind (writeUpsert_computes hlocks _ _)
  refine ⟨_, ccaskPutBlocking_computes hd.running hts hwrite, fun hids => ?_⟩
  obtain ⟨l', seg', hd', hhist, hdir, hle, hne'⟩ := happ.after hids
  obtain ⟨hwrote, hconcat⟩ := hd'.wrote hdir hle hp happ.fits
  refine ⟨fun k => ?_, g, files, i, l', _, hwrote, hne' hne, fun _ => hle, fun k => ?_⟩
  · refine (h.recalls k).wrote hfront hp happ.front happ.inode happ.rotates ?_
    rcases hor with ⟨rfl, -⟩ | ⟨hclosed, hover⟩
    · exact .inr rfl
    · exact .inl ⟨hon.rereads f rest ino hfront hover, hclosed⟩
  · rw [hconcat, hhist, latest_concat, latest_concat, hlatest]

end Put

end Ccask.Audit
