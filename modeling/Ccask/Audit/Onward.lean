import Ccask.Audit.Transparency
import Ccask.Audit.MixedPuts

/-!
# What a compaction is to its process

A process reads as before after `ccask_compactor_dump_keydir`. It may also write, and what it writes is
still there after a start, as long as it does not write into a file that the compaction has unlinked.
-/

namespace Ccask.Audit

open Ccask.Effect Ccask.Model Ccask.Index

variable [Zlib]

section Base

variable {w v u : World} {hist : List Put} {seg : Nat → List Put} {b : Bins Put} {id pos : Nat}
  {bytes : Bytes}

omit [Zlib] in
/-- A file of a mounted store is served by its datafile. -/
theorem Mounted.served (h : Mounted w) {ino : Ino} (hid : id ∈ ids w)
    (hdir : w.fs.dir (fileName id .data) = some ino) : servedBy id w = some ino := by
  obtain ⟨f, hf, rfl, hget⟩ := Mounted.getFile hid
  obtain ⟨ino', hdir', hfd⟩ := h.linked f hf
  rw [hdir] at hdir'
  obtain rfl := Option.some.inj hdir'
  rw [servedBy_eq, openFd, hget, Option.map_some, Option.bind_some]
  rcases hfd with hfd | hfd
  · rw [hfd, hdir]
    rfl
  · rw [hfd]
    rfl

theorem Leads.recalls (h : Leads w hist) (hgood : ∀ p ∈ hist, Good p) (k : Bytes) :
    Recalls w hist k := by
  refine ⟨h.missing k, fun p hp => ?_⟩
  obtain ⟨-, id, pre, post, hfind, hid, hread⟩ := h.found k p hp
  refine ⟨hgood p (List.mem_reverse.mp (mem_of_get hp)), id, pre.length, hfind, ?_⟩
  obtain ⟨ino, hdir, hdata⟩ := Fs.exists_of_read hread
  refine ⟨ino, h.mounted.served hid hdir, w.fs.fresh hdir, ?_⟩
  rw [hdata, List.append_assoc, List.drop_left]
  exact List.prefix_append _ _

/-- The dump leaves what the key directory leads to. -/
theorem Dumped.leads (h : Dumped w v b) (hw : Leads w hist) : Leads v hist := by
  refine ⟨h.mounted, h.keeps.readLocks_eq.trans hw.unlocked, fun k hk => ?_, fun k p hp => ?_⟩
  · unfold ccaskKeydirFind
    rw [h.keeps.hashTable_eq]
    exact hw.missing k hk
  · obtain ⟨hlegible, id, pre, post, hfind, hid, hread⟩ := hw.found k p hp
    refine ⟨hlegible, id, pre, post, ?_, by rw [h.keeps.ids_eq]; exact hid, ?_⟩
    · unfold ccaskKeydirFind
      rw [h.keeps.hashTable_eq]
      exact hfind
    · rw [h.keeps.read_data]
      exact hread

omit [Zlib] in
/-- What is read through an open descriptor does not depend on the names in the directory. -/
theorem LiesAt.renamed (h : LiesAt w id pos bytes) {ino : Ino} (hopen : openFd id w = some (some ino))
    (hfiles : u.files = w.files) (hdata : u.fs.data = w.fs.data) (hnext : u.fs.next = w.fs.next) :
    LiesAt u id pos bytes := by
  obtain ⟨i, hserved, hi, hprefix⟩ := h
  refine ⟨i, ?_, by rw [hnext]; exact hi, by rw [hdata]; exact hprefix⟩
  rw [servedBy_eq, openFd_congr hfiles, hopen]
  rw [servedBy_eq, hopen] at hserved
  exact hserved

omit [Zlib] in
theorem next_play (ops : List DirOp) (w : World) : (play DirOp.act ops w).fs.next = w.fs.next := by
  induction ops generalizing w with
  | nil => rfl
  | cons op ops ih =>
      rw [play_cons, ih]
      cases op with
      | unlink name => rfl
      | rename src dst => rfl

omit [Zlib] in
/-- An inode with the name of a datafile that is unlinked has no name any more. -/
theorem unlinked_play {files : List CcaskFile} {n : Nat} {ino : Ino}
    (hdir : v.fs.dir (fileName id .data) = some ino) (hname : fileName id .data ∈ fileNames files)
    (name : Name) :
    (play DirOp.act (unlinks files ++ (List.range n).map renameOp) v).fs.dir name ≠ some ino := by
  have hbefore : ∀ m, (play DirOp.act (unlinks files) v).fs.dir m ≠ some ino := by
    intro m hm
    rw [unlinks, dir_unlinked] at hm
    split at hm
    · cases hm
    · rename_i hnot
      rw [v.fs.single hm hdir] at hnot
      exact hnot hname
  rw [play_append]
  induction n generalizing name with
  | zero => exact hbefore name
  | succ n ih =>
      intro h
      rw [play_rename_succ, Fs.dir_rename] at h
      split at h
      · exact ih _ h
      · split at h
        · cases h
        · exact ih _ h

/-- After a compaction the process still reads the store through its descriptors, the directory holds
the live records, and the file that the process writes to has no name. -/
theorem Holds.goesOn (h : Holds w seg)
    (hb : b = packed (history (ids w) seg) w.maxActiveFileSize.toNat)
    (hfresh : ∀ i ≤ b.last, (w.fs.read (fileName i .tempData)).getD [] = []) :
    ∃ w₁, Computes ccaskCompactorDumpKeydir w (.ok ()) w₁ ∧
      (∀ i, (w₁.fs.read (fileName i .data)).isSome ↔ i ≤ b.last) ∧
      (b.last < 2 ^ 31 → GoesOn w₁ (history (ids w) seg)) := by
  obtain ⟨x, hfill, hd, hreplace⟩ := compactor_parts h (hb.trans (packed_eq _ _)) hfresh
  generalize hv : ({ x with readLocks := x.readLocks - 1 } : World) = v at hd hreplace
  have hvfiles : v.files = x.files := by rw [← hv]
  have hrun : Computes ccaskCompactorDumpKeydir w (.ok ()) (play DirOp.act (script w.files b.last) v) := by
    refine Computes.bind (a := (.ok (), [])) ?_ (Computes.pure _)
    refine hfill.bind (Computes.modify_bind ?_)
    rw [hv]
    exact hreplace.computes.bind (Computes.pure _)
  have hrenamed : Renamed (b.last + 1) v.fs (play DirOp.act (script w.files b.last) v).fs := by
    refine renamed_play v (fun i hi => ?_) fun i hi => ?_
    · rw [← Fs.isSome_read, hd.keeps.read_data] at hi
      exact (h.store.named i).1 hi
    · rw [← Fs.isSome_read, hd.keeps.read_hint] at hi
      exact (h.store.named i).2 hi
  have hread := hrenamed.read_bin hd (Nat.le_refl _)
  refine ⟨_, hrun, fun i => ?_, fun hroom => ?_⟩
  · rw [hread]
    split
    · rename_i hlt
      exact ⟨fun _ => Nat.le_of_lt_succ hlt, fun _ => rfl⟩
    · rename_i hge
      exact ⟨fun hsome => absurd hsome (by simp), fun hle => absurd (Nat.lt_succ_of_le hle) hge⟩
  have hopen : ∀ e ∈ w.hashTable, ∃ ino, openFd e.fileId v = some (some ino) := by
    intro e he
    obtain ⟨rs, rest, -, hfilled⟩ := hfill.exists_run
    obtain ⟨ino, hino⟩ := fillTemps_opens.returned (fun _ _ => trivial) hfilled b.last rfl e he
    exact ⟨ino, (openFd_congr hvfiles _).trans hino⟩
  have hsame := play_same (script w.files b.last) v
  have hdata := data_play (script w.files b.last) v
  have hnext := next_play (script w.files b.last) v
  generalize hw₁ : play DirOp.act (script w.files b.last) v = w₁ at *
  have hfiles : w₁.files = v.files := by rw [hsame]
  have htable : w₁.hashTable = w.hashTable := by rw [hsame, hd.keeps.same]
  refine ⟨fun k => ?_, ?_⟩
  · refine ((hd.leads h.leads).recalls h.good_history k).congr ?_ fun e he bytes _ hbytes => ?_
    · unfold ccaskKeydirFind
      rw [htable, hd.keeps.hashTable_eq]
    · have hmem := mem_of_get he
      rw [hd.keeps.hashTable_eq] at hmem
      obtain ⟨ino, hino⟩ := hopen e hmem
      exact hbytes.renamed hino hfiles hdata hnext
  · obtain ⟨f, rest, hvf, hfd, hactive, -⟩ := hd.mounted.active
    obtain ⟨ino, hdir⟩ := hd.mounted.head_dir hvf
    have hfront := hd.mounted.front hvf hdir
    have hids : ids w = f.fileId :: rest.map CcaskFile.fileId := by
      rw [← hd.keeps.ids_eq, ids_eq hvf]
    have hmem : f.fileId ∈ ids w := by
      rw [hids]
      exact List.mem_cons_self
    have hunlinked : ∀ name, w₁.fs.dir name ≠ some ino := by
      intro name
      rw [← hw₁]
      refine unlinked_play hdir ((h.store.named f.fileId).1 ?_) name
      rw [← h.store.disk.known]
      exact hmem
    have hstored := h.stored_renamed hb hroom hd hrenamed (Nat.le_refl _)
    refine ⟨f, rest, ino, (List.range (b.last + 1)).reverse, b.bin, ?_, ?_,
      fun hlinked => absurd hlinked (hunlinked _), ?_⟩
    · refine ⟨⟨hfiles.trans hfront.files, hfront.fd, hfront.newest⟩, hactive, h.store.disk.small hmem,
        ?_, fun name hname => absurd hname (hunlinked name), ?_, ?_, ?_, ⟨hstored, fun i hi => ?_⟩, ?_, ?_,
        ?_, fun id hid => ?_⟩
      · rw [hnext]
        exact v.fs.fresh hdir
      · rw [hsame, hd.keeps.same]
        exact h.store.unlocked
      · rw [hsame, hd.keeps.same]
        exact h.running
      · rw [hsame, hd.keeps.same]
        exact h.store.idle
      · rw [hread, if_pos (by simpa using hi)]
      · intro i hi j _ hji
        have hlt : i < b.last + 1 := by simpa using hi
        simpa using Nat.lt_trans hji hlt
      · intro id hid
        rw [hrenamed.hint] at hid
        cases hid
      · rw [hsame, hd.keeps.same]
        exact h.store.nodup
      · rw [hsame, hd.keeps.same] at hid
        obtain ⟨htail, -⟩ := h.store.pending id hid
        have hsorted := h.store.disk.sorted
        rw [hids] at htail hsorted
        exact ⟨(List.pairwise_cons.mp hsorted).1 id htail, hrenamed.hint id⟩
    · simp
    · intro k
      have hnodup : ((replay putKey [] (history (ids w) seg)).map putKey).Nodup :=
        nodup_replay (l := []) List.nodup_nil
      rw [hb, history_packed, latest_of_nodup hnodup, get_replay_nil]

end Base

section Run

variable {w w₁ v u : World} {hist ps : List Put} {seg : Nat → List Put}

/-- What a process does on its own, after a compaction or before. Puts, generators and invalidators are
such that they do no harm. -/
inductive Onward : World → List Put → World → Prop
  | put {w w' : World} {key value : Buf} {rs rest : List Reply} {res : Status} :
      key.val ≠ [] → value.val ≠ [] → 20 + key.val.length + value.val.length < 2 ^ 32 →
      16 + key.val.length + value.val.length ≤ w.maxActiveFileSize.toNat →
      PutsOn w key.val (16 + key.val.length + value.val.length) → AllClean rs →
      (ccaskPutBlocking (some key) (some value)).run rs w = .returned res rest w' →
      (∀ id ∈ ids w', id < 2 ^ 31) → Onward w [⟨UInt32.ofNat w.clock, some key, some value⟩] w'
  | get {w w' : World} {key : Buf} {rs rest : List Reply} {res : GetResult} :
      (ccaskGet key).run rs w = .returned res rest w' → Onward w [] w'
  | generate {w w' : World} {id : Nat} {rs rest : List Reply} :
      id ∈ w.threads → ((w.fs.read (fileName id .data)).isSome →
        ∃ newer, id < newer ∧ (w.fs.read (fileName newer .data)).isSome) →
      AllClean rs → (runGenerator id).run rs w = .returned () rest w' → Onward w [] w'
  | invalidate {w : World} {id : Nat} :
      (∀ e ∈ w.hashTable, e.fileId = id → Rereads w e) → Onward w [] (datafileFdInvalidate id w)
  | tick {w : World} (now : Nat) : Onward w [] { w with clock := now }

/-- Any number of steps, with the puts made by them, oldest first. -/
inductive Onwards : World → List Put → World → Prop
  | refl (w : World) : Onwards w [] w
  | tail {w v u : World} {hist ps : List Put} :
      Onwards w hist v → Onward v ps u → Onwards w (hist ++ ps) u

theorem GoesOn.step (h : GoesOn w hist) (hs : Onward w ps v) : GoesOn v (hist ++ ps) := by
  cases hs with
  | put hkey hvalue hbound hsize hon hrs hrun hids =>
      rename_i key value rs rest res
      have hgood : Good ⟨UInt32.ofNat w.clock, some key, some value⟩ := ⟨hkey, hvalue, hbound⟩
      have hlen : (⟨UInt32.ofNat w.clock, some key, some value⟩ : Put).record.bytes.length =
          16 + key.val.length + value.val.length := Put.length_record _
      obtain ⟨v', hput, hnext⟩ := h.put hgood rfl (by rw [hlen]; exact hsize) (by rw [hlen]; exact hon)
      obtain ⟨-, rfl⟩ := hput.eq_of_returned hrs hrun
      exact hnext hids
  | get hrun =>
      rename_i key rs rest res
      have ht : Touched w v := (ccaskGet_moves ccaskReadDatafileRecord_touches key w).returned
        (fun _ _ => trivial) hrun
      have ho : Opens w v := (ccaskGet_moves ccaskReadDatafileRecord_opens key w).returned
        (fun _ _ => trivial) hrun
      rw [List.append_nil]
      exact h.get ht ho
  | generate hid hold hrs hrun =>
      obtain ⟨v', hgen, hnext⟩ := h.generate hid hold
      obtain ⟨-, rfl⟩ := hgen.eq_of_returned hrs hrun
      rw [List.append_nil]
      exact hnext
  | invalidate hsafe =>
      rw [List.append_nil]
      exact h.invalidate hsafe
  | tick now =>
      rw [List.append_nil]
      exact h.tick now

theorem GoesOn.steps (h : GoesOn w hist) (hs : Onwards w ps v) : GoesOn v (hist ++ ps) := by
  induction hs with
  | refl => rwa [List.append_nil]
  | tail _ hstep ih =>
      rw [← List.append_assoc]
      exact ih.step hstep

end Run

section Answers

variable {w w₁ u v : World} {hist hist' ps : List Put} {f : CcaskFile} {rest : List CcaskFile}
  {ino : Ino} {l : List Nat} {seg : Nat → List Put} {p : Put}

omit [Zlib] in
theorem lookup_of_latest (h : ∀ k, latest putKey k hist = latest putKey k hist') (k : Bytes) :
    lookup hist k = lookup hist' k := by
  rw [lookup, lookup, h]

/-- Every key is answered with its last put. -/
def GivesPuts (u : World) (hist : List Put) : Prop :=
  ∀ key res, (∃ v, Computes (ccaskGet key) u res v) ↔ res = lookup hist key.val

theorem givesPuts_of_get (h : ∀ key : Buf, ∃ v, Computes (ccaskGet key) u (lookup hist key.val) v) :
    GivesPuts u hist := by
  intro key res
  obtain ⟨v, hget⟩ := h key
  constructor
  · rintro ⟨v', hget'⟩
    exact (hget.unique hget').1
  · rintro rfl
    exact ⟨v, hget⟩

/-- Every start on what the process leaves answers so. -/
def Outlives (u : World) (hist : List Put) : Prop :=
  (∃ listing, Lists listing u.fs) ∧ ∀ w₂ opts, Left u w₂.fs → Lists opts.listing w₂.fs →
    ∃ w₃, Computes (ccaskInit opts) w₂ (.ok ()) w₃ ∧ GivesPuts w₃ hist

theorem Outlives.congr (h : Outlives u hist)
    (hsame : ∀ key : Buf, lookup hist key.val = lookup hist' key.val) : Outlives u hist' := by
  refine ⟨h.1, fun w₂ opts hleft hlists => ?_⟩
  obtain ⟨w₃, hinit, hget⟩ := h.2 w₂ opts hleft hlists
  refine ⟨w₃, hinit, fun key res => ?_⟩
  rw [← hsame]
  exact hget key res

/-- There is something that it answers. -/
theorem Outlives.unique (h : Outlives u hist) (h' : Outlives u hist') (key : Buf) :
    lookup hist key.val = lookup hist' key.val := by
  obtain ⟨⟨listing, hlists⟩, hup⟩ := h
  obtain ⟨w₃, hinit, hget⟩ := hup (World.boot u.fs 0) ⟨listing, 0, 0⟩ (.inl rfl) hlists
  obtain ⟨w₃', hinit', hget'⟩ := h'.2 (World.boot u.fs 0) ⟨listing, 0, 0⟩ (.inl rfl) hlists
  obtain ⟨-, rfl⟩ := hinit.unique hinit'
  exact (hget' key _).mp ((hget key _).mpr rfl)

/-- A directory that holds these puts, while no record waits in the buffer. -/
theorem Stored.outlives (h : Stored u.fs l seg) (hne : l ≠ []) (hunlocked : u.readLocks = 0)
    (hidle : ∃ r, u.ringbuf = some r ∧ r.tail = r.head) : Outlives u (history l seg) := by
  refine ⟨exists_lists h.disk.tidy, fun w₂ opts hleft hlists => ?_⟩
  have hfs : w₂.fs = u.fs := by
    rcases hleft with hfs | ⟨hthreads, u', hdown, hfs⟩
    · exact hfs
    · obtain ⟨r, hring, hidle⟩ := hidle
      obtain ⟨-, rfl⟩ := (ccaskShutdown_idle hthreads hring hidle hunlocked).unique hdown
      exact hfs
  rw [← hfs] at h
  cases l with
  | nil => exact absurd rfl hne
  | cons id tl =>
      obtain ⟨w₃, hinit, hserves, -, -, -, hids⟩ := h.init hlists
      refine ⟨w₃, hinit, fun key res => ?_⟩
      rw [hserves.get_iff, hids]

theorem Detached.outlives (h : Detached u f rest ino l seg) (hne : l ≠ []) :
    Outlives u (history l seg) := h.stored.outlives hne h.unlocked h.idle

theorem GoesOn.givesPuts (h : GoesOn u hist) : GivesPuts u hist :=
  givesPuts_of_get fun key => (h.recalls key.val).get

theorem GoesOn.outlives (h : GoesOn u hist) : Outlives u hist := by
  obtain ⟨f, rest, ino, l, seg, hd, hne, -, hlatest⟩ := h.detached
  exact (hd.outlives hne).congr fun key => lookup_of_latest hlatest key.val

theorem GoesOn.congr (h : GoesOn u hist) (hsame : ∀ k, latest putKey k hist = latest putKey k hist') :
    GoesOn u hist' := by
  obtain ⟨f, rest, ino, l, seg, hd, hne, hnewest, hlatest⟩ := h.detached
  refine ⟨fun k => ⟨fun hk => (h.recalls k).missing ((hsame k).trans hk),
    fun p hp => (h.recalls k).found p ((hsame k).trans hp)⟩, f, rest, ino, l, seg, hd, hne, hnewest, ?_⟩
  exact fun k => (hlatest k).trans (hsame k)

theorem Life.givesPuts (h : Life w hist) : GivesPuts w hist := by
  obtain ⟨seg, hreached, hhist⟩ := h.reached
  intro key res
  rw [hreached.toHolds.serves.get_iff, lookup_congr hhist]

/-- The state after a compaction. -/
theorem Life.goesOn (h : Life w hist) : ∃ w₁, Computes ccaskCompactorDumpKeydir w (.ok ()) w₁ ∧
    (∀ i, (w₁.fs.read (fileName i .data)).isSome ↔ i ≤ (packed hist w.maxActiveFileSize.toNat).last) ∧
    ((packed hist w.maxActiveFileSize.toNat).last < 2 ^ 31 → GoesOn w₁ hist) := by
  obtain ⟨seg, hreached, hhist⟩ := h.reached
  obtain ⟨w₁, hrun, hdata, hgoes⟩ := hreached.toHolds.goesOn rfl fun i _ => hreached.fresh i
  rw [packed_congr hhist] at hdata hgoes
  refine ⟨w₁, hrun, hdata, fun hroom => (hgoes hroom).congr fun k => ?_⟩
  rw [← get_replay_nil, hhist, get_replay_nil]

theorem Life.compacted (h : Life w hist) {rs rest : List Reply} {res : Status} (hrs : AllClean rs)
    (hrun : ccaskCompactorDumpKeydir.run rs w = .returned res rest w₁)
    (hroom : ∀ id, (w₁.fs.read (fileName id .data)).isSome → id < 2 ^ 31) :
    res = .ok () ∧ GoesOn w₁ hist := by
  obtain ⟨v, hcompact, hdata, hgoes⟩ := h.goesOn
  obtain ⟨rfl, rfl⟩ := hcompact.eq_of_returned hrs hrun
  exact ⟨rfl, hgoes (hroom _ ((hdata _).mpr (Nat.le_refl _)))⟩

/-- A compaction changes no answer of the process that runs it, and neither that process nor a later one
can tell it from one that was not run, as long as the process goes on with steps that do no harm. -/
theorem compaction_transparent (h : Life w hist) {rs rest : List Reply} {res : Status}
    (hrs : AllClean rs) (hrun : ccaskCompactorDumpKeydir.run rs w = .returned res rest w₁)
    (hroom : ∀ id, (w₁.fs.read (fileName id .data)).isSome → id < 2 ^ 31) :
    res = .ok () ∧ GivesPuts w hist ∧
      ∀ ps u, Onwards w₁ ps u → GivesPuts u (hist ++ ps) ∧ Outlives u (hist ++ ps) := by
  obtain ⟨hres, hgoes⟩ := h.compacted hrs hrun hroom
  refine ⟨hres, h.givesPuts, fun ps u hs => ?_⟩
  have hafter := hgoes.steps hs
  exact ⟨hafter.givesPuts, hafter.outlives⟩

/-- The directory does not see a record behind a file without a name. -/
theorem Detached.wrote_unlinked (h : Detached u f rest ino l seg)
    (hdir : u.fs.dir (fileName f.fileId .data) ≠ some ino) (r : DatafileRecord) :
    Detached (Audit.wrote u f.fileId ino r) f rest ino l seg := by
  have hread : (Audit.wrote u f.fileId ino r).fs.read = u.fs.read := by
    funext name
    show (u.fs.dir name).map (u.fs.append ino r.bytes).data = (u.fs.dir name).map u.fs.data
    cases hname : u.fs.dir name with
    | none => rfl
    | some i =>
        have hne : i ≠ ino := by
          rintro rfl
          exact hdir (by rw [← h.alone name hname]; exact hname)
        exact congrArg some (Fs.data_append_of_ne _ _ _ hne)
  refine ⟨⟨h.front.files, h.front.fd, h.front.newest⟩, h.active, h.small, h.inode, h.alone, h.unlocked,
    h.running, h.idle, ⟨⟨?_, ?_, h.stored.good⟩, ?_⟩, h.gapless, ?_, h.nodup, ?_⟩
  · exact ⟨h.stored.disk.sorted, by rw [hread]; exact h.stored.disk.known,
      by rw [hread]; exact h.stored.disk.scans, h.stored.disk.hintable,
      by rw [hread]; exact h.stored.disk.hints, fun name hname => h.stored.disk.tidy name (by rwa [← hread])⟩
  · rw [hread]
    exact h.stored.contents
  · rw [hread]
    exact h.stored.whole
  · rw [hread]
    exact h.hints
  · rw [hread]
    exact h.pending

/-- A put that has room in the newest file is there for the process. -/
theorem GoesOn.put_fits (h : GoesOn u hist) (hp : Good p) (hts : p.timestamp = UInt32.ofNat u.clock)
    (hfront : Front u f rest ino)
    (hfits : (u.fs.data ino).length + p.record.bytes.length ≤ u.maxActiveFileSize.toNat) :
    Computes (ccaskPutBlocking p.key p.value) u (.ok ()) (wrote u f.fileId ino p.record) ∧
      GivesPuts (wrote u f.fileId ino p.record) (hist ++ [p]) := by
  obtain ⟨f', rest', ino', l, seg, hd, -, -, -⟩ := h.detached
  obtain rfl : ino' = ino := by
    obtain ⟨rfl, rfl⟩ := List.cons.inj (hd.front.files.symm.trans hfront.files)
    exact Option.some.inj (hd.front.fd.symm.trans hfront.fd)
  have hwrite : Computes (ccaskWriteRecordBlocking p.record) u (.ok ())
      (wrote u f.fileId ino' p.record) := by
    have hlocks : (u.append ino' p.record.bytes).readLocks = 0 := hd.unlocked
    rw [ccaskWriteRecordBlocking_sections]
    exact (hfront.append_fits hp.value_ne hfits).bind (writeUpsert_computes hlocks _ _)
  have hrecalls : ∀ k, Recalls (wrote u f.fileId ino' p.record) (hist ++ [p]) k := fun k =>
    (h.recalls k).wrote hfront hp hfront hd.inode (RotatesTo.refl _ _) (.inr rfl)
  exact ⟨ccaskPutBlocking_computes hd.running hts hwrite,
    givesPuts_of_get fun key => (hrecalls key.val).get⟩

/-- The next process does not see it when the newest file has no name. -/
theorem GoesOn.forgets (h : GoesOn u hist) (hfront : Front u f rest ino)
    (hdir : u.fs.dir (fileName f.fileId .data) ≠ some ino) (r : DatafileRecord) :
    Outlives (wrote u f.fileId ino r) hist := by
  obtain ⟨f', rest', ino', l, seg, hd, hne, -, hlatest⟩ := h.detached
  obtain ⟨rfl, rfl⟩ := List.cons.inj (hd.front.files.symm.trans hfront.files)
  obtain rfl : ino' = ino := Option.some.inj (hd.front.fd.symm.trans hfront.fd)
  exact ((hd.wrote_unlinked hdir r).outlives hne).congr fun key => lookup_of_latest hlatest key.val

end Answers

section Sample

omit [Zlib] in
theorem length_four_lt (b : UInt8) : [b, b, b, b].length < 2 ^ 32 := by
  simp

/-- A put with a value of four bytes. -/
def longPut (key value : UInt8) : Put :=
  ⟨0, (bytePut 0 key value).key, some ⟨[value, value, value, value], length_four_lt value⟩⟩

omit [Zlib] in
theorem good_longPut (key value : UInt8) : Good (longPut key value) :=
  ⟨List.cons_ne_nil key [], List.cons_ne_nil value _, show 20 + 1 + 4 < 2 ^ 32 by decide⟩

/-- A store with one put. -/
def longWorld : World := afterPut (longPut 97 98) tightWorld

/-- The process after its compaction. It writes on to a file that has no name. -/
def compactedWorld : World :=
  letI := zlib
  after ccaskCompactorDumpKeydir longWorld

/-- After one more put, that has rotated into a file with a name. -/
def movedWorld : World := afterPut (longPut 99 100) compactedWorld

/-- After a third one behind it. -/
def grownWorld : World := afterPut (bytePut 0 101 102) movedWorld

omit [Zlib] in
theorem evaluated_longWorld : letI := zlib
    getsThrough (ccaskInit tightOptions) (World.boot Fs.empty 0) = true ∧ PutsThrough (longPut 97 98) tightWorld ∧
      getsThrough ccaskCompactorDumpKeydir longWorld = true ∧
      (packed [longPut 97 98] longWorld.maxActiveFileSize.toNat).last = 0 := by
  decide +kernel

omit [Zlib] in
theorem evaluated_compactedWorld : compactedWorld.files.map (fun f => (f.fileId, f.fd)) = [(0, some 0)] ∧
    compactedWorld.fs.dir (fileName 0 .data) = some 1 ∧
    compactedWorld.fs.data 1 = compactedWorld.fs.data 0 ∧ (compactedWorld.fs.data 0).length = 21 ∧
    compactedWorld.maxActiveFileSize = 40 ∧ compactedWorld.clock = 0 ∧
    PutsThrough (longPut 99 100) compactedWorld := by
  decide +kernel

omit [Zlib] in
theorem evaluated_movedWorld : movedWorld.files.map (fun f => (f.fileId, f.fd)) = [(1, some 2), (0, none)] ∧
    movedWorld.fs.dir (fileName 1 .data) = some 2 ∧ (movedWorld.fs.data 2).length = 21 ∧
    movedWorld.maxActiveFileSize = 40 ∧ movedWorld.clock = 0 ∧
    PutsThrough (bytePut 0 101 102) movedWorld := by
  decide +kernel

omit [Zlib] in
theorem life_longWorld : letI := zlib; Life longWorld [longPut 97 98] := by
  let _ := zlib
  obtain ⟨hstart, hput, -⟩ := evaluated_longWorld
  obtain ⟨res, rest, hinit⟩ := run_after hstart
  exact .run (.start (fun _ => rfl) lists_emptyOptions allClean_wholeReplies hinit
    (steps_afterPut (.refl tightWorld) (good_longPut 97 98) hput))

omit [Zlib] in
theorem run_compactedWorld : letI := zlib
    ∃ res rest, ccaskCompactorDumpKeydir.run wholeReplies longWorld = .returned res rest compactedWorld := by
  let _ := zlib
  obtain ⟨-, -, hcompact, -⟩ := evaluated_longWorld
  exact run_after hcompact

omit [Zlib] in
/-- The compaction leaves one datafile. -/
theorem data_compactedWorld {i : Nat} (h : (compactedWorld.fs.read (fileName i .data)).isSome) : i = 0 := by
  let _ := zlib
  obtain ⟨-, -, -, hlast⟩ := evaluated_longWorld
  obtain ⟨res, rest, hrun⟩ := run_compactedWorld
  obtain ⟨w₁, hcompact, hdata, -⟩ := Life.goesOn life_longWorld
  obtain ⟨-, rfl⟩ := hcompact.eq_of_returned allClean_wholeReplies hrun
  have hle := (hdata i).mp h
  omega

omit [Zlib] in
theorem room_compactedWorld (i : Nat) (h : (compactedWorld.fs.read (fileName i .data)).isSome) :
    i < 2 ^ 31 := by
  rw [data_compactedWorld h]
  decide

omit [Zlib] in
theorem front_compactedWorld : ∃ f, Front compactedWorld f [] 0 ∧ f.fileId = 0 := by
  obtain ⟨hfiles, -⟩ := evaluated_compactedWorld
  obtain ⟨f, hf, hshape⟩ := List.map_eq_singleton_iff.mp hfiles
  obtain ⟨hid, hfd⟩ := Prod.mk.inj hshape
  exact ⟨f, ⟨hf, hfd, fun g hg => by cases hg⟩, hid⟩

omit [Zlib] in
/-- A put that has no room beside the first one does no harm. -/
theorem putsOn_compactedWorld : PutsOn compactedWorld [99] 21 := by
  obtain ⟨f, hfront, hid⟩ := front_compactedWorld
  obtain ⟨-, hdir, hdata, hsize, hmax, -⟩ := evaluated_compactedWorld
  constructor
  case linked =>
    intro g rest ino hg hfits
    obtain rfl : 0 = ino := Option.some.inj (by
      obtain ⟨rfl, -⟩ := List.cons.inj (hfront.files.symm.trans hg.files)
      exact hfront.fd.symm.trans hg.fd)
    rw [hsize, hmax] at hfits
    exact absurd hfits (by decide)
  case rereads =>
    intro g rest ino hg _ e _ hfile _ ino' hopen
    obtain ⟨rfl, -⟩ := List.cons.inj (hfront.files.symm.trans hg.files)
    rw [hfile, hfront.openFd] at hopen
    obtain rfl : 0 = ino' := Option.some.inj (Option.some.inj hopen)
    rw [hfile, hid]
    exact ⟨1, hdir, by rw [hdata]⟩
  case passed =>
    intro g rest ino hg _ i j c hi hij hc _
    have hzero := data_compactedWorld (Option.isSome_of_eq_some hc)
    omega

omit [Zlib] in
theorem front_movedWorld : ∃ f rest, Front movedWorld f rest 2 ∧ f.fileId = 1 := by
  obtain ⟨hfiles, -⟩ := evaluated_movedWorld
  obtain ⟨f, rest, hf, hshape, hrest⟩ := List.map_eq_cons_iff.mp hfiles
  obtain ⟨hid, hfd⟩ := Prod.mk.inj hshape
  refine ⟨f, rest, ⟨hf, hfd, fun g hg => ?_⟩, hid⟩
  have hshapes := List.mem_map_of_mem (f := fun f => (f.fileId, f.fd)) hg
  rw [hrest, List.mem_singleton] at hshapes
  have hold : g.fileId = 0 := congrArg Prod.fst hshapes
  omega

omit [Zlib] in
/-- Neither does one that has room behind the second one. -/
theorem putsOn_movedWorld : PutsOn movedWorld [101] 18 := by
  obtain ⟨f, l, hfront, hid⟩ := front_movedWorld
  obtain ⟨-, hdir, hsize, hmax, -⟩ := evaluated_movedWorld
  have hnewest : ∀ g rest ino, Front movedWorld g rest ino → f = g ∧ 2 = ino := by
    intro g rest ino hg
    obtain ⟨rfl, -⟩ := List.cons.inj (hfront.files.symm.trans hg.files)
    exact ⟨rfl, Option.some.inj (hfront.fd.symm.trans hg.fd)⟩
  have hfits : ∀ g rest ino, Front movedWorld g rest ino →
      ¬ movedWorld.maxActiveFileSize.toNat < (movedWorld.fs.data ino).length + 18 := by
    intro g rest ino hg
    obtain ⟨-, rfl⟩ := hnewest g rest ino hg
    rw [hsize, hmax]
    decide
  constructor
  case linked =>
    intro g rest ino hg _
    obtain ⟨rfl, rfl⟩ := hnewest g rest ino hg
    rw [hid]
    exact hdir
  case rereads => exact fun g rest ino hg hover => absurd hover (hfits g rest ino hg)
  case passed => exact fun g rest ino hg hover => absurd hover (hfits g rest ino hg)

omit [Zlib] in
theorem onwards_afterPut : letI := zlib
    ∀ {w₀ w : World} {ps : List Put}, Onwards w₀ ps w → ∀ {p : Put}, Good p →
      PutsOn w p.key.bytes (16 + p.key.bytes.length + p.value.bytes.length) → PutsThrough p w →
      Onwards w₀ (ps ++ [p]) (afterPut p w) := by
  let _ := zlib
  intro w₀ w ps h p hp hon hrun
  obtain ⟨hts, hsize, hthrough, -, hroom⟩ := hrun
  obtain ⟨res, rest, hput⟩ := run_after hthrough
  obtain ⟨timestamp, key, value⟩ := p
  obtain ⟨key, rfl⟩ := Option.isSome_iff_exists.mp (Ptr.isSome_of_ne hp.key_ne)
  obtain ⟨value, rfl⟩ := Option.isSome_iff_exists.mp (Ptr.isSome_of_ne hp.value_ne)
  change timestamp = _ at hts
  subst hts
  exact h.tail (.put hp.key_ne hp.value_ne hp.bound hsize hon allClean_wholeReplies hput hroom)

omit [Zlib] in
theorem onwards_movedWorld : letI := zlib; Onwards compactedWorld [longPut 99 100] movedWorld := by
  let _ := zlib
  obtain ⟨-, -, -, -, -, -, hput⟩ := evaluated_compactedWorld
  exact onwards_afterPut (.refl compactedWorld) (good_longPut 99 100) putsOn_compactedWorld hput

omit [Zlib] in
/-- Two puts after a compaction: the first one rotates, and the second one follows it. -/
theorem compaction_transparent_one : letI := zlib
    GivesPuts grownWorld [longPut 97 98, longPut 99 100, bytePut 0 101 102] ∧
      Outlives grownWorld [longPut 97 98, longPut 99 100, bytePut 0 101 102] := by
  let _ := zlib
  obtain ⟨-, -, -, -, -, hput⟩ := evaluated_movedWorld
  obtain ⟨res, rest, hrun⟩ := run_compactedWorld
  obtain ⟨-, -, hon⟩ := compaction_transparent life_longWorld allClean_wholeReplies hrun room_compactedWorld
  exact hon _ _ (onwards_afterPut onwards_movedWorld (good_bytePut 0 101 102) putsOn_movedWorld hput)

omit [Zlib] in
/-- A put right after a compaction that has room is acknowledged and answered, and every start answers
as if it had not been made. -/
theorem compaction_hides_put : letI := zlib
    ∃ w₁ v, Life longWorld [longPut 97 98] ∧ Computes ccaskCompactorDumpKeydir longWorld (.ok ()) w₁ ∧
      Computes (ccaskPutBlocking (bytePut 0 98 99).key (bytePut 0 98 99).value) w₁ (.ok ()) v ∧
      GivesPuts v [longPut 97 98, bytePut 0 98 99] ∧ Outlives v [longPut 97 98] ∧
      ¬ Outlives v [longPut 97 98, bytePut 0 98 99] := by
  let _ := zlib
  obtain ⟨-, hdir, -, hsize, hmax, hclock, -⟩ := evaluated_compactedWorld
  obtain ⟨res, rest, hrun⟩ := run_compactedWorld
  obtain ⟨w₁, hcompact, -⟩ := Life.goesOn life_longWorld
  obtain ⟨-, rfl⟩ := hcompact.eq_of_returned allClean_wholeReplies hrun
  obtain ⟨-, hgoes⟩ := Life.compacted life_longWorld allClean_wholeReplies hrun room_compactedWorld
  obtain ⟨f, hfront, hid⟩ := front_compactedWorld
  obtain ⟨hput, hgives⟩ := hgoes.put_fits (good_bytePut 0 98 99) (by rw [hclock]; rfl) hfront
    (by rw [hsize, hmax, Put.length_record]; decide)
  have hunnamed : compactedWorld.fs.dir (fileName f.fileId .data) ≠ some 0 := by
    rw [hid, hdir]
    decide
  have hforgets := hgoes.forgets hfront hunnamed (bytePut 0 98 99).record
  refine ⟨compactedWorld, _, life_longWorld, hcompact, hput, hgives, hforgets, fun hnew => ?_⟩
  have hsame := hforgets.unique hnew ⟨[98], Nat.one_lt_two_pow (by decide)⟩
  cases hsame

end Sample

end Ccask.Audit
