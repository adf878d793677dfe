import Ccask.Audit.Lookup

/-!
# A store that holds puts

`Holds` ties the files and the key directory to the puts whose records the files start
with, `Appends` to a newest file without anything else in it. Puts, reads, generators and
restarts keep them.
-/

namespace Ccask.Audit

open Ccask.Effect Ccask.Model

section Log

variable {l : List Nat} {seg : Nat → List Put} {L : Nat → List (DatafileRecord × Nat)} {id : Nat}

theorem good_concat {ps : List Put} (hps : ∀ q ∈ ps, Good q) {p : Put} (hp : Good p) :
    ∀ q ∈ ps ++ [p], Good q := by
  intro q hq
  obtain hq | hq := List.mem_append.mp hq
  · exact hps q hq
  · rw [List.mem_singleton.mp hq]
    exact hp

variable [Zlib]

theorem log_cons (id : Nat) (l : List Nat) (seg : Nat → List Put) :
    log (id :: l) seg = log l seg ++ (placed (seg id)).map (Prod.mk id) := by
  simp [log]

theorem log_update (h : id ∉ l) (ps : List Put) : log l (Function.update seg id ps) = log l seg := by
  apply List.flatMap_congr
  intro i hi
  rw [Function.update_of_ne]
  rintro rfl
  exact h (List.mem_reverse.mp hi)

/-- Another put in the newest file is the last one of the log. -/
theorem log_wrote (h : id ∉ l) (p : Put) : log (id :: l) (Function.update seg id (seg id ++ [p])) =
    log (id :: l) seg ++ [(id, p, (written (seg id)).length)] := by
  rw [log_cons, log_cons, log_update h, Function.update_self, placed, locate_append, List.map_append,
    List.append_assoc, Nat.zero_add]
  rfl

/-- A new file changes nothing. -/
theorem log_rotated (h : id ∉ l) : log (id :: l) (Function.update seg id []) = log l seg := by
  rw [log_cons, log_update h, Function.update_self, placed, locate_nil, List.map_nil, List.append_nil]

theorem recordsOf_update (seg : Nat → List Put) (id : Nat) (ps : List Put) :
    recordsOf (Function.update seg id ps) =
      Function.update (recordsOf seg) id (located ps) := by
  funext i
  simp only [recordsOf, Function.update_apply]
  split
  · rfl
  · rfl

theorem written_concat (ps : List Put) (p : Put) : written (ps ++ [p]) = written ps ++ p.record.bytes := by
  simp [written]

theorem Good.size {p : Put} (h : Good p) : p.value.bytes ≠ [] ∧ p.record.bytes.length < 2 ^ 32 := by
  have hbound := h.bound
  refine ⟨h.value_ne, ?_⟩
  rw [p.length_record]
  omega

/-- The records of good puts in a file of less than 2^64 bytes can have hint records. -/
theorem hintable_written {ps : List Put} (hps : ∀ p ∈ ps, Good p) (hlen : (written ps).length < 2 ^ 64) :
    ∀ q ∈ located ps, Hintable q := by
  intro q hq
  obtain ⟨⟨p, pos⟩, hp, rfl⟩ := List.mem_map.mp hq
  obtain ⟨pre, post, hsplit, hpos⟩ := mem_locate hp
  simp only at hsplit hpos
  have hgood := hps p (by rw [hsplit]; simp)
  refine ⟨p.sized.key, hgood.key_ne, ?_, ?_⟩
  · have hbound := hgood.bound
    simp only [Prod.map_apply, Put.record_key]
    omega
  · rw [written, hsplit, layout_append, List.length_append] at hlen
    change pos < 2 ^ 64
    omega

end Log

section Files

variable {w w' : World} {f : CcaskFile} {rest : List CcaskFile}

theorem Mounted.not_mem_rest (h : Mounted w) (hfiles : w.files = f :: rest) :
    f.fileId ∉ rest.map CcaskFile.fileId := by
  intro hin
  obtain ⟨g, hg, hgid⟩ := List.mem_map.mp hin
  have hlt := h.head_gt hfiles g hg
  omega

theorem length_files (h : ids w' = ids w) : w'.files.length = w.files.length := by
  have hlen := congrArg List.length h
  rwa [ids, ids, List.length_map, List.length_map] at hlen

/-- The files are numbered from 0 on. -/
def Numbered (w : World) : Prop := ids w = (List.range w.files.length).reverse

theorem Numbered.transfer (h : Numbered w) (hids : ids w' = ids w) : Numbered w' := by
  rw [Numbered, hids, length_files hids]
  exact h

theorem Numbered.next (h : Numbered w) (hfiles : w.files = f :: rest) : f.fileId + 1 = w.files.length := by
  rw [Numbered, ids_eq hfiles, hfiles, List.length_cons, List.range_succ, List.reverse_append] at h
  rw [(List.cons.inj h).1, hfiles, List.length_cons]

end Files

variable [Zlib]

/-- A directory whose datafiles `l`, newest first, start with the records of the puts `seg id`. -/
structure Stored (fs : Fs) (l : List Nat) (seg : Nat → List Put) : Prop where
  disk : Disk fs l (recordsOf seg)
  contents : ∀ id ∈ l, ∃ tail, fs.read (fileName id .data) = some (written (seg id) ++ tail)
  good : ∀ id ∈ l, ∀ p ∈ seg id, Good p

/-- A store in use over such a directory. -/
structure Holds (w : World) (seg : Nat → List Put) : Prop where
  store : Store w (recordsOf seg)
  contents : ∀ id ∈ ids w, ∃ tail, w.fs.read (fileName id .data) = some (written (seg id) ++ tail)
  table : w.hashTable = Index.replay KeydirRecord.key [] (allEntries (ids w) (recordsOf seg))
  good : ∀ id ∈ ids w, ∀ p ∈ seg id, Good p
  running : w.isShuttingDown = false

/-- Nothing but the records of the puts is in the newest file. -/
structure Appends (w : World) (seg : Nat → List Put) : Prop extends Holds w seg where
  top : ∀ f rest, w.files = f :: rest →
    w.fs.read (fileName f.fileId .data) = some (written (seg f.fileId))

section Steps

variable {w w' : World} {seg : Nat → List Put}

theorem Holds.stored (h : Holds w seg) : Stored w.fs (ids w) seg := ⟨h.store.disk, h.contents, h.good⟩

theorem Holds.serves (h : Holds w seg) : Serves w seg :=
  ⟨h.store.mounted, h.contents, h.table, h.good⟩

/-- A store with the same files and datafiles holds the same puts. -/
theorem Holds.transfer (h : Holds w seg) (hstore : Store w' (recordsOf seg)) (hids : ids w' = ids w)
    (hdata : ∀ id, w'.fs.read (fileName id .data) = w.fs.read (fileName id .data))
    (htable : w'.hashTable = w.hashTable) (hrun : w'.isShuttingDown = false) : Holds w' seg := by
  refine ⟨hstore, ?_, ?_, ?_, hrun⟩
  · intro id hid
    rw [hids] at hid
    rw [hdata]
    exact h.contents id hid
  · rw [htable, hids]
    exact h.table
  · rw [hids]
    exact h.good

theorem Appends.transfer (h : Appends w seg) (h' : Holds w' seg) (hids : ids w' = ids w)
    (hdata : ∀ id, w'.fs.read (fileName id .data) = w.fs.read (fileName id .data)) : Appends w' seg := by
  refine { h' with top := ?_ }
  intro f rest hfiles
  obtain ⟨g, rest', hg, -, -, -⟩ := h.store.mounted.active
  rw [ids_eq hfiles, ids_eq hg] at hids
  rw [hdata, (List.cons.inj hids).1]
  exact h.top g rest' hg

theorem Holds.touched (h : Holds w seg) (ht : Touched w w') (hm : Mounted w') : Holds w' seg :=
  h.transfer (h.store.touched ht hm) ht.ids_eq (fun _ => by rw [ht.fs_eq]) ht.hashTable_eq
    (by rw [ht.same]; exact h.running)

theorem Holds.tick (h : Holds w seg) (now : Nat) : Holds { w with clock := now } seg :=
  h.transfer (h.store.tick now) rfl (fun _ => rfl) rfl h.running

theorem Holds.invalidate (h : Holds w seg) {id : Nat} (hid : id ∈ ids w) :
    Holds (datafileFdInvalidate id w) seg :=
  h.touched (datafileFdInvalidate_touched id w) (h.store.mounted.invalidate hid)

theorem Holds.read_generated (h : Holds w seg) {id : Nat} (hid : id ∈ w.threads) (i : Nat) :
    (generated w id (recordsOf seg id)).fs.read (fileName i .data) = w.fs.read (fileName i .data) := by
  rw [h.store.read_generated hid, Function.update_of_ne (by simp)]

theorem Holds.generated (h : Holds w seg) {id : Nat} (hid : id ∈ w.threads) :
    Holds (generated w id (recordsOf seg id)) seg :=
  h.transfer (h.store.generated hid) (ids_generated w id _) (h.read_generated hid) rfl h.running

end Steps

section Put

variable {w : World} {seg : Nat → List Put} {f : CcaskFile} {rest : List CcaskFile} {p : Put}

/-- A record appended to the active file. -/
theorem Appends.wrote (h : Appends w seg) (hfiles : w.files = f :: rest) {ino : Ino}
    (hdir : w.fs.dir (fileName f.fileId .data) = some ino) (hp : Good p)
    (hlen : (w.fs.data ino).length + p.record.bytes.length < 2 ^ 64) :
    Appends (Audit.wrote w f.fileId ino p.record) (Function.update seg f.fileId (seg f.fileId ++ [p])) := by
  have hids := ids_eq hfiles
  have hmem : f.fileId ∈ ids w := by rw [hids]; exact List.mem_cons_self
  have hnot := h.store.mounted.not_mem_rest hfiles
  have hdata : w.fs.data ino = written (seg f.fileId) := by
    have hc := h.top f rest hfiles
    rw [Fs.read, hdir, Option.map_some] at hc
    exact Option.some.inj hc
  have hgood := good_concat (h.good f.fileId hmem) hp
  have hscan := scan_written fun q hq => (hgood q hq).size
  rw [written_concat, ← hdata] at hscan
  have hshort : (written (seg f.fileId ++ [p])).length < 2 ^ 64 := by
    rw [written_concat, List.length_append, ← hdata]
    exact hlen
  have hread := read_wrote (r := p.record) hdir
  have hhead : (Audit.wrote w f.fileId ino p.record).fs.read (fileName f.fileId .data) =
      some (written (seg f.fileId ++ [p])) := by
    rw [hread, Function.update_self, hdata, written_concat]
  refine ⟨⟨?_, ?_, ?_, ?_, h.running⟩, ?_⟩
  · rw [recordsOf_update]
    exact h.store.wrote hfiles hdir hscan (hintable_written hgood hshort)
  · intro i hi
    by_cases hif : i = f.fileId
    · rw [hif, hhead, Function.update_self]
      exact ⟨[], by rw [List.append_nil]⟩
    · rw [hread, Function.update_of_ne (by simpa using hif), Function.update_of_ne hif]
      exact h.contents i hi
  · change Index.put KeydirRecord.key _ w.hashTable = Index.replay KeydirRecord.key []
      (allEntries (ids w) _)
    rw [hids, ← map_log_entry, log_wrote hnot, List.map_append, map_log_entry, ← hids,
      List.map_singleton, Index.replay_concat, ← h.table, hdata, datafileEntry_record]
    rfl
  · intro i hi q hq
    by_cases hif : i = f.fileId
    · rw [hif, Function.update_self] at hq
      exact hgood q hq
    · rw [Function.update_of_ne hif] at hq
      exact h.good i hi q hq
  · intro g rest' hg
    have hfg : f = g := (List.cons.inj (hfiles.symm.trans hg)).1
    rw [← hfg, hhead, Function.update_self]

/-- A rotation leaves the old files, whatever the last one ends with, and starts an empty one. -/
theorem Holds.rotated (h : Holds w seg) (hfiles : w.files = f :: rest)
    (hid : f.fileId + 1 < 2 ^ 31) :
    Appends (Audit.rotated w f rest) (Function.update seg (f.fileId + 1) []) := by
  have hids := ids_rotated (w := w) hfiles
  have hold : ∀ i ∈ ids w, i ≠ f.fileId + 1 := by
    intro i hi heq
    have hsome := (h.store.disk.known i).mp hi
    rw [heq, h.store.mounted.next_absent hfiles] at hsome
    cases hsome
  have hnot : f.fileId + 1 ∉ ids w := fun hin => hold _ hin rfl
  have hread := read_rotated h.store.mounted hfiles
  refine ⟨⟨?_, ?_, ?_, ?_, h.running⟩, ?_⟩
  · rw [recordsOf_update]
    exact h.store.rotated hfiles hid
  · intro i hi
    rw [hids, List.mem_cons] at hi
    rw [hread]
    obtain rfl | hi := hi
    · rw [Function.update_self, Function.update_self]
      exact ⟨[], rfl⟩
    · rw [Function.update_of_ne (by simpa using hold i hi), Function.update_of_ne (hold i hi)]
      exact h.contents i hi
  · rw [hids, ← map_log_entry, log_rotated hnot, map_log_entry]
    exact h.table
  · intro i hi q hq
    rw [hids, List.mem_cons] at hi
    obtain rfl | hi := hi
    · rw [Function.update_self] at hq
      cases hq
    · rw [Function.update_of_ne (hold i hi)] at hq
      exact h.good i hi q hq
  · intro g rest' hg
    obtain ⟨rfl, -⟩ := List.cons.inj hg
    rw [hread, Function.update_self, Function.update_self]
    rfl

/-- The call comes down to writing the record of the put. -/
theorem ccaskPutBlocking_computes (hrun : w.isShuttingDown = false)
    (hts : p.timestamp = UInt32.ofNat w.clock) {w' : World}
    (hwrite : Computes (ccaskWriteRecordBlocking p.record) w (.ok ()) w') :
    Computes (ccaskPutBlocking p.key p.value) w (.ok ()) w' := by
  refine Computes.state_bind ?_
  rw [hrun, if_neg Bool.false_ne_true, ← hts]
  exact (ccaskCreateDatafileRecord_computes _ _ _).bind (hwrite.bind (Computes.pure _))

theorem Holds.putBlocking (h : Holds w seg) (hts : p.timestamp = UInt32.ofNat w.clock) {w' : World}
    (hwrite : Computes (ccaskWriteRecordBlocking p.record) w (.ok ()) w') :
    Computes (ccaskPutBlocking p.key p.value) w (.ok ()) w' :=
  ccaskPutBlocking_computes h.running hts hwrite

/-- A put that fits into the newest file goes behind its records. -/
theorem Appends.put_fits (h : Appends w seg) (hp : Good p) (hts : p.timestamp = UInt32.ofNat w.clock)
    (hfiles : w.files = f :: rest) {ino : Ino}
    (hdir : w.fs.dir (fileName f.fileId .data) = some ino)
    (hfits : (w.fs.data ino).length + p.record.bytes.length ≤ w.maxActiveFileSize.toNat) :
    Computes (ccaskPutBlocking p.key p.value) w (.ok ()) (Audit.wrote w f.fileId ino p.record) ∧
    ∃ seg' pos, Appends (Audit.wrote w f.fileId ino p.record) seg' ∧
      log (ids w) seg' = log (ids w) seg ++ [(f.fileId, p, pos)] := by
  have hmax := w.maxActiveFileSize.toNat_lt
  have hlog : log (f.fileId :: rest.map CcaskFile.fileId)
      (Function.update seg f.fileId (seg f.fileId ++ [p])) =
        log (f.fileId :: rest.map CcaskFile.fileId) seg ++ [(f.fileId, p, (written (seg f.fileId)).length)] :=
    log_wrote (h.store.mounted.not_mem_rest hfiles) p
  rw [← ids_eq hfiles] at hlog
  refine ⟨h.putBlocking hts ?_, _, _, h.wrote hfiles hdir hp (by omega), hlog⟩
  exact ccaskWriteRecordBlocking_fits h.store.mounted hfiles hdir h.store.unlocked hp.value_ne hfits

/-- A put that does not fit goes to the start of a new file. -/
theorem Holds.put_rotates (h : Holds w seg) (hp : Good p) (hts : p.timestamp = UInt32.ofNat w.clock)
    (hfiles : w.files = f :: rest) {ino : Ino}
    (hdir : w.fs.dir (fileName f.fileId .data) = some ino)
    (hfull : w.maxActiveFileSize.toNat < (w.fs.data ino).length + p.record.bytes.length)
    (hsize : p.record.bytes.length ≤ w.maxActiveFileSize.toNat) :
    Computes (ccaskPutBlocking p.key p.value) w (.ok ()) (Audit.wrote (Audit.rotated w f rest)
      (f.fileId + 1) (w.fs.create (fileName (f.fileId + 1) .data)).2 p.record) ∧
    (f.fileId + 1 < 2 ^ 31 → ∃ seg' pos, Appends (Audit.wrote (Audit.rotated w f rest) (f.fileId + 1)
        (w.fs.create (fileName (f.fileId + 1) .data)).2 p.record) seg' ∧
      log (ids (Audit.rotated w f rest)) seg' = log (ids w) seg ++ [(f.fileId + 1, p, pos)]) := by
  have hmax := w.maxActiveFileSize.toNat_lt
  have hmem : f.fileId ∈ ids w := by rw [ids_eq hfiles]; exact List.mem_cons_self
  have hsmall := h.store.disk.small hmem
  refine ⟨h.putBlocking hts ?_, ?_⟩
  · exact ccaskWriteRecordBlocking_rotates h.store.mounted hfiles hdir (by omega) h.store.unlocked
      hp.value_ne hfull hsize
  · intro hid
    have hrot := h.rotated hfiles hid
    have hnot : f.fileId + 1 ∉ ids w := by
      intro hin
      have hsome := (h.store.disk.known _).mp hin
      rw [h.store.mounted.next_absent hfiles] at hsome
      cases hsome
    have hlog : ∀ s : Nat → List Put, log ((f.fileId + 1) :: ids w)
        (Function.update s (f.fileId + 1) (s (f.fileId + 1) ++ [p])) = log ((f.fileId + 1) :: ids w) s ++
          [(f.fileId + 1, p, (written (s (f.fileId + 1))).length)] := fun s => log_wrote hnot p
    have hlog := hlog (Function.update seg (f.fileId + 1) [])
    rw [log_rotated hnot, ← ids_rotated hfiles] at hlog
    refine ⟨_, _, hrot.wrote rfl (Fs.dir_create_self _ _) hp ?_, hlog⟩
    rw [data_rotated h.store.mounted hfiles, List.length_nil]
    omega

/-- A put that its size allows returns CCASK_OK, and the store then holds it as the last one, as
long as there are ids for files. When the newest file ends with something else than records, the
put has to go to a new file. -/
theorem Holds.put (h : Holds w seg) (hp : Good p) (hts : p.timestamp = UInt32.ofNat w.clock)
    (hfiles : w.files = f :: rest) {c : Bytes} (hc : w.fs.read (fileName f.fileId .data) = some c)
    (htop : Appends w seg ∨ w.maxActiveFileSize.toNat < c.length + p.record.bytes.length)
    (hsize : p.record.bytes.length ≤ w.maxActiveFileSize.toNat) :
    ∃ w', Computes (ccaskPutBlocking p.key p.value) w (.ok ()) w' ∧
      (ids w' = ids w ∨ ids w' = (f.fileId + 1) :: ids w) ∧
      w'.maxActiveFileSize = w.maxActiveFileSize ∧
      (f.fileId + 1 < 2 ^ 31 → ∃ seg' id pos, Appends w' seg' ∧
        log (ids w') seg' = log (ids w) seg ++ [(id, p, pos)]) := by
  obtain ⟨ino, hdir, rfl⟩ := Fs.exists_of_read hc
  by_cases hfits : (w.fs.data ino).length + p.record.bytes.length ≤ w.maxActiveFileSize.toNat
  · obtain h | hfull := htop
    · obtain ⟨hput, seg', pos, happends, hlog⟩ := h.put_fits hp hts hfiles hdir hfits
      exact ⟨_, hput, .inl rfl, rfl, fun _ => ⟨seg', _, pos, happends, hlog⟩⟩
    · omega
  · obtain ⟨hput, hafter⟩ := h.put_rotates hp hts hfiles hdir (Nat.lt_of_not_le hfits) hsize
    refine ⟨_, hput, .inr (ids_rotated hfiles), rfl, fun hid => ?_⟩
    obtain ⟨seg', pos, happends, hlog⟩ := hafter hid
    exact ⟨seg', _, pos, happends, hlog⟩

/-- In a store whose files are numbered from 0 on. -/
theorem Appends.put (h : Appends w seg) (hp : Good p) (hts : p.timestamp = UInt32.ofNat w.clock)
    (hsize : p.record.bytes.length ≤ w.maxActiveFileSize.toNat) :
    ∃ w', Computes (ccaskPutBlocking p.key p.value) w (.ok ()) w' ∧
      w'.files.length ≤ w.files.length + 1 ∧ (Numbered w → w'.files.length < 2 ^ 31 →
        ∃ seg', Appends w' seg' ∧ Numbered w' ∧ history (ids w') seg' = history (ids w) seg ++ [p]) := by
  obtain ⟨f, rest, hfiles, -, -, -⟩ := h.store.mounted.active
  obtain ⟨w', hput, hids, -, hafter⟩ := h.toHolds.put hp hts hfiles (h.top f rest hfiles) (.inl h) hsize
  have hlen : w'.files.length = (ids w').length := (List.length_map _).symm
  have hlen' : w.files.length = (ids w).length := (List.length_map _).symm
  refine ⟨w', hput, ?_, fun hnum hroom => ?_⟩
  · rw [hlen, hlen']
    obtain hids | hids := hids
    · rw [hids]
      exact Nat.le_succ _
    · rw [hids, List.length_cons]
  · have hnext := hnum.next hfiles
    have hle : w.files.length ≤ w'.files.length := by
      rw [hlen, hlen']
      obtain hids | hids := hids
      · rw [hids]
      · rw [hids, List.length_cons]
        exact Nat.le_succ _
    obtain ⟨seg', id, pos, happends, hlog⟩ := hafter (by omega)
    refine ⟨seg', happends, ?_, ?_⟩
    · obtain hids | hids := hids
      · exact hnum.transfer hids
      · rw [Numbered, hlen, hids, List.length_cons, ← hlen', List.range_succ, List.reverse_append,
          hnext, hnum]
        rfl
    · rw [← map_log_put, hlog, List.map_append, map_log_put]
      rfl

end Put

section Restart

variable {w : World} {seg : Nat → List Put} {opts : CcaskOptions}

/-- A start on such a directory serves the puts. -/
theorem Stored.init {id : Nat} {tl : List Nat} (h : Stored w.fs (id :: tl) seg)
    (hlists : Lists opts.listing w.fs) :
    ∃ w', Computes (ccaskInit opts) w (.ok ()) w' ∧ Serves w' seg ∧ Started opts w' ∧ w'.fs = w.fs ∧
      w'.clock = w.clock ∧ ids w' = id :: tl := by
  obtain ⟨w', hinit, hstarted, hfs, hclock, hids, htable⟩ := ccaskInit_computes h.disk hlists
  refine ⟨w', hinit, ⟨hstarted.mounted, ?_, ?_, ?_⟩, hstarted, hfs, hclock, hids⟩
  · rw [hids, hfs]
    exact h.contents
  · rw [hids]
    exact htable
  · rw [hids]
    exact h.good

/-- The store that has been started holds them, unless a hint file without a datafile lies about. -/
theorem Started.holds (h : Started opts w) (hserves : Serves w seg) (hstored : Stored w.fs (ids w) seg)
    (hcurrent : ∀ id, (w.fs.read (fileName id .hint)).isSome → id ∈ ids w) : Holds w seg :=
  ⟨h.store hstored.disk hcurrent, hserves.contents, hserves.table, hserves.good, h.running⟩

/-- The hint files of the older files do not matter. -/
theorem Stored.restaged {fs fs' : Fs} {l : List Nat} (h : Stored fs l seg) (hr : Restaged fs fs') :
    Stored fs' l seg ∧ ∀ id, (fs'.read (fileName id .hint)).isSome → id ∈ l := by
  obtain ⟨hdisk, hcurrent⟩ := h.disk.restaged hr
  refine ⟨⟨hdisk, fun id hid => ?_, h.good⟩, hcurrent⟩
  rw [hr.data]
  exact h.contents id hid

/-- A clean shutdown leaves a directory with the puts. -/
theorem Stored.shutdown (h : Stored w.fs (ids w) seg) (hstore : Store w (recordsOf seg)) :
    ∃ w₁, Computes ccaskShutdown w () w₁ ∧ ∀ fs, Restaged w₁.fs fs → Stored fs (ids w) seg ∧
      (∀ id, (fs.read (fileName id .hint)).isSome → id ∈ ids w) ∧
      ∀ id, fs.read (fileName id .data) = w.fs.read (fileName id .data) := by
  obtain ⟨w₁, hdown, hdisk, hdata, -⟩ := ccaskShutdown_computes hstore
  have hstored : Stored w₁.fs (ids w) seg := by
    refine ⟨hdisk, fun id hid => ?_, h.good⟩
    rw [hdata]
    exact h.contents id hid
  refine ⟨w₁, hdown, fun fs hr => ?_⟩
  obtain ⟨hstored', hcurrent⟩ := hstored.restaged hr
  exact ⟨hstored', hcurrent, fun id => by rw [hr.data, hdata]⟩

/-- A start after it gives a store with the same puts, whatever the key directory was. -/
theorem Stored.restart (h : Stored w.fs (ids w) seg) (hstore : Store w (recordsOf seg)) :
    ∃ w₁, Computes ccaskShutdown w () w₁ ∧ ∀ w₂ opts, Restaged w₁.fs w₂.fs →
      Lists opts.listing w₂.fs → ∃ w₃, Computes (ccaskInit opts) w₂ (.ok ()) w₃ ∧ Holds w₃ seg ∧
        ids w₃ = ids w ∧ w₃.fs = w₂.fs ∧
        ∀ id, w₃.fs.read (fileName id .data) = w.fs.read (fileName id .data) := by
  obtain ⟨w₁, hdown, hafter⟩ := h.shutdown hstore
  refine ⟨w₁, hdown, ?_⟩
  intro w₂ opts hr hlists
  obtain ⟨hstored, hcurrent, hdata⟩ := hafter w₂.fs hr
  obtain ⟨f, rest, hfiles, -, -, -⟩ := hstore.mounted.active
  rw [ids_eq hfiles] at hstored hcurrent ⊢
  obtain ⟨w₃, hinit, hserves, hstarted, hfs, -, hids⟩ := hstored.init hlists
  rw [← hfs, ← hids] at hstored hcurrent
  refine ⟨w₃, hinit, hstarted.holds hserves hstored hcurrent, hids, hfs, fun id => ?_⟩
  rw [hfs]
  exact hdata id

theorem Holds.shutdown (h : Holds w seg) : ∃ w₁, Computes ccaskShutdown w () w₁ ∧
    ∀ fs, Restaged w₁.fs fs → Stored fs (ids w) seg ∧
      (∀ id, (fs.read (fileName id .hint)).isSome → id ∈ ids w) ∧
      ∀ id, fs.read (fileName id .data) = w.fs.read (fileName id .data) :=
  h.stored.shutdown h.store

theorem Holds.restart (h : Holds w seg) : ∃ w₁, Computes ccaskShutdown w () w₁ ∧
    ∀ w₂ opts, Restaged w₁.fs w₂.fs → Lists opts.listing w₂.fs →
      ∃ w₃, Computes (ccaskInit opts) w₂ (.ok ()) w₃ ∧ Holds w₃ seg ∧ ids w₃ = ids w ∧
        w₃.fs = w₂.fs ∧ ∀ id, w₃.fs.read (fileName id .data) = w.fs.read (fileName id .data) :=
  h.stored.restart h.store

/-- A start on an empty directory gives a store without puts. -/
theorem Appends.first (w : World) (hempty : ∀ name, w.fs.read name = none) (opts : CcaskOptions)
    (hlists : Lists opts.listing w.fs) :
    ∃ w', Computes (ccaskInit opts) w (.ok ()) w' ∧ Appends w' (fun _ => []) ∧ ids w' = [0] ∧
      w'.fs.read = Function.update w.fs.read (fileName 0 .data) (some []) ∧ Started opts w' ∧
      w'.clock = w.clock := by
  have htidy : Tidy w.fs := by
    intro name hname
    rw [hempty] at hname
    cases hname
  obtain ⟨w', hinit, hstarted, hdisk, hread, hclock, hids, htable⟩ :=
    ccaskInit_empty hlists htidy (fun _ => hempty _) (hempty _)
  have hzero : w'.fs.read (fileName 0 .data) = some (written []) := by
    rw [hread, Function.update_self]
    rfl
  refine ⟨w', hinit, ⟨⟨hstarted.store hdisk ?_, ?_, ?_, ?_, hstarted.running⟩, ?_⟩, hids, hread,
    hstarted, hclock⟩
  · intro id hid
    rw [hread, Function.update_of_ne (by simp), hempty] at hid
    cases hid
  · intro id hid
    rw [hids, List.mem_singleton] at hid
    exact ⟨[], by rw [hid, List.append_nil]; exact hzero⟩
  · rw [htable, hids]
    rfl
  · intro id _ p hp
    cases hp
  · intro f rest hfiles
    rw [ids_eq hfiles] at hids
    rw [(List.cons.inj hids).1]
    exact hzero

end Restart

end Ccask.Audit
