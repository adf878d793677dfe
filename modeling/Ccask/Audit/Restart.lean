import Ccask.Audit.Mount
import Ccask.Audit.Scan

/-!
# From a directory to a mounted store

`ccask_init` on a directory whose datafiles can be scanned to their end, and whose
hint files are complete, mounts it and fills the key directory with the entries of all
records, from the oldest file on.
-/

namespace Ccask.Audit

open Ccask.Effect Ccask.Model

/-- Only files of the library, with ids that an `int` holds, lie in the directory. -/
def Tidy (fs : Fs) : Prop :=
  ∀ name, (fs.read name).isSome → ∃ id ext, id < 2 ^ 31 ∧ ext ≠ .unknown ∧ name = fileName id ext

/-- An order in which `readdir` may give the entries of the directory. -/
structure Lists (listing : List Name) (fs : Fs) : Prop where
  nodup : listing.Nodup
  mem : ∀ name, name ∈ listing ↔ name = ['.'] ∨ name = ['.', '.'] ∨ (fs.read name).isSome

/-- A directory with the datafiles `l`, newest first, in which the iterator finds the records
`L id`; a hint file of a datafile is complete, and the newest has none. -/
structure Disk (fs : Fs) (l : List Nat) (L : Nat → List (DatafileRecord × Nat)) : Prop where
  sorted : l.Pairwise (· > ·)
  known : ∀ id, id ∈ l ↔ (fs.read (fileName id .data)).isSome
  scans : ∀ id ∈ l, ∃ c, fs.read (fileName id .data) = some c ∧ Scan (recordAt c) 0 (L id)
  hintable : ∀ id ∈ l, ∀ p ∈ L id, Hintable p
  hints : ∀ id ∈ l, ∀ c, fs.read (fileName id .hint) = some c → id ∈ l.tail ∧ c = hints (L id)
  tidy : Tidy fs

section Scan

variable {w : World}

/-- The id of a name that stands for a datafile. -/
def dataId (name : Name) : Option Nat :=
  match parseFilename name with
  | some (.data, id) => some id
  | _ => none

theorem dataId_fileName {id : Nat} {ext : FileExt} (hid : id < 2 ^ 31) (hext : ext ≠ .unknown) :
    dataId (fileName id ext) = if ext = .data then some id else none := by
  cases ext with
  | unknown => exact absurd rfl hext
  | data => rw [dataId, parseFilename_data hid]; rfl
  | hint => rw [dataId, parseFilename_hint hid]; rfl
  | tempData =>
      obtain ⟨i, hi⟩ := parseFilename_tempData id
      rw [dataId, hi]
      rfl

/-- The node for a datafile that the directory scan finds. -/
def scannedNode (w : World) (id : Nat) : CcaskFile :=
  datafileNode id (w.fs.read (fileName id .hint)).isSome w.clock

theorem scanEntry_computes {name : Name} (hname : name = ['.'] ∨ name = ['.', '.'] ∨
    ∃ id ext, id < 2 ^ 31 ∧ ext ≠ .unknown ∧ name = fileName id ext) :
    Computes (scanEntry name) w () { w with files := match dataId name with
      | some id => addFile (scannedNode w id) w.files
      | none => w.files } := by
  unfold scanEntry
  by_cases hdots : name = ['.'] ∨ name = ['.', '.']
  · rw [if_pos hdots]
    obtain rfl | rfl := hdots
    · exact Computes.pure _
    · exact Computes.pure _
  · rw [if_neg hdots]
    obtain ⟨id, ext, hid, hext, rfl⟩ : ∃ id ext, id < 2 ^ 31 ∧ ext ≠ .unknown ∧
        name = fileName id ext := by
      obtain h | h | h := hname
      · exact absurd (.inl h) hdots
      · exact absurd (.inr h) hdots
      · exact h
    rw [dataId_fileName hid hext]
    refine call_clean (fun _ => rfl) ?_
    cases ext with
    | unknown => exact absurd rfl hext
    | data =>
        simp only [parseFilename_data hid, if_true]
        refine malloc_computes.bind ?_
        rw [scannedNode, Fs.isSome_read]
        exact Computes.modify _
    | hint =>
        simp only [parseFilename_hint hid]
        exact Computes.pure _
    | tempData =>
        obtain ⟨i, hi⟩ := parseFilename_tempData id
        simp only [hi]
        exact Computes.pure _

/-- The file list the directory scan builds. -/
def scannedFiles (w : World) (l : List Nat) : List CcaskFile :=
  l.foldl (fun files id => addFile (scannedNode w id) files) w.files

theorem scanDirectory_computes {listing : List Name} (h : ∀ name ∈ listing, name = ['.'] ∨
    name = ['.', '.'] ∨ ∃ id ext, id < 2 ^ 31 ∧ ext ≠ .unknown ∧ name = fileName id ext) :
    Computes (scanDirectory listing) w ()
      { w with files := scannedFiles w (listing.filterMap dataId) } := by
  induction listing generalizing w with
  | nil => exact Computes.pure _
  | cons name names ih =>
      have hrest := ih (w := { w with files := match dataId name with
        | some id => addFile (scannedNode w id) w.files
        | none => w.files }) fun n hn => h n (List.mem_cons_of_mem _ hn)
      refine (scanEntry_computes (h name List.mem_cons_self)).bind ?_
      cases hd : dataId name with
      | none =>
          rw [hd] at hrest
          rwa [List.filterMap_cons_none hd]
      | some id =>
          rw [hd] at hrest
          rwa [List.filterMap_cons_some hd]

theorem mem_linkFile {f g : CcaskFile} {files : List CcaskFile} :
    g ∈ linkFile f files ↔ g = f ∨ g ∈ files := by
  induction files with
  | nil => simp [linkFile]
  | cons c files ih =>
      rw [linkFile]
      split
      · rw [List.mem_cons, ih, List.mem_cons]
        tauto
      · rw [List.mem_cons]

theorem mem_addFile {f g : CcaskFile} {files : List CcaskFile} :
    g ∈ addFile f files ↔ g = f ∨ g ∈ files := by
  cases files with
  | nil => simp [addFile]
  | cons c files =>
      rw [addFile]
      split
      · rw [List.mem_cons, List.mem_cons, List.mem_cons]
        tauto
      · exact mem_linkFile

theorem sorted_addFile {f : CcaskFile} {files : List CcaskFile}
    (h : (files.map CcaskFile.fileId).Pairwise (· > ·)) (hf : f.fileId ∉ files.map CcaskFile.fileId) :
    ((addFile f files).map CcaskFile.fileId).Pairwise (· > ·) := by
  rw [addFile_eq_linkFile hf]
  induction files with
  | nil => exact List.pairwise_singleton _ _
  | cons c files ih =>
      rw [List.map_cons, List.pairwise_cons] at h
      rw [List.map_cons, List.mem_cons, not_or] at hf
      rw [linkFile]
      split
      · rename_i hlt
        rw [List.map_cons, List.pairwise_cons]
        refine ⟨?_, ih h.2 hf.2⟩
        intro id hid
        obtain ⟨g, hg, rfl⟩ := List.mem_map.mp hid
        obtain rfl | hg := mem_linkFile.mp hg
        · exact hlt
        · exact h.1 _ (List.mem_map_of_mem hg)
      · rename_i hge
        rw [List.map_cons, List.map_cons, List.pairwise_cons, List.pairwise_cons]
        refine ⟨?_, h⟩
        intro id hid
        obtain rfl | hid := List.mem_cons.mp hid
        · exact lt_of_le_of_ne (Nat.le_of_not_lt hge) (Ne.symm hf.1)
        · exact lt_of_lt_of_le (h.1 id hid) (Nat.le_of_not_lt hge)

/-- The scan finds each datafile once, in descending order. -/
theorem scannedFiles_spec {l : List Nat} (hl : l.Nodup) (hfiles : w.files = []) :
    ((scannedFiles w l).map CcaskFile.fileId).Pairwise (· > ·) ∧
      ∀ g, g ∈ scannedFiles w l ↔ ∃ id ∈ l, g = scannedNode w id := by
  induction l using List.reverseRecOn with
  | nil =>
      rw [scannedFiles, List.foldl_nil, hfiles]
      exact ⟨List.Pairwise.nil, by simp⟩
  | append_singleton l id ih =>
      obtain ⟨hl', -, hid⟩ := List.nodup_append.mp hl
      obtain ⟨hsorted, hmem⟩ := ih hl'
      have hstep : scannedFiles w (l ++ [id]) = addFile (scannedNode w id) (scannedFiles w l) := by
        rw [scannedFiles, List.foldl_append]
        rfl
      rw [hstep]
      refine ⟨sorted_addFile hsorted ?_, ?_⟩
      · intro h
        obtain ⟨g, hg, hgid⟩ := List.mem_map.mp h
        obtain ⟨i, hi, rfl⟩ := (hmem g).mp hg
        exact hid i hi id (List.mem_singleton_self id) hgid
      · intro g
        rw [mem_addFile, hmem]
        constructor
        · intro h
          obtain rfl | ⟨i, hi, rfl⟩ := h
          · exact ⟨id, by simp, rfl⟩
          · exact ⟨i, List.mem_append_left _ hi, rfl⟩
        · intro h
          obtain ⟨i, hi, rfl⟩ := h
          obtain hi | hi := List.mem_append.mp hi
          · exact .inr ⟨i, hi, rfl⟩
          · exact .inl (by rw [List.mem_singleton.mp hi])

section Listing

variable {listing : List Name} {fs : Fs}

theorem Lists.named (hlists : Lists listing fs) (htidy : Tidy fs) : ∀ name ∈ listing,
    name = ['.'] ∨ name = ['.', '.'] ∨
      ∃ id ext, id < 2 ^ 31 ∧ ext ≠ .unknown ∧ name = fileName id ext := by
  intro name hname
  obtain h | h | h := (hlists.mem name).mp hname
  · exact .inl h
  · exact .inr (.inl h)
  · exact .inr (.inr (htidy name h))

/-- A listed name with an id is the name of that datafile. -/
theorem eq_of_dataId (hlists : Lists listing fs) (htidy : Tidy fs) {name : Name} {id : Nat}
    (hmem : name ∈ listing) (hid : dataId name = some id) : name = fileName id .data := by
  obtain rfl | rfl | ⟨i, ext, hi, hext, rfl⟩ := hlists.named htidy name hmem
  · cases hid
  · cases hid
  · rw [dataId_fileName hi hext] at hid
    split at hid
    · rename_i he
      cases hid
      rw [he]
    · cases hid

/-- The ids the scan finds are those of the datafiles in the directory. -/
theorem mem_filterMap_dataId (hlists : Lists listing fs) (htidy : Tidy fs) {id : Nat} :
    id ∈ listing.filterMap dataId ↔ (fs.read (fileName id .data)).isSome := by
  rw [List.mem_filterMap]
  constructor
  · intro h
    obtain ⟨name, hmem, hid⟩ := h
    have heq := eq_of_dataId hlists htidy hmem hid
    subst heq
    obtain h | h | h := (hlists.mem _).mp hmem
    · rw [h] at hid
      cases hid
    · rw [h] at hid
      cases hid
    · exact h
  · intro h
    obtain ⟨i, ext, hi, hext, heq⟩ := htidy _ h
    obtain ⟨rfl, rfl⟩ := fileName_inj.mp heq
    refine ⟨fileName id .data, (hlists.mem _).mpr (.inr (.inr h)), ?_⟩
    rw [dataId_fileName hi hext]
    rfl

theorem nodup_filterMap_dataId (hlists : Lists listing fs) (htidy : Tidy fs) :
    (listing.filterMap dataId).Nodup := by
  rw [List.Nodup, List.pairwise_filterMap]
  apply hlists.nodup.imp_of_mem
  intro m n hm hn hne id hid id' hid' heq
  apply hne
  rw [eq_of_dataId hlists htidy hm hid, eq_of_dataId hlists htidy hn hid', heq]

/-- Two strictly descending lists with the same members are the same. -/
theorem eq_of_sorted {l l' : List Nat} (h : l.Pairwise (· > ·)) (h' : l'.Pairwise (· > ·))
    (hmem : ∀ id, id ∈ l ↔ id ∈ l') : l = l' := by
  have hperm : l.Perm l' := (List.perm_ext_iff_of_nodup (h.imp Nat.ne_of_gt)
    (h'.imp Nat.ne_of_gt)).mpr hmem
  exact hperm.eq_of_pairwise (fun a b _ _ hab hba => absurd hab (Nat.lt_asymm hba)) h h'

end Listing

end Scan

section Open

variable {w : World} {listing : List Name}

/-- The scan of a tidy directory gives a node for each datafile. -/
theorem scan_directory {l : List Nat} (hlists : Lists listing w.fs) (htidy : Tidy w.fs)
    (hfiles : w.files = []) (hsorted : l.Pairwise (· > ·))
    (hknown : ∀ id, id ∈ l ↔ (w.fs.read (fileName id .data)).isSome) :
    Computes (scanDirectory listing) w () { w with files := l.map (scannedNode w) } := by
  have hscan := scanDirectory_computes (w := w) (hlists.named htidy)
  obtain ⟨hs, hmem⟩ := scannedFiles_spec (w := w) (nodup_filterMap_dataId hlists htidy) hfiles
  have hids : (scannedFiles w (listing.filterMap dataId)).map CcaskFile.fileId = l := by
    apply eq_of_sorted hs hsorted
    intro id
    rw [hknown, ← mem_filterMap_dataId hlists htidy]
    constructor
    · intro h
      obtain ⟨g, hg, rfl⟩ := List.mem_map.mp h
      obtain ⟨i, hi, rfl⟩ := (hmem g).mp hg
      exact hi
    · intro h
      exact List.mem_map.mpr ⟨scannedNode w id, (hmem _).mpr ⟨id, h, rfl⟩, rfl⟩
  have hnodes : scannedFiles w (listing.filterMap dataId) = l.map (scannedNode w) := by
    rw [← hids, List.map_map]
    symm
    rw [List.map_congr_left (g := id), List.map_id]
    intro g hg
    obtain ⟨i, -, rfl⟩ := (hmem g).mp hg
    rfl
  rwa [hnodes] at hscan

/-- The file list after a mount: the newest file is open for writing. -/
def mountedFiles (w : World) (id : Nat) (ino : Ino) (tl : List Nat) : List CcaskFile :=
  { scannedNode w id with isActive := true, fd := some ino } :: tl.map (scannedNode w)

theorem ccaskFilesInit_computes (threshold : UInt64) {id : Nat} {tl : List Nat} {ino : Ino}
    (hlists : Lists listing w.fs) (htidy : Tidy w.fs) (hsorted : (id :: tl).Pairwise (· > ·))
    (hknown : ∀ i, i ∈ id :: tl ↔ (w.fs.read (fileName i .data)).isSome)
    (hhint : w.fs.read (fileName id .hint) = none)
    (hdir : w.fs.dir (fileName id .data) = some ino) :
    Computes (ccaskFilesInit listing threshold) w (.ok ())
      { w with maxActiveFileSize := threshold, files := mountedFiles w id ino tl } := by
  have hscan := scan_directory (w := { w with maxActiveFileSize := threshold, files := [] })
    hlists htidy rfl hsorted hknown
  refine Computes.modify_bind (call_clean (fun _ => rfl) (malloc_computes.bind ?_))
  refine Computes.modify_bind (hscan.bind (Computes.state_bind ?_))
  simp only [List.map_cons]
  have hnohint : (scannedNode { w with maxActiveFileSize := threshold, files := [] } id).hasHint =
      false := by
    simp only [scannedNode, datafileNode, hhint, Option.isSome_none]
  rw [hnohint]
  have hopen : Computes (ccaskFilesGetActiveDatafileFd id)
      { w with maxActiveFileSize := threshold, files := (id :: tl).map (scannedNode w) } (.ok ino) _ :=
    openCreate_of_some hdir
  refine (attempt_computes hopen (by simp)).bind (Computes.modify_bind ?_)
  have hfiles : (World.setFile { w with maxActiveFileSize := threshold
                                        files := (id :: tl).map (scannedNode w) } id
      fun file => { file with isActive := true, fd := some ino }).files = mountedFiles w id ino tl := by
    have hself : (scannedNode w id).fileId = id := rfl
    simp only [World.setFile, mountedFiles, List.map_cons, List.map_map, hself, if_true]
    congr 1
    apply List.map_congr_left
    intro i hi
    have hlt := (List.pairwise_cons.mp hsorted).1 i hi
    exact if_neg (Nat.ne_of_lt hlt)
  rw [← hfiles]
  exact Computes.pure _

/-- On a directory without datafiles a first one is made. -/
theorem ccaskFilesInit_empty (threshold : UInt64) (hlists : Lists listing w.fs) (htidy : Tidy w.fs)
    (hknown : ∀ i, w.fs.read (fileName i .data) = none) :
    Computes (ccaskFilesInit listing threshold) w (.ok ())
      { w with
        fs := (w.fs.create (fileName 0 .data)).1
        maxActiveFileSize := threshold
        files := [⟨0, some (w.fs.create (fileName 0 .data)).2, w.clock, false, true, false⟩] } := by
  have hscan := scan_directory (l := []) (w := { w with maxActiveFileSize := threshold, files := [] })
    hlists htidy rfl List.Pairwise.nil (fun i => by simp [hknown])
  refine Computes.modify_bind (call_clean (fun _ => rfl) (malloc_computes.bind ?_))
  refine Computes.modify_bind (hscan.bind (Computes.state_bind ?_))
  simp only [List.map_nil]
  refine malloc_computes.bind ((createNewActiveDatafile_computes 0).bind (Computes.modify_bind ?_))
  exact Computes.pure _

end Open

section Recover

variable {upsert : KeydirRecord → Sys Status} {f : World → KeydirRecord → World} {I : World → Prop}
  {w : World} {l : List Nat} {L : Nat → List (DatafileRecord × Nat)}

/-- The entries of the records of all files, from the oldest file on. -/
def allEntries (l : List Nat) (L : Nat → List (DatafileRecord × Nat)) : List KeydirRecord :=
  l.reverse.flatMap fun id => entries id (L id)

/-- Recovery of one file goes by its hint file or by a scan, with the same entries. -/
theorem recoverFile_computes (file : CcaskFile) (hu : Upserts upsert f I) (hI : I w)
    (hdisk : Disk w.fs l L) (hmem : file.fileId ∈ l)
    (hhint : file.hasHint = (w.fs.read (fileName file.fileId .hint)).isSome) :
    Computes (if file.hasHint then recoverHintfile upsert file.fileId
      else recoverDatafile upsert file.fileId) w (.ok ())
        ((entries file.fileId (L file.fileId)).foldl f w) := by
  cases hread : w.fs.read (fileName file.fileId .hint) with
  | none =>
      rw [hread] at hhint
      rw [hhint]
      obtain ⟨c, hc, hscan⟩ := hdisk.scans file.fileId hmem
      obtain ⟨ino, hdir, rfl⟩ := Fs.exists_of_read hc
      exact recoverDatafile_computes hu hI hdir hscan
  | some c =>
      rw [hread] at hhint
      rw [hhint]
      obtain ⟨-, hc⟩ := hdisk.hints file.fileId hmem c hread
      obtain ⟨ino, hdir, hdata⟩ := Fs.exists_of_read hread
      exact recoverHintfile_computes hu hI hdir (hdisk.hintable file.fileId hmem) (hdata.trans hc)

theorem recoverFiles_computes (files : List CcaskFile) (hu : Upserts upsert f I) (hI : I w)
    (hdisk : Disk w.fs l L) (hfiles : ∀ file ∈ files, file.fileId ∈ l ∧
      file.hasHint = (w.fs.read (fileName file.fileId .hint)).isSome) :
    Computes (recoverFiles upsert files) w (.ok ())
      ((files.flatMap fun file => entries file.fileId (L file.fileId)).foldl f w) := by
  induction files generalizing w with
  | nil => exact Computes.pure _
  | cons file files ih =>
      obtain ⟨hmem, hhint⟩ := hfiles file List.mem_cons_self
      have hfile := recoverFile_computes _ hu hI hdisk hmem hhint
      obtain ⟨hI', hfs⟩ := hu.keeps_foldl (entries file.fileId (L file.fileId)) hI
      rw [← hfs] at hdisk
      refine hfile.bind ?_
      rw [List.flatMap_cons, List.foldl_append]
      refine ih hI' hdisk fun g hg => ?_
      rw [hfs]
      exact hfiles g (List.mem_cons_of_mem _ hg)

end Recover

section Init

variable {w w₁ : World} {opts : CcaskOptions} {l : List Nat} {L : Nat → List (DatafileRecord × Nat)}

/-- The state `ccask_init` leaves on top of the mounted files. -/
def started (w : World) (capacity : Nat) (es : List KeydirRecord) : World :=
  { w with
    hashTable := Index.replay KeydirRecord.key [] es
    readLocks := 0
    ringbuf := some (.init capacity)
    threads := [] }

/-- The key directory is filled from the files, whatever it was before. -/
theorem ccaskKeydirInit_computes (hdisk : Disk w₁.fs l L) (hids : ids w₁ = l)
    (hhint : ∀ file ∈ w₁.files, file.hasHint = (w₁.fs.read (fileName file.fileId .hint)).isSome) :
    Computes ccaskKeydirInit w₁ (.ok ()) { w₁ with
      hashTable := Index.replay KeydirRecord.key [] (allEntries l L)
      readLocks := 0 } := by
  have hrec := recoverFiles_computes (w := { w₁ with hashTable := [], readLocks := 0 })
    w₁.files.reverse ccaskKeydirUpsert_upserts rfl hdisk ?_
  · rw [foldl_upserted] at hrec
    have hes : (w₁.files.reverse.flatMap fun file => entries file.fileId (L file.fileId)) =
        allEntries l L := by
      rw [allEntries, ← hids, ids, ← List.map_reverse, List.flatMap_map]
    rw [hes] at hrec
    exact Computes.modify_bind (Computes.state_bind hrec)
  · intro file hfile
    rw [List.mem_reverse] at hfile
    refine ⟨?_, hhint file hfile⟩
    rw [← hids]
    exact List.mem_map_of_mem hfile

/-- Once the files are mounted, `ccask_init` fills the key directory and starts the writer. -/
theorem ccaskInit_of_files
    (hfiles : Computes (ccaskFilesInit opts.listing opts.datafileRotateThreshold)
      { w with isShuttingDown := false } (.ok ()) w₁)
    (hdisk : Disk w₁.fs l L) (hids : ids w₁ = l) (hhint : ∀ file ∈ w₁.files,
      file.hasHint = (w₁.fs.read (fileName file.fileId .hint)).isSome) :
    Computes (ccaskInit opts) w (.ok ()) (started w₁ opts.writerRingbufCapacity (allEntries l L)) := by
  refine Computes.modify_bind ((attempt_computes hfiles (by simp)).bind ?_)
  refine (attempt_computes (ccaskKeydirInit_computes hdisk hids hhint) (by simp)).bind ?_
  have hstart : Computes (ccaskWriterStart opts.writerRingbufCapacity)
      { w₁ with hashTable := Index.replay KeydirRecord.key [] (allEntries l L), readLocks := 0 }
      (.ok ()) { w₁ with
        hashTable := Index.replay KeydirRecord.key [] (allEntries l L)
        readLocks := 0
        ringbuf := some (.init opts.writerRingbufCapacity) } := by
    refine Computes.bind (a := .ok ()) ((mallocAll_computes 2).bind
      (Computes.modify_bind (Computes.pure _))) ?_
    exact call_clean (fun _ => rfl) (Computes.pure _)
  refine (attempt_computes hstart (by simp)).bind (Computes.modify_bind ?_)
  exact Computes.pure _

end Init

end Ccask.Audit
