import Ccask.Audit.Restart
import Ccask.Audit.Recovery

/-!
# The store between two calls

`Store` is the invariant of a process that uses the store: the mount, what a later
start finds in the directory, and the hint files and generators of the files that are
no longer written.
-/

namespace Ccask.Audit

open Ccask.Effect Ccask.Model

/-- A store in use. `L id` is what the iterator finds in datafile `id`. -/
structure Store (w : World) (L : Nat → List (DatafileRecord × Nat)) : Prop where
  mounted : Mounted w
  unlocked : w.readLocks = 0
  disk : Disk w.fs (ids w) L
  flags : ∀ f ∈ w.files, f.hasHint = (w.fs.read (fileName f.fileId .hint)).isSome
  current : ∀ id, (w.fs.read (fileName id .hint)).isSome → id ∈ ids w
  nodup : w.threads.Nodup
  pending : ∀ id ∈ w.threads, id ∈ (ids w).tail ∧ w.fs.read (fileName id .hint) = none
  idle : ∃ r, w.ringbuf = some r ∧ r.tail = r.head

/-- What `ccask_init` sets up besides the key directory. -/
structure Started (opts : CcaskOptions) (w' : World) : Prop where
  mounted : Mounted w'
  unlocked : w'.readLocks = 0
  flags : ∀ f ∈ w'.files, f.hasHint = (w'.fs.read (fileName f.fileId .hint)).isSome
  threshold : w'.maxActiveFileSize = opts.datafileRotateThreshold
  threads : w'.threads = []
  ringbuf : w'.ringbuf = some (.init opts.writerRingbufCapacity)
  running : w'.isShuttingDown = false

/-- A store just started, unless a hint file without a datafile lies about. -/
theorem Started.store {opts : CcaskOptions} {w : World} {L : Nat → List (DatafileRecord × Nat)}
    (h : Started opts w) (hdisk : Disk w.fs (ids w) L)
    (hcurrent : ∀ id, (w.fs.read (fileName id .hint)).isSome → id ∈ ids w) : Store w L where
  mounted := h.mounted
  unlocked := h.unlocked
  disk := hdisk
  flags := h.flags
  current := hcurrent
  nodup := by rw [h.threads]; exact List.nodup_nil
  pending id hid := by
    rw [h.threads] at hid
    cases hid
  idle := ⟨_, h.ringbuf, rfl⟩

section Start

variable {w : World} {opts : CcaskOptions} {id : Nat} {tl : List Nat}
  {L : Nat → List (DatafileRecord × Nat)}

theorem Mounted.of_files {ino : Ino} (hint : Nat → Bool) (now : Nat)
    (hsorted : (id :: tl).Pairwise (· > ·))
    (hknown : ∀ i, i ∈ id :: tl ↔ (w.fs.read (fileName i .data)).isSome)
    (hdir : w.fs.dir (fileName id .data) = some ino)
    (hfiles : w.files = { datafileNode id (hint id) now with isActive := true, fd := some ino } ::
      tl.map fun i => datafileNode i (hint i) now) : Mounted w := by
  have hids : ids w = id :: tl := by
    rw [ids, hfiles, List.map_cons, List.map_map]
    congr 1
    exact List.map_id tl
  constructor
  · rw [hids]
    exact hsorted
  · intro f hf
    rw [hfiles, List.mem_cons] at hf
    obtain rfl | hf := hf
    · exact ⟨ino, hdir, .inr rfl⟩
    · obtain ⟨i, hi, rfl⟩ := List.mem_map.mp hf
      have hsome := (hknown i).mp (List.mem_cons_of_mem _ hi)
      rw [Fs.isSome_read, Option.isSome_iff_exists] at hsome
      obtain ⟨j, hj⟩ := hsome
      exact ⟨j, hj, .inl rfl⟩
  · intro i hi
    rw [hids]
    exact (hknown i).mpr hi
  · refine ⟨_, _, hfiles, rfl, rfl, ?_⟩
    intro g hg
    obtain ⟨i, -, rfl⟩ := List.mem_map.mp hg
    rfl

/-- The newest datafile has no hint file. -/
theorem Disk.newest_hint {fs : Fs} (h : Disk fs (id :: tl) L) : fs.read (fileName id .hint) = none := by
  rw [← Option.not_isSome_iff_eq_none, Option.isSome_iff_exists]
  intro hc
  obtain ⟨c, hc⟩ := hc
  have hlt := (List.pairwise_cons.mp h.sorted).1 id (h.hints id List.mem_cons_self c hc).1
  exact Nat.lt_irrefl id hlt

/-- What `ccask_files_init` leaves. -/
structure Mounts (threshold : UInt64) (w v : World) : Prop where
  same : v = { w with fs := v.fs, maxActiveFileSize := threshold, files := v.files }
  mounted : Mounted v
  flags : ∀ f ∈ v.files, f.hasHint = (v.fs.read (fileName f.fileId .hint)).isSome

theorem Mounts.clock_eq {threshold : UInt64} {v : World} (h : Mounts threshold w v) : v.clock = w.clock := by
  rw [h.same]

/-- `ccask_files_init` mounts a directory that has datafiles. -/
theorem ccaskFilesInit_mounts {listing : List Name} (threshold : UInt64) (hdisk : Disk w.fs (id :: tl) L)
    (hlists : Lists listing w.fs) :
    ∃ v, Computes (ccaskFilesInit listing threshold) w (.ok ()) v ∧ Mounts threshold w v ∧ v.fs = w.fs ∧
      ids v = id :: tl := by
  have hsome := (hdisk.known id).mp List.mem_cons_self
  rw [Fs.isSome_read, Option.isSome_iff_exists] at hsome
  obtain ⟨ino, hdir⟩ := hsome
  have hids : (mountedFiles w id ino tl).map CcaskFile.fileId = id :: tl := by
    rw [mountedFiles, List.map_cons, List.map_map]
    congr 1
    exact List.map_id tl
  have hflags : ∀ f ∈ mountedFiles w id ino tl,
      f.hasHint = (w.fs.read (fileName f.fileId .hint)).isSome := by
    intro f hf
    obtain rfl | hf := List.mem_cons.mp hf
    · rfl
    · obtain ⟨i, -, rfl⟩ := List.mem_map.mp hf
      rfl
  refine ⟨_, ccaskFilesInit_computes threshold hlists hdisk.tidy hdisk.sorted hdisk.known hdisk.newest_hint
    hdir, ⟨rfl, ?_, hflags⟩, rfl, hids⟩
  exact Mounted.of_files (fun i => (w.fs.read (fileName i .hint)).isSome) w.clock
    hdisk.sorted hdisk.known hdir rfl

/-- On a directory without datafiles it makes the first one. -/
theorem ccaskFilesInit_creates {listing : List Name} (threshold : UInt64) (hlists : Lists listing w.fs)
    (htidy : Tidy w.fs) (hdata : ∀ i, w.fs.read (fileName i .data) = none)
    (hhint : w.fs.read (fileName 0 .hint) = none) :
    ∃ v, Computes (ccaskFilesInit listing threshold) w (.ok ()) v ∧ Mounts threshold w v ∧
      v.fs.read = Function.update w.fs.read (fileName 0 .data) (some []) ∧ ids v = [0] ∧
      Disk v.fs (ids v) (fun _ => []) := by
  have hread : (w.fs.create (fileName 0 .data)).1.read =
      Function.update w.fs.read (fileName 0 .data) (some []) := by
    rw [Fs.read_create, hdata 0]
    rfl
  have hknown : ∀ i, i ∈ [0] ↔ ((w.fs.create (fileName 0 .data)).1.read (fileName i .data)).isSome := by
    intro i
    rw [hread, Function.update_apply, List.mem_singleton]
    split
    · rename_i heq
      exact ⟨fun _ => rfl, fun _ => (fileName_inj.mp heq).1⟩
    · rename_i hne
      rw [hdata i]
      exact ⟨fun h => absurd (by rw [h]) hne, fun h => by cases h⟩
  have hhint' : (w.fs.create (fileName 0 .data)).1.read (fileName 0 .hint) = none := by
    rw [hread, Function.update_of_ne (by simp), hhint]
  have hdisk : Disk (w.fs.create (fileName 0 .data)).1 [0] (fun _ => []) := by
    refine ⟨List.pairwise_singleton _ _, hknown, ?_, ?_, ?_, ?_⟩
    · intro i hi
      rw [List.mem_singleton.mp hi, hread, Function.update_self]
      exact ⟨[], rfl, .stop (recordAt_end [])⟩
    · intro i _ p hp
      cases hp
    · intro i hi c hc
      rw [List.mem_singleton.mp hi, hhint'] at hc
      cases hc
    · intro name hname
      rw [hread, Function.update_apply] at hname
      split at hname
      · rename_i heq
        exact ⟨0, .data, by decide, by decide, heq⟩
      · exact htidy name hname
  have hflags : ∀ f ∈ [(⟨0, some (w.fs.create (fileName 0 .data)).2, w.clock, false, true, false⟩ :
      CcaskFile)], f.hasHint =
        ((w.fs.create (fileName 0 .data)).1.read (fileName f.fileId .hint)).isSome := by
    intro f hf
    rw [List.mem_singleton.mp hf, hhint']
    rfl
  refine ⟨_, ccaskFilesInit_empty threshold hlists htidy hdata, ⟨rfl, ?_, hflags⟩, hread, rfl, hdisk⟩
  exact Mounted.of_files (fun _ => false) w.clock (List.pairwise_singleton _ _) hknown
    (Fs.dir_create_self _ _) rfl

/-- Once the files are mounted, the rest is set up. -/
theorem Mounts.started {v : World} (h : Mounts opts.datafileRotateThreshold { w with isShuttingDown := false } v)
    (es : List KeydirRecord) : Started opts (started v opts.writerRingbufCapacity es) := by
  refine ⟨h.mounted.congr rfl fun _ => rfl, rfl, h.flags, ?_, rfl, rfl, ?_⟩
  · rw [h.same]
    rfl
  · rw [h.same]
    rfl

/-- `ccask_init` mounts a directory that has datafiles. -/
theorem ccaskInit_computes (hdisk : Disk w.fs (id :: tl) L) (hlists : Lists opts.listing w.fs) :
    ∃ w', Computes (ccaskInit opts) w (.ok ()) w' ∧ Started opts w' ∧ w'.fs = w.fs ∧
      w'.clock = w.clock ∧ ids w' = id :: tl ∧
      w'.hashTable = Index.replay KeydirRecord.key [] (allEntries (id :: tl) L) := by
  obtain ⟨v, hfiles, hmounts, hfs, hids⟩ := ccaskFilesInit_mounts (w := { w with isShuttingDown := false })
    opts.datafileRotateThreshold hdisk hlists
  rw [← hfs] at hdisk
  exact ⟨_, ccaskInit_of_files hfiles hdisk hids hmounts.flags, hmounts.started _, hfs, hmounts.clock_eq, hids,
    rfl⟩

/-- On a directory without datafiles it makes the first one. -/
theorem ccaskInit_empty (hlists : Lists opts.listing w.fs) (htidy : Tidy w.fs)
    (hdata : ∀ i, w.fs.read (fileName i .data) = none)
    (hhint : w.fs.read (fileName 0 .hint) = none) :
    ∃ w', Computes (ccaskInit opts) w (.ok ()) w' ∧ Started opts w' ∧
      Disk w'.fs (ids w') (fun _ => []) ∧
      w'.fs.read = Function.update w.fs.read (fileName 0 .data) (some []) ∧
      w'.clock = w.clock ∧ ids w' = [0] ∧ w'.hashTable = [] := by
  obtain ⟨v, hfiles, hmounts, hread, hids, hdisk⟩ := ccaskFilesInit_creates
    (w := { w with isShuttingDown := false }) opts.datafileRotateThreshold hlists htidy hdata hhint
  refine ⟨_, ccaskInit_of_files hfiles hdisk rfl hmounts.flags, hmounts.started _, hdisk, hread,
    hmounts.clock_eq, hids, ?_⟩
  show Index.replay KeydirRecord.key [] (allEntries (ids v) fun _ => []) = []
  rw [hids]
  rfl

end Start

section Directory

variable {fs fs' : Fs} {l tl : List Nat} {id : Nat} {c : Bytes} {m : List (DatafileRecord × Nat)}
  {L : Nat → List (DatafileRecord × Nat)}

theorem Disk.small {fs : Fs} {l : List Nat} (h : Disk fs l L) (hid : id ∈ l) : id < 2 ^ 31 := by
  obtain ⟨i, ext, hi, -, heq⟩ := h.tidy _ ((h.known id).mp hid)
  obtain ⟨rfl, rfl⟩ := fileName_inj.mp heq
  exact hi

/-- A hint file of a file that is no longer written. -/
theorem Disk.hinted (h : Disk fs l L) (hid : id ∈ l.tail)
    (hread : fs'.read = Function.update fs.read (fileName id .hint) (some (Audit.hints (L id)))) :
    Disk fs' l L := by
  have hdata : ∀ i, fs'.read (fileName i .data) = fs.read (fileName i .data) := by
    intro i
    rw [hread, Function.update_of_ne (by simp)]
  refine ⟨h.sorted, ?_, ?_, h.hintable, ?_, ?_⟩
  · intro i
    rw [hdata]
    exact h.known i
  · intro i hi
    rw [hdata]
    exact h.scans i hi
  · intro i hi c hc
    rw [hread, Function.update_apply] at hc
    split at hc
    · rename_i heq
      obtain ⟨rfl, -⟩ := fileName_inj.mp heq
      exact ⟨hid, (Option.some.inj hc).symm⟩
    · exact h.hints i hi c hc
  · intro name hname
    rw [hread, Function.update_apply] at hname
    split at hname
    · rename_i heq
      exact ⟨id, .hint, h.small (List.mem_of_mem_tail hid), by decide, heq⟩
    · exact h.tidy name hname

/-- A new file without records. -/
theorem Disk.created (h : Disk fs l L) (hnewest : ∀ i ∈ l, i < id) (hid : id < 2 ^ 31)
    (hhint : fs.read (fileName id .hint) = none)
    (hread : fs'.read = Function.update fs.read (fileName id .data) (some [])) :
    Disk fs' (id :: l) (Function.update L id []) := by
  have hold : ∀ i ∈ l, i ≠ id := fun i hi => Nat.ne_of_lt (hnewest i hi)
  have hhints : ∀ i, fs'.read (fileName i .hint) = fs.read (fileName i .hint) := by
    intro i
    rw [hread, Function.update_of_ne (by simp)]
  refine ⟨List.pairwise_cons.mpr ⟨hnewest, h.sorted⟩, ?_, ?_, ?_, ?_, ?_⟩
  · intro i
    rw [List.mem_cons, h.known]
    by_cases hi : i = id
    · rw [hi, hread, Function.update_self]
      exact ⟨fun _ => rfl, fun _ => .inl rfl⟩
    · rw [hread, Function.update_of_ne (by simpa using hi)]
      exact ⟨fun h => h.resolve_left hi, .inr⟩
  · intro i hi
    rw [List.mem_cons] at hi
    obtain rfl | hi := hi
    · rw [hread, Function.update_self, Function.update_self]
      exact ⟨[], rfl, .stop (recordAt_end [])⟩
    · rw [hread, Function.update_of_ne (by simpa using hold i hi), Function.update_of_ne (hold i hi)]
      exact h.scans i hi
  · intro i hi p hp
    rw [List.mem_cons] at hi
    obtain rfl | hi := hi
    · rw [Function.update_self] at hp
      cases hp
    · rw [Function.update_of_ne (hold i hi)] at hp
      exact h.hintable i hi p hp
  · intro i hi c hc
    rw [hhints] at hc
    rw [List.mem_cons] at hi
    rw [List.tail_cons]
    obtain rfl | hi := hi
    · rw [hhint] at hc
      cases hc
    · rw [Function.update_of_ne (hold i hi)]
      exact ⟨hi, (h.hints i hi c hc).2⟩
  · intro name hname
    rw [hread, Function.update_apply] at hname
    split at hname
    · rename_i heq
      exact ⟨id, .data, hid, by decide, heq⟩
    · exact h.tidy name hname

/-- Other contents of the newest file. -/
theorem Disk.grown (h : Disk fs (id :: tl) L) (hscan : Scan (recordAt c) 0 m)
    (hm : ∀ p ∈ m, Hintable p)
    (hread : fs'.read = Function.update fs.read (fileName id .data) (some c)) :
    Disk fs' (id :: tl) (Function.update L id m) := by
  have hsame : ∀ i, i ≠ id → fs'.read (fileName i .data) = fs.read (fileName i .data) := by
    intro i hi
    rw [hread, Function.update_of_ne (by simpa using hi)]
  refine ⟨h.sorted, ?_, ?_, ?_, ?_, ?_⟩
  · intro i
    by_cases hi : i = id
    · rw [hi, hread, Function.update_self]
      exact ⟨fun _ => rfl, fun _ => List.mem_cons_self⟩
    · rw [hsame i hi]
      exact h.known i
  · intro i hi
    by_cases hif : i = id
    · rw [hif, hread, Function.update_self, Function.update_self]
      exact ⟨_, rfl, hscan⟩
    · rw [hsame i hif, Function.update_of_ne hif]
      exact h.scans i hi
  · intro i hi p hp
    by_cases hif : i = id
    · rw [hif, Function.update_self] at hp
      exact hm p hp
    · rw [Function.update_of_ne hif] at hp
      exact h.hintable i hi p hp
  · intro i hi c' hc
    rw [hread, Function.update_of_ne (by simp)] at hc
    obtain ⟨htail, rfl⟩ := h.hints i hi c' hc
    have hlt := (List.pairwise_cons.mp h.sorted).1 i htail
    rw [Function.update_of_ne (Nat.ne_of_lt hlt)]
    exact ⟨htail, rfl⟩
  · intro name hname
    rw [hread, Function.update_apply] at hname
    split at hname
    · rename_i heq
      exact ⟨id, .data, h.small List.mem_cons_self, by decide, heq⟩
    · exact h.tidy name hname

end Directory

section Steps

variable {w w' : World} {L : Nat → List (DatafileRecord × Nat)} {id : Nat} {ino : Ino}

/-- Reads leave the store as it is. -/
theorem Store.touched (h : Store w L) (ht : Touched w w') (hm : Mounted w') : Store w' L := by
  have hids := ht.ids_eq
  have hfs := ht.fs_eq
  constructor
  · exact hm
  · rw [ht.same]
    exact h.unlocked
  · rw [hids, hfs]
    exact h.disk
  · intro f hf
    have hmem : shape f ∈ w.files.map shape := by
      rw [← ht.files]
      exact List.mem_map_of_mem hf
    obtain ⟨g, hg, hshape⟩ := List.mem_map.mp hmem
    have hid : g.fileId = f.fileId := congrArg Prod.fst hshape
    have hhint : g.hasHint = f.hasHint := congrArg (fun s => s.2.1) hshape
    rw [← hhint, ← hid, hfs]
    exact h.flags g hg
  · rw [hids, hfs]
    exact h.current
  · rw [ht.same]
    exact h.nodup
  · rw [hids, hfs, ht.same]
    exact h.pending
  · rw [ht.same]
    exact h.idle

/-- Time passes. -/
theorem Store.tick (h : Store w L) (now : Nat) : Store { w with clock := now } L :=
  { h with mounted := h.mounted.congr rfl fun _ => rfl }

/-- The state after the generator of a file has ended. -/
def generated (w : World) (id : Nat) (l : List (DatafileRecord × Nat)) : World :=
  { hinted w id l with threads := w.threads.erase id }

theorem ids_generated (w : World) (id : Nat) (l : List (DatafileRecord × Nat)) :
    ids (generated w id l) = ids w :=
  ids_setFile _ id (fun _ => rfl)

/-- A generator that was started makes the hint file of its file. -/
theorem Store.runGenerator (h : Store w L) (hid : id ∈ w.threads) :
    Computes (runGenerator id) w () (generated w id (L id)) := by
  have hmem := List.mem_of_mem_tail (h.pending id hid).1
  obtain ⟨c, hc, hscan⟩ := h.disk.scans id hmem
  obtain ⟨ino, hdir, rfl⟩ := Fs.exists_of_read hc
  refine (hintfileGeneratorThread_computes hdir ?_ hscan).bind (Computes.modify _)
  intro p hp
  have hhint := h.disk.hintable id hmem p hp
  rw [hhint.key_eq]
  exact hhint.key

theorem Store.read_generated (h : Store w L) (hid : id ∈ w.threads) :
    (generated w id (L id)).fs.read =
      Function.update w.fs.read (fileName id .hint) (some (hints (L id))) := by
  have hread := read_hinted w id (L id)
  rwa [(h.pending id hid).2] at hread

theorem Store.generated (h : Store w L) (hid : id ∈ w.threads) :
    Store (generated w id (L id)) L := by
  obtain ⟨htail, hnone⟩ := h.pending id hid
  have hmem := List.mem_of_mem_tail htail
  have hids := ids_generated w id (L id)
  have hread := h.read_generated hid
  have hdata : ∀ i, (Audit.generated w id (L id)).fs.read (fileName i .data) =
      w.fs.read (fileName i .data) := by
    intro i
    rw [hread, Function.update_of_ne (by simp)]
  constructor
  · obtain ⟨ino, hdir⟩ := h.mounted.dir_of_mem hmem
    have hopened : Mounted ((hintOpened w id).append (w.fs.create (fileName id .hint)).2
        (hints (L id))) := by
      refine h.mounted.congr rfl fun i => ?_
      exact Fs.dir_create_of_ne _ _ (by simp)
    have hmarked : Mounted (hinted w id (L id)) :=
      hopened.setFile (by rw [← hdir]; exact Fs.dir_create_of_ne _ _ (by simp)) (fun _ => rfl)
        (fun _ => rfl) (fun _ => .inl rfl)
    exact hmarked.congr rfl fun _ => rfl
  · exact h.unlocked
  · rw [hids]
    exact h.disk.hinted htail hread
  · intro f hf
    rw [hread, Function.update_apply]
    obtain ⟨g, hg, hgid, rfl⟩ | ⟨hf, hne⟩ := mem_setFile (w := (hintOpened w id).append _ _) hf
    · rw [if_pos (by rw [← hgid])]
      rfl
    · rw [if_neg (by simpa using hne)]
      exact h.flags f hf
  · intro i hi
    rw [hids]
    rw [hread, Function.update_apply] at hi
    split at hi
    · rename_i heq
      obtain ⟨rfl, -⟩ := fileName_inj.mp heq
      exact hmem
    · exact h.current i hi
  · exact h.nodup.erase id
  · intro i hi
    obtain ⟨hne, hi⟩ := (List.Nodup.mem_erase_iff h.nodup).mp hi
    rw [hids, hread, Function.update_of_ne (by simpa using hne)]
    exact h.pending i hi
  · exact h.idle

end Steps

section Write

variable {w : World} {L : Nat → List (DatafileRecord × Nat)} {f : CcaskFile} {rest : List CcaskFile}
  {ino : Ino} {r : DatafileRecord}

theorem ids_eq (hfiles : w.files = f :: rest) : ids w = f.fileId :: rest.map CcaskFile.fileId := by
  rw [ids, hfiles, List.map_cons]

theorem Store.head_no_hint (h : Store w L) (hfiles : w.files = f :: rest) :
    w.fs.read (fileName f.fileId .hint) = none := by
  rw [← Option.not_isSome_iff_eq_none, Option.isSome_iff_exists]
  intro hsome
  obtain ⟨c, hc⟩ := hsome
  have hmem := (h.disk.hints f.fileId (by rw [ids_eq hfiles]; exact List.mem_cons_self) c hc).1
  rw [ids_eq hfiles, List.tail_cons] at hmem
  obtain ⟨g, hg, hgid⟩ := List.mem_map.mp hmem
  have hlt := h.mounted.head_gt hfiles g hg
  omega

/-- A rotation starts a file without records. -/
theorem Store.rotated (h : Store w L) (hfiles : w.files = f :: rest) (hid : f.fileId + 1 < 2 ^ 31) :
    Store (rotated w f rest) (Function.update L (f.fileId + 1) []) := by
  have hids := ids_rotated (w := w) hfiles
  have hread := read_rotated h.mounted hfiles
  have hhint : ∀ i, (Audit.rotated w f rest).fs.read (fileName i .hint) =
      w.fs.read (fileName i .hint) := by
    intro i
    rw [hread, Function.update_of_ne (by simp)]
  have hold : ∀ i ∈ ids w, i ≠ f.fileId + 1 := by
    intro i hi heq
    have hsome := (h.disk.known i).mp hi
    rw [heq, h.mounted.next_absent hfiles] at hsome
    cases hsome
  have hmounted := h.mounted.rotated hfiles
  have hnewhint : w.fs.read (fileName (f.fileId + 1) .hint) = none := by
    rw [← Option.not_isSome_iff_eq_none]
    intro hsome
    exact hold _ (h.current _ hsome) rfl
  have hflags : ∀ g ∈ w.files,
      g.hasHint = ((Audit.rotated w f rest).fs.read (fileName g.fileId .hint)).isSome := by
    intro g hg
    rw [hhint]
    exact h.flags g hg
  constructor
  · exact hmounted
  · exact h.unlocked
  · rw [hids]
    have hnewest := hmounted.sorted
    rw [hids, List.pairwise_cons] at hnewest
    exact h.disk.created hnewest.1 hid hnewhint hread
  · intro g hg
    simp only [Audit.rotated, rotatedFiles, List.mem_cons] at hg
    obtain rfl | rfl | hg := hg
    · rw [hhint, hnewhint]
      rfl
    · exact hflags f (by rw [hfiles]; exact List.mem_cons_self)
    · exact hflags g (by rw [hfiles]; exact List.mem_cons_of_mem _ hg)
  · intro i hi
    rw [hhint] at hi
    rw [hids]
    exact List.mem_cons_of_mem _ (h.current i hi)
  · refine List.nodup_cons.mpr ⟨?_, h.nodup⟩
    intro hmem
    have htail := (h.pending f.fileId hmem).1
    rw [ids_eq hfiles, List.tail_cons] at htail
    obtain ⟨g, hg, hgid⟩ := List.mem_map.mp htail
    have hlt := h.mounted.head_gt hfiles g hg
    omega
  · intro i hi
    rw [hids, List.tail_cons, hhint]
    obtain rfl | hi := List.mem_cons.mp hi
    · exact ⟨by rw [ids_eq hfiles]; exact List.mem_cons_self, h.head_no_hint hfiles⟩
    · exact ⟨List.mem_of_mem_tail (h.pending i hi).1, (h.pending i hi).2⟩
  · exact h.idle

/-- An append changes what is found in the active file. -/
theorem Store.wrote (h : Store w L) (hfiles : w.files = f :: rest)
    (hdir : w.fs.dir (fileName f.fileId .data) = some ino) {l : List (DatafileRecord × Nat)}
    (hscan : Scan (recordAt (w.fs.data ino ++ r.bytes)) 0 l) (hl : ∀ p ∈ l, Hintable p) :
    Store (wrote w f.fileId ino r) (Function.update L f.fileId l) := by
  have hread := read_wrote (w := w) (r := r) hdir
  have hhint : ∀ i, (Audit.wrote w f.fileId ino r).fs.read (fileName i .hint) =
      w.fs.read (fileName i .hint) := by
    intro i
    rw [hread, Function.update_of_ne (by simp)]
  have hsame : ∀ i, i ≠ f.fileId → (Audit.wrote w f.fileId ino r).fs.read (fileName i .data) =
      w.fs.read (fileName i .data) := by
    intro i hi
    rw [hread, Function.update_of_ne (by simpa using hi)]
  constructor
  · exact h.mounted.wrote f.fileId ino r
  · exact h.unlocked
  · have hdisk := h.disk
    rw [ids_eq hfiles] at hdisk
    show Disk _ (ids w) _
    rw [ids_eq hfiles]
    exact hdisk.grown hscan hl hread
  · intro g hg
    rw [hhint]
    exact h.flags g hg
  · intro i hi
    rw [hhint] at hi
    exact h.current i hi
  · exact h.nodup
  · intro i hi
    rw [hhint]
    exact h.pending i hi
  · exact h.idle

end Write

section Restage

/-- A directory with the same datafiles, and with any of the datafiles that are no longer written
having its complete hint file. -/
structure Restaged (fs fs' : Fs) : Prop where
  data : ∀ id, fs'.read (fileName id .data) = fs.read (fileName id .data)
  hint : ∀ id h, fs'.read (fileName id .hint) = some h →
    (∃ newer, id < newer ∧ (fs.read (fileName newer .data)).isSome) ∧
      ∃ c l, fs.read (fileName id .data) = some c ∧ Scan (recordAt c) 0 l ∧ h = hints l
  names : ∀ name, (fs'.read name).isSome →
    ∃ id, name = fileName id .data ∨ name = fileName id .hint

/-- Whatever hint files there are, the directory is as good. -/
theorem Disk.restaged {fs fs' : Fs} {l : List Nat} {L : Nat → List (DatafileRecord × Nat)}
    (h : Disk fs l L) (hr : Restaged fs fs') :
    Disk fs' l L ∧ ∀ id, (fs'.read (fileName id .hint)).isSome → id ∈ l := by
  have hhint : ∀ id c, fs'.read (fileName id .hint) = some c → id ∈ l.tail ∧ c = Audit.hints (L id) := by
    intro id c hc
    obtain ⟨⟨newer, hlt, hnewer⟩, d, m, hd, hscan, rfl⟩ := hr.hint id c hc
    have hid : id ∈ l := (h.known id).mpr (by rw [hd]; rfl)
    obtain ⟨d', hd', hscan'⟩ := h.scans id hid
    rw [hd] at hd'
    cases hd'
    rw [hscan.unique hscan']
    refine ⟨?_, rfl⟩
    have hnewer' := (h.known newer).mpr hnewer
    have hsorted := h.sorted
    cases l with
    | nil => cases hid
    | cons i tl =>
        obtain rfl | hid := List.mem_cons.mp hid
        · obtain rfl | hnewer' := List.mem_cons.mp hnewer'
          · exact absurd hlt (Nat.lt_irrefl _)
          · exact absurd ((List.pairwise_cons.mp hsorted).1 newer hnewer') (Nat.lt_asymm hlt)
        · exact hid
  have hmem : ∀ id, (fs'.read (fileName id .hint)).isSome → id ∈ l := by
    intro id hid
    obtain ⟨c, hc⟩ := Option.isSome_iff_exists.mp hid
    exact List.mem_of_mem_tail (hhint id c hc).1
  refine ⟨⟨h.sorted, ?_, ?_, h.hintable, fun id _ c hc => hhint id c hc, ?_⟩, hmem⟩
  · intro id
    rw [hr.data]
    exact h.known id
  · intro id hid
    rw [hr.data]
    exact h.scans id hid
  · intro name hname
    obtain ⟨id, rfl | rfl⟩ := hr.names name hname
    · refine ⟨id, .data, h.small ((h.known id).mpr ?_), by decide, rfl⟩
      rwa [← hr.data]
    · exact ⟨id, .hint, h.small (hmem id hname), by decide, rfl⟩

end Restage

section Shutdown

variable {w : World} {L : Nat → List (DatafileRecord × Nat)}

/-- The generators that are still to end make their hint files. -/
theorem joinGenerators_computes {ts : List Nat} (h : Store w L) (hts : w.threads = ts) :
    ∃ w', Computes (joinGenerators ts) w () w' ∧ Store w' L ∧ w'.threads = [] ∧ ids w' = ids w ∧
      ∀ id, w'.fs.read (fileName id .data) = w.fs.read (fileName id .data) := by
  induction ts generalizing w with
  | nil => exact ⟨w, Computes.pure _, h, hts, rfl, fun _ => rfl⟩
  | cons t ts ih =>
      have ht : t ∈ w.threads := by rw [hts]; exact List.mem_cons_self
      have hrest : (generated w t (L t)).threads = ts := by
        rw [generated, hts]
        exact List.erase_cons_head ..
      obtain ⟨w', hjoin, hstore, hthreads, hids, hdata⟩ := ih (h.generated ht) hrest
      refine ⟨w', (h.runGenerator ht).bind hjoin, hstore, hthreads, ?_, ?_⟩
      · rw [hids, ids_generated]
      · intro id
        rw [hdata, h.read_generated ht, Function.update_of_ne (by simp)]

theorem writerThreadRound_consumes (u : Unit) : Prog.Consumes (writerThreadRound u) := by
  refine Prog.consumes_bind _ fun r => ?_
  cases r with
  | ok record => exact (Prog.uses_bind_left (ccaskWriteRecordBlocking_uses record) _).consumes
  | fail e => exact Prog.consumes_inr _
  | retry e => exact Prog.consumes_inr _

/-- With nothing in the ring buffer the writer stops at once. -/
theorem ccaskWriterStop_computes {r : Ringbuf} (hring : w.ringbuf = some r) (hidle : r.tail = r.head) :
    Computes ccaskWriterStop w () { w with ringbuf := none } := by
  have hpop : Computes ccaskWriterRingbufPop { w with ringbuf := some { r with shutdown := true } }
      (.fail none) { w with ringbuf := some { r with shutdown := true } } := by
    refine Computes.state_bind ?_
    simp only []
    rw [if_pos hidle, if_pos trivial]
    exact Computes.pure _
  have hmain : Computes writerThreadMain { w with ringbuf := some { r with shutdown := true } } ()
      { w with ringbuf := some { r with shutdown := true } } :=
    Computes.loop_stop writerThreadRound_consumes (hpop.bind (Computes.pure _))
  refine Computes.modify_bind ?_
  rw [hring, Option.map_some]
  exact hmain.bind (Computes.modify _)

theorem ccaskKeydirShutdown_computes (h : w.readLocks = 0) :
    Computes ccaskKeydirShutdown w () { w with hashTable := [] } := by
  refine Computes.state_bind ?_
  rw [if_neg (by simp [h])]
  exact Computes.modify _

/-- What a shutdown does when the generators have ended. -/
theorem ccaskShutdown_of_join {w₁ : World} {r : Ringbuf}
    (hjoin : Computes (joinGenerators w.threads) { w with isShuttingDown := true } () w₁)
    (hring : w₁.ringbuf = some r) (hidle : r.tail = r.head) (hlocks : w₁.readLocks = 0) :
    Computes ccaskShutdown w () { w₁ with ringbuf := none, hashTable := [], files := [] } := by
  have hgenerators : Computes ccaskHintfileGeneratorShutdown { w with isShuttingDown := true } () w₁ :=
    Computes.state_bind hjoin
  have hkeydir := ccaskKeydirShutdown_computes (w := { w₁ with ringbuf := none }) hlocks
  exact Computes.modify_bind (hgenerators.bind ((ccaskWriterStop_computes hring hidle).bind
    (hkeydir.bind (Computes.modify _))))

theorem ccaskShutdown_idle {r : Ringbuf} (hthreads : w.threads = []) (hring : w.ringbuf = some r)
    (hidle : r.tail = r.head) (hlocks : w.readLocks = 0) : Computes ccaskShutdown w ()
      { w with isShuttingDown := true, ringbuf := none, hashTable := [], files := [] } := by
  have hjoin : Computes (joinGenerators w.threads) { w with isShuttingDown := true } ()
      { w with isShuttingDown := true } := by
    rw [hthreads]
    exact Computes.pure _
  exact ccaskShutdown_of_join hjoin hring hidle hlocks

/-- `ccask_shutdown` completes the hint files and leaves the datafiles as they are. -/
theorem ccaskShutdown_computes (h : Store w L) :
    ∃ w', Computes ccaskShutdown w () w' ∧ Disk w'.fs (ids w) L ∧
      (∀ id, w'.fs.read (fileName id .data) = w.fs.read (fileName id .data)) ∧
      ∀ id, (w'.fs.read (fileName id .hint)).isSome → id ∈ ids w := by
  have hdown : Store { w with isShuttingDown := true } L :=
    { h with mounted := h.mounted.congr rfl fun _ => rfl }
  obtain ⟨w₁, hjoin, hstore, -, hids, hdata⟩ := joinGenerators_computes hdown rfl
  have hids' : ids w₁ = ids w := hids
  obtain ⟨r, hring, hidle⟩ := hstore.idle
  refine ⟨_, ccaskShutdown_of_join hjoin hring hidle hstore.unlocked, ?_, hdata, ?_⟩
  · rw [← hids']
    exact hstore.disk
  · rw [← hids']
    exact hstore.current

end Shutdown

end Ccask.Audit
