import Ccask.Audit.Scan

/-!
# What recovery makes of one datafile

A datafile cut short gives back the records that are whole. A record without a value
hides everything behind it.
-/

namespace Ccask.Audit

open Ccask.Effect Ccask.Model

section Fixture

/-- A process before it calls the library, over a directory with one file. -/
def oneFile (name : Name) (c : Bytes) : World :=
  .boot ((Fs.empty.create name).1.append (Fs.empty.create name).2 c) 0

theorem read_oneFile (name : Name) (c : Bytes) : (oneFile name c).fs.read name = some c := by
  have hcreate := Fs.create_of_none Fs.empty name rfl
  have hdir := Fs.dir_create_self Fs.empty name
  have hdata : (Fs.empty.create name).1.data (Fs.empty.create name).2 = [] := by
    rw [hcreate.2.2, hcreate.1, Function.update_self]
  change ((Fs.empty.create name).1.dir name).map
    ((Fs.empty.create name).1.append (Fs.empty.create name).2 c).data = _
  rw [hdir, Option.map_some, Fs.data_append_self, hdata, List.nil_append]

theorem read_oneFile_of_ne {name m : Name} (h : m ≠ name) (c : Bytes) :
    (oneFile name c).fs.read m = none := by
  obtain ⟨-, hdir, -⟩ := Fs.create_of_none Fs.empty name rfl
  rw [Fs.read_eq_none]
  change (Fs.empty.create name).1.dir m = none
  rw [hdir, Function.update_of_ne h]
  rfl

end Fixture

variable {w : World} {fileId : Nat}

section Puts

variable [Zlib] {ps : List Put}

/-- The bytes of the records of these puts, one after another. -/
def written (ps : List Put) : Bytes := layout (fun p => p.record.bytes) ps

/-- The puts with the positions of their records. -/
abbrev placed (ps : List Put) : List (Put × Nat) := locate (fun p => p.record.bytes) 0 ps

theorem encode_record (ps : List Put) : encode (ps.map Put.record) = written ps := by
  simp only [encode, written, layout, List.flatMap_map]

/-- Their records with the positions. -/
def located (ps : List Put) : List (DatafileRecord × Nat) := (placed ps).map (Prod.map Put.record id)

theorem positions_record (ps : List Put) : positions (ps.map Put.record) = located ps :=
  locate_map Put.record 0 ps

/-- The entries of these records. -/
def putEntries (fileId : Nat) (l : List (Put × Nat)) : List KeydirRecord :=
  l.map fun q => q.1.entry fileId q.2

theorem entries_record (fileId : Nat) (l : List (Put × Nat)) :
    entries fileId (l.map (Prod.map Put.record id)) = putEntries fileId l := by
  rw [entries, List.map_map]
  exact List.map_congr_left fun q _ => datafileEntry_record q.1 fileId q.2

theorem Put.readable {p : Put} (hv : p.value.bytes ≠ []) (hs : p.record.bytes.length < 2 ^ 32) :
    Readable p.record :=
  { p.sized with
    value_ne := hv
    bound := by rwa [p.length_record] at hs }

end Puts

section Torn

variable [Zlib] {ps : List Put}

/-- The records of a datafile that end within its first `n` bytes. -/
def whole (ps : List Put) (n : Nat) : List (Put × Nat) :=
  (placed ps).filter fun q => q.2 + q.1.record.bytes.length ≤ n

/-- The iterator finds in the first `n` bytes of a datafile the records that end within them. -/
theorem scan_torn (hps : ∀ p ∈ ps, p.value.bytes ≠ [] ∧ p.record.bytes.length < 2 ^ 32) {n : Nat}
    (hn : n ≤ (written ps).length) :
    Scan (recordAt ((written ps).take n)) 0 ((whole ps n).map (Prod.map Put.record id)) := by
  obtain ⟨qs, rest, tail, hsplit, htake, hfilter, htail⟩ :=
    take_layout (fun p : Put => p.record.bytes) 0 hn
  simp only [Nat.zero_add] at hfilter
  have hreadable : ∀ r ∈ qs.map Put.record, Readable r := by
    intro r hr
    obtain ⟨p, hp, rfl⟩ := List.mem_map.mp hr
    obtain ⟨hv, hs⟩ := hps p (hsplit ▸ List.mem_append_left rest hp)
    exact p.readable hv hs
  have hcontents : (written ps).take n = encode (qs.map Put.record) ++ tail := by
    rw [encode_record]
    exact htake
  have hstop : recordAt (encode (qs.map Put.record) ++ tail)
      (encode (qs.map Put.record)).length = none := by
    obtain rfl | ⟨p, -, hp, hne⟩ := htail
    · rw [List.append_nil]
      exact recordAt_end _
    · exact recordAt_torn _ p.sized hp hne
  have hscan := scan_encode hreadable tail (.stop hstop)
  rw [List.append_nil, ← hcontents, positions_record] at hscan
  rwa [whole, placed, hfilter]

theorem whole_all (ps : List Put) : whole ps (written ps).length = placed ps := by
  apply List.filter_eq_self.mpr
  intro q hq
  obtain ⟨pre, post, hsplit, hpos⟩ := mem_locate hq
  simp only [decide_eq_true_eq, written, hsplit, layout_append, layout_cons, List.length_append]
  omega

/-- In a datafile that is complete it finds all records. -/
theorem scan_written (hps : ∀ p ∈ ps, p.value.bytes ≠ [] ∧ p.record.bytes.length < 2 ^ 32) :
    Scan (recordAt (written ps)) 0 (located ps) := by
  have hscan := scan_torn hps (Nat.le_refl _)
  rwa [List.take_length, whole_all] at hscan

/-- Recovery of the first `n` bytes of a datafile succeeds and makes exactly the upserts of the
records that end within them. -/
theorem recoverDatafile_torn (hps : ∀ p ∈ ps, p.value.bytes ≠ [] ∧ p.record.bytes.length < 2 ^ 32)
    {n : Nat} (hn : n ≤ (written ps).length)
    (hfile : w.fs.read (fileName fileId .data) = some ((written ps).take n)) :
    (∀ upsert f I, Upserts upsert f I → I w → Computes (recoverDatafile upsert fileId) w (.ok ())
      ((putEntries fileId (whole ps n)).foldl f w)) ∧
    (w.readLocks = 0 → Computes (recoverDatafile ccaskKeydirUpsert fileId) w (.ok ())
      { w with hashTable :=
          Index.replay KeydirRecord.key w.hashTable (putEntries fileId (whole ps n)) }) := by
  obtain ⟨ino, hdir, hdata⟩ := Fs.exists_of_read hfile
  have hscan := scan_torn hps hn
  rw [← hdata] at hscan
  have hrec : ∀ upsert f I, Upserts upsert f I → I w → Computes (recoverDatafile upsert fileId) w
      (.ok ()) ((putEntries fileId (whole ps n)).foldl f w) := by
    intro upsert f I hu hI
    have h := recoverDatafile_computes hu hI hdir hscan
    rwa [entries_record] at h
  refine ⟨hrec, fun hl => ?_⟩
  have h := hrec _ _ _ ccaskKeydirUpsert_upserts hl
  rwa [foldl_upserted] at h

end Torn

/-- A key of one byte. -/
def sampleKey : Buf := ⟨[97], Nat.one_lt_two_pow (by decide)⟩

/-- A put of a key and a value of one byte each. -/
def bytePut (timestamp : UInt32) (key value : UInt8) : Put :=
  ⟨timestamp, some ⟨[key], Nat.one_lt_two_pow (by decide)⟩, some ⟨[value], Nat.one_lt_two_pow (by decide)⟩⟩

/-- Two records, the second without its last byte. -/
theorem recoverDatafile_torn_two :
    letI := zlib
    let ps := [bytePut 1 97 98, bytePut 2 97 99]
    let w := oneFile (fileName 0 .data) ((written ps).take 35)
    (∀ upsert f I, Upserts upsert f I → I w → Computes (recoverDatafile upsert 0) w (.ok ())
      ((putEntries 0 (whole ps 35)).foldl f w)) ∧
    (w.readLocks = 0 → Computes (recoverDatafile ccaskKeydirUpsert 0) w (.ok ())
      { w with hashTable :=
          Index.replay KeydirRecord.key w.hashTable (putEntries 0 (whole ps 35)) }) := by
  let _ := zlib
  refine recoverDatafile_torn ?_ ?_ (read_oneFile _ _)
  · intro p hp
    obtain rfl | rfl : p = bytePut 1 97 98 ∨ p = bytePut 2 97 99 := by simpa using hp
    · exact ⟨by decide, by rw [Put.length_record]; decide⟩
    · exact ⟨by decide, by rw [Put.length_record]; decide⟩
  · simp only [written, layout_cons, List.length_append, Put.length_record]
    decide

section Iteration

/-- Calling `ccask_datafile_iter_next` again and again gives these records with their positions,
and only then fails. -/
inductive Iterates (w : World) : Iter → List (DatafileRecord × Nat) → Prop
  | stop {iter : Iter} {e : Option Errno} :
      Computes (ccaskDatafileIterNext iter) w (.fail e) w → Iterates w iter []
  | next {iter iter' : Iter} {r : DatafileRecord} {pos : Nat} {l : List (DatafileRecord × Nat)} :
      Computes (ccaskDatafileIterNext iter) w (.ok (r, pos, iter')) w → Iterates w iter' l →
        Iterates w iter ((r, pos) :: l)

theorem Iterates.unique {iter : Iter} {l l' : List (DatafileRecord × Nat)} (h : Iterates w iter l)
    (h' : Iterates w iter l') : l = l' := by
  induction h generalizing l' with
  | stop hs =>
      cases h' with
      | stop => rfl
      | next hn _ => cases (hs.unique hn).1
  | next hn _ ih =>
      cases h' with
      | stop hs => cases (hn.unique hs).1
      | next hn' hl =>
          cases (hn.unique hn').1
          rw [ih hl]

/-- The iterator gives what a scan of the file gives. -/
theorem iterates_of_scan {ino : Ino} {off : Nat} {l : List (DatafileRecord × Nat)}
    (h : Scan (recordAt (w.fs.data ino)) off l) :
    Iterates w ⟨fileId, ino, off, (w.fs.data ino).length⟩ l := by
  induction h with
  | stop hn =>
      obtain ⟨e, he⟩ := ccaskDatafileIterNext_stops ⟨fileId, ino, _, (w.fs.data ino).length⟩ rfl hn
      exact .stop he
  | step hs _ ih => exact .next (ccaskDatafileIterNext_computes rfl hs) ih

end Iteration

section Tombstone

variable {ps : List Put}

/-- The first record without a value, if there is one. -/
theorem exists_tombstone {p : Put} (hp : p ∈ ps) (hempty : p.value.bytes = []) :
    ∃ pre t post, ps = pre ++ t :: post ∧ t.value.bytes = [] ∧ ∀ q ∈ pre, q.value.bytes ≠ [] := by
  obtain ⟨t, hfind⟩ : ∃ t, ps.find? (fun p => p.value.bytes = []) = some t := by
    rw [← Option.isSome_iff_exists, List.find?_isSome]
    exact ⟨p, hp, by simpa using hempty⟩
  obtain ⟨ht, pre, post, hsplit, hpre⟩ := List.find?_eq_some_iff_append.mp hfind
  exact ⟨pre, t, post, hsplit, by simpa using ht, fun q hq => by simpa using hpre q hq⟩

variable [Zlib]

/-- Iteration, recovery and the hint generator deal with every record of the file. -/
structure ScansAll (w : World) (fileId : Nat) (ps : List Put) : Prop where
  iterates : ∃ iter, Computes (ccaskDatafileIterOpen fileId) w (.ok iter) w ∧
    Iterates w iter (located ps)
  recovers : ∀ upsert f I, Upserts upsert f I → I w →
    Computes (recoverDatafile upsert fileId) w (.ok ()) ((putEntries fileId (placed ps)).foldl f w)
  generates : ∃ w', Computes (hintfileGeneratorThread fileId) w () w' ∧
    w'.fs.read (fileName fileId .hint) = some ((w.fs.read (fileName fileId .hint)).getD [] ++
      hints (located ps))

/-- Nothing of what stands behind a record without a value is found. -/
theorem scan_tombstone {t : Put} (more : Bytes)
    (hps : ∀ p ∈ ps, p.value.bytes ≠ [] ∧ p.record.bytes.length < 2 ^ 32) (ht : t.value.bytes = []) :
    Scan (recordAt (written ps ++ (t.record.bytes ++ more))) 0 (located ps) := by
  have hreadable : ∀ r ∈ ps.map Put.record, Readable r := by
    intro r hr
    obtain ⟨p, hp, rfl⟩ := List.mem_map.mp hr
    exact p.readable (hps p hp).1 (hps p hp).2
  have hstop := recordAt_empty_value (written ps) t.record more t.sized ht
  have hscan := scan_encode hreadable (t.record.bytes ++ more)
    (.stop (by rwa [encode_record, ← List.append_assoc]))
  rwa [encode_record, List.append_nil, positions_record] at hscan

/-- The iterator stops in front of the first record without a value. -/
theorem value_ne_of_scansAll (hsize : ∀ p ∈ ps, p.record.bytes.length < 2 ^ 32)
    (hfile : w.fs.read (fileName fileId .data) = some (written ps)) (h : ScansAll w fileId ps) :
    ∀ p ∈ ps, p.value.bytes ≠ [] := by
  obtain ⟨ino, hdir, hdata⟩ := Fs.exists_of_read hfile
  intro p hp hempty
  obtain ⟨pre, t, post, hsplit, ht, hpre⟩ := exists_tombstone hp hempty
  have hscan : Scan (recordAt (w.fs.data ino)) 0 (located pre) := by
    rw [hdata, hsplit, written, layout_append, layout_cons]
    refine scan_tombstone _ (fun q hq => ⟨hpre q hq, ?_⟩) ht
    exact hsize q (hsplit ▸ List.mem_append_left _ hq)
  obtain ⟨iter, hiter, hall⟩ := h.iterates
  cases (hiter.unique (ccaskDatafileIterOpen_computes hdir)).1
  have heq := congrArg List.length ((iterates_of_scan hscan).unique hall)
  simp only [located, List.length_map, length_locate, hsplit, List.length_append, List.length_cons] at heq
  omega

/-- Every record of a datafile is found exactly when none of them is without a value. -/
theorem scansAll_iff (hps : ∀ p ∈ ps, p.key.bytes ≠ [] ∧ p.record.bytes.length < 2 ^ 32)
    (hfile : w.fs.read (fileName fileId .data) = some (written ps)) :
    ScansAll w fileId ps ↔ ∀ p ∈ ps, p.value.bytes ≠ [] := by
  refine ⟨value_ne_of_scansAll (fun p hp => (hps p hp).2) hfile, fun h => ?_⟩
  obtain ⟨ino, hdir, hdata⟩ := Fs.exists_of_read hfile
  have hopen := ccaskDatafileIterOpen_computes hdir
  have hscan := scan_written fun p hp => ⟨h p hp, (hps p hp).2⟩
  rw [← hdata] at hscan
  refine ⟨⟨_, hopen, iterates_of_scan hscan⟩, ?_, ?_⟩
  · intro upsert f I hu hI
    have hrec := recoverDatafile_computes hu hI hdir hscan
    rwa [located, entries_record] at hrec
  · refine ⟨_, hintfileGeneratorThread_computes hdir ?_ hscan,
      by rw [read_hinted, Function.update_self]⟩
    intro q hq
    obtain ⟨⟨p, pos⟩, hp, rfl⟩ := List.mem_map.mp hq
    obtain ⟨pre, post, hsplit, -⟩ := mem_locate hp
    have hmem : p ∈ ps := by rw [hsplit]; simp
    rw [hintOf_key p.sized.key]
    exact (hps p hmem).1

end Tombstone

/-- A tombstone and a record behind it, as deleting `a` and putting `b` leaves them. -/
def hiddenPuts : List Put := [⟨1, some ⟨[97], by decide⟩, none⟩, bytePut 2 98 99]

theorem hiddenPuts_ok [Zlib] :
    ∀ p ∈ hiddenPuts, p.key.bytes ≠ [] ∧ p.record.bytes.length < 2 ^ 32 := by
  intro p hp
  obtain rfl | rfl : p = ⟨1, some ⟨[97], by decide⟩, none⟩ ∨ p = bytePut 2 98 99 := by
    simpa [hiddenPuts] using hp
  · exact ⟨by decide, by rw [Put.length_record]; decide⟩
  · exact ⟨by decide, by rw [Put.length_record]; decide⟩

theorem scansAll_hiddenPuts_iff :
    letI := zlib
    ScansAll (oneFile (fileName 0 .data) (written hiddenPuts)) 0 hiddenPuts ↔
      ∀ p ∈ hiddenPuts, p.value.bytes ≠ [] := by
  let _ := zlib
  exact scansAll_iff hiddenPuts_ok (read_oneFile _ _)

theorem not_scansAll_hiddenPuts :
    letI := zlib
    (∀ p ∈ hiddenPuts, p.key.bytes ≠ [] ∧ p.record.bytes.length < 2 ^ 32) ∧
    (oneFile (fileName 0 .data) (written hiddenPuts)).fs.read (fileName 0 .data) =
      some (written hiddenPuts) ∧
    ¬ ScansAll (oneFile (fileName 0 .data) (written hiddenPuts)) 0 hiddenPuts := by
  let _ := zlib
  refine ⟨hiddenPuts_ok, read_oneFile _ _, ?_⟩
  intro h
  exact value_ne_of_scansAll (fun p hp => (hiddenPuts_ok p hp).2) (read_oneFile _ _) h
    ⟨1, some ⟨[97], by decide⟩, none⟩ List.mem_cons_self rfl

end Ccask.Audit
