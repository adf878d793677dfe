import Ccask.Audit.Dump
import Ccask.Audit.Integrity
import Mathlib.Data.List.Infix

/-!
# Files that are read through open descriptors

A read opens a file that is closed and leaves every open descriptor as it is, and so does the dump of a
compaction. What a descriptor leads to stays readable when the file loses its name.
-/

namespace Ccask.Audit

open Ccask.Effect Ccask.Model Ccask.Index

section Descriptors

variable {w v : World} {id pos : Nat} {record : DatafileRecord}

/-- The same directory, and no descriptor but those of files that were closed has changed. -/
structure Opens (w v : World) : Prop where
  fs : v.fs = w.fs
  fds : ∀ i, openFd i v = openFd i w ∨
    (openFd i w = some none ∧ openFd i v = some (w.fs.dir (fileName i .data)))

instance : Std.Refl Opens := ⟨fun _ => ⟨rfl, fun _ => .inl rfl⟩⟩

instance : IsTrans World Opens := ⟨by
  intro w v u h h'
  refine ⟨h'.fs.trans h.fs, fun i => ?_⟩
  rcases h.fds i with hv | ⟨hw, hv⟩
  · rcases h'.fds i with hu | ⟨hv', hu⟩
    · exact .inl (hu.trans hv)
    · rw [h.fs] at hu
      exact .inr ⟨hv.symm.trans hv', hu⟩
  · rcases h'.fds i with hu | ⟨-, hu⟩
    · exact .inr ⟨hw, hu.trans hv⟩
    · rw [h.fs] at hu
      exact .inr ⟨hw, hu⟩⟩

theorem Leaves.opens {t : ReadThread} (h : Leaves t w v) (ht : ∀ i, t ≠ .closing i) : Opens w v := by
  refine ⟨h.fs, fun i => ?_⟩
  rcases h.fds i with hv | hv | ⟨hc, -⟩
  · exact .inl hv
  · exact .inr hv
  · exact absurd hc (ht i)

/-- The inode that serves a file, in terms of its descriptor. -/
theorem servedBy_eq (id : Nat) (w : World) :
    servedBy id w = (openFd id w).bind fun fd => fd <|> w.fs.dir (fileName id .data) := by
  unfold servedBy openFd
  cases ccaskFilesGetFile id w with
  | none => rfl
  | some file => rfl

theorem Opens.servedBy (h : Opens w v) (id : Nat) : servedBy id v = servedBy id w := by
  rw [servedBy_eq, servedBy_eq, h.fs]
  rcases h.fds id with hv | ⟨hw, hv⟩
  · rw [hv]
  · rw [hw, hv]
    cases w.fs.dir (fileName id .data) with
    | none => rfl
    | some ino => rfl

theorem ccaskReadDatafileRecord_opens (id : Nat) (record : DatafileRecord) (pos : Nat) :
    Moves Opens (ccaskReadDatafileRecord id record pos) := by
  have hopen : Moves Opens (readOpen id) := by
    intro w
    refine (readOpen_ensures .ended).mono (fun _ _ h => h.opens ?_) fun _ h => h.opens ?_
    · simp
    · simp
  have htransfer : Moves Opens (readTransfer id record pos) := by
    intro w
    refine (readTransfer_ensures .ended).mono (fun _ _ h => h.opens ?_) fun _ h => h.opens ?_
    · simp
    · simp
  rw [ccaskReadDatafileRecord_sections]
  refine readCheck_moves.bind fun r => ?_
  cases r with
  | fail e => exact Moves.pure _
  | retry e => exact Moves.pure _
  | ok needsOpen =>
      refine Moves.bind ?_ fun r => ?_
      · cases needsOpen with
        | true => exact hopen
        | false => exact Moves.pure _
      · cases r with
        | fail e => exact Moves.pure _
        | retry e => exact Moves.pure _
        | ok u => exact htransfer

/-- What reading a record may do, a get may do. -/
theorem ccaskGet_moves [Zlib] {R : World → World → Prop} [Std.Refl R] [IsTrans World R]
    (h : ∀ id record pos, Moves R (ccaskReadDatafileRecord id record pos)) (key : Buf) :
    Moves R (ccaskGet key) := by
  refine Moves.state fun w => ?_
  cases ccaskKeydirFind key.val w with
  | none => exact Moves.pure _ w
  | some kd =>
      refine Moves.bind (ccaskAllocateDatafileRecord_moves _ _) (fun r => ?_) w
      cases r with
      | fail e => exact Moves.pure _
      | retry e => exact Moves.pure _
      | ok buffers =>
          refine (attempt_moves (h _ _ _)).bind fun r => ?_
          cases r with
          | fail e => exact Moves.pure _
          | retry e => exact Moves.pure _
          | ok record =>
              dsimp only
              split
              · exact Moves.pure _
              · split
                · exact Moves.pure _
                · refine malloc_moves.bind fun b => ?_
                  cases b with
                  | true => exact Moves.pure _
                  | false => exact Moves.pure _

/-- Descriptors that are open stay as they are. -/
def StaysOpen (w v : World) : Prop :=
  ∀ i ino, openFd i w = some (some ino) → openFd i v = some (some ino)

instance : Std.Refl StaysOpen := ⟨fun _ _ _ h => h⟩

instance : IsTrans World StaysOpen := ⟨fun _ _ _ h h' i ino hi => h' i ino (h i ino hi)⟩

theorem Opens.stays (h : Opens w v) : StaysOpen w v := by
  intro i ino hi
  rcases h.fds i with hv | ⟨hw, -⟩
  · rw [hv, hi]
  · rw [hi] at hw
    cases hw

theorem openFd_congr (h : v.files = w.files) (i : Nat) : openFd i v = openFd i w := by
  unfold openFd ccaskFilesGetFile
  rw [h]

theorem StaysOpen.of_files (h : v.files = w.files) : StaysOpen w v := by
  intro i ino hi
  rw [openFd_congr h, hi]

/-- A file of which a record could be read is open. -/
theorem ccaskReadDatafileRecord_leaves_open : Ensures (fun _ => True)
    (ccaskReadDatafileRecord id record pos) w
    (fun r v => StaysOpen w v ∧ (r.isOk → ∃ ino, openFd id v = some (some ino)))
    (fun _ => True) := by
  have hstays : Ensures (fun _ => True) (ccaskReadDatafileRecord id record pos) w
      (fun _ v => StaysOpen w v) (fun _ => True) :=
    (ccaskReadDatafileRecord_opens id record pos w).mono (fun _ _ h => h.stays) fun _ _ => trivial
  suffices hopened : Ensures (fun _ => True) (ccaskReadDatafileRecord id record pos) w
      (fun r v => r.isOk → ∃ ino, openFd id v = some (some ino)) (fun _ => True) from
    (hstays.and hopened).mono (fun _ _ h => h) fun _ _ => trivial
  refine Ensures.state_bind ?_
  cases hget : ccaskFilesGetFile id w with
  | none => exact Ensures.pure fun h => by cases h
  | some file =>
      refine (opening_ensures hget).bind ?_
      rintro r v ⟨-, hopen⟩
      cases r with
      | fail e => exact Ensures.pure fun h => by cases h
      | retry e => exact Ensures.pure fun h => by cases h
      | ok u =>
          obtain ⟨ino, -, hfd⟩ := hopen rfl
          have hv : openFd id v = some (some ino) := by
            unfold openFd
            cases hfile : ccaskFilesGetFile id v with
            | none =>
                rw [hfile] at hfd
                cases hfd
            | some g =>
                rw [hfile] at hfd
                exact congrArg some hfd
          have haccess : ∀ u : World, u = v →
              openFd id (u.setFile id fun f => { f with lastAccessed := u.clock }) = some (some ino) := by
            intro u hu
            rw [openFd_setFile id id (F := fun f => { f with lastAccessed := u.clock }) (fun _ => rfl)
              fun _ => rfl, hu, hv]
          refine Ensures.state_bind ?_
          refine ((safePreadv_moves (R := Eq) _ _ (iov_fits record) (iov_fresh record) v).mono
            (fun _ _ h => h) fun _ _ => trivial).bind ?_
          rintro r u rfl
          split
          · exact Ensures.modify_bind (Ensures.pure fun _ => ⟨ino, haccess _ rfl⟩)
          · exact Ensures.block trivial
          · exact Ensures.modify_bind (Ensures.pure fun h => by cases h)
          · exact Ensures.modify_bind (Ensures.pure fun h => by cases h)

end Descriptors

section Dumping

variable {w : World}

theorem tempFileFor_files (n : Nat) (fd : Ino) (recordSize : Nat) :
    Moves StaysOpen (tempFileFor n fd recordSize) := by
  refine (lseekEnd_moves _).bind fun pos => ?_
  cases pos with
  | none => exact Moves.pure _
  | some pos =>
      refine Moves.state fun w => ?_
      split
      · refine ((attempt_moves (openCreate_moves _ fun v => .of_files rfl)).bind fun r => ?_) w
        cases r with
        | ok ino => exact Moves.pure _
        | fail e => exact Moves.pure _
        | retry e => exact Moves.pure _
      · exact Moves.pure _ w

/-- When the loop has got to its end, the file of every entry is open. -/
theorem dumpEntries_opens (es : List KeydirRecord) {n : Nat} {fd : Ino} :
    Ensures (fun _ => True) (dumpEntries es n fd) w
      (fun r v => StaysOpen w v ∧ ∀ n', r = .finished n' →
        ∀ e ∈ es, ∃ ino, openFd e.fileId v = some (some ino))
      (fun _ => True) := by
  induction es generalizing w n fd with
  | nil => exact Ensures.pure ⟨refl_of StaysOpen w, fun _ _ e he => by cases he⟩
  | cons kd es ih =>
      refine ((ccaskAllocateDatafileRecord_moves (R := Eq) _ _ w).mono (fun _ _ h => h)
        fun _ _ => trivial).bind ?_
      rintro r _ rfl
      cases r with
      | fail e => exact Ensures.pure ⟨refl_of StaysOpen w, by simp⟩
      | retry e => exact Ensures.pure ⟨refl_of StaysOpen w, by simp⟩
      | ok buffers =>
          have hread : Ensures (fun _ => True)
              (attempt 5 (ccaskReadDatafileRecord kd.fileId buffers kd.recordPos)) w
              (fun r v => StaysOpen w v ∧ (r.isOk → ∃ ino, openFd kd.fileId v = some (some ino)))
              (fun _ => True) := by
            refine attempt_ensures (I := StaysOpen w) (refl_of StaysOpen w)
              (fun e v hv => ⟨hv, fun h => by cases h⟩) fun v hv => ?_
            refine ccaskReadDatafileRecord_leaves_open.mono ?_ fun _ _ => trivial
            rintro r u ⟨hu, hopen⟩
            have hwu := trans_of StaysOpen hv hu
            cases r with
            | ok record => exact ⟨hwu, hopen⟩
            | fail e => exact ⟨hwu, hopen⟩
            | retry e => exact hwu
          refine hread.bind ?_
          rintro r v ⟨hv, hopen⟩
          cases r with
          | fail e => exact Ensures.pure ⟨hv, by simp⟩
          | retry e => exact Ensures.pure ⟨hv, by simp⟩
          | ok record =>
              obtain ⟨ino, hino⟩ := hopen rfl
              refine ((tempFileFor_files _ _ _ v).mono (fun _ _ h => h) fun _ _ => trivial).bind ?_
              intro r u hu
              have hwu := trans_of StaysOpen hv hu
              cases r with
              | error tempId => exact Ensures.pure ⟨hwu, by simp⟩
              | ok p =>
                  refine ((safeWritev_moves (R := StaysOpen) (some p.2) (iov_fits record)
                    (fun w ino bytes => .of_files rfl) u).mono (fun _ _ h => h) fun _ _ => trivial).bind ?_
                  intro r x hx
                  have hwx := trans_of StaysOpen hwu hx
                  cases r with
                  | fail e => exact Ensures.pure ⟨hwx, by simp⟩
                  | retry e => exact Ensures.pure ⟨hwx, by simp⟩
                  | ok _ =>
                      refine ih.mono ?_ fun _ _ => trivial
                      rintro r y ⟨hy, hes⟩
                      refine ⟨trans_of StaysOpen hwx hy, fun n' hr e he => ?_⟩
                      rcases List.mem_cons.mp he with rfl | he
                      · exact ⟨ino, hy _ _ (hx _ _ (hu _ _ hino))⟩
                      · exact hes n' hr e he

theorem fillTemps_opens : Ensures (fun _ => True) fillTemps w
    (fun r v => ∀ n, r = .ok (.finished n) →
      ∀ e ∈ w.hashTable, ∃ ino, openFd e.fileId v = some (some ino))
    (fun _ => True) := by
  refine ((openCreate_ensures (fileName 0 .tempData)).mono (fun _ _ h => h) fun _ _ => trivial).bind ?_
  rintro r v (⟨hr, rfl⟩ | ⟨rfl, rfl⟩)
  · cases r with
    | ok ino => cases hr
    | fail e => exact Ensures.pure (by simp)
    | retry e => exact Ensures.pure (by simp)
  · have hiter : Ensures (fun _ => True) ccaskKeydirRecordIter
        { w with fs := (w.fs.create (fileName 0 .tempData)).1 }
        (fun es _ => es = w.hashTable) (fun _ => True) :=
      Ensures.modify_bind (Ensures.state_bind (Ensures.pure rfl))
    refine hiter.bind ?_
    rintro _ x rfl
    refine (dumpEntries_opens w.hashTable).bind ?_
    rintro dumpEnd y ⟨-, hopen⟩
    refine Ensures.pure fun n hn => hopen n ?_
    exact Res.ok.inj hn

end Dumping

section Serving

variable {w v : World} {id pos : Nat} {b : Bytes}

/-- These bytes stand at a position of the file that serves `id`. -/
def LiesAt (w : World) (id pos : Nat) (b : Bytes) : Prop :=
  ∃ ino, servedBy id w = some ino ∧ ino < w.fs.next ∧ b <+: (w.fs.data ino).drop pos

/-- The files have got nothing but new bytes at their ends, and no datafile has lost its name. -/
structure Grows (fs fs' : Fs) : Prop where
  next : fs.next ≤ fs'.next
  data : ∀ ino < fs.next, fs.data ino <+: fs'.data ino
  dir : ∀ id ino, fs.dir (fileName id .data) = some ino → fs'.dir (fileName id .data) = some ino

namespace Grows

theorem refl (fs : Fs) : Grows fs fs :=
  ⟨Nat.le_refl _, fun _ _ => List.prefix_refl _, fun _ _ h => h⟩

theorem trans {fs fs' fs'' : Fs} (h : Grows fs fs') (h' : Grows fs' fs'') : Grows fs fs'' :=
  ⟨Nat.le_trans h.next h'.next,
    fun ino hino => (h.data ino hino).trans (h'.data ino (Nat.lt_of_lt_of_le hino h.next)),
    fun id ino hdir => h'.dir id ino (h.dir id ino hdir)⟩

theorem append (fs : Fs) (ino : Ino) (bytes : Bytes) : Grows fs (fs.append ino bytes) := by
  refine ⟨Nat.le_refl _, fun i _ => ?_, fun _ _ h => h⟩
  rw [Fs.data_append]
  split
  · rename_i hi
    rw [hi]
    exact List.prefix_append _ _
  · exact List.prefix_refl _

theorem create (fs : Fs) (name : Name) : Grows fs (fs.create name).1 := by
  refine ⟨?_, fun i hi => ?_, fun id ino hdir => ?_⟩
  · cases h : fs.dir name with
    | some ino => rw [Fs.create_of_some fs name h]
    | none =>
        unfold Fs.create
        split
        · exact Nat.le_refl _
        · exact Nat.le_succ _
  · have hsame := Fs.data_create fs name hi
    exact hsame ▸ List.prefix_refl _
  · by_cases hname : fileName id .data = name
    · rw [hname] at hdir
      rw [Fs.create_of_some fs name hdir, hname]
      exact hdir
    · rw [Fs.dir_create_of_ne fs name hname]
      exact hdir

end Grows

/-- What a file yields it yields as long as its descriptor stays. -/
theorem LiesAt.grows (h : LiesAt w id pos b) (hg : Grows w.fs v.fs) (hfd : openFd id v = openFd id w) :
    LiesAt v id pos b := by
  obtain ⟨ino, hserved, hino, hb⟩ := h
  refine ⟨ino, ?_, Nat.lt_of_lt_of_le hino hg.next, hb.trans ((hg.data ino hino).drop pos)⟩
  rw [servedBy_eq] at hserved ⊢
  rw [hfd]
  cases hopen : openFd id w with
  | none =>
      rw [hopen] at hserved
      cases hserved
  | some fd =>
      rw [hopen] at hserved
      cases fd with
      | some i => exact hserved
      | none => exact hg.dir id ino hserved

variable [Zlib] {hist : List Put}

/-- The key directory leads to the record of the last put of a key. -/
structure Recalls (w : World) (hist : List Put) (k : Bytes) : Prop where
  missing : latest putKey k hist = none → ccaskKeydirFind k w = none
  found : ∀ p, latest putKey k hist = some p → Good p ∧ ∃ id pos,
    ccaskKeydirFind k w = some (p.entry id pos) ∧ LiesAt w id pos p.record.bytes

/-- Such a state answers the last put. -/
theorem Recalls.get {key : Buf} (h : Recalls w hist key.val) :
    ∃ v, Computes (ccaskGet key) w (lookup hist key.val) v := by
  unfold lookup
  cases hlatest : latest putKey key.val hist with
  | none => exact ⟨w, ccaskGet_missing (h.missing hlatest)⟩
  | some p =>
      obtain ⟨hgood, id, pos, hfind, ino, hserved, -, hprefix⟩ := h.found p hlatest
      have hvalue : p.value.size.toNat = p.value.bytes.length := Ptr.toNat_size _
      have hpos : 0 < p.value.bytes.length := List.length_pos_iff.mpr hgood.value_ne
      have hlen := hprefix.length_le
      rw [p.length_record, List.length_drop] at hlen
      have hreads : Reads w (p.entry id pos) p.record := by
        refine ⟨ino, hserved, ?_, ?_, ?_⟩
        · show 0 < p.value.size.toNat
          omega
        · show pos + (16 + p.key.bytes.length + p.value.size.toNat) ≤ _
          omega
        · have hback := readBack_of_prefix p.sized.header hprefix
          rw [Put.record_key, Put.record_value, ← hvalue] at hback
          exact hback.symm
      have hkey : (p.entry id pos).key.length < 2 ^ 32 := p.key.length_lt
      obtain ⟨v, hread⟩ := ccaskReadDatafileRecord_gives hkey hreads
      have hcrc := calculateCrc32_eq p.timestamp p.key p.value
      rw [Ptr.eq_some hgood.key_ne, Ptr.eq_some hgood.value_ne] at hcrc
      have hget := ccaskGet_of_read hfind hread (header_mkRecord ..) hcrc
      have htake : p.value.bytes.take p.value.size.toNat = p.value.bytes := by
        rw [Ptr.toNat_size, List.take_length]
      rw [Put.record_value, Put.entry, htake] at hget
      exact ⟨v, hget⟩

/-- It is enough that what the entry leads to is the same. -/
theorem Recalls.congr {k : Bytes} (h : Recalls w hist k)
    (hfind : ccaskKeydirFind k v = ccaskKeydirFind k w)
    (hlies : ∀ e, ccaskKeydirFind k w = some e → ∀ b : Bytes,
      b.length = 16 + e.key.length + e.valueSize.toNat → LiesAt w e.fileId e.recordPos b →
      LiesAt v e.fileId e.recordPos b) : Recalls v hist k := by
  refine ⟨fun hnone => ?_, fun p hp => ?_⟩
  · rw [hfind]
    exact h.missing hnone
  · obtain ⟨hgood, id, pos, hentry, hy⟩ := h.found p hp
    refine ⟨hgood, id, pos, by rw [hfind]; exact hentry, hlies _ hentry _ ?_ hy⟩
    rw [p.length_record]
    show _ = 16 + p.key.bytes.length + p.value.size.toNat
    rw [Ptr.toNat_size]

end Serving

end Ccask.Audit
