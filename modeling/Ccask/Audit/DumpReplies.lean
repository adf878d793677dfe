import Ccask.Audit.Dump
import Ccask.Audit.Integrity
import Ccask.Audit.Replies

/-!
# What the replies tell of a dump

Whether the loop over the key directory gets to its end is told by the replies and by the state before:
which files have a descriptor, how long the records are and how they fill the temporary files.
-/

namespace Ccask.Audit

open Ccask.Effect Ccask.Model Ccask.Index

section Reading

variable {w v : World} {kd : KeydirRecord} {id : Nat} {ino : Ino}

/-- How many bytes the dump reads for an entry. -/
def entrySize (kd : KeydirRecord) : Nat :=
  datafileRecordHeaderSize + (UInt32.ofNat kd.key.length).toNat + kd.valueSize.toNat

/-- The record of an entry is within the file its reads go to, and has a value. -/
def Retrievable (w : World) (kd : KeydirRecord) : Prop :=
  0 < kd.valueSize.toNat ∧ ∃ ino, servedBy kd.fileId w = some ino ∧
    kd.recordPos + entrySize kd ≤ (w.fs.data ino).length

/-- What the replies tell of the descriptor for a read, once the files `opened` have been read: it is
there, or the file is opened and its invalidator is started. -/
def descriptorTold (w : World) (opened : List Nat) (fileId : Nat) : Telling :=
  if fileId ∈ opened then .ends true
  else match ccaskFilesGetFile fileId w with
    | none => .ends false
    | some file =>
      if file.fd.isSome then .ends true
      else if file.isFdInvalidatorRunning then .tries 5
      else (Telling.tries 5).andThen .any

/-- The file has a descriptor on the inode, and no other file has changed. -/
structure Opened (id : Nat) (ino : Ino) (w v : World) : Prop where
  same : v = { w with files := v.files }
  fd : (ccaskFilesGetFile id v).bind CcaskFile.fd = some ino
  other : ∀ i, i ≠ id → ccaskFilesGetFile i v = ccaskFilesGetFile i w

theorem Opened.fs_eq (h : Opened id ino w v) : v.fs = w.fs := by rw [h.same]

/-- A change to the file that leaves its descriptor. -/
theorem Opened.setFile (h : Opened id ino w v) {F : CcaskFile → CcaskFile}
    (hid : ∀ f, (F f).fileId = f.fileId) (hfd : ∀ f, (F f).fd = f.fd) :
    Opened id ino w (v.setFile id F) := by
  refine ⟨by rw [h.same]; rfl, ?_, fun i hi => ?_⟩
  · have hopen := h.fd
    rw [getFile_setFile id id hid, if_pos rfl]
    cases hget : ccaskFilesGetFile id v with
    | none =>
        rw [hget] at hopen
        cases hopen
    | some file =>
        rw [hget] at hopen
        exact (hfd file).trans hopen
  · rw [getFile_setFile id i hid, if_neg hi]
    exact h.other i hi

/-- The inode that the reads of a file go to is known when the file is. -/
theorem servedBy_file (h : servedBy id w = some ino) : ∃ file, ccaskFilesGetFile id w = some file ∧
    file.fileId = id ∧ (file.fd = some ino ∨ (file.fd = none ∧ w.fs.dir (fileName id .data) = some ino)) := by
  cases hget : ccaskFilesGetFile id w with
  | none =>
      rw [servedBy, hget] at h
      cases h
  | some file =>
      refine ⟨file, rfl, by simpa using List.find?_some hget, ?_⟩
      rw [servedBy, hget] at h
      cases hfd : file.fd with
      | none =>
          simp only [Option.bind_eq_bind, Option.bind_some, hfd, Option.orElse_eq_orElse,
            Option.orElse_none] at h
          exact .inr ⟨rfl, h⟩
      | some i =>
          simp only [Option.bind_eq_bind, Option.bind_some, hfd, Option.orElse_eq_orElse,
            Option.orElse_some] at h
          exact .inl h

/-- A descriptor that is opened is opened on the datafile. -/
theorem openForRead_opens {file : CcaskFile} (hget : ccaskFilesGetFile id w = some file)
    (hfid : file.fileId = id) (hdir : w.fs.dir (fileName id .data) = some ino) :
    Ensures (fun _ => True) (openForRead file) w
      (fun r v => r = .ok () → Opened id ino w v) (fun _ => True) := by
  rw [openForRead_eq, hfid]
  refine (((ccaskFilesGetDatafileFd_oneCall hdir).ensures 5).mono (fun _ _ h => h) fun _ _ => trivial).bind ?_
  rintro r v (⟨hr, -⟩ | ⟨hr, hv⟩)
  · cases r with
    | ok i => cases hr
    | fail e => exact Ensures.pure (by simp)
    | retry e => exact Ensures.pure (by simp)
  · subst v r
    have hopened : Opened id ino w (w.setFile id fun f => { f with fd := some ino }) := by
      refine ⟨rfl, ?_, fun i hi => ?_⟩
      · rw [getFile_setFile id id (F := fun f => { f with fd := some ino }) (fun _ => rfl), if_pos rfl,
          hget]
        rfl
      · rw [getFile_setFile id i (F := fun f => { f with fd := some ino }) (fun _ => rfl), if_neg hi]
    refine Ensures.modify_bind ((startInvalidator_ensures file).mono ?_ fun _ _ => trivial)
    rintro r v ⟨rfl, rfl | rfl⟩
    · exact fun _ => hopened
    · rw [hfid]
      exact fun _ => hopened.setFile (fun _ => rfl) fun _ => rfl

theorem startInvalidator_tells (file : CcaskFile) :
    Tells (if file.isFdInvalidatorRunning then .ends true else .any) Res.isOk (startInvalidator file) w := by
  unfold startInvalidator
  split
  · exact .pure rfl
  · rw [← Telling.andThen_ends .any]
    refine Tells.call_any fun r => ?_
    cases r with
    | done n => exact .modify_bind (.pure rfl)
    | intr => exact .modify_bind (.pure rfl)
    | transient => exact .pure rfl
    | fail => exact .pure rfl

theorem openForRead_tells {file : CcaskFile} (hfid : file.fileId = id)
    (hdir : w.fs.dir (fileName id .data) = some ino) :
    Tells (if file.isFdInvalidatorRunning then .tries 5 else (Telling.tries 5).andThen .any) Res.isOk
      (openForRead file) w := by
  have hcall := ccaskFilesGetDatafileFd_oneCall hdir
  have hstart : Tells ((Telling.tries 5).andThen (if file.isFdInvalidatorRunning then .ends true else .any))
      Res.isOk (openForRead file) w := by
    rw [openForRead_eq, hfid]
    refine handedOn (hcall.tells rfl 5) (hcall.ensures 5) ?_ (fun _ => ⟨_, rfl, rfl⟩) fun _ => ⟨_, rfl, rfl⟩
    intro i v _
    exact .modify_bind (startInvalidator_tells file)
  cases hrunning : file.isFdInvalidatorRunning with
  | false =>
      rw [hrunning] at hstart
      exact hstart
  | true =>
      rw [hrunning] at hstart
      rw [← Telling.andThen_ends (.tries 5)]
      exact hstart

theorem descriptorTold_self {file : CcaskFile} (hget : ccaskFilesGetFile id w = some file) :
    descriptorTold w [] id = if file.fd.isSome then .ends true
      else if file.isFdInvalidatorRunning then .tries 5 else (Telling.tries 5).andThen .any := by
  rw [descriptorTold, if_neg List.not_mem_nil, hget]

/-- The open section of a read, when the file is known. -/
theorem opening_tells {file : CcaskFile} (hserved : servedBy id w = some ino)
    (hget : ccaskFilesGetFile id w = some file) :
    Tells (descriptorTold w [] id) Res.isOk
        (if file.fd.isNone then openForRead file else pure (.ok ())) w ∧
      Ensures (fun _ => True) (if file.fd.isNone then openForRead file else pure (.ok ())) w
        (fun r v => r = .ok () → Opened id ino w v) (fun _ => True) := by
  obtain ⟨file', hget', hfid, hfd⟩ := servedBy_file hserved
  rw [hget] at hget'
  obtain rfl := Option.some.inj hget'
  rw [descriptorTold_self hget]
  rcases hfd with hfd | ⟨hfd, hdir⟩
  · have hopen : Opened id ino w w := ⟨rfl, by rw [hget]; exact hfd, fun _ _ => rfl⟩
    simp only [hfd, Option.isSome_some, if_true, Option.isNone_some, Bool.false_eq_true, if_false]
    exact ⟨.pure rfl, Ensures.pure fun _ => hopen⟩
  · simp only [hfd, Option.isSome_none, Option.isNone_none, if_true, Bool.false_eq_true, if_false]
    exact ⟨openForRead_tells hfid hdir, openForRead_opens hget hfid hdir⟩

theorem wanted_buffers (kd : KeydirRecord) : wanted (buffersOf kd).iov = entrySize kd := by
  rw [wanted_iov, ccaskGetDatafileRecordTotalSize]
  simp only [buffersOf, List.length_replicate, length_freshBuf, entrySize]

/-- What the replies tell of a read for an entry, once some files have been read. -/
def readTold (w : World) (opened : List Nat) (kd : KeydirRecord) : Telling :=
  (descriptorTold w opened kd.fileId).andThen (.transfer (entrySize kd))

theorem read_tells (h : 0 < kd.valueSize.toNat) (hserved : servedBy kd.fileId w = some ino)
    (hlen : kd.recordPos + entrySize kd ≤ (w.fs.data ino).length) :
    Tells (readTold w [] kd) Res.isOk
      (ccaskReadDatafileRecord kd.fileId (buffersOf kd) kd.recordPos) w := by
  obtain ⟨file, hget, -, -⟩ := servedBy_file hserved
  obtain ⟨htells, hopens⟩ := opening_tells hserved hget
  have hlast : LastNonempty (buffersOf kd).iov := by
    rw [iov_last, ← List.length_pos_iff, buffersOf, length_freshBuf]
    exact h
  refine .state_bind ?_
  rw [hget]
  refine handedOn htells hopens ?_ (fun _ => ⟨_, rfl, rfl⟩) fun _ => ⟨_, rfl, rfl⟩
  intro _ v hopen
  have hopen := hopen rfl
  refine .state_bind ?_
  rw [hopen.fd, ← Telling.andThen_ends (.transfer _), ← wanted_buffers]
  have hread : Tells _ _ (safePreadv (some ino) (buffersOf kd).iov kd.recordPos) v :=
    safePreadv_tells (iov_fits (buffersOf kd)) (iov_fresh _) hlast
      (by rw [wanted_buffers, hopen.fs_eq]; exact hlen)
  refine hread.bind (safePreadv_ensures (fun _ => True) (iov_fits _) (iov_fresh _) (List.cons_ne_nil _ _))
    ?_ ?_
  · rintro r u ⟨-, ⟨bufs, hbufs, -, -, -, hlens⟩ | ⟨hbufs, -⟩ | ⟨hbufs, -⟩⟩ hok
    · subst r
      obtain ⟨header, key, value, rfl⟩ : ∃ header key value, bufs = [header, key, value] :=
        List.length_eq_three.mp (by simpa [DatafileRecord.iov] using congrArg List.length hlens)
      exact .modify_bind (.pure rfl)
    · subst r
      cases hok
    · subst r
      cases hok
  · rintro r u - hok
    cases r with
    | ok bufs => cases hok
    | fail e => exact .modify_bind (.pure rfl)
    | retry e => exact .modify_bind (.pure rfl)

/-- The open section never asks for another try. -/
theorem opening_decides (file : CcaskFile) :
    Ensures (fun _ => True) (if file.fd.isNone then openForRead file else pure (.ok ())) w
      (fun r _ => ∀ e, r ≠ .retry e) (fun _ => True) := by
  split
  · rw [openForRead_eq]
    refine Ensures.trivial.bind fun r v _ => ?_
    cases r with
    | fail e => exact Ensures.pure (by simp)
    | retry e => exact Ensures.pure (by simp)
    | ok ino =>
        refine Ensures.modify_bind ((startInvalidator_ensures file).mono ?_ fun _ _ => trivial)
        rintro r v ⟨rfl, -⟩
        simp
  · exact Ensures.pure (by simp)

/-- What a read for an entry gives and leaves: only a record that can be retrieved is read, whole. -/
theorem read_ensures (kd : KeydirRecord) :
    Ensures (fun _ => True) (ccaskReadDatafileRecord kd.fileId (buffersOf kd) kd.recordPos) w
      (fun r v => (∀ e, r ≠ .retry e) ∧ ∀ record, r = .ok record → Retrievable w kd ∧
        record.bytes.length = entrySize kd ∧ record.value ≠ [] ∧
        ∃ ino, servedBy kd.fileId w = some ino ∧ Opened kd.fileId ino w v) (fun _ => True) := by
  refine Ensures.state_bind ?_
  cases hget : ccaskFilesGetFile kd.fileId w with
  | none => exact Ensures.pure ⟨by simp, by simp⟩
  | some file =>
      cases hserved : servedBy kd.fileId w with
      | none =>
          refine (((opening_ensures hget).and (opening_decides file)).mono (fun _ _ h => h)
            fun _ _ => trivial).bind ?_
          rintro r v ⟨⟨-, hopen⟩, hretry⟩
          cases r with
          | fail e => exact Ensures.pure ⟨by simp, by simp⟩
          | retry e => exact absurd rfl (hretry e)
          | ok _ =>
              obtain ⟨ino, hino, -⟩ := hopen rfl
              rw [hserved] at hino
              cases hino
      | some ino =>
          refine (((opening_tells hserved hget).2.and (opening_decides file)).mono (fun _ _ h => h)
            fun _ _ => trivial).bind ?_
          rintro r v ⟨hopen, hretry⟩
          cases r with
          | fail e => exact Ensures.pure ⟨by simp, by simp⟩
          | retry e => exact absurd rfl (hretry e)
          | ok _ =>
              have hopen := hopen rfl
              refine Ensures.state_bind ?_
              rw [hopen.fd]
              refine ((safePreadv_ensures (fun _ => True) (iov_fits _) (iov_fresh _)
                (List.cons_ne_nil _ _)).mono (fun _ _ h => h) fun _ _ => trivial).bind ?_
              rintro r u ⟨rfl, ⟨bufs, rfl, hlast, hlen, -, hlens⟩ | ⟨rfl, -⟩ | ⟨rfl, -⟩⟩
              · rw [wanted_buffers, hopen.fs_eq] at hlen
                have hvalue := (iov_last _).mp hlast
                rw [← List.length_pos_iff, buffersOf, length_freshBuf] at hvalue
                obtain ⟨header, key, value, rfl⟩ : ∃ header key value, bufs = [header, key, value] :=
                  List.length_eq_three.mp (by simpa [DatafileRecord.iov] using congrArg List.length hlens)
                simp only [DatafileRecord.iov, Iovec.of, buffersOf, List.map_cons, List.map_nil,
                  List.length_replicate, length_freshBuf, List.cons.injEq, and_true] at hlens
                obtain ⟨hheader, hkey, hval⟩ := hlens
                refine Ensures.modify_bind (Ensures.pure ⟨by simp, ?_⟩)
                rintro record hrecord
                obtain rfl := Res.ok.inj hrecord
                refine ⟨⟨hvalue, ino, hserved, hlen⟩, ?_, ?_, ino, rfl, hopen.setFile (fun _ => rfl) fun _ => rfl⟩
                · simp only [DatafileRecord.bytes, List.length_append, hheader, hkey, hval, entrySize]
                · rw [← List.length_pos_iff, hval]
                  exact hvalue
              · exact Ensures.modify_bind (Ensures.pure ⟨by simp, by simp⟩)
              · exact Ensures.modify_bind (Ensures.pure ⟨by simp, by simp⟩)

end Reading

section Dump

variable {w v u : World} {opened : List Nat} {b : Bins Nat} {fd : Ino} {kd : KeydirRecord}

/-- The items of the bins are sizes. -/
abbrev ofSize (n : Nat) : List Unit := List.replicate n ()

/-- The sizes of the temporary files that are there already. -/
def tempSizes (w : World) : Bins Nat := ⟨0, fun i => [((w.fs.read (fileName i .tempData)).getD []).length]⟩

/-- What the replies tell of the temporary file for a record of `n` bytes: another one is opened when it
does not fit into the last one. -/
def tempTold (w : World) (b : Bins Nat) (n : Nat) : Telling :=
  Telling.once.andThen (if w.maxActiveFileSize.toNat < b.fill ofSize + n then .tries 5 else .ends true)

/-- What they tell of one round of the loop: the buffers are taken, the record is read, its file is found
and it is written. -/
def roundTold (w : World) (opened : List Nat) (b : Bins Nat) (kd : KeydirRecord) : Telling :=
  (Telling.times 3 .once).andThen ((readTold w opened kd).andThen
    ((tempTold w b (entrySize kd)).andThen (.transfer (entrySize kd))))

/-- What they tell of the loop over the entries. -/
def dumpTold (w : World) : List KeydirRecord → List Nat → Bins Nat → Telling
  | [], _, _ => .ends true
  | kd :: es, opened, b => (roundTold w opened b kd).andThen
      (dumpTold w es (kd.fileId :: opened) (b.addOnto ofSize w.maxActiveFileSize.toNat (entrySize kd)))

/-- The state between two calls, as far as the calls that follow depend on it. No read goes to a temporary
file. -/
structure Steady (w v : World) (opened : List Nat) (b : Bins Nat) : Prop where
  max : v.maxActiveFileSize = w.maxActiveFileSize
  sizes : ∀ i, b.last ≤ i →
    ((v.fs.read (fileName i .tempData)).getD []).length = (layout ofSize (b.bin i)).length
  told : ∀ id, descriptorTold v [] id = descriptorTold w opened id
  served : ∀ id, servedBy id v = servedBy id w
  kept : ∀ id ino, servedBy id w = some ino → v.fs.data ino = w.fs.data ino ∧ ino < v.fs.next ∧
    ∀ i, v.fs.dir (fileName i .tempData) ≠ some ino

/-- The state in the loop: the last temporary file is open. -/
structure Dumping (w v : World) (opened : List Nat) (b : Bins Nat) (fd : Ino) : Prop
    extends Steady w v opened b where
  temp : v.fs.dir (fileName b.last .tempData) = some fd

/-- A temporary file is opened. -/
theorem Steady.create (h : Steady w v opened b) {n : Nat} (hn : b.last ≤ n) :
    Dumping w { v with fs := (v.fs.create (fileName n .tempData)).1 } opened ⟨n, b.bin⟩
      (v.fs.create (fileName n .tempData)).2 := by
  refine ⟨⟨h.max, ?_, h.told, ?_, ?_⟩, Fs.dir_create_self _ _⟩
  · intro i hi
    have hsize := h.sizes i (Nat.le_trans hn hi)
    show (((v.fs.create (fileName n .tempData)).1.read (fileName i .tempData)).getD []).length = _
    rw [Fs.read_create, Function.update_apply]
    split
    · rename_i heq
      rw [← heq]
      exact hsize
    · exact hsize
  · intro id
    rw [← h.served, servedBy, servedBy]
    show (ccaskFilesGetFile id v >>= fun file => file.fd <|>
      (v.fs.create (fileName n .tempData)).1.dir (fileName id .data)) = _
    rw [Fs.dir_create_of_ne _ _ (by simp)]
  · intro id ino hserved
    obtain ⟨hdata, hlt, htemp⟩ := h.kept id ino hserved
    refine ⟨(Fs.data_create _ _ hlt).trans hdata, Nat.lt_of_lt_of_le hlt (Fs.next_le_create _ _), fun i => ?_⟩
    show (v.fs.create (fileName n .tempData)).1.dir (fileName i .tempData) ≠ _
    by_cases hi : i = n
    · subst hi
      cases hdir : v.fs.dir (fileName i .tempData) with
      | some j =>
          rw [Fs.create_of_some _ _ hdir]
          exact htemp _
      | none =>
          rw [Fs.dir_create_self, (Fs.create_of_none _ _ hdir).1]
          intro heq
          rw [Option.some.inj heq] at hlt
          exact Nat.lt_irrefl _ hlt
    · rw [Fs.dir_create_of_ne _ _ (by simpa using hi)]
      exact htemp i

namespace Dumping

theorem retrievable_iff (h : Dumping w v opened b fd) : Retrievable v kd ↔ Retrievable w kd := by
  unfold Retrievable
  rw [h.served]
  constructor
  · rintro ⟨hvalue, ino, hserved, hlen⟩
    rw [(h.kept _ _ hserved).1] at hlen
    exact ⟨hvalue, ino, hserved, hlen⟩
  · rintro ⟨hvalue, ino, hserved, hlen⟩
    rw [← (h.kept _ _ hserved).1] at hlen
    exact ⟨hvalue, ino, hserved, hlen⟩

/-- A file is read. -/
theorem read (h : Dumping w v opened b fd) {id : Nat} {ino : Ino} (hserved : servedBy id v = some ino)
    (hu : Opened id ino v u) : Dumping w u (id :: opened) b fd := by
  have hfs := hu.fs_eq
  refine ⟨?_, by rw [hfs]; exact h.temp⟩
  constructor
  case max => rw [hu.same]; exact h.max
  case sizes => rw [hfs]; exact h.sizes
  case told =>
    intro i
    by_cases hi : i = id
    · subst hi
      have hfd := hu.fd
      cases hget : ccaskFilesGetFile i u with
      | none =>
          rw [hget] at hfd
          cases hfd
      | some file =>
          rw [hget, Option.bind_some] at hfd
          rw [descriptorTold_self hget, hfd, descriptorTold, if_pos List.mem_cons_self]
          rfl
    · have htold := h.told i
      simp only [descriptorTold, List.mem_cons, hi, false_or, hu.other i hi] at htold ⊢
      exact htold
  case served =>
    intro i
    by_cases hi : i = id
    · subst hi
      have hfd := hu.fd
      rw [← h.served, hserved, servedBy]
      cases hget : ccaskFilesGetFile i u with
      | none =>
          rw [hget] at hfd
          cases hfd
      | some file =>
          rw [hget, Option.bind_some] at hfd
          simp only [Option.bind_eq_bind, Option.bind_some, hfd, Option.orElse_eq_orElse, Option.orElse_some]
    · rw [← h.served, servedBy, servedBy, hu.other i hi, hfs]
  case kept => rw [hfs]; exact h.kept

/-- A record is written to the last one. -/
theorem write (h : Dumping w v opened b fd) {bytes : Bytes} {n : Nat} (hn : bytes.length = n) :
    Dumping w (v.append fd bytes) opened (b.push b.last n) fd := by
  refine ⟨?_, h.temp⟩
  constructor
  case max => exact h.max
  case sizes =>
    intro i hi
    have hsize := h.sizes i hi
    rw [World.append, Fs.read_append h.temp, Function.update_apply]
    by_cases heq : i = b.last
    · subst heq
      have hdata : v.fs.read (fileName b.last .tempData) = some (v.fs.data fd) := by
        rw [Fs.read, h.temp]
        rfl
      rw [hdata] at hsize
      rw [if_pos rfl, Bins.bin_push_self, Option.getD_some, List.length_append, hn, layout_append,
        List.length_append, ← hsize]
      simp
    · rw [if_neg (by simpa using heq), Bins.bin_push_of_ne heq]
      exact hsize
  case told => exact h.told
  case served => exact h.served
  case kept =>
    intro id ino hserved
    obtain ⟨hdata, hlt, htemp⟩ := h.kept id ino hserved
    refine ⟨?_, hlt, htemp⟩
    rw [← hdata, World.append, Fs.data_append_of_ne]
    rintro rfl
    exact htemp _ h.temp

theorem fill_eq (h : Dumping w v opened b fd) : (v.fs.data fd).length = b.fill ofSize := by
  have hsize := h.sizes b.last (Nat.le_refl _)
  rw [Fs.read, h.temp] at hsize
  exact hsize

end Dumping

/-- The bins before the record is put into the last one. -/
def tempFor (w : World) (b : Bins Nat) (n : Nat) : Bins Nat :=
  if w.maxActiveFileSize.toNat < b.fill ofSize + n then ⟨b.last + 1, b.bin⟩ else b

theorem push_tempFor (w : World) (b : Bins Nat) (n : Nat) :
    (tempFor w b n).push (tempFor w b n).last n =
      b.addOnto ofSize w.maxActiveFileSize.toNat n := by
  have hlen : (ofSize n).length = n := List.length_replicate
  rw [tempFor, Bins.addOnto, hlen]
  unfold Bins.fill
  split
  · rfl
  · rfl

theorem tempFileFor_told (h : Dumping w v opened b fd) (n : Nat) :
    Tells (tempTold w b n) Except.isOk (tempFileFor b.last fd n) v ∧
      Ensures (fun _ => True) (tempFileFor b.last fd n) v
        (fun r u => ∀ p, r = .ok p → p.1 = (tempFor w b n).last ∧
          Dumping w u opened (tempFor w b n) p.2) (fun _ => True) := by
  have hcall := openCreate_oneCall (fileName (b.last + 1) .tempData) v
  have hseek : Ensures (fun _ => True) (lseekEnd (some fd)) v
      (fun size u => u = v ∧ ∀ n, size = some n → n = (v.fs.data fd).length) (fun _ => True) :=
    (lseekEnd_ensures fd).mono (fun _ _ h => h) fun _ _ => trivial
  constructor
  · refine (lseekEnd_tells fd).andThen hseek ?_ ?_
    · rintro size u ⟨hu, hsize⟩ hok
      subst u
      cases size with
      | none => cases hok
      | some pos =>
          obtain rfl := hsize pos rfl
          refine .state_bind ?_
          rw [h.max, h.fill_eq]
          split
          · rw [← Telling.andThen_ends (.tries 5)]
            exact handedOn (hcall.tells rfl 5) (hcall.ensures 5) (fun _ _ _ => .pure rfl)
              (fun _ => ⟨_, rfl, rfl⟩) fun _ => ⟨_, rfl, rfl⟩
          · exact .pure rfl
    · intro size hok
      cases size with
      | none => exact ⟨_, rfl, rfl⟩
      | some pos => cases hok
  · refine hseek.bind ?_
    rintro size u ⟨hu, hsize⟩
    subst u
    cases size with
    | none => exact Ensures.pure (by simp)
    | some pos =>
        obtain rfl := hsize pos rfl
        refine Ensures.state_bind ?_
        rw [h.max, h.fill_eq, tempFor]
        split
        · refine ((hcall.ensures 5).mono (fun _ _ h => h) fun _ _ => trivial).bind ?_
          rintro r u (⟨hr, -⟩ | ⟨hr, hu⟩)
          · cases r with
            | ok i => cases hr
            | fail e => exact Ensures.pure (by simp)
            | retry e => exact Ensures.pure (by simp)
          · subst u r
            refine Ensures.pure ?_
            intro p hp
            cases hp
            exact ⟨rfl, h.create (Nat.le_succ _)⟩
        · refine Ensures.pure ?_
          intro p hp
          cases hp
          exact ⟨rfl, h⟩

theorem allocate_tells (kd : KeydirRecord) :
    Tells (.times 3 .once) Res.isOk
      (ccaskAllocateDatafileRecord (UInt32.ofNat kd.key.length) kd.valueSize) w := by
  rw [← Telling.andThen_ends (.times 3 .once)]
  exact handedOn (mallocAll_tells 3) Ensures.trivial (fun _ _ _ => .pure rfl) (fun _ => ⟨_, rfl, rfl⟩)
    fun _ => ⟨_, rfl, rfl⟩

theorem attemptRead_ensures (kd : KeydirRecord) :
    Ensures (fun _ => True) (attempt 5 (ccaskReadDatafileRecord kd.fileId (buffersOf kd) kd.recordPos)) w
      (fun r v => ∀ record, r = .ok record → Retrievable w kd ∧
        record.bytes.length = entrySize kd ∧ record.value ≠ [] ∧
        ∃ ino, servedBy kd.fileId w = some ino ∧ Opened kd.fileId ino w v) (fun _ => True) := by
  refine attempt_succ_ensures (I := fun v => v = w) rfl fun v hv => ?_
  subst v
  exact (read_ensures kd).mono (fun r v h => ⟨h.2, fun e he => absurd he (h.1 e)⟩) fun _ h => h

/-- A round comes through only for a record that can be retrieved, and puts it into the bins. -/
theorem dumpRound_ensures (kd : KeydirRecord) (h : Dumping w v opened b fd) :
    Ensures (fun _ => True) (dumpRound kd b.last fd) v
      (fun r u => (∀ n, r ≠ .inl (.finished n)) ∧ ∀ p, r = .inr p → Retrievable w kd ∧
        p.1 = (b.addOnto ofSize w.maxActiveFileSize.toNat (entrySize kd)).last ∧
        Dumping w u (kd.fileId :: opened) (b.addOnto ofSize w.maxActiveFileSize.toNat (entrySize kd)) p.2)
      (fun _ => True) := by
  refine ((ccaskAllocateDatafileRecord_ensures _ _).mono (fun _ _ h => h) fun _ _ => trivial).bind ?_
  rintro r v' ⟨hv, hbuffers⟩
  subst v'
  cases r with
  | fail e => exact Ensures.pure ⟨by simp, by simp⟩
  | retry e => exact Ensures.pure ⟨by simp, by simp⟩
  | ok buffers =>
      obtain rfl : buffers = buffersOf kd := hbuffers buffers rfl
      refine (attemptRead_ensures kd).bind ?_
      intro r u hread
      cases r with
      | fail e => exact Ensures.pure ⟨by simp, by simp⟩
      | retry e => exact Ensures.pure ⟨by simp, by simp⟩
      | ok record =>
          obtain ⟨hret, hlen, hvalue, ino, hserved, hopen⟩ := hread record rfl
          have hu := h.read hserved hopen
          dsimp only
          rw [← bytes_length, hlen]
          refine (tempFileFor_told hu (entrySize kd)).2.bind ?_
          intro r x htemp
          cases r with
          | error i => exact Ensures.pure ⟨by simp, by simp⟩
          | ok p =>
              obtain ⟨hp, hx⟩ := htemp p rfl
              refine ((safeWritev_ensures (fun _ => True) (iov_fits record) (by simp [DatafileRecord.iov])).mono
                (fun _ _ h => h) fun _ _ => trivial).bind ?_
              rintro r y (⟨rfl, -, rfl⟩ | ⟨rfl, -⟩)
              · refine Ensures.pure ⟨by simp, fun q hq => ?_⟩
                obtain rfl := Sum.inr.inj hq
                have hwritten := hx.write (show (gather record.iov).length = entrySize kd by
                  rw [gather_iov, hlen])
                rw [push_tempFor] at hwritten
                refine ⟨h.retrievable_iff.mp hret, ?_, hwritten⟩
                rw [hp, ← push_tempFor]
                rfl
              · exact Ensures.pure ⟨by simp, by simp⟩

theorem dumpRound_tells (h : Dumping w v opened b fd) (hkd : Retrievable w kd) :
    Tells (roundTold w opened b kd) Sum.isRight (dumpRound kd b.last fd) v := by
  obtain ⟨hpos, ino, hserved, hlen⟩ := h.retrievable_iff.mpr hkd
  have htold : readTold v [] kd = readTold w opened kd := by
    rw [readTold, readTold, h.told]
  refine handedOn (allocate_tells kd) (ccaskAllocateDatafileRecord_ensures _ _) ?_
    (fun _ => ⟨_, rfl, rfl⟩) fun _ => ⟨_, rfl, rfl⟩
  rintro buffers v' ⟨hv, hbuffers⟩
  subst v'
  obtain rfl : buffers = buffersOf kd := hbuffers buffers rfl
  have hread := attempt_tells (n := 4) (read_tells hpos hserved hlen)
    ((read_ensures kd).mono (fun _ _ h => h.1) fun _ h => h)
  rw [htold] at hread
  refine handedOn hread (attemptRead_ensures kd) ?_ (fun _ => ⟨_, rfl, rfl⟩) fun _ => ⟨_, rfl, rfl⟩
  intro record u hrecord
  obtain ⟨-, hsize, hvalue, ino', hserved', hopen⟩ := hrecord record rfl
  have hu := h.read hserved' hopen
  dsimp only
  rw [← bytes_length, hsize]
  obtain ⟨htemp, htemp'⟩ := tempFileFor_told hu (entrySize kd)
  refine htemp.andThen htemp' ?_ ?_
  · rintro r x - hok
    cases r with
    | error i => cases hok
    | ok p =>
        have hwrite : Tells _ _ (safeWritev (some p.2) record.iov) x :=
          safeWritev_tells (iov_fits record) ((iov_last record).mpr hvalue)
        rw [wanted_iov, ← bytes_length, hsize] at hwrite
        rw [← Telling.andThen_ends (.transfer _)]
        exact handedOn hwrite Ensures.trivial (fun _ _ _ => .pure rfl) (fun _ => ⟨_, rfl, rfl⟩)
          fun _ => ⟨_, rfl, rfl⟩
  · intro r hok
    cases r with
    | error i => exact ⟨_, rfl, rfl⟩
    | ok p => cases hok

/-- How the loop ends when it gets to its end. -/
def gotToEnd : DumpEnd → Bool
  | .finished _ => true
  | _ => false

/-- The loop gets to its end only when all records can be retrieved; then they are packed into the
temporary files behind what is there. -/
theorem dumpEntries_packs (es : List KeydirRecord) (h : Dumping w v opened b fd) :
    Ensures (fun _ => True) (dumpEntries es b.last fd) v
      (fun r _ => ∀ n, r = .finished n → (∀ kd ∈ es, Retrievable w kd) ∧
        n = (b.addAllOnto ofSize w.maxActiveFileSize.toNat (es.map entrySize)).last)
      (fun _ => True) := by
  induction es generalizing v opened b fd with
  | nil =>
      refine Ensures.pure fun n hn => ?_
      cases hn
      exact ⟨by simp, rfl⟩
  | cons kd es ih =>
      rw [dumpEntries_cons]
      refine (dumpRound_ensures kd h).bind ?_
      rintro r u ⟨hunfinished, hnext⟩
      cases r with
      | inl d => exact Ensures.pure fun n hn => absurd (congrArg Sum.inl hn) (hunfinished n)
      | inr p =>
          obtain ⟨hkd, hlast, hu⟩ := hnext p rfl
          rw [Sum.elim_inr, hlast]
          refine (ih hu).mono (fun r y hr n hn => ?_) fun _ h => h
          obtain ⟨hes, hpacked⟩ := hr n hn
          exact ⟨List.forall_mem_cons.mpr ⟨hkd, hes⟩, hpacked⟩

/-- When they can, the replies tell whether it does. -/
theorem dumpEntries_tells (es : List KeydirRecord) (h : Dumping w v opened b fd)
    (hes : ∀ kd ∈ es, Retrievable w kd) :
    Tells (dumpTold w es opened b) gotToEnd (dumpEntries es b.last fd) v := by
  induction es generalizing v opened b fd with
  | nil => exact .pure rfl
  | cons kd es ih =>
      rw [dumpEntries_cons]
      refine (dumpRound_tells h (hes kd List.mem_cons_self)).bind (dumpRound_ensures kd h) ?_ ?_
      · rintro r u ⟨-, hnext⟩ hok
        cases r with
        | inl d => cases hok
        | inr p =>
            obtain ⟨-, hlast, hu⟩ := hnext p rfl
            rw [Sum.elim_inr, hlast]
            exact ih hu fun kd' hkd' => hes kd' (List.mem_cons_of_mem _ hkd')
      · rintro r u ⟨hunfinished, -⟩ hok
        cases r with
        | inr p => cases hok
        | inl d =>
            refine .pure ?_
            cases d with
            | finished n => exact absurd rfl (hunfinished n)
            | returned => rfl
            | cancelled n => rfl

end Dump

section Fill

variable {w : World}

/-- No descriptor of a datafile is on a temporary file, or on one that has not been made yet. -/
def OffTemps (w : World) : Prop :=
  ∀ id ino, openFd id w = some (some ino) →
    ino < w.fs.next ∧ ∀ i, w.fs.dir (fileName i .tempData) ≠ some ino

/-- A datafile is neither. -/
theorem offTemps_of_data {id : Nat} {ino : Ino} (h : w.fs.dir (fileName id .data) = some ino) :
    ino < w.fs.next ∧ ∀ i, w.fs.dir (fileName i .tempData) ≠ some ino := by
  refine ⟨w.fs.fresh h, fun i hi => ?_⟩
  have hname := w.fs.single h hi
  simp at hname

theorem Mounted.offTemps (h : Mounted w) : OffTemps w := by
  intro id ino hopen
  rw [openFd, Option.map_eq_some_iff] at hopen
  obtain ⟨f, hget, hfd⟩ := hopen
  obtain ⟨ino', hdir, hnone | hsome⟩ := h.linked f (List.mem_of_find?_eq_some hget)
  · rw [hnone] at hfd
    cases hfd
  · rw [hsome] at hfd
    obtain rfl := Option.some.inj hfd
    exact offTemps_of_data hdir

/-- The last temporary file that the records fill. -/
def lastTemp (w : World) : Nat :=
  ((tempSizes w).addAllOnto ofSize w.maxActiveFileSize.toNat (w.hashTable.map entrySize)).last

/-- What the replies tell of everything up to the end of the loop. -/
def fillTold (w : World) : Telling :=
  (Telling.tries 5).andThen (dumpTold w w.hashTable [] (tempSizes w))

theorem Steady.start (h : OffTemps w) : Steady w w [] (tempSizes w) := by
  constructor
  case max => rfl
  case sizes =>
    intro i _
    show _ = (layout ofSize [_]).length
    simp
  case told => exact fun _ => rfl
  case served => exact fun _ => rfl
  case kept =>
    intro id ino hserved
    obtain ⟨file, hget, -, hfd | ⟨-, hdir⟩⟩ := servedBy_file hserved
    · exact ⟨rfl, h id ino (by rw [openFd, hget, Option.map_some, hfd])⟩
    · exact ⟨rfl, offTemps_of_data hdir⟩

theorem Dumping.start (h : OffTemps w) :
    Dumping w (locked { w with fs := (w.fs.create (fileName 0 .tempData)).1 }) [] (tempSizes w)
      (w.fs.create (fileName 0 .tempData)).2 := by
  have hcreated := (Steady.start h).create (n := 0) (Nat.le_refl _)
  exact ⟨⟨hcreated.max, hcreated.sizes, hcreated.told, hcreated.served, hcreated.kept⟩, hcreated.temp⟩

/-- The dump has got to the end of its loop. -/
def toEnd : Res DumpEnd → Bool
  | .ok d => gotToEnd d
  | _ => false

/-- A dump that gets there has retrieved every record. -/
theorem fillTemps_packs (h : OffTemps w) : Ensures (fun _ => True) fillTemps w
    (fun r _ => ∀ n, r = .ok (.finished n) → (∀ kd ∈ w.hashTable, Retrievable w kd) ∧ n = lastTemp w)
    (fun _ => True) := by
  refine (((openCreate_oneCall (fileName 0 .tempData) w).ensures 5).mono (fun _ _ h => h)
    fun _ _ => trivial).bind ?_
  rintro r v (⟨hr, -⟩ | ⟨hr, hv⟩)
  · cases r with
    | ok i => cases hr
    | fail e => exact Ensures.pure (by simp)
    | retry e => exact Ensures.pure (by simp)
  · subst v r
    refine Ensures.bind (Ensures.modify_bind (Ensures.state_bind (Ensures.pure ⟨rfl, rfl⟩)))
      (Q := fun es v => es = w.hashTable ∧ v = locked { w with fs := (w.fs.create (fileName 0 .tempData)).1 }) ?_
    rintro es v ⟨hes, hv⟩
    subst v es
    refine (dumpEntries_packs w.hashTable (Dumping.start h)).bind fun d u hd => Ensures.pure fun n hn => ?_
    exact hd n (Res.ok.inj hn)

/-- When every record can be retrieved, the replies tell whether it gets there. -/
theorem fillTemps_tells (h : OffTemps w) (hes : ∀ kd ∈ w.hashTable, Retrievable w kd) :
    Tells (fillTold w) toEnd fillTemps w := by
  have hcall := openCreate_oneCall (fileName 0 .tempData) w
  refine handedOn (hcall.tells rfl 5) (hcall.ensures 5) ?_ (fun _ => ⟨_, rfl, rfl⟩) fun _ => ⟨_, rfl, rfl⟩
  rintro fd v (⟨hfd, -⟩ | ⟨hfd, hv⟩)
  · cases hfd
  · cases hfd
    subst v
    have htold := dumpEntries_tells w.hashTable (Dumping.start h) hes
    rw [← Telling.branch_ends (dumpTold _ _ _ _)]
    show Tells _ toEnd (dumpEntries w.hashTable 0 _ >>= fun d => pure (.ok d)) (locked _)
    refine htold.bind Ensures.trivial ?_ ?_
    · rintro d u - hd
      exact .pure hd
    · rintro d u - hd
      exact .pure hd

end Fill

end Ccask.Audit
