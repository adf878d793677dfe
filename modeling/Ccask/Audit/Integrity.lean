import Ccask.Audit.DescriptorRace
import Ccask.Audit.GetRace

/-!
# What the checksum covers

`calculate_crc32` runs over user pointers when a record is made and over allocated buffers when it is
checked, and zlib starts again at 0 behind a pointer that is NULL. A get checks a record against the
sizes in its own header; the key and the size of the value that the key directory has do not enter.
-/

namespace Ccask.Audit

open Ccask.Effect Ccask.Model

section ReadBack

/-- Bytes read into a header and into buffers of the given sizes. -/
def readBack (b : Bytes) (keySize valueSize : Nat) : DatafileRecord :=
  ⟨b.take 16, (b.drop 16).take keySize, (b.drop (16 + keySize)).take valueSize⟩

variable {b : Bytes} {keySize valueSize : Nat} {r : DatafileRecord}

/-- Buffers of the sizes of a record take the record. -/
theorem readBack_of_prefix (hheader : r.header.length = datafileRecordHeaderSize) (h : r.bytes <+: b) :
    readBack b r.key.length r.value.length = r := by
  obtain ⟨rest, rfl⟩ := h
  have hheader' : r.header.length = 16 := hheader
  have hfront : (r.header ++ r.key).length = 16 + r.key.length := by
    rw [List.length_append, hheader']
  have hvalue : (r.bytes ++ rest).drop (16 + r.key.length) = r.value ++ rest := by
    rw [DatafileRecord.bytes, List.append_assoc, List.drop_left' hfront]
  have hkey : (r.bytes ++ rest).drop 16 = r.key ++ (r.value ++ rest) := by
    rw [DatafileRecord.bytes, List.append_assoc, List.append_assoc, List.drop_left' hheader']
  have htake : (r.bytes ++ rest).take 16 = r.header := by
    rw [DatafileRecord.bytes, List.append_assoc, List.append_assoc, List.take_left' hheader']
  rw [readBack, htake, hkey, hvalue, List.take_left, List.take_left]

/-- What is read back of bytes that are there. -/
theorem readBack_lengths (h : 16 + keySize + valueSize ≤ b.length) :
    (readBack b keySize valueSize).header.length = datafileRecordHeaderSize ∧
      (readBack b keySize valueSize).key.length = keySize ∧
      (readBack b keySize valueSize).value.length = valueSize := by
  simp only [readBack, List.length_take, List.length_drop, datafileRecordHeaderSize]
  omega

theorem readBack_bytes (b : Bytes) (keySize valueSize : Nat) :
    (readBack b keySize valueSize).bytes = b.take (16 + keySize + valueSize) := by
  simp only [readBack, DatafileRecord.bytes]
  rw [Nat.add_assoc, List.take_add, List.take_add, List.drop_drop, List.append_assoc]

end ReadBack

section Fresh

variable [Zlib] {w : World}

/-- The checksum that is stored with a record over its own fields and over the buffers it is in. -/
def Checks (r : DatafileRecord) : Prop :=
  let header := ccaskGetDatafileRecordHeader r
  calculateCrc32 header.timestamp header.keySize header.valueSize (some r.key) (some r.value) =
    some header.crc

/-- Its own fields say more than a buffer holds, so that the checksum cannot be computed. -/
def Overruns (r : DatafileRecord) : Prop :=
  let header := ccaskGetDatafileRecordHeader r
  calculateCrc32 header.timestamp header.keySize header.valueSize (some r.key) (some r.value) = none

/-- A running checksum over one piece of bytes after another. -/
def crcOver (pieces : List Bytes) : UInt32 := pieces.foldl Zlib.crc32 0

/-- What the checksum covers of the header. -/
def headerPieces (timestamp : UInt32) (key value : Ptr) : List Bytes :=
  [native32 timestamp, native32 key.size, native32 value.size]

theorem zlibCrc32_some (crc : UInt32) {b : Bytes} {len : UInt32} (h : len.toNat = b.length) :
    zlibCrc32 crc (some b) len = some (Zlib.crc32 crc b) := by
  simp only [zlibCrc32, h, Nat.le_refl, if_true, List.take_length]

/-- The checksum over buffers that are not NULL leaves nothing out. -/
theorem calculateCrc32_some (timestamp : UInt32) (key value : Ptr) :
    calculateCrc32 timestamp key.size value.size (some key.bytes) (some value.bytes) =
      some (crcOver (headerPieces timestamp key value ++ [key.bytes, value.bytes])) := by
  have hfour : ∀ v, (4 : UInt32).toNat = (native32 v).length := fun _ => rfl
  simp only [calculateCrc32, Option.bind_eq_bind, zlibCrc32_some _ (hfour _), Option.bind_some,
    zlibCrc32_some _ (Ptr.toNat_size key), zlibCrc32_some _ (Ptr.toNat_size value)]
  rfl

/-- The checksum that is stored starts again behind a pointer that is NULL. -/
theorem checksum_eq (timestamp : UInt32) (key value : Ptr) : checksum timestamp key value =
    match key, value with
    | _, none => 0
    | none, some v => Zlib.crc32 0 v.val
    | some k, some v => crcOver (headerPieces timestamp (some k) (some v) ++ [k.val, v.val]) := by
  have hfour : ∀ v, (4 : UInt32).toNat = (native32 v).length := fun _ => rfl
  have hsize : ∀ b : Buf, (Ptr.size (some b)).toNat = b.val.length := fun b => Ptr.toNat_size (some b)
  rcases key with _ | k <;> rcases value with _ | v
  · rfl
  · simp only [checksum, calculateCrc32, Option.bind_eq_bind, zlibCrc32_some _ (hfour _),
      Option.bind_some, Option.map_none, Option.map_some]
    simp only [zlibCrc32, hsize, Nat.le_refl, if_true, List.take_length, Option.bind_some,
      Option.getD_some]
  · simp only [checksum, calculateCrc32, Option.bind_eq_bind, zlibCrc32_some _ (hfour _),
      Option.bind_some, Option.map_none, Option.map_some, zlibCrc32_some _ (hsize k)]
    rfl
  · have hboth := calculateCrc32_some timestamp (some k) (some v)
    rw [checksum]
    exact congrArg (Option.getD · 0) hboth

theorem Sized.not_overruns {r : DatafileRecord} (h : Sized r) : ¬ Overruns r := by
  have hfour : ∀ v, (4 : UInt32).toNat = (native32 v).length := fun _ => rfl
  simp only [Overruns, calculateCrc32, Option.bind_eq_bind, zlibCrc32_some _ (hfour _),
    Option.bind_some, zlibCrc32_some _ h.key, zlibCrc32_some _ h.value]
  exact Option.some_ne_none _

/-- A record that was made of a key and a value, read back: its fields, its parts and its checksum. -/
structure PassesCheck (timestamp : UInt32) (key value : Ptr) (r : DatafileRecord) : Prop where
  timestamp : (ccaskGetDatafileRecordHeader r).timestamp = timestamp
  keySize : (ccaskGetDatafileRecordHeader r).keySize = key.size
  valueSize : (ccaskGetDatafileRecordHeader r).valueSize = value.size
  key : r.key = key.bytes
  value : r.value = value.bytes
  crc : Checks r

/-- No pointer is NULL, or what the checksum forgets at the last one that is does not show. -/
def NullUnseen (timestamp : UInt32) : Ptr → Ptr → Prop
  | some _, some _ => True
  | none, some v => crcOver (headerPieces timestamp none (some v) ++ [[], v.val]) = Zlib.crc32 0 v.val
  | key, none => crcOver (headerPieces timestamp key none ++ [key.bytes, []]) = 0

theorem nullUnseen_iff (timestamp : UInt32) (key value : Ptr) : NullUnseen timestamp key value ↔
    crcOver (headerPieces timestamp key value ++ [key.bytes, value.bytes]) =
      checksum timestamp key value := by
  rw [checksum_eq]
  rcases key with _ | k <;> rcases value with _ | v
  · exact Iff.rfl
  · exact Iff.rfl
  · exact Iff.rfl
  · exact ⟨fun _ => rfl, fun _ => trivial⟩

/-- A freshly written record passes its own check unless a pointer that is NULL is seen. -/
theorem fresh_passes_iff {timestamp : UInt32} {key value : Ptr} {rs rest : List Reply} {v : World}
    {r : DatafileRecord}
    (hrun : (ccaskCreateDatafileRecord timestamp key value).run rs w = .returned (.ok r) rest v) :
    PassesCheck timestamp key value (readBack r.bytes key.bytes.length value.bytes.length) ↔
      NullUnseen timestamp key value := by
  have hr : r = mkRecord timestamp key value :=
    ((ccaskCreateDatafileRecord_ensures timestamp key value).returned (fun _ _ => trivial) hrun).2 r rfl
  subst hr
  have hback : readBack (mkRecord timestamp key value).bytes key.bytes.length value.bytes.length =
      mkRecord timestamp key value :=
    readBack_of_prefix (r := mkRecord timestamp key value) rfl (List.prefix_refl _)
  have hchecks : Checks (mkRecord timestamp key value) ↔ NullUnseen timestamp key value := by
    rw [nullUnseen_iff, Checks, header_mkRecord]
    show calculateCrc32 timestamp key.size value.size (some key.bytes) (some value.bytes) = _ ↔ _
    rw [calculateCrc32_some, Option.some.injEq]
  rw [hback, ← hchecks]
  constructor
  · exact fun h => h.crc
  · intro h
    constructor
    case timestamp => rw [header_mkRecord]
    case keySize => rw [header_mkRecord]
    case valueSize => rw [header_mkRecord]
    case key => rfl
    case value => rfl
    case crc => exact h

omit [Zlib] in
theorem fresh_passes_one : letI := zlib
    PassesCheck 7 (some sampleKey) (some sampleKey)
      (readBack (mkRecord 7 (some sampleKey) (some sampleKey)).bytes 1 1) := by
  let _ := zlib
  obtain ⟨rs, rest, -, hrun⟩ := (ccaskCreateDatafileRecord_computes (w := World.boot Fs.empty 0) 7
    (some sampleKey) (some sampleKey)).exists_run
  exact (fresh_passes_iff hrun).mpr trivial

omit [Zlib] in
/-- The record that `ccask_delete` makes stores 0, and the reader comes to another checksum. -/
theorem fresh_delete_fails : letI := zlib
    ∃ rs rest v r, (ccaskCreateDatafileRecord 7 (some sampleKey) none).run rs
        (World.boot Fs.empty 0) = .returned (.ok r) rest v ∧
      ¬ PassesCheck 7 (some sampleKey) none (readBack r.bytes 1 0) := by
  let _ := zlib
  obtain ⟨rs, rest, -, hrun⟩ := (ccaskCreateDatafileRecord_computes (w := World.boot Fs.empty 0) 7
    (some sampleKey) none).exists_run
  refine ⟨rs, rest, _, _, hrun, fun h => ?_⟩
  have hcrc := h.crc
  revert hcrc
  unfold Checks
  decide +kernel

end Fresh

section Get

variable {w : World} {fileId : Nat} {ino : Ino}

/-- The inode that the reads of a file go to: the one its descriptor is on, or the datafile that is
opened when it has none. -/
def servedBy (fileId : Nat) (w : World) : Option Ino := do
  let file ← ccaskFilesGetFile fileId w
  file.fd <|> w.fs.dir (fileName fileId .data)

/-- The open section of a read. -/
theorem opening_ensures {file : CcaskFile} (hget : ccaskFilesGetFile fileId w = some file) :
    Ensures (fun _ => True) (if file.fd.isNone then openForRead file else pure (.ok ())) w
      (fun r v => v.fs = w.fs ∧ (r.isOk → ∃ ino, servedBy fileId w = some ino ∧
        (ccaskFilesGetFile fileId v).bind CcaskFile.fd = some ino))
      (fun _ => True) := by
  have hfid : file.fileId = fileId := by simpa using List.find?_some hget
  cases hfd : file.fd with
  | some ino =>
      refine Ensures.pure ⟨rfl, fun _ => ⟨ino, ?_, ?_⟩⟩
      · simp only [servedBy, hget, Option.bind_eq_bind, Option.bind_some, hfd, Option.orElse_eq_orElse,
          Option.orElse_some]
      · rw [hget, Option.bind_some, hfd]
  | none =>
      simp only [Option.isNone_none, if_true, openForRead_eq, hfid]
      refine (ccaskFilesGetDatafileFd_ensures.mono (fun _ _ h => h) fun _ _ => trivial).bind ?_
      rintro r v ⟨rfl, hdir⟩
      cases r with
      | fail e => exact Ensures.pure ⟨rfl, fun h => by cases h⟩
      | retry e => exact Ensures.pure ⟨rfl, fun h => by cases h⟩
      | ok ino =>
          refine Ensures.modify_bind (((startInvalidator_ensures file).mono ?_ fun _ _ => trivial))
          have hserved : servedBy fileId v = some ino := by
            simp only [servedBy, hget, Option.bind_eq_bind, Option.bind_some, hfd, hdir ino rfl,
              Option.orElse_eq_orElse, Option.orElse_none]
          have hopen : (ccaskFilesGetFile fileId
              (v.setFile fileId fun f => { f with fd := some ino })).bind CcaskFile.fd = some ino := by
            rw [getFile_setFile fileId fileId (F := fun f => { f with fd := some ino }) (fun _ => rfl),
              if_pos rfl, hget]
            rfl
          rintro res u ⟨rfl, rfl | rfl⟩
          · exact ⟨rfl, fun _ => ⟨ino, hserved, hopen⟩⟩
          · refine ⟨rfl, fun _ => ⟨ino, hserved, ?_⟩⟩
            rw [hfid, getFile_setFile fileId fileId
              (F := fun f => { f with isFdInvalidatorRunning := true }) (fun _ => rfl), if_pos rfl]
            revert hopen
            cases ccaskFilesGetFile fileId (v.setFile fileId fun f => { f with fd := some ino }) with
            | none => exact fun h => h
            | some f => exact fun h => h

/-- Buffers as `ccask_get` asks for them. -/
def buffersOf (kd : KeydirRecord) : DatafileRecord :=
  ⟨List.replicate datafileRecordHeaderSize 0, freshBuf (UInt32.ofNat kd.key.length),
    freshBuf kd.valueSize⟩

/-- What the buffers for an entry can take from the file: all the bytes have to be there, and the last
buffer has to ask for one. -/
def Reads (w : World) (kd : KeydirRecord) (r : DatafileRecord) : Prop :=
  ∃ ino, servedBy kd.fileId w = some ino ∧ 0 < kd.valueSize.toNat ∧
    kd.recordPos + (16 + kd.key.length + kd.valueSize.toNat) ≤ (w.fs.data ino).length ∧
    r = readBack ((w.fs.data ino).drop kd.recordPos) kd.key.length kd.valueSize.toNat

variable {kd : KeydirRecord}

theorem Reads.unique {r r' : DatafileRecord} (h : Reads w kd r) (h' : Reads w kd r') : r = r' := by
  obtain ⟨ino, hserved, -, -, rfl⟩ := h
  obtain ⟨ino', hserved', -, -, rfl⟩ := h'
  rw [hserved] at hserved'
  obtain rfl := Option.some.inj hserved'
  rfl

theorem wanted_buffersOf (hkey : kd.key.length < 2 ^ 32) :
    wanted (buffersOf kd).iov = 16 + kd.key.length + kd.valueSize.toNat := by
  rw [wanted_iov, ccaskGetDatafileRecordTotalSize]
  simp only [buffersOf, List.length_replicate, length_freshBuf, UInt32.toNat_ofNat',
    Nat.mod_eq_of_lt hkey, datafileRecordHeaderSize]

/-- Three buffers of these sizes with the bytes from a position on. -/
theorem buffers_filled (hkey : kd.key.length < 2 ^ 32) {b : Bytes} {bufs : List Bytes}
    (hlen : 16 + kd.key.length + kd.valueSize.toNat ≤ b.length)
    (hbytes : bufs.flatten = b.take (16 + kd.key.length + kd.valueSize.toNat))
    (hlens : bufs.map List.length = (buffersOf kd).iov.map (·.buf.length)) :
    bufs = [(readBack b kd.key.length kd.valueSize.toNat).header,
      (readBack b kd.key.length kd.valueSize.toNat).key,
      (readBack b kd.key.length kd.valueSize.toNat).value] := by
  obtain ⟨hh, hk, hv⟩ := readBack_lengths hlen
  have hsame : bufs.map List.length = [(readBack b kd.key.length kd.valueSize.toNat).header,
      (readBack b kd.key.length kd.valueSize.toNat).key,
      (readBack b kd.key.length kd.valueSize.toNat).value].map List.length := by
    rw [hlens]
    simp only [DatafileRecord.iov, Iovec.of, buffersOf, List.map_cons, List.map_nil,
      List.length_replicate, length_freshBuf, UInt32.toNat_ofNat', Nat.mod_eq_of_lt hkey, hh, hk, hv]
  rw [← chunks_flatten bufs, hsame, hbytes, ← readBack_bytes, DatafileRecord.bytes, List.append_assoc]
  have hparts := chunks_flatten [(readBack b kd.key.length kd.valueSize.toNat).header,
    (readBack b kd.key.length kd.valueSize.toNat).key,
    (readBack b kd.key.length kd.valueSize.toNat).value]
  rwa [List.flatten_cons, List.flatten_cons, List.flatten_singleton] at hparts

/-- What a read for an entry answers. -/
theorem ccaskReadDatafileRecord_reads (hkey : kd.key.length < 2 ^ 32) :
    Ensures (fun _ => True) (ccaskReadDatafileRecord kd.fileId (buffersOf kd) kd.recordPos) w
      (fun res _ => match res with
        | .ok r => Reads w kd r
        | .fail _ => True
        | .retry _ => False)
      (fun _ => True) := by
  refine Ensures.state_bind ?_
  cases hget : ccaskFilesGetFile kd.fileId w with
  | none => exact Ensures.pure trivial
  | some file =>
      refine (opening_ensures hget).bind ?_
      rintro res v ⟨hfs, hopen⟩
      cases res with
      | fail e => exact Ensures.pure trivial
      | retry e => exact Ensures.pure trivial
      | ok _ =>
          obtain ⟨ino, hserved, hfd⟩ := hopen rfl
          refine Ensures.state_bind ?_
          rw [hfd]
          refine ((safePreadv_ensures (fun _ => True) (iov_fits _) (iov_fresh _)
            (List.cons_ne_nil _ _)).mono (fun _ _ h => h) fun _ _ => trivial).bind ?_
          rintro res u ⟨-, ⟨bufs, rfl, hlast, hlen, hbytes, hlens⟩ | ⟨rfl, -⟩ | ⟨rfl, -⟩⟩
          · rw [wanted_buffersOf hkey, hfs] at hlen
            rw [wanted_buffersOf hkey, hfs] at hbytes
            have hvalue : 0 < kd.valueSize.toNat := by
              have hne := (iov_last _).mp hlast
              rwa [← List.length_pos_iff, buffersOf, length_freshBuf] at hne
            rw [buffers_filled hkey (by rw [List.length_drop]; omega) hbytes hlens]
            exact Ensures.modify_bind (Ensures.pure ⟨ino, hserved, hvalue, hlen, rfl⟩)
          · exact Ensures.modify_bind (Ensures.pure trivial)
          · exact Ensures.modify_bind (Ensures.pure trivial)

/-- Without errors the read gives what is there. -/
theorem ccaskReadDatafileRecord_gives (hkey : kd.key.length < 2 ^ 32) {r : DatafileRecord}
    (h : Reads w kd r) :
    ∃ v, Computes (ccaskReadDatafileRecord kd.fileId (buffersOf kd) kd.recordPos) w (.ok r) v := by
  obtain ⟨ino, hserved, hvalue, hlen, rfl⟩ := h
  obtain ⟨file, hget⟩ : ∃ file, ccaskFilesGetFile kd.fileId w = some file := by
    cases hget : ccaskFilesGetFile kd.fileId w with
    | none =>
        rw [servedBy, hget] at hserved
        cases hserved
    | some file => exact ⟨file, rfl⟩
  have hfid : file.fileId = kd.fileId := by simpa using List.find?_some hget
  obtain ⟨v, hopening⟩ : ∃ v, Computes (if file.fd.isNone then openForRead file else pure (.ok ())) w
      (.ok ()) v := by
    cases hfd : file.fd with
    | some ino => exact ⟨w, Computes.pure _⟩
    | none =>
        rw [servedBy, hget] at hserved
        simp only [Option.bind_eq_bind, Option.bind_some, hfd, Option.orElse_eq_orElse,
          Option.orElse_none] at hserved
        exact openForRead_returns (by rw [hfid]; exact hserved)
  obtain ⟨rs, rest, hrs, hrun⟩ := hopening.exists_run
  obtain ⟨hfs, hopen⟩ := (opening_ensures hget).returned (fun _ _ => trivial) hrun
  obtain ⟨ino', hserved', hfd⟩ := hopen rfl
  rw [hserved] at hserved'
  obtain rfl := Option.some.inj hserved'
  have hlast : LastNonempty (buffersOf kd).iov := by
    rw [iov_last, ← List.length_pos_iff, buffersOf, length_freshBuf]
    exact hvalue
  have hwanted := wanted_buffersOf hkey
  have hread : Computes (safePreadv (some ino) (buffersOf kd).iov kd.recordPos) v
      (.ok [(readBack ((w.fs.data ino).drop kd.recordPos) kd.key.length kd.valueSize.toNat).header,
        (readBack ((w.fs.data ino).drop kd.recordPos) kd.key.length kd.valueSize.toNat).key,
        (readBack ((w.fs.data ino).drop kd.recordPos) kd.key.length kd.valueSize.toNat).value]) v := by
    refine ⟨(safePreadv_ensures Reply.Clean (iov_fits _) (iov_fresh _) (List.cons_ne_nil _ _)).mono ?_
      fun _ _ => trivial, safePreadv_terminates (iov_fits _) (iov_fresh _) (List.cons_ne_nil _ _)⟩
    rintro res u ⟨rfl, ⟨bufs, rfl, -, -, hbytes, hlens⟩ | ⟨-, hn⟩ | ⟨-, a, ha, hn⟩⟩
    · rw [hwanted, hfs] at hbytes
      rw [buffers_filled hkey (by rw [List.length_drop]; omega) hbytes hlens]
      exact ⟨rfl, rfl⟩
    · refine absurd ⟨hlast, ?_⟩ hn
      rw [hwanted, hfs]
      exact hlen
    · exact absurd ha hn
  refine ⟨v.setFile kd.fileId fun f => { f with lastAccessed := v.clock }, Computes.state_bind ?_⟩
  rw [hget]
  refine hopening.bind (Computes.state_bind ?_)
  rw [hfd]
  exact hread.bind (Computes.modify_bind (Computes.pure _))

variable [Zlib] {key : Buf}

/-- What a get makes of a record it has read for an entry. -/
def Answers (kd : KeydirRecord) (r : DatafileRecord) (res : GetResult) : Prop :=
  match res with
  | .found c => Checks r ∧ c = ⟨(ccaskGetDatafileRecordHeader r).timestamp,
      (ccaskGetDatafileRecordHeader r).keySize, kd.valueSize, r.value.take kd.valueSize.toNat⟩
  | .outOfBounds => Overruns r
  | .fail _ => True
  | .missing => False

/-- What a get answers for a key that has an entry. -/
theorem ccaskGet_answers (hfind : ccaskKeydirFind key.val w = some kd) :
    Ensures (fun _ => True) (ccaskGet key) w
      (fun res _ => (∃ e, res = .fail e) ∨ ∃ r, Reads w kd r ∧ Answers kd r res) (fun _ => True) := by
  have hkey : kd.key.length < 2 ^ 32 := by
    rw [Index.key_of_get hfind]
    exact key.2
  refine Ensures.state_bind ?_
  rw [hfind]
  refine (ccaskAllocateDatafileRecord_ensures _ _).bind ?_
  rintro res v ⟨rfl, hbuffers⟩
  cases res with
  | fail e => exact Ensures.pure (.inl ⟨e, rfl⟩)
  | retry e => exact Ensures.pure (.inl ⟨e, rfl⟩)
  | ok buffers =>
      obtain rfl : buffers = buffersOf kd := hbuffers buffers rfl
      have hread : Ensures (fun _ => True)
          (attempt 5 (ccaskReadDatafileRecord kd.fileId (buffersOf kd) kd.recordPos)) v
          (fun res _ => ∀ r, res = .ok r → Reads v kd r) (fun _ => True) := by
        refine attempt_ensures (I := fun u => u = v) rfl (fun e u _ r h => by cases h) ?_
        rintro u rfl
        refine (ccaskReadDatafileRecord_reads hkey).mono ?_ fun _ _ => trivial
        intro res u' hres
        cases res with
        | ok r => exact fun r' h => Res.ok.inj h ▸ hres
        | fail e => exact fun r' h => by cases h
        | retry e => exact hres.elim
      refine hread.bind fun res u hres => ?_
      cases res with
      | fail e => exact Ensures.pure (.inl ⟨e, rfl⟩)
      | retry e => exact Ensures.pure (.inl ⟨e, rfl⟩)
      | ok r =>
          have hr := hres r rfl
          dsimp only
          split
          · rename_i hcrc
            exact Ensures.pure (.inr ⟨r, hr, hcrc⟩)
          · rename_i crc hcrc
            split
            · exact Ensures.pure (.inl ⟨_, rfl⟩)
            · rename_i heq
              refine malloc_ensures trivial fun b => ?_
              cases b with
              | false => exact Ensures.pure (.inl ⟨_, rfl⟩)
              | true =>
                  refine Ensures.pure (.inr ⟨r, hr, ?_, rfl⟩)
                  rw [Checks, hcrc, not_not.mp heq]

/-- Without errors a get makes of what it reads what the checksum says. -/
theorem ccaskGet_gives (hfind : ccaskKeydirFind key.val w = some kd) {r : DatafileRecord}
    (h : Reads w kd r) (hcrc : Checks r ∨ Overruns r) :
    ∃ res v, Computes (ccaskGet key) w res v ∧ ∀ e, res ≠ .fail e := by
  have hkey : kd.key.length < 2 ^ 32 := by
    rw [Index.key_of_get hfind]
    exact key.2
  obtain ⟨v, hread⟩ := ccaskReadDatafileRecord_gives hkey h
  obtain hcrc | hcrc := hcrc
  · exact ⟨_, v, ccaskGet_of_read hfind hread rfl hcrc, fun e he => by cases he⟩
  · refine ⟨.outOfBounds, v, Computes.state_bind ?_, fun e he => by cases he⟩
    rw [hfind]
    refine (ccaskAllocateDatafileRecord_computes _ _).bind ?_
    refine (attempt_computes hread (by simp)).bind ?_
    unfold Overruns at hcrc
    simp only [hcrc]
    exact Computes.pure _

/-- From a position on the bytes of a file are a complete record of a key and a value, with a checksum
that matches all of it. -/
def HoldsRecord (contents : Bytes) (pos : Nat) (k v : Bytes) : Prop :=
  ∃ r, Sized r ∧ r.bytes <+: contents.drop pos ∧ r.key = k ∧ r.value = v ∧ Checks r

/-- A value is handed out only of a record that is the one that was asked for. -/
def Genuine (w : World) (key : Buf) (kd : KeydirRecord) : GetResult → Prop
  | .found c => ∃ ino, servedBy kd.fileId w = some ino ∧ c.value.length = c.valueSize.toNat ∧
      HoldsRecord (w.fs.data ino) kd.recordPos key.val c.value
  | .fail _ => True
  | .missing | .outOfBounds => False

/-- What an entry leads to, when a get does not refuse it, is a record of the sizes in its own header
and of the key. -/
def LeadsHome (w : World) (key : Buf) (kd : KeydirRecord) : Prop :=
  ∀ r, Reads w kd r → Checks r ∨ Overruns r → Sized r ∧ r.key = key.val

/-- A get hands out a value only of the record of its key, and never reads past a buffer, exactly when
its entry leads home. -/
theorem get_genuine_iff (hfind : ccaskKeydirFind key.val w = some kd) :
    (∀ rs rest res v, (ccaskGet key).run rs w = .returned res rest v → Genuine w key kd res) ↔
      LeadsHome w key kd := by
  have hkd : kd.key = key.val := Index.key_of_get hfind
  constructor
  · intro h r hr hcrc
    obtain ⟨res, v, hget, hres⟩ := ccaskGet_gives hfind hr hcrc
    obtain ⟨rs, rest, -, hrun⟩ := hget.exists_run
    have hgenuine := h rs rest res v hrun
    obtain ⟨e, he⟩ | ⟨r', hr', hanswer⟩ := (ccaskGet_answers hfind).returned (fun _ _ => trivial) hrun
    · exact absurd he (hres e)
    obtain rfl := hr.unique hr'
    cases res with
    | fail e => exact absurd rfl (hres e)
    | missing => exact hanswer.elim
    | outOfBounds => exact hgenuine.elim
    | found c =>
        obtain ⟨-, rfl⟩ := hanswer
        obtain ⟨ino, hserved, hlen, r₀, hsized, hprefix, hkey, hvalue, -⟩ := hgenuine
        obtain ⟨ino', hserved', -, -, hr⟩ := hr
        rw [hserved] at hserved'
        obtain rfl := Option.some.inj hserved'
        have hsame : r = r₀ := by
          rw [hr, ← readBack_of_prefix hsized.header hprefix, hkey, hvalue, hlen, hkd]
        rw [hsame]
        exact ⟨hsized, hkey⟩
  · intro h rs rest res v hrun
    obtain ⟨e, rfl⟩ | ⟨r, hr, hanswer⟩ := (ccaskGet_answers hfind).returned (fun _ _ => trivial) hrun
    · trivial
    cases res with
    | fail e => trivial
    | missing => exact hanswer
    | outOfBounds => exact (h r hr (.inr hanswer)).1.not_overruns hanswer
    | found c =>
        obtain ⟨hchecks, rfl⟩ := hanswer
        obtain ⟨hsized, hkey⟩ := h r hr (.inl hchecks)
        obtain ⟨ino, hserved, -, hlen, rfl⟩ := hr
        obtain ⟨-, -, hv⟩ := readBack_lengths
          (show 16 + kd.key.length + kd.valueSize.toNat ≤ ((w.fs.data ino).drop kd.recordPos).length by
            rw [List.length_drop]; omega)
        refine ⟨ino, hserved, ?_, _, hsized, ?_, hkey, ?_, hchecks⟩
        · exact (List.length_take_of_le (Nat.le_of_eq hv.symm))
        · rw [readBack_bytes]
          exact List.take_prefix _ _
        · exact (List.take_of_length_le (Nat.le_of_eq hv)).symm

end Get

section Sample

variable [Zlib]

/-- A file with the records of two puts, and an entry of the first key with this position. -/
def twoRecords (recordPos : Nat) : World :=
  { oneFile (fileName 0 .data) ((bytePut 0 97 98).record.bytes ++ (bytePut 0 99 100).record.bytes) with
    files := [⟨0, some 0, 0, false, true, false⟩]
    hashTable := [⟨sampleKey.val, 0, recordPos, 1, 0⟩] }

theorem reads_twoRecords {p : Put} (recordPos : Nat) (hkey : p.key.bytes.length = 1)
    (hvalue : p.value.bytes.length = 1)
    (h : p.record.bytes <+: ((twoRecords recordPos).fs.data 0).drop recordPos) :
    Reads (twoRecords recordPos) ⟨sampleKey.val, 0, recordPos, 1, 0⟩ p.record := by
  refine ⟨0, rfl, Nat.one_pos, ?_, ?_⟩
  · have hlen := h.length_le
    rw [p.length_record, hkey, hvalue, List.length_drop] at hlen
    show recordPos + (16 + 1 + 1) ≤ _
    omega
  · have hback := readBack_of_prefix p.sized.header h
    rw [Put.record_key, Put.record_value, hkey, hvalue] at hback
    exact hback.symm

omit [Zlib] in
theorem get_genuine_one : letI := zlib
    ∃ rs rest c v, (ccaskGet sampleKey).run rs (twoRecords 0) = .returned (.found c) rest v ∧
      c.value = [98] ∧ Genuine (twoRecords 0) sampleKey ⟨sampleKey.val, 0, 0, 1, 0⟩ (.found c) := by
  let _ := zlib
  have hfirst : Reads (twoRecords 0) ⟨sampleKey.val, 0, 0, 1, 0⟩ (bytePut 0 97 98).record :=
    reads_twoRecords 0 rfl rfl ⟨(bytePut 0 99 100).record.bytes, by decide +kernel⟩
  obtain ⟨v, hread⟩ := ccaskReadDatafileRecord_gives (by decide) hfirst
  have hcrc := calculateCrc32_eq 0 (bytePut 0 97 98).key (bytePut 0 97 98).value
  obtain ⟨rs, rest, -, hrun⟩ := (ccaskGet_of_read (k := sampleKey) rfl hread (header_mkRecord ..)
    hcrc).exists_run
  refine ⟨rs, rest, _, _, hrun, rfl, (get_genuine_iff rfl).mpr (fun r hr _ => ?_) _ _ _ _ hrun⟩
  rw [hr.unique hfirst]
  exact ⟨Put.sized _, rfl⟩

omit [Zlib] in
/-- An entry that leads to the record of another key: the value of that key is handed out. -/
theorem get_of_foreign_record : letI := zlib
    ∃ rs rest c v, (ccaskGet sampleKey).run rs (twoRecords 18) = .returned (.found c) rest v ∧
      c.value = [100] ∧ ¬ Genuine (twoRecords 18) sampleKey ⟨sampleKey.val, 0, 18, 1, 0⟩ (.found c) := by
  let _ := zlib
  have hprefix : (bytePut 0 99 100).record.bytes <+: ((twoRecords 18).fs.data 0).drop 18 :=
    ⟨[], by decide +kernel⟩
  have hreads := reads_twoRecords 18 rfl rfl hprefix
  obtain ⟨v, hread⟩ := ccaskReadDatafileRecord_gives (by decide) hreads
  have hcrc := calculateCrc32_eq 0 (bytePut 0 99 100).key (bytePut 0 99 100).value
  obtain ⟨rs, rest, -, hrun⟩ := (ccaskGet_of_read (k := sampleKey) rfl hread (header_mkRecord ..)
    hcrc).exists_run
  refine ⟨rs, rest, _, _, hrun, rfl, ?_⟩
  rintro ⟨ino, hserved, hlen, r, hsized, hr, hkey, hvalue, -⟩
  obtain rfl : 0 = ino := Option.some.inj hserved
  have hsame : r = (bytePut 0 99 100).record := by
    rw [← readBack_of_prefix hsized.header hr, hkey, hvalue]
    exact readBack_of_prefix (Put.sized _).header hprefix
  rw [hsame] at hkey
  exact absurd hkey (by decide)

end Sample

end Ccask.Audit
