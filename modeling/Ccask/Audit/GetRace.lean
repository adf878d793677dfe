import Ccask.Audit.Dump
import Ccask.Audit.LogOrder

/-!
# A get that overlaps puts

`ccask_get` reads the fields of its entry at three moments after it has given back the lock of the
key directory. Puts of the same key change them in between.
-/

namespace Ccask.Audit

open Ccask.Effect Ccask.Model

section Sequential

variable {w : World}

theorem safePreadv_lengths (fd : Option Ino) {iov : List Iovec} (offset : Nat)
    (hfits : ∀ v ∈ iov, v.Fits) (hfresh : ∀ v ∈ iov, v.iovBase = 0) :
    Ensures (fun _ => True) (safePreadv fd iov offset) w
      (fun r _ => ∀ bufs, r = .ok bufs → bufs.map List.length = iov.map (·.buf.length))
      (fun _ => True) := by
  match fd, iov with
  | none, _ => exact Ensures.pure (by simp)
  | some _, [] => exact Ensures.pure (by simp)
  | some ino, v :: iov =>
      refine (safePreadv_ensures _ hfits hfresh (List.cons_ne_nil v iov)).mono ?_ fun _ _ => trivial
      rintro r u ⟨-, ⟨bufs, rfl, -, -, -, hlen⟩ | ⟨rfl, -⟩ | ⟨rfl, -⟩⟩ bufs' heq
      · cases heq
        exact hlen
      · cases heq
      · cases heq

/-- What is read fills the buffers. -/
theorem ccaskReadDatafileRecord_length (fileId : Nat) (buffers : DatafileRecord) (recordPos : Nat) :
    Ensures (fun _ => True) (ccaskReadDatafileRecord fileId buffers recordPos) w
      (fun r _ => ∀ record, r = .ok record → record.value.length = buffers.value.length)
      (fun _ => True) := by
  refine Ensures.state_bind ?_
  split
  · exact Ensures.pure (by simp)
  · refine Ensures.trivial.bind fun r v _ => ?_
    cases r with
    | fail e => exact Ensures.pure (by simp)
    | retry e => exact Ensures.pure (by simp)
    | ok _ =>
        refine Ensures.state_bind ((safePreadv_lengths _ _ (iov_fits buffers)
          (iov_fresh buffers)).bind fun r u hr => ?_)
        split
        · rename_i header key value
          refine Ensures.modify_bind (Ensures.pure ?_)
          rintro record heq
          cases heq
          have hlen := hr _ rfl
          simp only [DatafileRecord.iov, List.map_cons, List.map_nil, List.cons.injEq] at hlen
          exact hlen.2.2.1
        · exact Ensures.block trivial
        · exact Ensures.modify_bind (Ensures.pure (by simp))
        · exact Ensures.modify_bind (Ensures.pure (by simp))

theorem attempt_read_length (fileId : Nat) (buffers : DatafileRecord) (recordPos : Nat) :
    Ensures (fun _ => True) (attempt 5 (ccaskReadDatafileRecord fileId buffers recordPos)) w
      (fun r _ => ∀ record, r = .ok record → record.value.length = buffers.value.length)
      (fun _ => True) := by
  refine attempt_ensures (I := fun _ => True) trivial (fun e v _ record heq => by cases heq) ?_
  intro v _
  refine (ccaskReadDatafileRecord_length fileId buffers recordPos).mono ?_ fun _ _ => trivial
  intro r u hr
  cases r with
  | ok record => exact hr
  | fail e => exact hr
  | retry e => trivial

theorem ccaskAllocateDatafileRecord_ensures (keySize valueSize : UInt32) :
    Ensures (fun _ => True) (ccaskAllocateDatafileRecord keySize valueSize) w
      (fun r v => v = w ∧ ∀ buffers, r = .ok buffers → buffers =
        ⟨List.replicate datafileRecordHeaderSize 0, freshBuf keySize, freshBuf valueSize⟩)
      (fun _ => True) := by
  refine ((mallocAll_moves (R := Eq) 3 w).mono (fun _ _ h => h) fun _ _ => trivial).bind fun r v hv => ?_
  subst hv
  cases r with
  | ok u => exact Ensures.pure ⟨rfl, fun _ h => (Res.ok.inj h).symm⟩
  | fail e => exact Ensures.pure ⟨rfl, fun _ h => by cases h⟩
  | retry e => exact Ensures.pure ⟨rfl, fun _ h => by cases h⟩

/-- The sections of a get one after another are `ccask_get`. -/
theorem ccaskGet_sections [Zlib] (key : Buf) (w : World) (rs : List Reply) :
    (ccaskGet key).run rs w = (do
      match ← upsertLookup key.val with
      | none => pure .missing
      | some entry =>
        match ← getAllocate entry with
        | .fail e | .retry e => pure (.fail e)
        | .ok buffers =>
          match ← getRead entry buffers with
          | .fail e | .retry e => pure (.fail e)
          | .ok record => getCopy entry record : Sys GetResult).run rs w := by
  rw [ccaskGet, upsertLookup, bind_assoc, Prog.run_state_bind, Prog.run_state_bind, pure_bind]
  cases hi : w.hashTable.findIdx? fun entry => entry.key = key.val with
  | none =>
      have hnone : ccaskKeydirFind key.val w = none := Index.findIdx?_eq_none.mp hi
      rw [hnone]
  | some i =>
      have hplace := Index.getElem?_of_findIdx? hi
      obtain ⟨kd, hfind⟩ : ∃ kd, ccaskKeydirFind key.val w = some kd := by
        rw [← Option.ne_none_iff_exists']
        intro hnone
        rw [Index.findIdx?_eq_none.mpr hnone] at hi
        cases hi
      have hget : ∀ v : World, v.hashTable = w.hashTable → v.hashTable[i]? = some kd := by
        intro v hv
        rw [hv, hplace]
        exact hfind
      rw [hfind]
      simp only
      rw [getAllocate, bind_assoc, Prog.run_state_bind, hget w rfl]
      simp only
      rw [Prog.run_bind, Prog.run_bind]
      cases halloc : (ccaskAllocateDatafileRecord (UInt32.ofNat kd.key.length) kd.valueSize).run rs w with
      | pending v => rfl
      | returned r rest v =>
          obtain ⟨rfl, hbuffers⟩ :=
            (ccaskAllocateDatafileRecord_ensures _ _).returned (fun _ _ => trivial) halloc
          cases r with
          | fail e => rfl
          | retry e => rfl
          | ok buffers =>
              have hsize : buffers.value.length = kd.valueSize.toNat := by
                rw [hbuffers buffers rfl, length_freshBuf]
              simp only
              rw [getRead, bind_assoc, Prog.run_state_bind, hget v rfl]
              simp only
              rw [Prog.run_bind, Prog.run_bind]
              cases hread : (attempt 5 (ccaskReadDatafileRecord kd.fileId buffers kd.recordPos)).run
                rest v with
              | pending u => rfl
              | returned r rest' u =>
                  have ht : Touched v u := (attempt_moves (ccaskReadDatafileRecord_touches _ _ _) v).returned
                    (fun _ _ => trivial) hread
                  have hlen := (attempt_read_length _ _ _).returned (fun _ _ => trivial) hread
                  cases r with
                  | fail e => rfl
                  | retry e => rfl
                  | ok record =>
                      simp only
                      rw [getCopy, Prog.run_state_bind, hget u ht.hashTable_eq]
                      have hfits : ¬ record.value.length < kd.valueSize.toNat := by
                        rw [hlen record rfl, hsize]
                        exact Nat.lt_irrefl _
                      refine congrArg (fun m : Sys GetResult => m.run rest' u) ?_
                      dsimp only
                      generalize calculateCrc32 _ _ _ _ _ = crc
                      cases crc with
                      | none => rfl
                      | some crc =>
                          refine if_congr Iff.rfl rfl (bind_congr fun b => ?_)
                          cases b with
                          | false => rfl
                          | true => exact (if_neg hfits).symm

end Sequential

section Place

variable {w : World} {key : Buf} {entry : Nat}

/-- The place of the entry of a key. -/
def Held (w : World) (k : Bytes) (entry : Nat) : Prop :=
  (w.hashTable.findIdx? fun e => e.key = k) = some entry

theorem Held.find {k : Bytes} (h : Held w k entry) :
    ∃ kd, w.hashTable[entry]? = some kd ∧ ccaskKeydirFind k w = some kd := by
  have hplace := Index.getElem?_of_findIdx? h
  cases hfind : ccaskKeydirFind k w with
  | none =>
      rw [Held, Index.findIdx?_eq_none.mpr hfind] at h
      cases h
  | some kd => exact ⟨kd, hplace.trans hfind, rfl⟩

theorem Held.of_find {k : Bytes} {kd : KeydirRecord} (h : ccaskKeydirFind k w = some kd) :
    ∃ entry, Held w k entry ∧ w.hashTable[entry]? = some kd := by
  obtain ⟨entry, hheld⟩ : ∃ entry, Held w k entry := by
    refine Option.ne_none_iff_exists'.mp fun hnone => ?_
    cases (Index.findIdx?_eq_none.mp hnone).symm.trans h
  exact ⟨entry, hheld, (Index.getElem?_of_findIdx? hheld).trans h⟩

theorem Held.upserted {k : Bytes} (h : Held w k entry) (record : KeydirRecord) :
    Held (upserted w record) k entry :=
  Index.findIdx?_put record h

theorem upsertLookup_computes (k : Bytes) : Computes (upsertLookup k) w
    (w.hashTable.findIdx? fun e => e.key = k) w :=
  Computes.state_bind (Computes.pure _)

theorem getAllocate_computes (h : Held w key.val entry) : ∃ buffers,
    Computes (getAllocate entry) w (.ok buffers) w ∧
      buffers.header.length = datafileRecordHeaderSize ∧ buffers.key.length = key.val.length ∧
      ∀ kd, w.hashTable[entry]? = some kd → buffers.value.length = kd.valueSize.toNat := by
  obtain ⟨kd, hkd, hfind⟩ := h.find
  have halloc : Computes (getAllocate entry) w (.ok ⟨List.replicate datafileRecordHeaderSize 0,
      freshBuf (UInt32.ofNat kd.key.length), freshBuf kd.valueSize⟩) w := by
    refine Computes.state_bind ?_
    rw [hkd]
    exact ccaskAllocateDatafileRecord_computes _ _
  refine ⟨_, halloc, List.length_replicate, ?_, fun kd' hkd' => ?_⟩
  · rw [length_freshBuf, Index.key_of_get hfind]
    exact UInt32.toNat_ofNat_of_lt' key.property
  · rw [hkd] at hkd'
    rw [length_freshBuf, Option.some.inj hkd']

/-- The lookup of a key that has an entry. -/
theorem lookup_computes [Zlib] (h : Held w key.val entry) :
    ∃ m, (GetCall.lookup key).sect = some m ∧ Computes m w (.allocate entry) w := by
  refine ⟨_, rfl, (upsertLookup_computes key.val).bind ?_⟩
  rw [h]
  exact Computes.pure _

end Place

/-- Gets, and the puts beside them. -/
abbrev GetThread := GetCall ⊕ PutCall

section Puts

variable {ι : Type} {c : Pool World ι GetThread}

/-- The put of a thread; a get is none. -/
def putOf : GetThread → PutCall
  | .inl _ => .done (.ok ())
  | .inr t => t

/-- The puts of a pool, as if the gets were not there. -/
def puts (c : Pool World ι GetThread) : Pool World ι PutCall := ⟨c.shared, putOf ∘ c.thread⟩

theorem puts_thread_inl {i : ι} {t : GetCall} (hi : c.thread i = .inl t) :
    (puts c).thread i = .done (.ok ()) :=
  congrArg putOf hi

theorem puts_thread_inr {i : ι} {t : PutCall} (hi : c.thread i = .inr t) : (puts c).thread i = t :=
  congrArg putOf hi

variable [DecidableEq ι]

theorem puts_set_inr (c : Pool World ι GetThread) (i : ι) (w : World) (t : PutCall) :
    puts (c.set i w (.inr t)) = (puts c).set i w t := by
  rw [puts, Pool.set, Function.comp_update]
  rfl

/-- A section of a get changes nothing for the puts but the state. -/
theorem puts_set_inl {i : ι} {t : GetCall} (hi : c.thread i = .inl t) (w : World) (t' : GetCall) :
    puts (c.set i w (.inl t')) = ⟨w, (puts c).thread⟩ := by
  have hput : putOf (.inl t') = (putOf ∘ c.thread) i := (puts_thread_inl hi).symm
  rw [puts, Pool.set, Function.comp_update, hput, Function.update_eq_self]
  rfl

end Puts

variable [Zlib]

section Sections

variable {w v : World} {key : Buf} {entry : Nat} {p : Put}

/-- The entry of a key leads to the record of a put. -/
def Shows (w : World) (k : Bytes) (p : Put) : Prop :=
  Good p ∧ ∃ id pre post, ccaskKeydirFind k w = some (p.entry id pre.length) ∧ id ∈ ids w ∧
    w.fs.read (fileName id .data) = some (pre ++ p.record.bytes ++ post)

/-- What a get has in hand after it has read the record of a put: the record, with what comes behind
it when the buffer for the value was longer. -/
def readOf (p : Put) (extra : Bytes) : DatafileRecord :=
  ⟨p.record.header, p.key.bytes, p.value.bytes ++ extra⟩

theorem header_readOf (p : Put) (extra : Bytes) : ccaskGetDatafileRecordHeader (readOf p extra) =
    ⟨checksum p.timestamp p.key p.value, p.timestamp, p.key.size, p.value.size⟩ :=
  header_mkRecord p.timestamp p.key p.value

theorem zlibCrc32_append (crc : UInt32) (b extra : Bytes) {len : UInt32} (hlen : len.toNat = b.length) :
    zlibCrc32 crc (some (b ++ extra)) len = zlibCrc32 crc (some b) len := by
  simp only [zlibCrc32, List.length_append, hlen, Nat.le_add_right, if_true, Nat.le_refl, List.take_left,
    List.take_length]

/-- The checksum does not look behind the value. -/
theorem calculateCrc32_readOf (hp : Good p) (extra : Bytes) :
    calculateCrc32 p.timestamp p.key.size p.value.size (some p.key.bytes)
      (some (p.value.bytes ++ extra)) = some (checksum p.timestamp p.key p.value) := by
  have hcrc := calculateCrc32_eq p.timestamp p.key p.value
  rw [Ptr.eq_some hp.key_ne, Ptr.eq_some hp.value_ne] at hcrc
  rw [← hcrc]
  simp only [calculateCrc32, zlibCrc32_append _ _ _ (Ptr.toNat_size p.value)]

/-- A read of the record of a put, into buffers for a value that is not shorter and with bytes in the
file for all of them. -/
theorem getRead_computes (hm : Mounted w) (h : Held w key.val entry) (hp : Shows w key.val p)
    {buffers : DatafileRecord} (hheader : buffers.header.length = datafileRecordHeaderSize)
    (hkey : buffers.key.length = key.val.length) (hsize : p.value.bytes.length ≤ buffers.value.length)
    (hlen : ∀ id pos c, ccaskKeydirFind key.val w = some (p.entry id pos) →
      w.fs.read (fileName id .data) = some c →
      pos + ccaskGetDatafileRecordTotalSize buffers ≤ c.length) :
    ∃ extra v, Computes (getRead entry buffers) w (.ok (readOf p extra)) v ∧ Touched w v ∧ Mounted v := by
  obtain ⟨hgood, id, pre, post, hfind, hid, hread⟩ := hp
  obtain ⟨kd, hkd, hfind'⟩ := h.find
  rw [hfind'] at hfind
  obtain rfl := Option.some.inj hfind
  have hpkey : (p.entry id pre.length).key = key.val := Index.key_of_get hfind'
  rw [← hpkey] at hkey
  obtain ⟨v, extra, hcall, -, ht, hm'⟩ := readPut_into hm buffers hid hread hgood.value_ne hheader hkey
    hsize (hlen id _ _ hfind' hread)
  refine ⟨extra, v, Computes.state_bind ?_, ht, hm'⟩
  rw [hkd]
  exact attempt_computes hcall (by simp)

/-- The file has bytes for buffers of the size of the record. -/
theorem Shows.fits {k : Bytes} (h : Shows w k p) {buffers : DatafileRecord}
    (hheader : buffers.header.length = datafileRecordHeaderSize) (hkey : buffers.key.length = k.length)
    (hsize : buffers.value.length ≤ p.value.bytes.length) (id pos : Nat) (c : Bytes)
    (hfind : ccaskKeydirFind k w = some (p.entry id pos))
    (hc : w.fs.read (fileName id .data) = some c) :
    pos + ccaskGetDatafileRecordTotalSize buffers ≤ c.length := by
  obtain ⟨-, id', pre, post, hfind', -, hread⟩ := h
  have hpkey : (p.entry id pos).key = k := Index.key_of_get hfind
  rw [hfind] at hfind'
  cases hfind'
  rw [hread] at hc
  have hbytes : buffers.key.length = p.key.bytes.length := by
    rw [hkey, ← hpkey]
    rfl
  rw [← Option.some.inj hc, ccaskGetDatafileRecordTotalSize, hheader, hbytes, List.length_append,
    List.length_append, p.length_record]
  have : datafileRecordHeaderSize = 16 := rfl
  omega

/-- A buffer that is too short for the value is filled all the same. -/
theorem getRead_short (hm : Mounted w) (h : Held w key.val entry) (hp : Shows w key.val p)
    {buffers : DatafileRecord} (hheader : buffers.header.length = datafileRecordHeaderSize)
    (hkey : buffers.key.length = key.val.length) (hvalue : buffers.value ≠ [])
    (hsize : buffers.value.length < p.value.bytes.length) : ∃ r v,
      Computes (getRead entry buffers) w (.ok r) v ∧ Touched w v ∧
      ccaskGetDatafileRecordHeader r = ⟨checksum p.timestamp p.key p.value, p.timestamp, p.key.size,
        p.value.size⟩ ∧ r.value.length < p.value.bytes.length := by
  have hfits := hp.fits hheader hkey (Nat.le_of_lt hsize)
  obtain ⟨hgood, id, pre, post, hfind, hid, hread⟩ := hp
  have hlen := hfits id pre.length _ hfind hread
  obtain ⟨kd, hkd, hfind'⟩ := h.find
  rw [hfind'] at hfind
  obtain rfl := Option.some.inj hfind
  have hpkey : (p.entry id pre.length).key = key.val := Index.key_of_get hfind'
  rw [← hpkey] at hkey
  obtain ⟨v, hcall, -, ht, -⟩ := readPut_take hm buffers hid hread hvalue hheader hkey hlen
  refine ⟨⟨p.record.header, p.key.bytes, (p.value.bytes ++ post).take buffers.value.length⟩, v,
    Computes.state_bind ?_, ht, header_mkRecord p.timestamp p.key p.value,
    lt_of_le_of_lt (List.length_take_le _ _) hsize⟩
  rw [hkd]
  exact attempt_computes hcall (by simp)

/-- The checksum of the value runs past a buffer that is too short. -/
theorem getCopy_short {r : DatafileRecord} {header : DatafileRecordHeader} (h : Held w key.val entry)
    (hheader : ccaskGetDatafileRecordHeader r = header)
    (hlen : r.value.length < header.valueSize.toNat) :
    Computes (getCopy entry r) w .outOfBounds w := by
  obtain ⟨kd, hkd, -⟩ := h.find
  refine Computes.state_bind ?_
  rw [hkd]
  have hnone : ∀ crc, zlibCrc32 crc (some r.value) header.valueSize = none := by
    intro crc
    simp only [zlibCrc32]
    rw [if_neg (Nat.not_le.mpr hlen)]
  have hcrc : calculateCrc32 header.timestamp header.keySize header.valueSize (some r.key)
      (some r.value) = none := by
    simp only [calculateCrc32, hnone, Option.bind_eq_bind, Option.bind_fun_none]
  simp only [hheader, hcrc]
  exact Computes.pure _

/-- A record whose checksum is right, and that has enough bytes, is handed out. -/
theorem getCopy_of_read {kd : KeydirRecord} {r : DatafileRecord} {header : DatafileRecordHeader}
    (hkd : w.hashTable[entry]? = some kd) (hheader : ccaskGetDatafileRecordHeader r = header)
    (hcrc : calculateCrc32 header.timestamp header.keySize header.valueSize (some r.key)
      (some r.value) = some header.crc) (hlen : kd.valueSize.toNat ≤ r.value.length) :
    Computes (getCopy entry r) w (.found ⟨header.timestamp, header.keySize, kd.valueSize,
      r.value.take kd.valueSize.toNat⟩) w := by
  refine Computes.state_bind ?_
  rw [hkd]
  simp only [hheader, hcrc]
  rw [if_neg (fun h => h rfl)]
  refine malloc_computes.bind ?_
  rw [if_pos rfl, if_neg (Nat.not_lt.mpr hlen)]
  exact Computes.pure _

/-- The copy of a value of the size that the entry has. -/
theorem getCopy_computes (h : Held w key.val entry) (hp : Good p) (extra : Bytes)
    (hsize : ∀ kd, w.hashTable[entry]? = some kd → kd.valueSize = p.value.size) :
    Computes (getCopy entry (readOf p extra)) w (.found p.result) w := by
  obtain ⟨kd, hkd, -⟩ := h.find
  have hcopy := getCopy_of_read hkd (header_readOf p extra) (calculateCrc32_readOf hp extra)
    (by rw [hsize kd hkd, Ptr.toNat_size, readOf, List.length_append]; exact Nat.le_add_right _ _)
  have htake : (readOf p extra).value.take kd.valueSize.toNat = p.value.bytes := by
    rw [hsize kd hkd, Ptr.toNat_size, readOf, List.take_left]
  rw [htake, hsize kd hkd] at hcopy
  exact hcopy

end Sections

section Recorded

variable {ι : Type} {w w' : World} {c : Pool World ι PutCall} {seg : Nat → List Put} {k : Bytes}

/-- An entry leads to the record of a put. -/
theorem Recorded.shows (h : Recorded c seg) {e : KeydirRecord}
    (he : ccaskKeydirFind k c.shared = some e) : ∃ p id pos, e = p.entry id pos ∧ Shows c.shared k p := by
  have hmem := h.found k e he
  rw [← map_log_entry] at hmem
  obtain ⟨x, hx, rfl⟩ := List.mem_map.mp hmem
  obtain ⟨hid, hput, pre, post, hwritten, hpos⟩ := mem_log hx
  obtain ⟨tail, htail⟩ := h.filed.stored.contents x.1 hid
  refine ⟨x.2.1, x.1, x.2.2, rfl, h.filed.stored.good x.1 hid x.2.1 hput, x.1, pre, post ++ tail, ?_, hid, ?_⟩
  · rw [he, logEntry, hpos]
  · rw [htail, hwritten, List.append_assoc]

theorem Filed.touched (h : Filed w seg) (ht : Touched w w') (hm : Mounted w') : Filed w' seg := by
  obtain ⟨table, happends⟩ := h
  have ht' : Touched { w with hashTable := table } { w' with hashTable := table } :=
    ⟨by rw [ht.same], ht.files⟩
  have hm' : Mounted { w' with hashTable := table } := hm.congr rfl fun _ => rfl
  exact ⟨table, happends.transfer (happends.toHolds.touched ht' hm') ht'.ids_eq
    fun _ => by rw [ht'.fs_eq]⟩

/-- A read leaves the puts and their entries. -/
theorem Recorded.touched (h : Recorded c seg) (ht : Touched c.shared w) (hm : Mounted w) :
    Recorded ⟨w, c.thread⟩ seg := by
  have hes : allEntries (ids w) (recordsOf seg) = allEntries (ids c.shared) (recordsOf seg) := by
    rw [ht.ids_eq]
  refine ⟨h.filed.touched ht hm, fun k e he => ?_, fun e he => ?_, fun i => ?_⟩
  · rw [ccaskKeydirFind, ht.hashTable_eq] at he
    rw [hes]
    exact h.found k e he
  · rw [hes]
    exact h.pending e he
  · have hmax : w.maxActiveFileSize = c.shared.maxActiveFileSize := by rw [ht.same]
    rw [Begins, hmax]
    exact h.calls i

end Recorded

section Race

variable {ι : Type} {w v : World} {key : Buf}

def getSect : GetThread → Option (Sys GetThread) := sumSect GetCall.sect PutCall.sect

/-- The entry has a value for which the buffer is not too short when it is read, with bytes in the file
for the whole buffer, and the size of the value that was read when it is copied. A put finds an id
for another file. -/
def Agreed (w : World) : GetThread → Prop
  | .inl (.read entry buffers) => ∀ kd, w.hashTable[entry]? = some kd →
      kd.valueSize.toNat ≤ buffers.value.length ∧
      ∀ c, w.fs.read (fileName kd.fileId .data) = some c →
        kd.recordPos + ccaskGetDatafileRecordTotalSize buffers ≤ c.length
  | .inl (.copy entry record) => ∀ kd, w.hashTable[entry]? = some kd →
      kd.valueSize = (ccaskGetDatafileRecordHeader record).valueSize
  | .inr (.append _) => Room w
  | _ => True

/-- What the next section of a get does. A record it has read before is that of a put that satisfies
`P`. -/
inductive GetStep (P : Put → Prop) (w : World) (key : Buf) : GetCall → World → GetCall → Prop
  | missing : ccaskKeydirFind key.val w = none → GetStep P w key (.lookup key) w (.done .missing)
  | found {entry : Nat} : Held w key.val entry → GetStep P w key (.lookup key) w (.allocate entry)
  | allocate {entry : Nat} {buffers : DatafileRecord} :
      buffers.header.length = datafileRecordHeaderSize → buffers.key.length = key.val.length →
      GetStep P w key (.allocate entry) w (.read entry buffers)
  | read {entry : Nat} {buffers : DatafileRecord} {p : Put} {extra : Bytes} {v : World} :
      Shows w key.val p → Touched w v → Mounted v →
      GetStep P w key (.read entry buffers) v (.copy entry (readOf p extra))
  | copy {entry : Nat} {p : Put} {extra : Bytes} : P p →
      GetStep P w key (.copy entry (readOf p extra)) w (.done (.found p.result))

theorem GetStep.touched {P : Put → Prop} {t t' : GetCall} (h : GetStep P w key t v t') (hm : Mounted w) :
    Touched w v ∧ Mounted v := by
  cases h with
  | missing => exact ⟨.refl w, hm⟩
  | found => exact ⟨.refl w, hm⟩
  | allocate => exact ⟨.refl w, hm⟩
  | read _ ht hm' => exact ⟨ht, hm'⟩
  | copy => exact ⟨.refl w, hm⟩

/-- What a get knows between two sections. -/
inductive Knows (P : Put → Prop) (w : World) (key : Buf) : GetCall → Prop
  | lookup : Knows P w key (.lookup key)
  | allocate {entry : Nat} : Held w key.val entry → Knows P w key (.allocate entry)
  | read {entry : Nat} {buffers : DatafileRecord} : Held w key.val entry →
      buffers.header.length = datafileRecordHeaderSize → buffers.key.length = key.val.length →
      Knows P w key (.read entry buffers)
  | copy {entry : Nat} {p : Put} {extra : Bytes} : Held w key.val entry → Good p → P p →
      Knows P w key (.copy entry (readOf p extra))

/-- While the entry agrees with what a get has in hand, its next section succeeds. -/
theorem Knows.next {P : Put → Prop} {t : GetCall} {c : Pool World ι PutCall} {seg : Nat → List Put}
    (h : Knows P c.shared key t) (hc : Recorded c seg) (hok : Agreed c.shared (.inl t)) :
    ∃ m v t', t.sect = some m ∧ Computes m c.shared t' v ∧ GetStep P c.shared key t v t' := by
  cases h with
  | lookup =>
      cases hi : c.shared.hashTable.findIdx? fun e => e.key = key.val with
      | none =>
          refine ⟨_, _, _, rfl, (upsertLookup_computes key.val).bind ?_, .missing (Index.findIdx?_eq_none.mp hi)⟩
          rw [hi]
          exact Computes.pure _
      | some entry =>
          obtain ⟨m, hm, hcomp⟩ := lookup_computes hi
          exact ⟨m, _, _, hm, hcomp, .found hi⟩
  | allocate hheld =>
      obtain ⟨buffers, halloc, hheader, hkey, -⟩ := getAllocate_computes hheld
      exact ⟨_, _, _, rfl, halloc.bind (Computes.pure _), .allocate hheader hkey⟩
  | read hheld hheader hkey =>
      obtain ⟨kd, hkd, hfind⟩ := hheld.find
      obtain ⟨p, id, pos, rfl, hshows⟩ := hc.shows hfind
      obtain ⟨hsize, hlen⟩ := hok _ hkd
      rw [Put.entry, Ptr.toNat_size] at hsize
      obtain ⟨extra, v, hread, ht, hm⟩ := getRead_computes hc.filed.store.mounted hheld hshows hheader hkey
        hsize (fun id' pos' c' hfind' hc' => by
          rw [hfind] at hfind'
          cases hfind'
          exact hlen c' hc')
      exact ⟨_, _, _, rfl, hread.bind (Computes.pure _), .read hshows ht hm⟩
  | copy hheld hgood hp =>
      rename_i entry p extra
      have hcopy := getCopy_computes hheld hgood extra fun kd hkd => by
        rw [hok kd hkd, header_readOf]
      exact ⟨_, _, _, rfl, hcopy.bind (Computes.pure _), .copy hp⟩

variable {c c' c₀ : Pool World ι GetThread}

variable [DecidableEq ι]

/-- Runs in which the entry agrees with what a get has in hand when it is read and copied. -/
abbrev GetRuns : Pool World ι GetThread → Pool World ι GetThread → Prop :=
  Pool.Runs (Section (fun _ => AllClean) getSect) fun c i => Agreed c.shared (c.thread i)

/-- The put was the current one of the key at a moment of the get of a thread. -/
def During (c₀ c : Pool World ι GetThread) (i : ι) (key : Buf) (p : Put) : Prop :=
  ∃ c', GetRuns c₀ c' ∧ GetRuns c' c ∧ (∃ entry buffers, c'.thread i = .inl (.read entry buffers)) ∧
    Shows c'.shared key.val p

/-- The key had no entry at the moment of the lookup. -/
def AbsentAt (c₀ c : Pool World ι GetThread) (i : ι) (key : Buf) : Prop :=
  ∃ c', GetRuns c₀ c' ∧ GetRuns c' c ∧ c'.thread i = .inl (.lookup key) ∧
    ccaskKeydirFind key.val c'.shared = none

/-- What a get has come to: it is under way, or it has handed out a put that was the current one. -/
def GetAt (c₀ c : Pool World ι GetThread) (i : ι) (key : Buf) (t : GetCall) : Prop :=
  Knows (During c₀ c i key) c.shared key t ∨
  (∃ p, During c₀ c i key p ∧ t = .done (.found p.result)) ∨
  (AbsentAt c₀ c i key ∧ t = .done .missing)

theorem During.later {i : ι} {p : Put} (h : During c₀ c i key p) (hrun : GetRuns c c') :
    During c₀ c' i key p := by
  obtain ⟨d, hbefore, hafter, hrest⟩ := h
  exact ⟨d, hbefore, hafter.trans hrun, hrest⟩

theorem AbsentAt.later {i : ι} (h : AbsentAt c₀ c i key) (hrun : GetRuns c c') :
    AbsentAt c₀ c' i key := by
  obtain ⟨d, hbefore, hafter, hrest⟩ := h
  exact ⟨d, hbefore, hafter.trans hrun, hrest⟩

/-- Sections of other threads take nothing away from a get. -/
theorem GetAt.later {i : ι} {t : GetCall} (h : GetAt c₀ c i key t) (hrun : GetRuns c c')
    (hheld : ∀ entry, Held c.shared key.val entry → Held c'.shared key.val entry) :
    GetAt c₀ c' i key t := by
  obtain hknows | ⟨p, hp, ht⟩ | ⟨habsent, ht⟩ := h
  · refine .inl ?_
    cases hknows with
    | lookup => exact .lookup
    | allocate h => exact .allocate (hheld _ h)
    | read h hheader hkey => exact .read (hheld _ h) hheader hkey
    | copy h hgood hp => exact .copy (hheld _ h) hgood (hp.later hrun)
  · exact .inr (.inl ⟨p, hp.later hrun, ht⟩)
  · exact .inr (.inr ⟨habsent.later hrun, ht⟩)

/-- A section of a get takes it on. -/
theorem GetAt.step {i : ι} {t t' : GetCall} (h : Knows (During c₀ c i key) c.shared key t)
    (hi : c.thread i = .inl t) (hstep : GetStep (During c₀ c i key) c.shared key t v t')
    (hbefore : GetRuns c₀ c) (hrun : GetRuns c c') (hshared : c'.shared = v) :
    GetAt c₀ c' i key t' := by
  have hheld : ∀ entry, Touched c.shared v → Held c.shared key.val entry →
      Held c'.shared key.val entry := by
    intro entry ht h
    rw [hshared, Held, ht.hashTable_eq]
    exact h
  cases hstep with
  | missing hnone => exact .inr (.inr ⟨⟨c, hbefore, hrun, hi, hnone⟩, rfl⟩)
  | found hfound => exact .inl (.allocate (hheld _ (.refl _) hfound))
  | allocate hheader hkey =>
      cases h with
      | allocate h => exact .inl (.read (hheld _ (.refl _) h) hheader hkey)
  | read hshows ht hm =>
      cases h with
      | read h => exact .inl (.copy (hheld _ ht h) hshows.1 ⟨c, hbefore, hrun, ⟨_, _, hi⟩, hshows⟩)
  | copy hp => exact .inr (.inl ⟨_, hp.later hrun, rfl⟩)

/-- Every thread is a get or a put that is to begin. -/
def GetsAndPuts (c : Pool World ι GetThread) : Prop :=
  ∀ i, (∃ key, c.thread i = .inl (.lookup key)) ∨ ∃ t, c.thread i = .inr t ∧ Begins c.shared t

/-- What every run keeps. -/
structure Overlap (c₀ c : Pool World ι GetThread) : Prop where
  runs : GetRuns c₀ c
  recorded : ∃ seg, Recorded (puts c) seg
  threads : ∀ i, (∃ key t, c₀.thread i = .inl (.lookup key) ∧ c.thread i = .inl t ∧
    GetAt c₀ c i key t) ∨ ∃ t t', c₀.thread i = .inr t ∧ c.thread i = .inr t'

theorem Overlap.start {seg : Nat → List Put} (h : Appends c₀.shared seg) (hs : GetsAndPuts c₀) :
    Overlap c₀ c₀ := by
  refine ⟨.refl, ⟨seg, ?_⟩, fun i => ?_⟩
  · refine Appends.recorded h fun i => ?_
    obtain ⟨key, hi⟩ | ⟨t, hi, hbegins⟩ := hs i
    · exact .inr ⟨.ok (), puts_thread_inl hi⟩
    · refine .inl ?_
      rw [puts_thread_inr hi]
      exact hbegins
  · obtain ⟨key, hi⟩ | ⟨t, hi, -⟩ := hs i
    · exact .inl ⟨key, _, hi, hi, .inl .lookup⟩
    · exact .inr ⟨t, t, hi, hi⟩

/-- A get that is under way goes on. -/
theorem GetAt.knows {i : ι} {t : GetCall} (h : GetAt c₀ c i key t) (ht : t.sect ≠ none) :
    Knows (During c₀ c i key) c.shared key t := by
  obtain hknows | ⟨p, -, rfl⟩ | ⟨-, rfl⟩ := h
  · exact hknows
  · exact absurd rfl ht
  · exact absurd rfl ht

theorem Overlap.step {i : ι} {t : GetThread} (h : Overlap c₀ c)
    (hok : Agreed c.shared (c.thread i))
    (hs : Section (fun _ => AllClean) getSect c.shared (c.thread i) w t) :
    Overlap c₀ (c.set i w t) := by
  have hrun : GetRuns c (c.set i w t) := .single (.mk i hok hs)
  obtain ⟨seg, hrec⟩ := h.recorded
  have hother : (∀ k entry, Held c.shared k entry → Held w k entry) → ∀ j, j ≠ i →
      (∃ key t', c₀.thread j = .inl (.lookup key) ∧ (c.set i w t).thread j = .inl t' ∧
        GetAt c₀ (c.set i w t) j key t') ∨
      ∃ u u', c₀.thread j = .inr u ∧ (c.set i w t).thread j = .inr u' := by
    intro hheld j hj
    rw [Pool.thread_set_of_ne _ _ _ hj]
    obtain ⟨key, t', hstart, ht', hat⟩ | hput := h.threads j
    · exact .inl ⟨key, t', hstart, ht', hat.later hrun fun entry => hheld key.val entry⟩
    · exact .inr hput
  obtain ⟨key, u, hstart, hi, hat⟩ | ⟨u, u', hstart, hi⟩ := h.threads i
  · rw [hi] at hs hok
    obtain ⟨u', rfl, hsect⟩ := Section.inl_iff.mp hs
    have hknows := hat.knows hsect.ne_none
    obtain ⟨m, v, t', hm, hcomp, hstep⟩ := hknows.next hrec hok
    obtain ⟨rfl, rfl⟩ := hsect.computes hm (fun _ h => h) hcomp
    obtain ⟨ht, hmount⟩ := hstep.touched hrec.filed.store.mounted
    refine ⟨h.runs.trans hrun, ⟨seg, ?_⟩, fun j => ?_⟩
    · rw [puts_set_inl hi]
      exact hrec.touched ht hmount
    · by_cases hj : j = i
      · subst hj
        exact .inl ⟨key, _, hstart, Pool.thread_set_self .., GetAt.step hknows hi hstep h.runs hrun rfl⟩
      · refine hother (fun k entry hheld => ?_) j hj
        rw [Held, ht.hashTable_eq]
        exact hheld
  · rw [hi] at hs hok
    obtain ⟨t', rfl, hsect⟩ := Section.inr_iff.mp hs
    have hput := puts_thread_inr hi
    have hcases := hrec.step_cases (i := i) (w := w) (t := t')
      (fun r hr => by rw [hput] at hr; rw [hr] at hok; exact hok) (by rw [hput]; exact hsect)
    have hself : ∀ j, j = i → (c.set i w (.inr t')).thread j = .inr t' := by
      rintro j rfl
      exact Pool.thread_set_self ..
    rw [← puts_set_inr] at hcases
    obtain ⟨-, -, -, seg', -, -, htable, -, hrec'⟩ | ⟨r, id, pos, -, -, rfl, hrec'⟩ := hcases
    · refine ⟨h.runs.trans hrun, ⟨seg', hrec'⟩, fun j => ?_⟩
      by_cases hj : j = i
      · exact .inr ⟨u, t', by rw [hj]; exact hstart, hself j hj⟩
      · refine hother (fun k entry hheld => ?_) j hj
        rw [Held, htable]
        exact hheld
    · refine ⟨h.runs.trans hrun, ⟨seg, hrec'⟩, fun j => ?_⟩
      by_cases hj : j = i
      · exact .inr ⟨u, t', by rw [hj]; exact hstart, hself j hj⟩
      · exact hother (fun k entry hheld => hheld.upserted _) j hj

/-- What gets that overlap puts come to: each answers a put that was the current one of its key while
the get was under way, and goes on as long as the entry agrees with what it has in hand. -/
structure AnswersOnce (c₀ c : Pool World ι GetThread) : Prop where
  answers : ∀ i key res, c₀.thread i = .inl (.lookup key) → c.thread i = .inl (.done res) →
    (∃ p, During c₀ c i key p ∧ res = .found p.result) ∨ (AbsentAt c₀ c i key ∧ res = .missing)
  next : ∀ i key t, c₀.thread i = .inl (.lookup key) → c.thread i = .inl t →
    (∀ res, t ≠ .done res) → Agreed c.shared (.inl t) →
    ∃ w t', Section (fun _ => AllClean) getSect c.shared (.inl t) w t'

variable {hist : List Put}

/-- In every run in which the entry agrees with the buffers of a get when it is read, and with the
record when it is copied, the get answers one put that was current meanwhile. -/
theorem get_answers_once (h : Life c₀.shared hist) (hs : GetsAndPuts c₀) (hrun : GetRuns c₀ c) :
    AnswersOnce c₀ c := by
  obtain ⟨seg, hreached, -⟩ := h.reached
  have hinv : Overlap c₀ c := hrun.inv (P := Overlap c₀)
    (fun c i w t hc hok hs => hc.step hok hs) (.start hreached.toAppends hs)
  refine ⟨fun i key res hstart hi => ?_, fun i key t hstart hi hdone hok => ?_⟩
  · obtain ⟨key', t, hstart', hi', hat⟩ | ⟨u, u', hstart', -⟩ := hinv.threads i
    · cases hstart.symm.trans hstart'
      cases hi.symm.trans hi'
      obtain hknows | ⟨p, hp, ht⟩ | ⟨habsent, ht⟩ := hat
      · cases hknows
      · exact .inl ⟨p, hp, by cases ht; rfl⟩
      · exact .inr ⟨habsent, by cases ht; rfl⟩
    · cases hstart.symm.trans hstart'
  · obtain ⟨key', t', hstart', hi', hat⟩ | ⟨u, u', hstart', -⟩ := hinv.threads i
    · cases hstart.symm.trans hstart'
      cases hi.symm.trans hi'
      obtain ⟨seg', hrec⟩ := hinv.recorded
      have hsect : t.sect ≠ none := by
        cases t with
        | done res => exact absurd rfl (hdone res)
        | _ => exact Option.some_ne_none _
      obtain ⟨m, v, t', hm, hcomp, -⟩ := (hat.knows hsect).next hrec hok
      exact ⟨v, .inl t', Section.inl_iff.mpr ⟨t', rfl, .of_computes hm (fun _ h => h) hcomp⟩⟩
    · cases hstart.symm.trans hstart'

/-- A section of a thread that computes its end. -/
theorem get_next {p : Pool World ι GetThread → ι → Prop}
    (h : Pool.Runs (Section (fun _ => AllClean) getSect) p c₀ c) {i : ι} {t t' : GetCall}
    {m : Sys GetCall} (hi : c.thread i = .inl t) (hok : p c i) (hm : t.sect = some m)
    (hcomp : Computes m c.shared t' w) :
    Pool.Runs (Section (fun _ => AllClean) getSect) p c₀ (c.set i w (.inl t')) := by
  refine h.tail (.mk i hok ?_)
  rw [hi]
  exact Section.inl_iff.mpr ⟨t', rfl, .of_computes hm (fun _ h => h) hcomp⟩

theorem put_next {ok : Pool World ι GetThread → ι → Prop}
    (h : Pool.Runs (Section (fun _ => AllClean) getSect) ok c₀ c) {i : ι} {t t' : PutCall}
    {m : Sys PutCall} (hi : c.thread i = .inr t) (hok : ok c i) (hm : t.sect = some m)
    (hcomp : Computes m c.shared t' w) :
    Pool.Runs (Section (fun _ => AllClean) getSect) ok c₀ (c.set i w (.inr t')) := by
  refine h.tail (.mk i hok ?_)
  rw [hi]
  exact Section.inr_iff.mpr ⟨t', rfl, .of_computes hm (fun _ h => h) hcomp⟩

/-- A get whose buffers fit the record that its entry leads to, without puts from then on. -/
theorem get_reads {key : Buf} {i : ι} {entry : Nat} {buffers : DatafileRecord} {p : Put}
    (hm : Mounted c.shared) (hi : c.thread i = .inl (.read entry buffers))
    (hheld : Held c.shared key.val entry) (hshows : Shows c.shared key.val p)
    (hheader : buffers.header.length = datafileRecordHeaderSize)
    (hkey : buffers.key.length = key.val.length) (hsize : buffers.value.length = p.value.bytes.length) :
    ∃ c', GetRuns c c' ∧ c'.thread i = .inl (.done (.found p.result)) ∧
      ∀ j, j ≠ i → c'.thread j = c.thread j := by
  obtain ⟨hgood, id, pre, post, hfind, -⟩ := id hshows
  obtain ⟨kd, hkd, hfind'⟩ := hheld.find
  obtain rfl := Option.some.inj (hfind.symm.trans hfind')
  have hlen := hshows.fits hheader hkey (Nat.le_of_eq hsize)
  obtain ⟨extra, v, hread, ht, -⟩ := getRead_computes hm hheld hshows hheader hkey
    (Nat.le_of_eq hsize.symm) hlen
  have hheld' : Held v key.val entry := by
    rw [Held, ht.hashTable_eq]
    exact hheld
  have hkd' : ∀ kd, v.hashTable[entry]? = some kd → kd.valueSize = p.value.size := by
    intro kd h
    rw [ht.hashTable_eq] at h
    cases hkd.symm.trans h
    rfl
  have hagreed : Agreed c.shared (.inl (.read entry buffers)) := by
    intro kd h
    cases hkd.symm.trans h
    refine ⟨?_, fun content hcontent => hlen id _ content hfind hcontent⟩
    rw [hsize]
    exact Nat.le_of_eq (Ptr.toNat_size p.value)
  have hreading : GetRuns c (c.set i v (.inl (.copy entry (readOf p extra)))) :=
    get_next .refl hi (by rw [hi]; exact hagreed) rfl (hread.bind (Computes.pure _))
  have hagreed' : Agreed v (.inl (.copy entry (readOf p extra))) := by
    intro kd h
    rw [header_readOf]
    exact hkd' kd h
  have hcopying := get_next hreading (Pool.thread_set_self ..)
    (by rw [Pool.thread_set_self]; exact hagreed') rfl
    ((getCopy_computes hheld' hgood extra hkd').bind (Computes.pure _))
  refine ⟨_, hcopying, Pool.thread_set_self .., fun j hj => ?_⟩
  rw [Pool.thread_set_of_ne _ _ _ hj, Pool.thread_set_of_ne _ _ _ hj]

/-- The first sections of a get of a key that has an entry: it has its buffers. -/
theorem get_allocates (key : Buf) {i : ι} (hi : c.thread i = .inl (.lookup key)) {kd : KeydirRecord}
    (hfind : ccaskKeydirFind key.val c.shared = some kd) : ∃ entry buffers,
      GetRuns c (c.set i c.shared (.inl (.read entry buffers))) ∧ Held c.shared key.val entry ∧
      buffers.header.length = datafileRecordHeaderSize ∧ buffers.key.length = key.val.length ∧
      buffers.value.length = kd.valueSize.toNat := by
  obtain ⟨entry, hheld, hkd⟩ := Held.of_find hfind
  obtain ⟨m, hm, hfound⟩ := lookup_computes hheld
  obtain ⟨buffers, halloc, hheader, hkey, hvalue⟩ := getAllocate_computes hheld
  have hlookup : GetRuns c (c.set i c.shared (.inl (.allocate entry))) :=
    get_next .refl hi (by rw [hi]; trivial) hm hfound
  have hallocate : GetRuns c ((c.set i c.shared _).set i c.shared (.inl (.read entry buffers))) :=
    get_next hlookup (Pool.thread_set_self ..) (by rw [Pool.thread_set_self]; trivial) rfl
      (halloc.bind (Computes.pure _))
  rw [Pool.set_set] at hallocate
  exact ⟨entry, buffers, hallocate, hheld, hheader, hkey, hvalue _ hkd⟩

end Race

section Sample

/-- A put of two bytes under the same key. -/
def widePut : Put := ⟨0, some sampleKey, some ⟨[99, 100], by decide⟩⟩

/-- A get and a put of the same key. -/
def getAndPut (p : Put) (w : World) : Pool World Bool GetThread :=
  ⟨w, fun i => if i then .inl (.lookup sampleKey) else .inr (.append p.record)⟩

theorem getsAndPuts_getAndPut {p : Put} (hp : Good p) {w : World}
    (hsize : p.record.bytes.length ≤ w.maxActiveFileSize.toNat) : GetsAndPuts (getAndPut p w) := by
  intro i
  cases i with
  | true => exact .inl ⟨_, rfl⟩
  | false => exact .inr ⟨_, rfl, p, hp, hsize, rfl⟩

omit [Zlib] in
/-- A put of a value of the same size falls between the allocation of the buffers and the read. -/
theorem get_answers_once_one : letI := zlib
    ∃ c₀ c₁ c : Pool World Bool GetThread, Life c₀.shared [bytePut 0 97 98] ∧ GetRuns c₀ c₁ ∧
      (∃ entry buffers, c₁.thread true = .inl (.read entry buffers)) ∧
      (∃ record, c₁.thread false = .inr (.append record)) ∧ GetRuns c₁ c ∧
      (∃ record, c.thread true = .inl (.done (.found record))) ∧
      c.thread false = .inr (.done (.ok ())) ∧ AnswersOnce c₀ c := by
  let _ := zlib
  obtain ⟨w, hrun, -, hmax, hids⟩ := exists_run_one
  obtain ⟨seg, hreached, hhist⟩ := hrun.reached
  have hgood := good_bytePut 0 97 99
  have hsize : (bytePut 0 97 99).record.bytes.length ≤ w.maxActiveFileSize.toNat := by
    rw [hmax, Put.length_record]
    exact show 18 ≤ 100 by decide
  have hstart := getsAndPuts_getAndPut hgood hsize
  obtain ⟨seg', hrec⟩ := (Overlap.start hreached.toAppends hstart).recorded
  obtain ⟨id, pos, hfind⟩ := hreached.serves.find_latest (k := [97]) (p := bytePut 0 97 98)
    (by rw [hhist]; rfl)
  obtain ⟨entry, buffers, hallocate, hheld, hheader, hkey, hvalue⟩ :=
    get_allocates (c := getAndPut (bytePut 0 97 99) w) sampleKey (i := true) rfl hfind
  obtain ⟨id', pos', v, seg'', happend, htable, -, hrec'⟩ := hrec.append (i := false) hgood hsize
    (room_of_ids hids (Nat.zero_le 1))
  have hput : GetRuns ((getAndPut (bytePut 0 97 99) w).set true w (.inl (.read entry buffers)))
      (Pool.set _ false v (.inr (.upsert (bytePut 0 97 99).record id' pos'))) :=
    put_next .refl rfl (room_of_ids hids (Nat.zero_le 1)) rfl (happend.bind (Computes.pure _))
  have hrec'' := hrec'.upsert (i := false) (Pool.thread_set_self ..) (.ok ())
  obtain ⟨c₂, hupsert, hshared, hthread, hstored⟩ : ∃ c₂, GetRuns ((getAndPut (bytePut 0 97 99) w).set true w
      (.inl (.read entry buffers))) c₂ ∧
      c₂.shared = upserted v (datafileEntry id' (bytePut 0 97 99).record pos') ∧
      c₂.thread true = .inl (.read entry buffers) ∧ c₂.thread false = .inr (.done (.ok ())) :=
    ⟨_, put_next hput (Pool.thread_set_self ..) trivial rfl
      ((writeUpsert_computes hrec'.filed.store.unlocked id' pos').bind (Computes.pure _)), rfl, rfl, rfl⟩
  -- the read is of the new record, into a buffer of its size
  have hfind' : ccaskKeydirFind sampleKey.val (upserted v (datafileEntry id' (bytePut 0 97 99).record pos')) =
      some ((bytePut 0 97 99).entry id' pos') := by
    rw [find_upserted, datafileEntry_record]
    exact if_pos rfl
  obtain ⟨p, id'', pos'', heq, hshows⟩ := hrec''.shows hfind'
  have hone : p.value.size = 1 := congrArg KeydirRecord.valueSize heq.symm
  have hlen : buffers.value.length = p.value.bytes.length := by
    rw [hvalue, ← Ptr.toNat_size, hone]
    rfl
  have hheld' : Held (upserted v (datafileEntry id' (bytePut 0 97 99).record pos')) sampleKey.val entry := by
    refine Held.upserted ?_ _
    rw [Held, htable]
    exact hheld
  obtain ⟨c, hreads, hdone, hother⟩ := get_reads (by rw [hshared]; exact hrec''.filed.store.mounted) hthread
    (by rw [hshared]; exact hheld') (by rw [hshared]; exact hshows) hheader hkey hlen
  have hruns := hupsert.trans hreads
  refine ⟨_, _, c, .run hrun, hallocate, ⟨entry, buffers, rfl⟩, ⟨_, rfl⟩, hruns, ⟨_, hdone⟩, ?_,
    get_answers_once (.run hrun) hstart (hallocate.trans hruns)⟩
  rw [hother false (by decide), hstored]

omit [Zlib] in
/-- The put falls between the allocation of the buffers and the read. -/
theorem not_get_answers_once : letI := zlib
    ∃ c₀ c : Pool World Bool GetThread, Life c₀.shared [bytePut 0 97 98] ∧ GetsAndPuts c₀ ∧
      Pool.Runs (Section (fun _ => AllClean) getSect) (fun _ _ => True) c₀ c ∧
      c.thread false = .inr (.done (.ok ())) ∧ c.thread true = .inl (.done .outOfBounds) := by
  let _ := zlib
  obtain ⟨w, hrun, -, hmax, hids⟩ := exists_run_one
  obtain ⟨seg, hreached, hhist⟩ := hrun.reached
  have hgood : Good widePut := ⟨by decide, by decide, by decide⟩
  have hsize : widePut.record.bytes.length ≤ w.maxActiveFileSize.toNat := by
    rw [hmax, Put.length_record]
    decide
  have hstart := getsAndPuts_getAndPut hgood hsize
  obtain ⟨seg', hrec⟩ := (Overlap.start hreached.toAppends hstart).recorded
  obtain ⟨id, pos, hfind⟩ := hreached.serves.find_latest (k := [97]) (p := bytePut 0 97 98)
    (by rw [hhist]; rfl)
  -- the get finds its entry and gets a buffer for one byte
  obtain ⟨entry, hheld, hkd⟩ := Held.of_find (k := sampleKey.val) hfind
  obtain ⟨m, hm, hfound⟩ := lookup_computes hheld
  obtain ⟨buffers, halloc, hheader, hkey, hvalue⟩ := getAllocate_computes hheld
  have hone : buffers.value.length = 1 := hvalue _ hkd
  have hlookup := get_next (p := fun _ _ => True) (.refl (a := getAndPut widePut w)) (i := true) rfl trivial hm
    hfound
  have hallocate := get_next hlookup (Pool.thread_set_self ..) trivial rfl
    (halloc.bind (Computes.pure _))
  -- the put of two bytes
  obtain ⟨id', pos', v, seg'', happend, htable, -, hrec'⟩ := hrec.append (i := false) hgood hsize
    (room_of_ids hids (Nat.zero_le 1))
  have hput := put_next hallocate (i := false) rfl trivial rfl (happend.bind (Computes.pure _))
  have hrec'' := hrec'.upsert (i := false) (Pool.thread_set_self ..) (.ok ())
  have hupsert := put_next hput (i := false) (Pool.thread_set_self ..) trivial rfl
    ((writeUpsert_computes hrec'.filed.store.unlocked id' pos').bind (Computes.pure _))
  -- the read is of the new record, into the old buffer
  have hfind' : ccaskKeydirFind sampleKey.val (upserted v (datafileEntry id' widePut.record pos')) =
      some (widePut.entry id' pos') := by
    rw [find_upserted, datafileEntry_record]
    exact if_pos rfl
  obtain ⟨p, id'', pos'', heq, hshows⟩ := hrec''.shows hfind'
  have htwo : p.value.size = widePut.value.size := congrArg KeydirRecord.valueSize heq.symm
  have hlen : p.value.bytes.length = 2 := by
    rw [← Ptr.toNat_size, htwo]
    rfl
  have hheld' : Held (upserted v (datafileEntry id' widePut.record pos')) sampleKey.val entry := by
    refine Held.upserted ?_ _
    rw [Held, htable]
    exact hheld
  obtain ⟨r, u, hread, ht, hr, hshort⟩ := getRead_short hrec''.filed.store.mounted hheld' hshows hheader
    hkey (List.ne_nil_of_length_pos (by omega)) (by omega)
  have hreading := get_next hupsert (i := true) rfl trivial rfl (hread.bind (Computes.pure _))
  have hheld'' : Held u sampleKey.val entry := by
    rw [Held, ht.hashTable_eq]
    exact hheld'
  have hcopy := get_next hreading (i := true) (Pool.thread_set_self ..) trivial rfl
    ((getCopy_short hheld'' hr (by rw [Ptr.toNat_size]; exact hshort)).bind (Computes.pure _))
  exact ⟨_, _, .run hrun, hstart, hcopy, rfl, Pool.thread_set_self ..⟩

end Sample

end Ccask.Audit
