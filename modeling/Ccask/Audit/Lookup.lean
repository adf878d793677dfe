import Ccask.Audit.Store

/-!
# What a caller gets

The store as a map: `lookup` is what the puts made so far say about a key, and
`ccask_get` answers it in any state whose key directory leads to their records.
-/

namespace Ccask.Audit

open Ccask.Effect Ccask.Model

/-- A put the store can hold: a key, a value, and a hint record that fits. -/
structure Good (p : Put) : Prop where
  key_ne : p.key.bytes ≠ []
  value_ne : p.value.bytes ≠ []
  bound : 20 + p.key.bytes.length + p.value.bytes.length < 2 ^ 32

theorem good_bytePut (t : UInt32) (k v : UInt8) : Good (bytePut t k v) :=
  ⟨List.cons_ne_nil k [], List.cons_ne_nil v [], by show 20 + 1 + 1 < 2 ^ 32; decide⟩

/-- The record `ccask_get` hands out for a put. -/
def Put.result (p : Put) : CcaskRecord := ⟨p.timestamp, p.key.size, p.value.size, p.value.bytes⟩

def putKey (p : Put) : Bytes := p.key.bytes

/-- What the puts of a history, oldest first, say about a key. -/
def lookup (hist : List Put) (k : Bytes) : GetResult :=
  match Index.latest putKey k hist with
  | some p => .found p.result
  | none => .missing

theorem Ptr.isSome_of_ne {p : Ptr} (h : p.bytes ≠ []) : p.isSome := by
  cases p with
  | none => exact absurd rfl h
  | some b => rfl

theorem Ptr.eq_some_of_isSome {p : Ptr} (h : p.isSome) : p.map Subtype.val = some p.bytes := by
  cases p with
  | none => cases h
  | some b => rfl

theorem Ptr.eq_some {p : Ptr} (h : p.bytes ≠ []) : p.map Subtype.val = some p.bytes :=
  Ptr.eq_some_of_isSome (Ptr.isSome_of_ne h)

section Get

variable [Zlib] {w : World}

/-- A read at the position of the record of a put fills the buffer for the value with the bytes from
there on. -/
theorem readPut_take (h : Mounted w) {p : Put} {id : Nat} {pre post : Bytes} (buffers : DatafileRecord)
    (hid : id ∈ ids w) (hread : w.fs.read (fileName id .data) = some (pre ++ p.record.bytes ++ post))
    (hvalue : buffers.value ≠ []) (hheader : buffers.header.length = datafileRecordHeaderSize)
    (hkey : buffers.key.length = p.key.bytes.length) (hlen : pre.length +
      ccaskGetDatafileRecordTotalSize buffers ≤ (pre ++ p.record.bytes ++ post).length) :
    ∃ w', Computes (ccaskReadDatafileRecord id buffers pre.length) w
        (.ok ⟨p.record.header, p.key.bytes, (p.value.bytes ++ post).take buffers.value.length⟩) w' ∧
      buffers.value.length ≤ (p.value.bytes ++ post).length ∧ Touched w w' ∧ Mounted w' := by
  obtain ⟨ino, hdir, hdata⟩ := Fs.exists_of_read hread
  rw [← hdata] at hlen
  obtain ⟨w', header, key, value, hcall, ht, hm, hchunks⟩ :=
    ccaskReadDatafileRecord_computes h hid hdir hvalue hlen
  have hheader' : p.record.header.length = buffers.header.length := by
    rw [hheader]
    exact p.sized.header
  have hflat : ((w.fs.data ino).drop pre.length).take (ccaskGetDatafileRecordTotalSize buffers) =
      p.record.header ++ (p.key.bytes ++ (p.value.bytes ++ post).take buffers.value.length) := by
    rw [hdata, List.append_assoc, List.drop_left, ccaskGetDatafileRecordTotalSize, ← hheader', hkey,
      Nat.add_assoc]
    simp only [DatafileRecord.bytes, Put.record_key, Put.record_value, List.append_assoc,
      List.take_length_add_append]
  rw [hdata, List.length_append, List.length_append, p.length_record,
    ccaskGetDatafileRecordTotalSize, hkey, hheader] at hlen
  have hfits : buffers.value.length ≤ (p.value.bytes ++ post).length := by
    rw [List.length_append]
    have : datafileRecordHeaderSize = 16 := rfl
    omega
  have hparts : [header, key, value] =
      [p.record.header, p.key.bytes, (p.value.bytes ++ post).take buffers.value.length] := by
    rw [← hchunks, hflat]
    have hsplit := chunks_flatten
      [p.record.header, p.key.bytes, (p.value.bytes ++ post).take buffers.value.length]
    rw [List.map_cons, List.map_cons, List.map_singleton, List.length_take_of_le hfits, hheader',
      ← hkey, List.flatten_cons, List.flatten_cons, List.flatten_singleton] at hsplit
    exact hsplit
  simp only [List.cons.injEq, and_true] at hparts
  obtain ⟨rfl, rfl, rfl⟩ := hparts
  exact ⟨w', hcall, hfits, ht, hm⟩

/-- It gives the whole record, and what comes behind it when the buffer for the value is longer. -/
theorem readPut_into (h : Mounted w) {p : Put} {id : Nat} {pre post : Bytes} (buffers : DatafileRecord)
    (hid : id ∈ ids w) (hread : w.fs.read (fileName id .data) = some (pre ++ p.record.bytes ++ post))
    (hvalue : p.value.bytes ≠ []) (hheader : buffers.header.length = datafileRecordHeaderSize)
    (hkey : buffers.key.length = p.key.bytes.length)
    (hsize : p.value.bytes.length ≤ buffers.value.length) (hlen : pre.length +
      ccaskGetDatafileRecordTotalSize buffers ≤ (pre ++ p.record.bytes ++ post).length) :
    ∃ w' extra, Computes (ccaskReadDatafileRecord id buffers pre.length) w
        (.ok ⟨p.record.header, p.key.bytes, p.value.bytes ++ extra⟩) w' ∧
      (p.value.bytes ++ extra).length = buffers.value.length ∧ Touched w w' ∧ Mounted w' := by
  have hbuf : buffers.value ≠ [] := by
    rw [← List.length_pos_iff] at hvalue ⊢
    omega
  obtain ⟨w', hcall, hfits, ht, hm⟩ := readPut_take h buffers hid hread hbuf hheader hkey hlen
  have htake : (p.value.bytes ++ post).take buffers.value.length =
      p.value.bytes ++ post.take (buffers.value.length - p.value.bytes.length) := by
    rw [List.take_append, List.take_of_length_le hsize]
  rw [htake] at hcall
  refine ⟨w', _, hcall, ?_, ht, hm⟩
  rw [← htake, List.length_take_of_le hfits]

/-- A read at the position of the record of a put gives the record. -/
theorem readPut_computes (h : Mounted w) {p : Put} {id : Nat} {pre post : Bytes} (hid : id ∈ ids w)
    (hread : w.fs.read (fileName id .data) = some (pre ++ p.record.bytes ++ post))
    (hvalue : p.value.bytes ≠ []) :
    ∃ w', Computes (ccaskReadDatafileRecord id ⟨List.replicate datafileRecordHeaderSize 0,
        freshBuf p.key.size, freshBuf p.value.size⟩ pre.length) w (.ok p.record) w' ∧
      Touched w w' ∧ Mounted w' := by
  have hlenk : (freshBuf p.key.size).length = p.key.bytes.length := by
    rw [length_freshBuf, Ptr.toNat_size]
  have hlenv : (freshBuf p.value.size).length = p.value.bytes.length := by
    rw [length_freshBuf, Ptr.toNat_size]
  obtain ⟨w', extra, hcall, hextra, ht, hm⟩ := readPut_into h
    ⟨List.replicate datafileRecordHeaderSize 0, freshBuf p.key.size, freshBuf p.value.size⟩ hid hread
    hvalue List.length_replicate hlenk (Nat.le_of_eq hlenv.symm) (by
      rw [ccaskGetDatafileRecordTotalSize, hlenk, hlenv, List.length_replicate, List.length_append,
        List.length_append, p.length_record]
      have : datafileRecordHeaderSize = 16 := rfl
      omega)
  rw [hlenv, List.length_append] at hextra
  obtain rfl := List.eq_nil_of_length_eq_zero (Nat.left_eq_add.mp hextra.symm)
  rw [List.append_nil] at hcall
  exact ⟨w', hcall, ht, hm⟩

theorem ccaskGet_missing {k : Buf} (h : ccaskKeydirFind k.val w = none) :
    Computes (ccaskGet k) w .missing w := by
  refine Computes.state_bind ?_
  rw [h]
  exact Computes.pure _

/-- A record that is read and whose checksum is right is handed out. -/
theorem ccaskGet_of_read {w' : World} {k : Buf} {kd : KeydirRecord} {r : DatafileRecord}
    (hfind : ccaskKeydirFind k.val w = some kd)
    (hcall : Computes (ccaskReadDatafileRecord kd.fileId ⟨List.replicate datafileRecordHeaderSize 0,
      freshBuf (UInt32.ofNat kd.key.length), freshBuf kd.valueSize⟩ kd.recordPos) w (.ok r) w')
    {header : DatafileRecordHeader} (hheader : ccaskGetDatafileRecordHeader r = header)
    (hcrc : calculateCrc32 header.timestamp header.keySize header.valueSize (some r.key)
      (some r.value) = some header.crc) :
    Computes (ccaskGet k) w (.found ⟨header.timestamp, header.keySize, kd.valueSize,
      r.value.take kd.valueSize.toNat⟩) w' := by
  refine Computes.state_bind ?_
  rw [hfind]
  refine (ccaskAllocateDatafileRecord_computes _ _).bind ?_
  refine (attempt_computes hcall (by simp)).bind ?_
  simp only [hheader, hcrc]
  rw [if_neg (fun h => h rfl)]
  exact malloc_computes.bind (Computes.pure _)

/-- The record of a put, read from its position and checked, is the put. -/
theorem ccaskGet_found (h : Mounted w) {k : Buf} {p : Put} {id : Nat} {pre post : Bytes}
    (hfind : ccaskKeydirFind k.val w = some (p.entry id pre.length)) (hid : id ∈ ids w)
    (hread : w.fs.read (fileName id .data) = some (pre ++ p.record.bytes ++ post))
    (hkey : p.key.isSome) (hvalue : p.value.bytes ≠ []) :
    ∃ w', Computes (ccaskGet k) w (.found p.result) w' ∧ Touched w w' ∧ Mounted w' := by
  obtain ⟨w', hcall, ht, hm⟩ := readPut_computes h hid hread hvalue
  have hcrc := calculateCrc32_eq p.timestamp p.key p.value
  rw [Ptr.eq_some_of_isSome hkey, Ptr.eq_some hvalue] at hcrc
  have hget := ccaskGet_of_read hfind hcall (header_mkRecord ..) hcrc
  have htake : p.value.bytes.take p.value.size.toNat = p.value.bytes := by
    rw [Ptr.toNat_size, List.take_length]
  rw [Put.record_value, Put.entry, htake] at hget
  exact ⟨w', hget, ht, hm⟩

end Get

theorem ccaskListKeys_computes (w : World) :
    Computes ccaskListKeys w (.ok (w.hashTable.map KeydirRecord.key)) w := by
  refine malloc_computes.bind ?_
  refine Computes.bind (Computes.modify_bind (Computes.state_bind (Computes.pure _))) ?_
  exact Computes.modify_bind (Computes.pure _)

section Log

/-- The puts of the files `l`, oldest first, with the place of each record. -/
def log [Zlib] (l : List Nat) (seg : Nat → List Put) : List (Nat × Put × Nat) :=
  l.reverse.flatMap fun id => (placed (seg id)).map (Prod.mk id)

def logEntry (x : Nat × Put × Nat) : KeydirRecord := x.2.1.entry x.1 x.2.2

/-- The puts whose records the files hold, oldest first. -/
def history (l : List Nat) (seg : Nat → List Put) : List Put := l.reverse.flatMap seg

variable [Zlib] {l : List Nat} {seg : Nat → List Put}

/-- What the iterator finds in the files. -/
def recordsOf (seg : Nat → List Put) (id : Nat) : List (DatafileRecord × Nat) := located (seg id)

theorem map_log_entry (l : List Nat) (seg : Nat → List Put) :
    (log l seg).map logEntry = allEntries l (recordsOf seg) := by
  rw [log, allEntries, List.map_flatMap]
  congr 1
  funext id
  rw [recordsOf, located, entries_record, List.map_map]
  rfl

theorem map_log_put (l : List Nat) (seg : Nat → List Put) :
    (log l seg).map (fun x => x.2.1) = history l seg := by
  rw [log, history, List.map_flatMap]
  congr 1
  funext id
  rw [List.map_map]
  exact map_fst_locate 0 (seg id)

/-- The place of a record in the log is its place in the file. -/
theorem mem_log {x : Nat × Put × Nat} (h : x ∈ log l seg) : x.1 ∈ l ∧ x.2.1 ∈ seg x.1 ∧
    ∃ pre post, written (seg x.1) = pre ++ x.2.1.record.bytes ++ post ∧ x.2.2 = pre.length := by
  obtain ⟨id, hid, hx⟩ := List.mem_flatMap.mp h
  obtain ⟨q, hq, rfl⟩ := List.mem_map.mp hx
  obtain ⟨pre, post, hsplit, hpos⟩ := mem_locate hq
  refine ⟨List.mem_reverse.mp hid, ?_, written pre, written post, ?_, ?_⟩
  · rw [hsplit]
    simp
  · rw [hsplit, written, written, written, layout_append, layout_cons, List.append_assoc]
  · rw [hpos, Nat.zero_add]
    rfl

end Log

section Serves

/-- A mounted store whose files start with the records of `seg`, and whose key directory comes
from them. -/
structure Serves [Zlib] (w : World) (seg : Nat → List Put) : Prop where
  mounted : Mounted w
  contents : ∀ id ∈ ids w, ∃ tail, w.fs.read (fileName id .data) = some (written (seg id) ++ tail)
  table : w.hashTable = Index.replay KeydirRecord.key [] (allEntries (ids w) (recordsOf seg))
  good : ∀ id ∈ ids w, ∀ p ∈ seg id, Good p

variable [Zlib] {w : World} {seg : Nat → List Put}

/-- The key directory leads to the last record of a key, if there is one. -/
theorem Serves.find (h : Serves w seg) (k : Bytes) : ccaskKeydirFind k w =
    (Index.latest (fun x : Nat × Put × Nat => putKey x.2.1) k (log (ids w) seg)).map logEntry := by
  rw [ccaskKeydirFind, h.table, Index.get_replay_nil, ← map_log_entry]
  exact Index.latest_map (fun _ => rfl) k _

theorem latest_log (l : List Nat) (k : Bytes) :
    (Index.latest (fun x : Nat × Put × Nat => putKey x.2.1) k (log l seg)).map (fun x => x.2.1) =
      Index.latest putKey k (history l seg) := by
  rw [← map_log_put]
  exact (Index.latest_map (fun _ => rfl) k _).symm

/-- The last put of a key has an entry. -/
theorem Serves.find_latest (h : Serves w seg) {k : Bytes} {p : Put}
    (hp : Index.latest putKey k (history (ids w) seg) = some p) :
    ∃ id pos, ccaskKeydirFind k w = some (p.entry id pos) := by
  rw [← latest_log, Option.map_eq_some_iff] at hp
  obtain ⟨x, hx, rfl⟩ := hp
  exact ⟨x.1, x.2.2, by rw [h.find, hx]; rfl⟩

theorem lookup_history (l : List Nat) (k : Bytes) : lookup (history l seg) k =
    match Index.latest (fun x : Nat × Put × Nat => putKey x.2.1) k (log l seg) with
    | some x => .found x.2.1.result
    | none => .missing := by
  rw [lookup, ← latest_log]
  cases Index.latest (fun x : Nat × Put × Nat => putKey x.2.1) k (log l seg) <;> rfl

/-- Where the key directory leads to the last record of a key, `ccask_get` answers what the puts
say. -/
theorem ccaskGet_log (hm : Mounted w)
    (hcontents : ∀ id ∈ ids w, ∃ tail, w.fs.read (fileName id .data) = some (written (seg id) ++ tail))
    (hgood : ∀ id ∈ ids w, ∀ p ∈ seg id, Good p) {k : Buf} (hfind : ccaskKeydirFind k.val w =
      (Index.latest (fun x : Nat × Put × Nat => putKey x.2.1) k.val (log (ids w) seg)).map logEntry) :
    ∃ w', Computes (ccaskGet k) w (lookup (history (ids w) seg) k.val) w' ∧ Touched w w' ∧
      Mounted w' := by
  rw [lookup_history]
  cases hx : Index.latest (fun x : Nat × Put × Nat => putKey x.2.1) k.val (log (ids w) seg) with
  | none =>
      rw [hx] at hfind
      exact ⟨w, ccaskGet_missing hfind, Touched.refl w, hm⟩
  | some x =>
      rw [hx] at hfind
      have hmem : x ∈ log (ids w) seg := List.mem_reverse.mp (Index.mem_of_get hx)
      obtain ⟨hid, hput, pre, post, hwritten, hpos⟩ := mem_log hmem
      obtain ⟨tail, htail⟩ := hcontents x.1 hid
      have hgood := hgood x.1 hid x.2.1 hput
      rw [Option.map_some, logEntry, hpos] at hfind
      have hread : w.fs.read (fileName x.1 .data) =
          some (pre ++ x.2.1.record.bytes ++ (post ++ tail)) := by
        rw [htail, hwritten, List.append_assoc]
      exact ccaskGet_found hm hfind hid hread (Ptr.isSome_of_ne hgood.key_ne) hgood.value_ne

/-- `ccask_get` answers what the puts say. -/
theorem Serves.get (h : Serves w seg) (k : Buf) :
    ∃ w', Computes (ccaskGet k) w (lookup (history (ids w) seg) k.val) w' ∧ Touched w w' ∧
      Mounted w' :=
  ccaskGet_log h.mounted h.contents h.good (h.find k.val)

/-- It answers nothing else. -/
theorem Serves.get_iff (h : Serves w seg) (k : Buf) (res : GetResult) :
    (∃ w', Computes (ccaskGet k) w res w') ↔ res = lookup (history (ids w) seg) k.val := by
  obtain ⟨w', hget, -⟩ := h.get k
  constructor
  · rintro ⟨v, hres⟩
    exact (hget.unique hres).1
  · rintro rfl
    exact ⟨w', hget⟩

/-- The keys of the key directory are the keys put, each once. -/
theorem Serves.keys (h : Serves w seg) : (w.hashTable.map KeydirRecord.key).Nodup ∧
    ∀ k, k ∈ w.hashTable.map KeydirRecord.key ↔ k ∈ (history (ids w) seg).map putKey := by
  rw [h.table]
  refine ⟨Index.nodup_replay List.nodup_nil, fun k => ?_⟩
  rw [Index.mem_keys_replay, ← map_log_entry, ← map_log_put, List.map_map, List.map_map]
  rfl

end Serves

end Ccask.Audit
