import Ccask.Audit.Calls
import Ccask.Effect.Scan

/-!
# What the iterators find in a file

`recordAt` and `hintAt` say what one call of an iterator finds at an offset of a
file; recovery and the hint generator are then folds over a scan.
-/

namespace Ccask.Audit

open Ccask.Effect Ccask.Model

/-- A record of a datafile at the start of some bytes, and the step to the next one. A value of
no bytes is taken for the end of the file. -/
def parseRecord (d : Bytes) : Option (DatafileRecord × Nat) :=
  let header := ccaskGetDatafileRecordHeader ⟨d.take 16, [], []⟩
  if 16 ≤ d.length ∧ 0 < header.valueSize.toNat ∧
      16 + header.keySize.toNat + header.valueSize.toNat ≤ d.length then
    some (⟨d.take 16, (d.drop 16).take header.keySize.toNat,
      (d.drop (16 + header.keySize.toNat)).take header.valueSize.toNat⟩,
      (16 + header.keySize + header.valueSize).toNat)
  else none

def recordAt (c : Bytes) (off : Nat) : Option (DatafileRecord × Nat) :=
  (parseRecord (c.drop off)).map fun p => (p.1, off + p.2)

def parseHint (d : Bytes) : Option (HintfileRecord × Nat) :=
  let header := ccaskGetHintfileRecordHeader ⟨d.take 20, []⟩
  if 20 ≤ d.length ∧ 0 < header.keySize.toNat ∧ 20 + header.keySize.toNat ≤ d.length then
    some (⟨d.take 20, (d.drop 20).take header.keySize.toNat⟩, (20 + header.keySize).toNat)
  else none

def hintAt (c : Bytes) (off : Nat) : Option (HintfileRecord × Nat) :=
  (parseHint (c.drop off)).map fun p => (p.1, off + p.2)

section Next

variable {w : World} {iter : Iter}

theorem freshBuf_iov (n : UInt32) : (Iovec.of (freshBuf n)).Fits ∧ (Iovec.of (freshBuf n)).iovBase = 0 ∧
    (Iovec.of (freshBuf n)).iovLen = n.toNat :=
  ⟨of_fits _, rfl, length_freshBuf n⟩

theorem take_chunk (d : Bytes) (n m : Nat) :
    chunks [n, m] (d.take (n + m)) = [d.take n, (d.drop n).take m] := by
  simp only [chunks, List.take_take, List.drop_take, Nat.min_eq_left (Nat.le_add_right n m),
    Nat.add_sub_cancel_left, Nat.min_self]

/-- The iterator finds the record at its offset. -/
theorem ccaskDatafileIterNext_computes {r : DatafileRecord} {off : Nat}
    (hsize : iter.totalSize = (w.fs.data iter.fd).length)
    (h : recordAt (w.fs.data iter.fd) iter.offset = some (r, off)) :
    Computes (ccaskDatafileIterNext iter) w
      (.ok (r, iter.offset, { iter with offset := off })) w := by
  simp only [recordAt, parseRecord, Option.map_eq_some_iff] at h
  obtain ⟨⟨r', step⟩, hp, heq⟩ := h
  split at hp
  swap
  · cases hp
  rename_i hc
  obtain ⟨hlen, hvalue, hpayload⟩ := hc
  rw [List.length_drop] at hlen hpayload
  cases hp
  cases heq
  unfold ccaskDatafileIterNext
  rw [if_neg (by omega)]
  refine malloc_computes.bind ?_
  refine (safePread_computes (by simp only [datafileRecordHeaderSize]; omega)).bind ?_
  refine (mallocAll_computes 2).bind ?_
  refine (safePreadv_computes (by simp [freshBuf_iov]) (by simp [freshBuf_iov])
    (by simpa [freshBuf_iov, datafileRecordHeaderSize] using hvalue) ?_).bind ?_
  · simp only [wanted_cons, wanted_nil, freshBuf_iov, datafileRecordHeaderSize]
    omega
  simp only [wanted_cons, wanted_nil, Nat.add_zero, List.map_cons, List.map_nil, Iovec.of,
    length_freshBuf, take_chunk, List.drop_drop, Nat.add_assoc]
  exact Computes.pure _

/-- Whatever else stands at the offset, the iterator stops. -/
theorem ccaskDatafileIterNext_stops (iter : Iter)
    (hsize : iter.totalSize = (w.fs.data iter.fd).length)
    (h : recordAt (w.fs.data iter.fd) iter.offset = none) :
    ∃ e, Computes (ccaskDatafileIterNext iter) w (.fail e) w := by
  simp only [recordAt, parseRecord, Option.map_eq_none_iff, ite_eq_right_iff, reduceCtorEq,
    imp_false, List.length_drop] at h
  unfold ccaskDatafileIterNext
  by_cases hend : iter.totalSize ≤ iter.offset
  · rw [if_pos hend]
    exact ⟨_, Computes.pure _⟩
  · rw [if_neg hend]
    by_cases hlen : iter.offset + datafileRecordHeaderSize ≤ (w.fs.data iter.fd).length
    · refine ⟨_, malloc_computes.bind ((safePread_computes hlen).bind
        ((mallocAll_computes 2).bind ((safePreadv_eof (by simp [freshBuf_iov])
          (by simp [freshBuf_iov]) (by simp) ?_).bind (Computes.pure _))))⟩
      simp only [lastNonempty_cons_cons, lastNonempty_singleton, wanted_cons, wanted_nil,
        freshBuf_iov, datafileRecordHeaderSize]
      omega
    · exact ⟨_, malloc_computes.bind ((safePread_eof (by decide) (Nat.lt_of_not_le hlen)).bind
        (Computes.pure _))⟩

/-- The iterator of a hint file does the same without a value. -/
theorem ccaskHintfileIterNext_computes {r : HintfileRecord} {off : Nat}
    (hsize : iter.totalSize = (w.fs.data iter.fd).length)
    (h : hintAt (w.fs.data iter.fd) iter.offset = some (r, off)) :
    Computes (ccaskHintfileIterNext iter) w
      (.ok (r, iter.offset, { iter with offset := off })) w := by
  simp only [hintAt, parseHint, Option.map_eq_some_iff] at h
  obtain ⟨⟨r', step⟩, hp, heq⟩ := h
  split at hp
  swap
  · cases hp
  rename_i hc
  obtain ⟨hlen, hkey, hpayload⟩ := hc
  rw [List.length_drop] at hlen hpayload
  cases hp
  cases heq
  unfold ccaskHintfileIterNext
  rw [if_neg (by omega)]
  refine malloc_computes.bind ?_
  refine (safePread_computes (by simp only [hintfileRecordHeaderSize]; omega)).bind ?_
  refine malloc_computes.bind ?_
  refine (safePreadv_computes (by simp [freshBuf_iov]) (by simp [freshBuf_iov])
    (by simpa [freshBuf_iov, hintfileRecordHeaderSize] using hkey) ?_).bind ?_
  · simp only [wanted_cons, wanted_nil, freshBuf_iov, hintfileRecordHeaderSize]
    omega
  simp only [wanted_cons, wanted_nil, Nat.add_zero, List.map_cons, List.map_nil, Iovec.of,
    length_freshBuf, chunks, List.take_take, Nat.min_self, List.drop_drop]
  exact Computes.pure _

theorem ccaskHintfileIterNext_stops (iter : Iter)
    (hsize : iter.totalSize = (w.fs.data iter.fd).length)
    (h : hintAt (w.fs.data iter.fd) iter.offset = none) :
    ∃ e, Computes (ccaskHintfileIterNext iter) w (.fail e) w := by
  simp only [hintAt, parseHint, Option.map_eq_none_iff, ite_eq_right_iff, reduceCtorEq,
    imp_false, List.length_drop] at h
  unfold ccaskHintfileIterNext
  by_cases hend : iter.totalSize ≤ iter.offset
  · rw [if_pos hend]
    exact ⟨_, Computes.pure _⟩
  · rw [if_neg hend]
    by_cases hlen : iter.offset + hintfileRecordHeaderSize ≤ (w.fs.data iter.fd).length
    · refine ⟨_, malloc_computes.bind ((safePread_computes hlen).bind
        (malloc_computes.bind ((safePreadv_eof (by simp [freshBuf_iov])
          (by simp [freshBuf_iov]) (by simp) ?_).bind (Computes.pure _))))⟩
      simp only [lastNonempty_singleton, wanted_cons, wanted_nil, freshBuf_iov,
        hintfileRecordHeaderSize]
      omega
    · exact ⟨_, malloc_computes.bind ((safePread_eof (by decide) (Nat.lt_of_not_le hlen)).bind
        (Computes.pure _))⟩

end Next

section Open

variable {w : World} {id : Nat} {ino : Ino}

/-- An iterator over a file that is there, at its start. -/
theorem ccaskDatafileIterOpen_computes (h : w.fs.dir (fileName id .data) = some ino) :
    Computes (ccaskDatafileIterOpen id) w (.ok ⟨id, ino, 0, (w.fs.data ino).length⟩) w := by
  refine (attempt_computes (ccaskFilesGetDatafileFd_computes h) (by simp)).bind ?_
  exact (lseekEnd_computes (some ino)).bind (Computes.pure _)

theorem openCreate_of_some {name : Name} (h : w.fs.dir name = some ino) :
    Computes (openCreate name) w (.ok ino) w := by
  have hc := openCreate_computes (w := w) name
  rwa [Fs.create_of_some _ _ h] at hc

theorem ccaskHintfileIterOpen_computes (h : w.fs.dir (fileName id .hint) = some ino) :
    Computes (ccaskHintfileIterOpen id) w (.ok ⟨id, ino, 0, (w.fs.data ino).length⟩) w := by
  refine (attempt_computes (openCreate_of_some h) (by simp)).bind ?_
  exact (lseekEnd_computes (some ino)).bind (Computes.pure _)

end Open

section Consumes

/-- A call of an iterator that finds a record has made system calls. -/
theorem ccaskDatafileIterNext_used {iter : Iter} : ∀ rs w p rest v,
    (ccaskDatafileIterNext iter).run rs w = .returned (.ok p) rest v → rest.length < rs.length := by
  intro rs w p rest v h
  unfold ccaskDatafileIterNext at h
  split at h
  · cases h
  · obtain ⟨a, mid, u, hm, hk⟩ := Prog.run_bind_eq_returned h
    have hlt := malloc_uses rs w a mid u hm
    have hle := (Prog.suffix _ hk).length_le
    omega

theorem ccaskHintfileIterNext_used {iter : Iter} : ∀ rs w p rest v,
    (ccaskHintfileIterNext iter).run rs w = .returned (.ok p) rest v → rest.length < rs.length := by
  intro rs w p rest v h
  unfold ccaskHintfileIterNext at h
  split at h
  · cases h
  · obtain ⟨a, mid, u, hm, hk⟩ := Prog.run_bind_eq_returned h
    have hlt := malloc_uses rs w a mid u hm
    have hle := (Prog.suffix _ hk).length_le
    omega

/-- A round that goes on only after the iterator has found something consumes replies. -/
theorem consumes_next {α β σ : Type} {m : Sys (Res α)} {k : Res α → Sys (σ ⊕ β)}
    (hm : ∀ rs w p rest v, m.run rs w = .returned (.ok p) rest v → rest.length < rs.length)
    (hk : ∀ r, r.isOk = false → Prog.Consumes (k r)) : Prog.Consumes (m >>= k) := by
  intro rs w s rest v h
  obtain ⟨r, mid, u, hr, hrest⟩ := Prog.run_bind_eq_returned h
  have hle := ((k r).suffix hrest).length_le
  have hle' := (m.suffix hr).length_le
  cases r with
  | ok p =>
      have hlt := hm rs w p mid u hr
      omega
  | fail e =>
      have hlt := hk _ rfl mid u s rest v hrest
      omega
  | retry e =>
      have hlt := hk _ rfl mid u s rest v hrest
      omega

theorem recoverDatafileRound_consumes (upsert : KeydirRecord → Sys Status) (fileId : Nat) (iter : Iter) :
    Prog.Consumes (recoverDatafileRound upsert fileId iter) := by
  refine consumes_next ccaskDatafileIterNext_used ?_
  intro r hr
  cases r with
  | ok p => cases hr
  | fail e => exact Prog.consumes_inr _
  | retry e => exact Prog.consumes_inr _

theorem recoverHintfileRound_consumes (upsert : KeydirRecord → Sys Status) (fileId : Nat) (iter : Iter) :
    Prog.Consumes (recoverHintfileRound upsert fileId iter) := by
  refine consumes_next ccaskHintfileIterNext_used ?_
  intro r hr
  cases r with
  | ok p => cases hr
  | fail e => exact Prog.consumes_inr _
  | retry e => exact Prog.consumes_inr _

theorem hintfileGeneratorRound_consumes (hintfileFd : Ino) (s : Iter × HintfileBuffers) :
    Prog.Consumes (hintfileGeneratorRound hintfileFd s) := by
  refine consumes_next ccaskDatafileIterNext_used ?_
  intro r hr
  cases r with
  | ok p => cases hr
  | fail e => exact Prog.consumes_inr _
  | retry e => exact Prog.consumes_inr _

end Consumes

section Recovery

variable {upsert : KeydirRecord → Sys Status} {f : World → KeydirRecord → World} {I : World → Prop}
  {w : World} {fileId : Nat} {ino : Ino}

/-- Without errors `upsert` acts as `f`, in states with `I`, and leaves the directory alone. -/
structure Upserts (upsert : KeydirRecord → Sys Status) (f : World → KeydirRecord → World)
    (I : World → Prop) : Prop where
  computes : ∀ r v, I v → Computes (upsert r) v (.ok ()) (f v r)
  keeps : ∀ r v, I v → I (f v r)
  fs : ∀ r v, (f v r).fs = v.fs

theorem ccaskKeydirUpsert_upserts :
    Upserts ccaskKeydirUpsert upserted (fun v => v.readLocks = 0) :=
  ⟨fun r _ h => ccaskKeydirUpsert_computes r h, fun _ _ h => h, fun _ _ => rfl⟩

theorem foldl_upserted (es : List KeydirRecord) :
    es.foldl upserted w = { w with hashTable := Index.replay KeydirRecord.key w.hashTable es } := by
  induction es generalizing w with
  | nil => rfl
  | cons e es ih => exact ih

/-- The entries that recovery makes of the records of a datafile. -/
def entries (fileId : Nat) (l : List (DatafileRecord × Nat)) : List KeydirRecord :=
  l.map fun p => datafileEntry fileId p.1 p.2

theorem Upserts.keeps_foldl (hu : Upserts upsert f I) (es : List KeydirRecord) (h : I w) :
    I (es.foldl f w) ∧ (es.foldl f w).fs = w.fs := by
  induction es generalizing w with
  | nil => exact ⟨h, rfl⟩
  | cons e es ih =>
      obtain ⟨hI, hfs⟩ := ih (hu.keeps e w h)
      exact ⟨hI, hfs.trans (hu.fs e w)⟩

/-- Recovery upserts every record the iterator finds in the file, in their order. -/
theorem recoverDatafile_computes (hu : Upserts upsert f I) (hI : I w)
    (hdir : w.fs.dir (fileName fileId .data) = some ino) {l : List (DatafileRecord × Nat)}
    (hl : Scan (recordAt (w.fs.data ino)) 0 l) :
    Computes (recoverDatafile upsert fileId) w (.ok ()) ((entries fileId l).foldl f w) := by
  refine (attempt_computes (ccaskDatafileIterOpen_computes hdir) (by simp)).bind ?_
  rw [entries, List.foldl_map]
  refine Computes.loop_scan (s := fun off => ⟨fileId, ino, off, (w.fs.data ino).length⟩)
    (I := fun v => I v ∧ v.fs = w.fs) (P := fun _ => True)
    (recoverDatafileRound_consumes upsert fileId) ?_ ?_ hl (fun _ _ => trivial) ⟨hI, rfl⟩
  · rintro off off' r v ⟨hv, hfs⟩ - hr
    rw [← hfs] at hr ⊢
    refine ⟨?_, hu.keeps _ _ hv, hu.fs _ _⟩
    refine (ccaskDatafileIterNext_computes rfl hr).bind ?_
    exact (attempt_computes (hu.computes _ v hv) (by simp)).bind (Computes.pure _)
  · rintro off v ⟨hv, hfs⟩ hr
    rw [← hfs] at hr ⊢
    obtain ⟨e, he⟩ := ccaskDatafileIterNext_stops ⟨fileId, ino, off, (v.fs.data ino).length⟩ rfl hr
    exact he.bind (Computes.pure _)

/-- The hint record of a record at a position. -/
def hintOf (p : DatafileRecord × Nat) : HintfileRecord :=
  let header := ccaskGetDatafileRecordHeader p.1
  ⟨be32 header.timestamp ++ be32 header.keySize ++ be32 header.valueSize ++ be64 (UInt64.ofNat p.2),
    p.1.key.take header.keySize.toNat⟩

/-- The contents of a complete hint file. -/
def hints (l : List (DatafileRecord × Nat)) : Bytes := layout HintfileRecord.bytes (l.map hintOf)

/-- What a hint record needs to stand for a record: a key, and a size and a position that fit. -/
structure Hintable (p : DatafileRecord × Nat) : Prop where
  sized : (ccaskGetDatafileRecordHeader p.1).keySize.toNat = p.1.key.length
  key : p.1.key ≠ []
  bound : 20 + p.1.key.length < 2 ^ 32
  pos : p.2 < 2 ^ 64

theorem header_hintOf (p : DatafileRecord × Nat) : ccaskGetHintfileRecordHeader (hintOf p) =
    let header := ccaskGetDatafileRecordHeader p.1
    ⟨header.timestamp, header.keySize, header.valueSize, UInt64.ofNat p.2⟩ := by
  simp only [hintOf, ccaskGetHintfileRecordHeader, List.append_assoc, drop_be32, readBe32_be32,
    drop_be32_8, drop_be32_12, readBe64_be64_self]

theorem hintOf_key {p : DatafileRecord × Nat}
    (h : (ccaskGetDatafileRecordHeader p.1).keySize.toNat = p.1.key.length) :
    (hintOf p).key = p.1.key := by
  simp only [hintOf, h, List.take_length]

theorem Hintable.key_eq {p : DatafileRecord × Nat} (h : Hintable p) : (hintOf p).key = p.1.key :=
  hintOf_key h.sized

/-- Both ways of recovery make the same entry. -/
theorem hintfileEntry_hintOf {p : DatafileRecord × Nat} (h : Hintable p) :
    hintfileEntry fileId (hintOf p) = datafileEntry fileId p.1 p.2 := by
  have hpos : (UInt64.ofNat p.2).toNat = p.2 := by
    rw [UInt64.toNat_ofNat']
    exact Nat.mod_eq_of_lt h.pos
  simp only [hintfileEntry, datafileEntry, header_hintOf, h.key_eq, hpos]

theorem hintAt_layout (pre : Bytes) {r : HintfileRecord} (post : Bytes) {p : DatafileRecord × Nat}
    (h : Hintable p) (hr : r = hintOf p) :
    hintAt (pre ++ r.bytes ++ post) pre.length = some (r, pre.length + r.bytes.length) := by
  subst hr
  have hd : (pre ++ (hintOf p).bytes ++ post).drop pre.length =
      (hintOf p).header ++ ((hintOf p).key ++ post) := by
    rw [List.append_assoc, List.drop_left, HintfileRecord.bytes, List.append_assoc]
  have hlen : (hintOf p).header.length = 20 := rfl
  have hkey := congrArg List.length h.key_eq
  have hkpos := List.length_pos_iff.mpr h.key
  have hheader : ccaskGetHintfileRecordHeader ⟨(hintOf p).header, []⟩ =
    ccaskGetHintfileRecordHeader (hintOf p) := rfl
  have hstep : (20 + (ccaskGetDatafileRecordHeader p.1).keySize).toNat =
      (hintOf p).bytes.length := by
    rw [UInt32.toNat_add, h.sized, HintfileRecord.bytes, List.length_append, hlen, hkey]
    exact Nat.mod_eq_of_lt h.bound
  simp only [hintAt, hd, parseHint, List.take_left' hlen, List.drop_left' hlen, hheader,
    header_hintOf, h.sized, List.length_append, hlen, hkey]
  rw [if_pos (by omega), ← hkey, List.take_left]
  simp only [Option.map_some, hstep]

/-- Nothing is found where only a part of a hint record is there. -/
theorem hintAt_torn (pre : Bytes) {p : DatafileRecord × Nat} {q : Bytes} (h : Hintable p)
    (hq : q <+: (hintOf p).bytes) (hne : q ≠ (hintOf p).bytes) : hintAt (pre ++ q) pre.length = none := by
  have hlen : (hintOf p).header.length = 20 := rfl
  have hlt : q.length < (hintOf p).bytes.length :=
    lt_of_le_of_ne hq.length_le fun heq => hne (hq.eq_of_length heq)
  have hheader : ccaskGetHintfileRecordHeader ⟨(hintOf p).header, []⟩ =
    ccaskGetHintfileRecordHeader (hintOf p) := rfl
  rw [HintfileRecord.bytes, List.length_append, hlen, h.key_eq] at hlt
  simp only [hintAt, List.drop_left, parseHint, Option.map_eq_none_iff, ite_eq_right_iff, reduceCtorEq,
    imp_false]
  rintro ⟨h20, -, hle⟩
  have htake : q.take 20 = (hintOf p).header := by
    obtain ⟨t, ht⟩ := hq
    have := congrArg (List.take 20) ht
    rwa [List.take_append_of_le_length h20, HintfileRecord.bytes, List.take_left' hlen] at this
  rw [htake, hheader, header_hintOf, h.sized] at hle
  omega

/-- Recovery from a hint file upserts what its records say, up to a part of a record at its end. -/
theorem recoverHintfile_torn (hu : Upserts upsert f I) (hI : I w)
    (hdir : w.fs.dir (fileName fileId .hint) = some ino) {l : List (DatafileRecord × Nat)} {q : Bytes}
    (hl : ∀ p ∈ l, Hintable p)
    (hq : q = [] ∨ ∃ p, Hintable p ∧ q <+: (hintOf p).bytes ∧ q ≠ (hintOf p).bytes)
    (hdata : w.fs.data ino = hints l ++ q) :
    Computes (recoverHintfile upsert fileId) w (.ok ()) ((entries fileId l).foldl f w) := by
  have hstop : hintAt (hints l ++ q) (hints l).length = none := by
    obtain rfl | ⟨p, hp, hpre, hne⟩ := hq
    · simp [hintAt, parseHint]
    · exact hintAt_torn _ hp hpre hne
  have hscan : Scan (hintAt (w.fs.data ino)) 0 (locate HintfileRecord.bytes 0 (l.map hintOf)) := by
    have h := scan_layout hintAt (P := fun r => ∃ p, Hintable p ∧ r = hintOf p)
      (fun pre r post ⟨p, hp, hr⟩ => hintAt_layout pre post hp hr)
      (l := l.map hintOf) (by
        intro r hr
        obtain ⟨p, hp, rfl⟩ := List.mem_map.mp hr
        exact ⟨p, hl p hp, rfl⟩) [] q (m := []) (.stop (by simpa [hints] using hstop))
    simpa [hdata, hints] using h
  have hfold : (entries fileId l).foldl f w = (locate HintfileRecord.bytes 0 (l.map hintOf)).foldl
      (fun v q => f v (hintfileEntry fileId q.1)) w := by
    have hq : (locate HintfileRecord.bytes 0 (l.map hintOf)).map
        (fun q => hintfileEntry fileId q.1) = entries fileId l := by
      rw [show (fun q : HintfileRecord × Nat => hintfileEntry fileId q.1) =
        hintfileEntry fileId ∘ Prod.fst from rfl, ← List.map_map, map_fst_locate, List.map_map]
      exact List.map_congr_left fun p hp => hintfileEntry_hintOf (hl p hp)
    rw [← hq, List.foldl_map]
  rw [hfold]
  refine (attempt_computes (ccaskHintfileIterOpen_computes hdir) (by simp)).bind ?_
  refine Computes.loop_scan (s := fun off => ⟨fileId, ino, off, (w.fs.data ino).length⟩)
    (I := fun v => I v ∧ v.fs = w.fs) (P := fun _ => True)
    (recoverHintfileRound_consumes upsert fileId) ?_ ?_ hscan (fun _ _ => trivial) ⟨hI, rfl⟩
  · rintro off off' r v ⟨hv, hfs⟩ - hr
    rw [← hfs] at hr ⊢
    refine ⟨?_, hu.keeps _ _ hv, hu.fs _ _⟩
    refine (ccaskHintfileIterNext_computes rfl hr).bind ?_
    exact (attempt_computes (hu.computes _ v hv) (by simp)).bind (Computes.pure _)
  · rintro off v ⟨hv, hfs⟩ hr
    rw [← hfs] at hr ⊢
    obtain ⟨e, he⟩ := ccaskHintfileIterNext_stops ⟨fileId, ino, off, (v.fs.data ino).length⟩ rfl hr
    exact he.bind (Computes.pure _)

/-- Recovery from a complete hint file upserts what a scan of the datafile would. -/
theorem recoverHintfile_computes (hu : Upserts upsert f I) (hI : I w)
    (hdir : w.fs.dir (fileName fileId .hint) = some ino) {l : List (DatafileRecord × Nat)}
    (hl : ∀ p ∈ l, Hintable p) (hdata : w.fs.data ino = hints l) :
    Computes (recoverHintfile upsert fileId) w (.ok ()) ((entries fileId l).foldl f w) :=
  recoverHintfile_torn hu hI hdir hl (.inl rfl) (by rw [hdata, List.append_nil])

end Recovery

section Generator

variable {w : World} {fileId : Nat} {ino hintfileFd : Ino}

theorem iov_hint (r : HintfileRecord) : (∀ v ∈ r.iov, v.Fits) ∧ gather r.iov = r.bytes ∧
    (LastNonempty r.iov ↔ r.key ≠ []) := by
  refine ⟨?_, by simp [HintfileRecord.iov, HintfileRecord.bytes], ?_⟩
  · intro v hv
    simp only [HintfileRecord.iov, List.mem_cons, List.not_mem_nil, or_false] at hv
    rcases hv with rfl | rfl <;> exact of_fits _
  · simp [HintfileRecord.iov, Iovec.of, List.length_pos_iff]

theorem ccaskCreateHintfileRecord_computes (timestamp keySize valueSize : UInt32) (recordPos : UInt64)
    (key : Bytes) (buffers : HintfileBuffers) :
    Computes (ccaskCreateHintfileRecord timestamp keySize valueSize recordPos key buffers) w
      (.ok ⟨be32 timestamp ++ be32 keySize ++ be32 valueSize ++ be64 recordPos,
        key.take keySize.toNat⟩, ⟨.buffer, .buffer⟩) w := by
  have hallocate : Computes (ccaskAllocateHintfileRecord keySize buffers) w
      (.ok ⟨List.replicate hintfileRecordHeaderSize 0, freshBuf keySize⟩, ⟨.buffer, .buffer⟩) w :=
    malloc_computes.bind (malloc_computes.bind (Computes.pure _))
  exact hallocate.bind (Computes.pure _)

/-- The buffers are taken afresh, whatever `hint_record` held, and are freed in the end. -/
theorem hintfileRecordWrite_computes {p : DatafileRecord × Nat} (h : (hintOf p).key ≠ [])
    (buffers : HintfileBuffers) :
    Computes (hintfileRecordWrite hintfileFd p.1 p.2 buffers) w (true, .unset)
      (w.append hintfileFd (hintOf p).bytes) := by
  obtain ⟨hfits, hgather, hlast⟩ := iov_hint (hintOf p)
  refine (ccaskCreateHintfileRecord_computes _ _ _ _ _ _).bind ?_
  have hwrite : Computes (safeWritev (some hintfileFd) (hintOf p).iov) w _ _ := safeWritev_computes hfits
    (hlast.mpr h)
  rw [hgather] at hwrite
  refine hwrite.bind ?_
  rw [freeHintfileRecord_set (by decide) (by decide)]
  exact Computes.pure _

theorem append_hints (l : List (DatafileRecord × Nat)) :
    l.foldl (fun v p => v.append hintfileFd (hintOf p).bytes) w = w.append hintfileFd (hints l) := by
  induction l generalizing w with
  | nil => exact append_nil.symm
  | cons p l ih => rw [List.foldl_cons, ih, append_append, hints, hints, List.map_cons, layout_cons]

/-- The state after the hint file of a file is opened, made if it is not there. -/
def hintOpened (w : World) (fileId : Nat) : World :=
  { w with fs := (w.fs.create (fileName fileId .hint)).1 }

/-- The state after a generator has run. -/
def hinted (w : World) (fileId : Nat) (l : List (DatafileRecord × Nat)) : World :=
  ((hintOpened w fileId).append (w.fs.create (fileName fileId .hint)).2 (hints l)).setFile fileId
    fun file => { file with hasHint := true }

/-- The generator appends the hints of a scan of the datafile and marks the file. -/
theorem hintfileGeneratorThread_computes (hdir : w.fs.dir (fileName fileId .data) = some ino)
    {l : List (DatafileRecord × Nat)} (hl : ∀ p ∈ l, (hintOf p).key ≠ [])
    (hs : Scan (recordAt (w.fs.data ino)) 0 l) :
    Computes (hintfileGeneratorThread fileId) w () (hinted w fileId l) := by
  have hino := w.fs.fresh hdir
  have hne := w.fs.create_ne hdir (fileName fileId .hint) (by simp)
  have hdir₁ : (hintOpened w fileId).fs.dir (fileName fileId .data) = some ino := by
    rw [← hdir]
    exact Fs.dir_create_of_ne _ _ (by simp)
  have hdata₁ : (hintOpened w fileId).fs.data ino = w.fs.data ino := Fs.data_create _ _ hino
  refine (attempt_computes (openCreate_computes _) (by simp)).bind ?_
  refine (attempt_computes (ccaskDatafileIterOpen_computes hdir₁) (by simp)).bind ?_
  rw [hdata₁]
  generalize w.fs.data ino = c at *
  have hloop := Computes.loop_scan (s := fun off => (⟨fileId, ino, off, c.length⟩, .unset))
    (f := fun v p => v.append (w.fs.create (fileName fileId .hint)).2 (hintOf p).bytes)
    (I := fun v => v.fs.data ino = c) (P := fun p => (hintOf p).key ≠ []) (b := true)
    (hintfileGeneratorRound_consumes (w.fs.create (fileName fileId .hint)).2) ?_ ?_ hs hl hdata₁
  · rw [append_hints] at hloop
    exact hloop.bind (Computes.modify _)
  · rintro off off' r v hv hp hr
    rw [← hv] at hr ⊢
    refine ⟨?_, Fs.data_append_of_ne _ _ _ hne.symm⟩
    refine (ccaskDatafileIterNext_computes rfl hr).bind ?_
    exact (hintfileRecordWrite_computes hp _).bind (Computes.pure _)
  · rintro off v hv hr
    rw [← hv] at hr ⊢
    obtain ⟨e, he⟩ := ccaskDatafileIterNext_stops ⟨fileId, ino, off, (v.fs.data ino).length⟩ rfl hr
    exact he.bind (Computes.pure _)

theorem read_hinted (w : World) (fileId : Nat) (l : List (DatafileRecord × Nat)) :
    (hinted w fileId l).fs.read = Function.update w.fs.read (fileName fileId .hint)
      (some ((w.fs.read (fileName fileId .hint)).getD [] ++ hints l)) := by
  have hdir : (hintOpened w fileId).fs.dir (fileName fileId .hint) =
      some (w.fs.create (fileName fileId .hint)).2 := Fs.dir_create_self _ _
  have hread := Fs.read_append hdir (hints l)
  rw [hintOpened, Fs.read_create, Fs.data_create_self, Function.update_idem] at hread
  exact hread

end Generator

section Datafiles

/-- The contents of a datafile that holds these records. -/
def encode (rs : List DatafileRecord) : Bytes := layout DatafileRecord.bytes rs

/-- The records of a datafile with their positions. -/
abbrev positions (rs : List DatafileRecord) : List (DatafileRecord × Nat) :=
  locate DatafileRecord.bytes 0 rs

variable {r : DatafileRecord} {rs : List DatafileRecord}

/-- A record that the iterator steps over: it has a value, and its size fits into 32 bits. -/
structure Readable (r : DatafileRecord) : Prop extends Sized r where
  value_ne : r.value ≠ []
  bound : 16 + r.key.length + r.value.length < 2 ^ 32

theorem drop_layout (pre : Bytes) (r : DatafileRecord) (post : Bytes) :
    (pre ++ r.bytes ++ post).drop pre.length = r.header ++ (r.key ++ (r.value ++ post)) := by
  rw [List.append_assoc, List.drop_left, DatafileRecord.bytes]
  simp only [List.append_assoc]

/-- The step the iterator makes over a record is the size of it in 32 bits. -/
theorem Sized.step {r : DatafileRecord} (h : Sized r) :
    (16 + (ccaskGetDatafileRecordHeader r).keySize +
      (ccaskGetDatafileRecordHeader r).valueSize).toNat = r.bytes.length % 2 ^ 32 := by
  rw [UInt32.toNat_add, UInt32.toNat_add, h.key, h.value, h.bytes_length]
  simp only [UInt32.reduceToNat]
  omega

/-- A record with a value is found where all of its bytes stand. -/
theorem parseRecord_bytes {r : DatafileRecord} (h : Sized r) (hvalue : r.value ≠ []) (post : Bytes) :
    parseRecord (r.bytes ++ post) = some (r, r.bytes.length % 2 ^ 32) := by
  have hlen : r.header.length = 16 := h.header
  have hpos := List.length_pos_iff.mpr hvalue
  have hheader : ccaskGetDatafileRecordHeader ⟨r.header, [], []⟩ = ccaskGetDatafileRecordHeader r := rfl
  have hd : r.bytes ++ post = r.header ++ (r.key ++ (r.value ++ post)) := by
    simp only [DatafileRecord.bytes, List.append_assoc]
  have hdrop : (r.header ++ (r.key ++ (r.value ++ post))).drop (16 + r.key.length) =
      r.value ++ post := by
    rw [← List.append_assoc]
    exact List.drop_left' (by rw [List.length_append, hlen])
  rw [hd, parseRecord]
  simp only [List.take_left' hlen, hheader, h.step]
  rw [if_pos (by simp only [h.key, h.value, List.length_append, hlen]; omega), h.key, h.value, hdrop,
    List.drop_left' hlen, List.take_left, List.take_left]

/-- And nothing else is found. -/
theorem parseRecord_found {d : Bytes} {r : DatafileRecord} {step : Nat}
    (h : parseRecord d = some (r, step)) :
    Sized r ∧ r.value ≠ [] ∧ r.bytes <+: d ∧ step = r.bytes.length % 2 ^ 32 := by
  rw [parseRecord] at h
  generalize hheader : ccaskGetDatafileRecordHeader ⟨d.take 16, [], []⟩ = header at h
  split at h
  · rename_i hfits
    obtain ⟨h16, hvalue, hle⟩ := hfits
    obtain ⟨rfl, rfl⟩ := Prod.mk.inj (Option.some.inj h)
    have hlen : (d.take 16).length = 16 := by
      rw [List.length_take]
      omega
    have hkey : ((d.drop 16).take header.keySize.toNat).length = header.keySize.toNat := by
      rw [List.length_take, List.length_drop]
      omega
    have hval : ((d.drop (16 + header.keySize.toNat)).take header.valueSize.toNat).length =
        header.valueSize.toNat := by
      rw [List.length_take, List.length_drop]
      omega
    have hsized : Sized ⟨d.take 16, (d.drop 16).take header.keySize.toNat,
        (d.drop (16 + header.keySize.toNat)).take header.valueSize.toNat⟩ :=
      ⟨hlen, by rw [hkey, ← hheader]; rfl, by rw [hval, ← hheader]; rfl⟩
    refine ⟨hsized, ?_, ?_, ?_⟩
    · rw [← List.length_pos_iff, hval]
      exact hvalue
    · have hbytes : d.take 16 ++ (d.drop 16).take header.keySize.toNat ++
          (d.drop (16 + header.keySize.toNat)).take header.valueSize.toNat =
          d.take (16 + header.keySize.toNat + header.valueSize.toNat) := by
        rw [Nat.add_assoc, List.take_add, List.take_add, List.drop_drop, List.append_assoc]
      rw [DatafileRecord.bytes, hbytes]
      exact List.take_prefix _ _
    · rw [← hsized.step, ← hheader]
      rfl
  · cases h

/-- What the iterator finds at an offset is the record that stands there, whole and with a value. -/
theorem recordAt_iff {c : Bytes} {off off' : Nat} : recordAt c off = some (r, off') ↔
    Sized r ∧ r.value ≠ [] ∧ r.bytes <+: c.drop off ∧ off' = off + r.bytes.length % 2 ^ 32 := by
  rw [recordAt, Option.map_eq_some_iff]
  constructor
  · rintro ⟨⟨r', step⟩, hp, heq⟩
    obtain ⟨rfl, rfl⟩ := Prod.mk.inj heq
    obtain ⟨hsized, hvalue, hpre, rfl⟩ := parseRecord_found hp
    exact ⟨hsized, hvalue, hpre, rfl⟩
  · rintro ⟨hsized, hvalue, ⟨post, hpost⟩, rfl⟩
    exact ⟨_, hpost ▸ parseRecord_bytes hsized hvalue post, rfl⟩

theorem Readable.length_mod (h : Readable r) : r.bytes.length % 2 ^ 32 = r.bytes.length := by
  rw [h.toSized.bytes_length]
  exact Nat.mod_eq_of_lt h.bound

theorem recordAt_layout (pre : Bytes) (r : DatafileRecord) (post : Bytes) (h : Readable r) :
    recordAt (pre ++ r.bytes ++ post) pre.length = some (r, pre.length + r.bytes.length) := by
  rw [recordAt_iff, h.length_mod, List.append_assoc, List.drop_left]
  exact ⟨h.toSized, h.value_ne, List.prefix_append _ _, rfl⟩

/-- A record without a value ends the iteration, whatever follows it. -/
theorem recordAt_empty_value (pre : Bytes) (r : DatafileRecord) (post : Bytes) (h : Sized r)
    (hv : r.value = []) : recordAt (pre ++ r.bytes ++ post) pre.length = none := by
  have hlen : r.header.length = 16 := h.header
  have hheader : ccaskGetDatafileRecordHeader ⟨r.header, [], []⟩ = ccaskGetDatafileRecordHeader r := rfl
  simp only [recordAt, drop_layout, parseRecord, List.take_left' hlen, hheader, h.value, hv,
    List.length_nil]
  simp

/-- So does a record of which only a part is there. -/
theorem recordAt_torn (pre : Bytes) {r : DatafileRecord} {p : Bytes} (h : Sized r)
    (hp : p <+: r.bytes) (hne : p ≠ r.bytes) : recordAt (pre ++ p) pre.length = none := by
  have hlen : r.header.length = 16 := h.header
  have hlt : p.length < r.bytes.length := by
    refine lt_of_le_of_ne hp.length_le fun heq => hne (hp.eq_of_length heq)
  have hheader : ccaskGetDatafileRecordHeader ⟨r.header, [], []⟩ = ccaskGetDatafileRecordHeader r := rfl
  rw [h.bytes_length] at hlt
  simp only [recordAt, List.drop_left, parseRecord, Option.map_eq_none_iff, ite_eq_right_iff,
    reduceCtorEq, imp_false]
  rintro ⟨h16, -, hle⟩
  have htake : p.take 16 = r.header := by
    obtain ⟨t, ht⟩ := hp
    have := congrArg (List.take 16) ht
    rwa [List.take_append_of_le_length h16, DatafileRecord.bytes, List.append_assoc,
      List.take_left' hlen] at this
  rw [htake, hheader, h.key, h.value] at hle
  omega

/-- A record that is found lies within the file. -/
theorem recordAt_found {c : Bytes} {off off' : Nat} (h : recordAt c off = some (r, off')) :
    Sized r ∧ r.value ≠ [] ∧ off + r.bytes.length ≤ c.length ∧
      (r.bytes.length < 2 ^ 32 → off' = off + r.bytes.length) := by
  obtain ⟨hsized, hvalue, hpre, rfl⟩ := recordAt_iff.mp h
  have hle := hpre.length_le
  rw [List.length_drop] at hle
  have hpos : 16 ≤ r.bytes.length := by
    rw [hsized.bytes_length]
    omega
  refine ⟨hsized, hvalue, by omega, fun hlt => ?_⟩
  rw [Nat.mod_eq_of_lt hlt]

theorem recordAt_end (c : Bytes) : recordAt c c.length = none := by
  simp [recordAt, parseRecord]

/-- The iterator finds the records of a file, and goes on behind them. -/
theorem scan_encode (h : ∀ r ∈ rs, Readable r) (post : Bytes) {l : List (DatafileRecord × Nat)}
    (hl : Scan (recordAt (encode rs ++ post)) (encode rs).length l) :
    Scan (recordAt (encode rs ++ post)) 0 (positions rs ++ l) := by
  have hs := scan_layout recordAt (P := Readable) recordAt_layout h [] post (m := l)
  simp only [List.nil_append, List.length_nil, Nat.zero_add] at hs
  exact hs hl

end Datafiles

end Ccask.Audit
