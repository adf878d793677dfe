import Ccask.Audit.FailedCompaction
import Ccask.Audit.Replies
import Ccask.Audit.TornTail

/-!
# Hint files and the datafiles they stand for

A hint file made by a generator that met no error gives recovery the same entries as its
datafile, whatever bytes stand in that. One that a generator left behind when something
went wrong may give fewer.
-/

namespace Ccask.Audit

open Ccask.Effect Ccask.Model

section Agree

variable {w : World} {fileId : Nat} {c : Bytes}

/-- What is found in a file is a record with a value, within the file. -/
theorem found_of_yields {off : Nat} {p : DatafileRecord × Nat} (h : Yields (recordAt c) off p) :
    Sized p.1 ∧ p.1.value ≠ [] ∧ p.2 + p.1.bytes.length ≤ c.length := by
  obtain ⟨off', hr⟩ := h.found
  obtain ⟨hsized, hvalue, hle, -⟩ := recordAt_found hr
  exact ⟨hsized, hvalue, hle⟩

/-- The iterator comes to an end when the records it finds have sizes of less than 2^32 bytes. -/
theorem exists_scan_of_sizes
    (h : ∀ p, Yields (recordAt c) 0 p → 20 + p.1.key.length + p.1.value.length < 2 ^ 32) :
    ∃ l, Scan (recordAt c) 0 l := by
  apply exists_scan_of_lt (b := c.length)
  intro r i j hy hj
  obtain ⟨hsized, -, hle, hstep⟩ := recordAt_found hj
  have hbound : 20 + r.key.length + r.value.length < 2 ^ 32 := h (r, i) hy
  have hlen := hsized.bytes_length
  have hoff := hstep (by omega)
  omega

/-- The records that are found can have hint records. -/
theorem hintable_of_yields (hc : c.length < 2 ^ 64)
    (h : ∀ p, Yields (recordAt c) 0 p →
      p.1.key ≠ [] ∧ 20 + p.1.key.length + p.1.value.length < 2 ^ 32) :
    ∀ p, Yields (recordAt c) 0 p → Hintable p := by
  intro p hy
  obtain ⟨hsized, -, hle⟩ := found_of_yields hy
  obtain ⟨hkey, hbound⟩ := h p hy
  exact ⟨hsized.key, hkey, by omega, by omega⟩

/-- The hint file that a generator makes for a datafile, whatever bytes stand in that, makes recovery
upsert the same entries in the same order. -/
theorem recoveries_agree (hc : c.length < 2 ^ 63)
    (hfile : w.fs.read (fileName fileId .data) = some c)
    (hnone : w.fs.read (fileName fileId .hint) = none)
    (hrecords : ∀ p, Yields (recordAt c) 0 p →
      p.1.key ≠ [] ∧ 20 + p.1.key.length + p.1.value.length < 2 ^ 32) :
    ∃ w', Computes (hintfileGeneratorThread fileId) w () w' ∧ ∃ es : List KeydirRecord,
      ∀ upsert f I, Upserts upsert f I → ∀ v, I v → v.fs = w'.fs →
        Computes (recoverDatafile upsert fileId) v (.ok ()) (es.foldl f v) ∧
        Computes (recoverHintfile upsert fileId) v (.ok ()) (es.foldl f v) := by
  obtain ⟨ino, hdir, rfl⟩ := Fs.exists_of_read hfile
  obtain ⟨l, hscan⟩ := exists_scan_of_sizes fun p hy => (hrecords p hy).2
  have hl : ∀ p ∈ l, Hintable p := fun p hp =>
    hintable_of_yields (by omega) hrecords p ((hscan.mem_iff p).mp hp)
  have hgen : Computes (hintfileGeneratorThread fileId) w () (hinted w fileId l) := by
    apply hintfileGeneratorThread_computes hdir _ hscan
    intro p hp
    rw [(hl p hp).key_eq]
    exact (hl p hp).key
  have hread := read_hinted w fileId l
  rw [hnone, Option.getD_none, List.nil_append] at hread
  refine ⟨_, hgen, entries fileId l, fun upsert f I hu v hv hfs => ?_⟩
  have hdata : v.fs.read (fileName fileId .data) = some (w.fs.data ino) := by
    rw [hfs, hread, Function.update_of_ne (by simp), hfile]
  have hhint : v.fs.read (fileName fileId .hint) = some (hints l) := by
    rw [hfs, hread, Function.update_self]
  obtain ⟨i, hi, hi'⟩ := Fs.exists_of_read hdata
  obtain ⟨j, hj, hj'⟩ := Fs.exists_of_read hhint
  rw [← hi'] at hscan
  exact ⟨recoverDatafile_computes hu hv hi hscan, recoverHintfile_computes hu hv hj hl hj'⟩

/-- A record of the key `a` and the value `b`, and a byte of something else. -/
def oneAndRest : Bytes := [0, 0, 0, 0, 0, 0, 0, 1, 0, 0, 0, 1, 0, 0, 0, 1, 97, 98, 7]

theorem scan_oneAndRest :
    Scan (recordAt oneAndRest) 0 [(⟨oneAndRest.take 16, [97], [98]⟩, 0)] :=
  .step (show recordAt oneAndRest 0 = some (_, 18) by decide) (.stop (by decide))

theorem yields_oneAndRest : ∀ p, Yields (recordAt oneAndRest) 0 p →
    p.1.key ≠ [] ∧ 20 + p.1.key.length + p.1.value.length < 2 ^ 32 := by
  intro p hp
  obtain rfl := List.mem_singleton.mp ((scan_oneAndRest.mem_iff p).mpr hp)
  decide

theorem recoveries_agree_one : ∃ w', Computes (hintfileGeneratorThread 0)
    (oneFile (fileName 0 .data) oneAndRest) () w' ∧ ∃ es : List KeydirRecord,
      ∀ upsert f I, Upserts upsert f I → ∀ v, I v → v.fs = w'.fs →
        Computes (recoverDatafile upsert 0) v (.ok ()) (es.foldl f v) ∧
        Computes (recoverHintfile upsert 0) v (.ok ()) (es.foldl f v) := by
  apply recoveries_agree (by decide) (read_oneFile _ _) (read_oneFile_of_ne (by simp) _)
  exact yields_oneAndRest

end Agree

section Calls

variable {w : World} {iter : Iter} {fileId : Nat}

/-- Whatever the system answers, the iterator gives nothing but the record at its offset. -/
theorem ccaskDatafileIterNext_found :
    Ensures (fun _ => True) (ccaskDatafileIterNext iter) w
      (fun r v => v = w ∧ ∀ p, r = .ok p → p.2.1 = iter.offset ∧
        p.2.2 = { iter with offset := p.2.2.offset } ∧
        recordAt (w.fs.data iter.fd) iter.offset = some (p.1, p.2.2.offset))
      (fun v => v = w) := by
  have hnothing : ∀ (e : Option Errno) (p : DatafileRecord × Nat × Iter),
    (.fail e : Res (DatafileRecord × Nat × Iter)) = .ok p → False := by simp
  unfold ccaskDatafileIterNext
  split
  · exact Ensures.pure ⟨rfl, fun p hp => (hnothing _ p hp).elim⟩
  · refine (Moves.same malloc_moves w).bind ?_
    intro b v hv
    subst hv
    cases b with
    | false => exact Ensures.pure ⟨rfl, fun p hp => (hnothing _ p hp).elim⟩
    | true =>
        refine (safePread_ensures (fun _ => True)).bind ?_
        intro r u hr
        obtain ⟨rfl, ⟨rfl, hle⟩ | ⟨rfl, -⟩ | ⟨rfl, -⟩⟩ := hr
        · have hlen := hle (by decide)
          refine (Moves.same (mallocAll_moves 2) u).bind ?_
          intro r v hv
          subst hv
          cases r with
          | fail e => exact Ensures.pure ⟨rfl, fun p hp => (hnothing _ p hp).elim⟩
          | retry e => exact Ensures.pure ⟨rfl, fun p hp => (hnothing _ p hp).elim⟩
          | ok _ =>
              generalize hheader : ccaskGetDatafileRecordHeader
                ⟨((v.fs.data iter.fd).drop iter.offset).take datafileRecordHeaderSize, [], []⟩ = header
              refine (safePreadv_ensures (fun _ => True) (by simp [freshBuf_iov])
                (by simp [freshBuf_iov]) (by simp)).bind ?_
              intro r u hr
              obtain ⟨rfl, ⟨bufs, rfl, hlast, hle', hflat, hlens⟩ | ⟨rfl, -⟩ | ⟨rfl, -⟩⟩ := hr
              · have hbufs := chunks_flatten bufs
                rw [hlens, hflat] at hbufs
                simp only [wanted_cons, wanted_nil, Nat.add_zero, List.map_cons, List.map_nil, Iovec.of,
                  length_freshBuf, take_chunk, List.drop_drop] at hbufs
                simp only [lastNonempty_cons_cons, lastNonempty_singleton, freshBuf_iov] at hlast
                simp only [wanted_cons, wanted_nil, freshBuf_iov, datafileRecordHeaderSize] at hle' hlen
                subst hbufs
                refine Ensures.pure ⟨rfl, fun p hp => ?_⟩
                obtain rfl := Res.ok.inj hp
                refine ⟨rfl, rfl, ?_⟩
                rw [recordAt, parseRecord]
                simp only [datafileRecordHeaderSize] at hheader ⊢
                rw [hheader, if_pos (by rw [List.length_drop]; omega)]
                simp only [Option.map_some, List.drop_drop, Nat.add_assoc]
              · exact Ensures.pure ⟨rfl, fun p hp => (hnothing _ p hp).elim⟩
              · exact Ensures.pure ⟨rfl, fun p hp => (hnothing _ p hp).elim⟩
        · exact Ensures.pure ⟨rfl, fun p hp => (hnothing _ p hp).elim⟩
        · exact Ensures.pure ⟨rfl, fun p hp => (hnothing _ p hp).elim⟩

/-- What the replies tell of a call of the iterator that stands before the record `p`. -/
def handedOut (p : DatafileRecord × Nat) : Telling :=
  Telling.once.andThen ((Telling.transfer datafileRecordHeaderSize).andThen
    ((Telling.times 2 .once).andThen (.transfer (p.1.key.length + p.1.value.length))))

theorem ccaskDatafileIterNext_tells {r : DatafileRecord} {off : Nat}
    (hsize : (w.fs.data iter.fd).length ≤ iter.totalSize)
    (h : recordAt (w.fs.data iter.fd) iter.offset = some (r, off)) :
    Tells (handedOut (r, iter.offset)) Res.isOk (ccaskDatafileIterNext iter) w := by
  simp only [recordAt, parseRecord, Option.map_eq_some_iff] at h
  obtain ⟨⟨r', step⟩, hp, heq⟩ := h
  split at hp
  swap
  · cases hp
  rename_i hc
  obtain ⟨hlen, hvalue, hpayload⟩ := hc
  rw [List.length_drop] at hlen hpayload
  cases hp
  cases heq
  have hheader : iter.offset + datafileRecordHeaderSize ≤ (w.fs.data iter.fd).length := by
    simp only [datafileRecordHeaderSize]
    omega
  unfold ccaskDatafileIterNext
  rw [if_neg (by omega)]
  refine malloc_bind ?_ (.pure rfl)
  refine handedOn (safePread_tells hheader) (safePread_ensures fun _ => True) ?_ (fun _ => ⟨_, rfl, rfl⟩)
    fun _ => ⟨_, rfl, rfl⟩
  rintro b v ⟨hv, ⟨hb, -⟩ | ⟨hb, -⟩ | ⟨hb, -⟩⟩
  case inr.inl => cases hb
  case inr.inr => cases hb
  subst v
  cases hb
  refine handedOn (mallocAll_tells 2) (Moves.same (mallocAll_moves 2) w) ?_ (fun _ => ⟨_, rfl, rfl⟩)
    fun _ => ⟨_, rfl, rfl⟩
  intro _ v hv
  subst v
  simp only [datafileRecordHeaderSize]
  generalize hparsed : ccaskGetDatafileRecordHeader
    ⟨((w.fs.data iter.fd).drop iter.offset).take 16, [], []⟩ = header at hvalue hpayload ⊢
  have hlast : LastNonempty [.of (freshBuf header.keySize), .of (freshBuf header.valueSize)] := by
    simpa [freshBuf_iov] using hvalue
  have hwanted : wanted [.of (freshBuf header.keySize), .of (freshBuf header.valueSize)] =
      header.keySize.toNat + header.valueSize.toNat := by
    simp only [wanted_cons, wanted_nil, freshBuf_iov, Nat.add_zero]
  have hread : Tells _ _ (safePreadv (some iter.fd) _ (iter.offset + 16)) w :=
    safePreadv_tells (by simp [freshBuf_iov]) (by simp [freshBuf_iov]) hlast (by rw [hwanted]; omega)
  have hkey : (((w.fs.data iter.fd).drop iter.offset).drop 16).length ≥ header.keySize.toNat := by
    rw [List.length_drop, List.length_drop]
    omega
  have hval : (((w.fs.data iter.fd).drop iter.offset).drop (16 + header.keySize.toNat)).length ≥
      header.valueSize.toNat := by
    rw [List.length_drop, List.length_drop]
    omega
  rw [List.length_take_of_le hkey, List.length_take_of_le hval, ← hwanted, ← Telling.andThen_ends (.transfer _)]
  refine handedOn hread (safePreadv_ensures (fun _ => True) (by simp [freshBuf_iov])
    (by simp [freshBuf_iov]) (by simp)) ?_ (fun _ => ⟨_, rfl, rfl⟩) fun _ => ⟨_, rfl, rfl⟩
  rintro bufs v ⟨-, ⟨_, hbufs, -, -, -, hlens⟩ | ⟨hbufs, -⟩ | ⟨hbufs, -⟩⟩
  case inr.inl => cases hbufs
  case inr.inr => cases hbufs
  cases hbufs
  obtain ⟨key, value, rfl⟩ : ∃ key value, bufs = [key, value] :=
    List.length_eq_two.mp (by simpa using congrArg List.length hlens)
  exact .pure rfl

/-- An iterator that could be opened starts at the beginning of the file, and does not take it for shorter
than it is. -/
theorem ccaskDatafileIterOpen_opens {ino : Ino} (hdir : w.fs.dir (fileName fileId .data) = some ino)
    (hsize : (w.fs.data ino).length < 2 ^ 63) :
    Ensures (fun _ => True) (ccaskDatafileIterOpen fileId) w
      (fun r v => v = w ∧ (∀ e, r ≠ .retry e) ∧ ∀ iter, r = .ok iter → iter.fd = ino ∧ iter.offset = 0 ∧
        (w.fs.data ino).length ≤ iter.totalSize) (fun v => v = w) := by
  refine ((ccaskFilesGetDatafileFd_oneCall hdir).ensures 5).bind ?_
  rintro r v (⟨hr, hv⟩ | ⟨rfl, hv⟩)
  · subst v
    cases r with
    | ok i => cases hr
    | fail e => exact Ensures.pure ⟨rfl, by simp, by simp⟩
    | retry e => exact Ensures.pure ⟨rfl, by simp, by simp⟩
  · subst v
    refine (lseekEnd_ensures ino).bind ?_
    rintro size v ⟨hv, hlen⟩
    subst v
    refine Ensures.pure ⟨rfl, by simp, fun iter hiter => ?_⟩
    obtain rfl := Res.ok.inj hiter
    refine ⟨rfl, rfl, ?_⟩
    cases size with
    | none =>
        show _ ≤ 2 ^ 64 - 1
        omega
    | some n => exact Nat.le_of_eq (hlen n rfl).symm

/-- What the replies tell of it. -/
theorem ccaskDatafileIterOpen_tells {ino : Ino} (hdir : w.fs.dir (fileName fileId .data) = some ino) :
    Tells ((Telling.tries 5).andThen .any) Res.isOk (ccaskDatafileIterOpen fileId) w := by
  have hopen := ccaskFilesGetDatafileFd_oneCall hdir
  rw [← Telling.andThen_ends .any]
  refine handedOn (hopen.tells rfl 5) (hopen.ensures 5) ?_ (fun _ => ⟨_, rfl, rfl⟩)
    fun _ => ⟨_, rfl, rfl⟩
  rintro i v (⟨hi, -⟩ | ⟨hi, -⟩)
  · cases hi
  · exact lseekEnd_any fun _ => .pure rfl

/-- A part of a hint record, or nothing at all. -/
def TornHint (p : DatafileRecord × Nat) (q : Bytes) : Prop :=
  q <+: (hintOf p).bytes ∧ q ≠ (hintOf p).bytes

theorem tornHint_nil (p : DatafileRecord × Nat) : TornHint p [] := by
  refine ⟨List.nil_prefix, fun heq => ?_⟩
  have hlen := congrArg List.length heq
  rw [HintfileRecord.bytes, List.length_append] at hlen
  have hheader : (hintOf p).header.length = 20 := rfl
  simp only [List.length_nil] at hlen
  omega

/-- A hint record is written whole, or the write fails or is cut short with a part of it. -/
theorem hintfileRecordWrite_ensures {hintfileFd : Ino} {p : DatafileRecord × Nat} (h : Hintable p) :
    Ensures (fun _ => True) (hintfileRecordWrite hintfileFd p.1 p.2 .unset) w
      (fun b v => (b = (true, .unset) ∧ v = w.append hintfileFd (hintOf p).bytes) ∨
        (b.1 = false ∧ ∃ q, TornHint p q ∧ v = w.append hintfileFd q))
      (fun v => ∃ q, TornHint p q ∧ v = w.append hintfileFd q) := by
  obtain ⟨hfits, hgather, hlast⟩ := iov_hint (hintOf p)
  have hnothing : ∃ q, TornHint p q ∧ w = w.append hintfileFd q := ⟨[], tornHint_nil p, append_nil.symm⟩
  have hne : LastNonempty (hintOf p).iov := hlast.mpr (by rw [h.key_eq]; exact h.key)
  have hwrite : Ensures _ (safeWritev (some hintfileFd) _) w _ _ := safeWritev_ensures (fun _ => True) hfits
    (by simp [HintfileRecord.iov])
  rw [hgather] at hwrite
  unfold hintfileRecordWrite ccaskCreateHintfileRecord ccaskAllocateHintfileRecord
  simp only [bind_assoc]
  refine malloc_ensures hnothing fun b => ?_
  cases b with
  | false => exact Ensures.block hnothing
  | true =>
      simp only [if_true, bind_assoc]
      refine malloc_ensures hnothing fun b => ?_
      cases b with
      | false => exact Ensures.pure (.inr ⟨rfl, hnothing⟩)
      | true =>
          refine (hwrite.mono (fun _ _ h => h) ?_).bind ?_
          · rintro u ⟨q, ⟨hq, hq'⟩, hu⟩
            exact ⟨q, ⟨hq, hq' hne⟩, hu⟩
          · rintro r u (⟨rfl, -, hu⟩ | ⟨rfl, -, q, ⟨hq, hq'⟩, hu⟩)
            · exact Ensures.pure (.inl ⟨rfl, hu⟩)
            · exact Ensures.pure (.inr ⟨rfl, q, ⟨hq, hq' hne⟩, hu⟩)

/-- What the replies tell of the hint record of `p`. The process dies when its first allocation is refused:
the pointer behind it is freed, and nothing has set it. -/
def hintWritten (p : DatafileRecord × Nat) : Telling :=
  Telling.once.branch (Telling.once.andThen (.transfer (hintfileRecordHeaderSize + p.1.key.length))) .never

theorem hintfileRecordWrite_tells {hintfileFd : Ino} {p : DatafileRecord × Nat} (h : Hintable p) :
    Tells (hintWritten p) Prod.fst (hintfileRecordWrite hintfileFd p.1 p.2 .unset) w := by
  obtain ⟨hfits, hgather, hlast⟩ := iov_hint (hintOf p)
  have hne : LastNonempty (hintOf p).iov := hlast.mpr (by rw [h.key_eq]; exact h.key)
  have hwanted : wanted (hintOf p).iov = hintfileRecordHeaderSize + p.1.key.length := by
    rw [← gather_length hfits, hgather, HintfileRecord.bytes, List.length_append, h.key_eq]
    rfl
  have hwrite : Tells _ Res.isOk (safeWritev (some hintfileFd) (hintOf p).iov) w := safeWritev_tells hfits hne
  rw [hwanted] at hwrite
  unfold hintfileRecordWrite ccaskCreateHintfileRecord ccaskAllocateHintfileRecord
  simp only [bind_assoc]
  refine malloc_bind ?_ .block
  simp only [if_true, bind_assoc]
  refine malloc_bind ?_ (.pure rfl)
  rw [← Telling.andThen_ends (.transfer _)]
  exact handedOn hwrite Ensures.trivial (fun _ _ _ => .pure rfl) (fun _ => ⟨_, rfl, rfl⟩)
    fun _ => ⟨_, rfl, rfl⟩

end Calls

section Ending

variable {fileId : Nat} {ino hintfileFd : Ino} {c : Bytes} {l : List (DatafileRecord × Nat)} {fs : Fs}

/-- If the hint file is there, recovery through it installs what recovery of the datafile does. -/
def Complete (fileId : Nat) (fs : Fs) : Prop :=
  (fs.read (fileName fileId .hint)).isSome → ∀ v : World, v.fs = fs → v.readLocks = 0 →
    ∃ v', Computes (recoverDatafile ccaskKeydirUpsert fileId) v (.ok ()) v' ∧
      Computes (recoverHintfile ccaskKeydirUpsert fileId) v (.ok ()) v'

/-- The replies let the iterator hand out every record that is left and have its hint record made and
written, unless a hint record cannot be made or written and an unlink of the hint file then comes through. -/
def Finishes : List (DatafileRecord × Nat) → List Reply → Prop
  | [], _ => True
  | p :: l, rs =>
    match handedOut p rs with
    | some (true, rest) =>
      match hintWritten p rest with
      | some (true, rest') => Finishes l rest'
      | some (false, rest') => ∃ rest'', Telling.tries 5 rest' = some (true, rest'')
      | none => False
    | _ => False

/-- The hint file cannot be opened; or there is no record, or the datafile, with the records `l`, can be
opened and all of them are handled. -/
def Undisturbed (l : List (DatafileRecord × Nat)) (rs : List Reply) : Prop :=
  match Telling.tries 5 rs with
  | some (true, rest) => l = [] ∨
    match ((Telling.tries 5).andThen .any) rest with
    | some (true, rest') => Finishes l rest'
    | _ => False
  | _ => True

/-- No hint file, or one with all records of the datafile. -/
def Kept (fileId : Nat) (c : Bytes) (l : List (DatafileRecord × Nat)) (fs : Fs) : Prop :=
  fs.read (fileName fileId .data) = some c ∧
    (fs.read (fileName fileId .hint) = none ∨ fs.read (fileName fileId .hint) = some (hints l))

/-- A hint file in which records at the end of the datafile are missing. -/
def Cut (fileId : Nat) (c : Bytes) (l : List (DatafileRecord × Nat)) (fs : Fs) : Prop :=
  fs.read (fileName fileId .data) = some c ∧ ∃ l₁ p l₂ q, l = l₁ ++ p :: l₂ ∧ TornHint p q ∧
    fs.read (fileName fileId .hint) = some (hints l₁ ++ q)

theorem Kept.complete (h : Kept fileId c l fs) (hs : Scan (recordAt c) 0 l)
    (hl : ∀ p ∈ l, Hintable p) : Complete fileId fs := by
  intro hsome v hfs hlocks
  obtain ⟨hdata, hnone | hhint⟩ := h
  · rw [hnone] at hsome
    cases hsome
  · rw [← hfs] at hdata hhint
    obtain ⟨i, hi, rfl⟩ := Fs.exists_of_read hdata
    obtain ⟨j, hj, hj'⟩ := Fs.exists_of_read hhint
    exact ⟨_, recoverDatafile_computes ccaskKeydirUpsert_upserts hlocks hi hs,
      recoverHintfile_computes ccaskKeydirUpsert_upserts hlocks hj hl hj'⟩

/-- Records are found at increasing positions. -/
theorem positions_lt {off : Nat} (hs : Scan (recordAt c) off l)
    (hl : ∀ p ∈ l, p.1.bytes.length < 2 ^ 32) : (∀ p ∈ l, off ≤ p.2) ∧
      l.Pairwise fun p q => p.2 < q.2 := by
  induction hs with
  | stop => exact ⟨by simp, List.Pairwise.nil⟩
  | step hn _ ih =>
      obtain ⟨hsized, -, -, hstep⟩ := recordAt_found hn
      obtain ⟨hle, hpair⟩ := ih fun p hp => hl p (List.mem_cons_of_mem _ hp)
      have hlt := hstep (hl _ List.mem_cons_self)
      have hlen := hsized.bytes_length
      refine ⟨?_, List.Pairwise.cons (fun p hp => ?_) hpair⟩
      · intro p hp
        obtain rfl | hp := List.mem_cons.mp hp
        · exact Nat.le_refl _
        · have := hle p hp
          omega
      · have := hle p hp
        show _ < p.2
        omega

/-- The last entry of the datafile is not among those of the hint file. -/
theorem Cut.not_complete (h : Cut fileId c l fs) (hs : Scan (recordAt c) 0 l)
    (hl : ∀ p ∈ l, Hintable p) (hsizes : ∀ p ∈ l, p.1.bytes.length < 2 ^ 32) :
    ¬ Complete fileId fs := by
  intro hcomplete
  obtain ⟨hdata, l₁, p, l₂, q, rfl, hq, hhint⟩ := h
  obtain ⟨v', hv₁, hv₂⟩ := hcomplete (by rw [hhint]; rfl) (World.boot fs 0) rfl rfl
  obtain ⟨i, hi, rfl⟩ := Fs.exists_of_read hdata
  obtain ⟨j, hj, hj'⟩ := Fs.exists_of_read hhint
  obtain ⟨-, heq₁⟩ := hv₁.unique (recoverDatafile_computes (w := World.boot fs 0)
    ccaskKeydirUpsert_upserts rfl hi hs)
  obtain ⟨-, heq₂⟩ := hv₂.unique (recoverHintfile_torn (w := World.boot fs 0) ccaskKeydirUpsert_upserts
    rfl hj (fun x hx => hl x (List.mem_append_left _ hx))
    (.inr ⟨p, hl p (by simp), hq⟩) hj')
  have htable := congrArg World.hashTable (heq₁.trans heq₂.symm)
  rw [foldl_upserted, foldl_upserted] at htable
  have hpair := (positions_lt hs hsizes).2
  obtain ⟨m, z, hz⟩ : ∃ m z, p :: l₂ = m ++ [z] :=
    ⟨_, _, (List.dropLast_append_getLast (List.cons_ne_nil p l₂)).symm⟩
  rw [hz, ← List.append_assoc] at htable hpair
  have hget := congrArg (Index.get KeydirRecord.key z.1.key) htable
  change Index.get _ _ (Index.replay _ [] _) = Index.get _ _ (Index.replay _ [] _) at hget
  rw [Index.get_replay_nil, Index.get_replay_nil, entries, List.map_append, List.map_singleton,
    Index.latest_concat, if_pos (show (datafileEntry fileId z.1 z.2).key = z.1.key from rfl)] at hget
  have hmem : datafileEntry fileId z.1 z.2 ∈ entries fileId l₁ :=
    List.mem_reverse.mp (Index.mem_of_get hget.symm)
  obtain ⟨x, hx, hentry⟩ := List.mem_map.mp hmem
  have hpos : x.2 = z.2 := congrArg KeydirRecord.recordPos hentry
  have hlt := (List.pairwise_append.mp hpair).2.2 x (List.mem_append_left m hx) z List.mem_cons_self
  omega

/-- The state while hint records are appended to a new hint file that holds `q`. -/
structure Hinting (v : World) (fileId : Nat) (ino hintfileFd : Ino) (c q : Bytes) : Prop where
  data : v.fs.dir (fileName fileId .data) = some ino
  hint : v.fs.dir (fileName fileId .hint) = some hintfileFd
  contents : v.fs.data ino = c
  appended : v.fs.data hintfileFd = q

variable {v : World} {q : Bytes}

theorem Hinting.append (h : Hinting v fileId ino hintfileFd c q) (b : Bytes) :
    Hinting (v.append hintfileFd b) fileId ino hintfileFd c (q ++ b) := by
  have hne : ino ≠ hintfileFd := by
    rintro rfl
    exact absurd (v.fs.single h.data h.hint) (by simp)
  refine ⟨h.data, h.hint, ?_, ?_⟩
  · rw [World.append, Fs.data_append_of_ne _ _ _ hne]
    exact h.contents
  · rw [World.append, Fs.data_append_self, h.appended]

theorem Hinting.read (h : Hinting v fileId ino hintfileFd c q) :
    v.fs.read (fileName fileId .data) = some c ∧ v.fs.read (fileName fileId .hint) = some q := by
  rw [Fs.read, Fs.read, h.data, h.hint, ← h.contents, ← h.appended]
  exact ⟨rfl, rfl⟩

theorem Hinting.cut {l₁ l₂ : List (DatafileRecord × Nat)} {p : DatafileRecord × Nat}
    (h : Hinting v fileId ino hintfileFd c (hints l₁ ++ q)) (hq : TornHint p q) :
    Cut fileId c (l₁ ++ p :: l₂) v.fs :=
  ⟨h.read.1, l₁, p, l₂, q, rfl, hq, h.read.2⟩

theorem hints_concat (l₁ : List (DatafileRecord × Nat)) (p : DatafileRecord × Nat) :
    hints l₁ ++ (hintOf p).bytes = hints (l₁ ++ [p]) := by
  simp [hints]

/-- A hint file that has just been made. -/
theorem Hinting.opened (hdir : v.fs.dir (fileName fileId .data) = some ino)
    (hnone : v.fs.read (fileName fileId .hint) = none) :
    Hinting (hintOpened v fileId) fileId ino (v.fs.create (fileName fileId .hint)).2 (v.fs.data ino)
      (hints []) := by
  refine ⟨?_, Fs.dir_create_self _ _, Fs.data_create _ _ (v.fs.fresh hdir), ?_⟩
  · rw [← hdir]
    exact Fs.dir_create_of_ne _ _ (by simp)
  · show (v.fs.create (fileName fileId .hint)).1.data _ = _
    rw [Fs.data_create_self, hnone]
    rfl

/-- What the generator does after its loop. -/
def endGeneration (fileId : Nat) (written : Bool) : Sys Unit :=
  if written then Prog.modify fun w => w.setFile fileId fun file => { file with hasHint := true }
  else do
    let _ ← attempt 5 (ccaskFilesDelete fileId .hint)
    pure ()

/-- What it does once both files are open. -/
def generateHints (fileId : Nat) (hintfileFd : Ino) (iter : Iter) : Sys Unit :=
  Prog.loop (hintfileGeneratorRound hintfileFd) (iter, .unset) >>= endGeneration fileId

/-- One round of the loop, and what comes after it, when the iterator stops. -/
theorem generateHints_stops {iter : Iter} {rs rest : List Reply} {u : World}
    {r : Res (DatafileRecord × Nat × Iter)} (hr : r.isOk = false)
    (hnext : (ccaskDatafileIterNext iter).run rs v = .returned r rest u) :
    (generateHints fileId hintfileFd iter).run rs v = (endGeneration fileId true).run rest u := by
  have hround : (hintfileGeneratorRound hintfileFd (iter, .unset)).run rs v =
      .returned (.inr true) rest u := by
    rw [hintfileGeneratorRound, Prog.run_bind_returned hnext]
    cases r with
    | ok p => cases hr
    | fail e => rfl
    | retry e => rfl
  rw [generateHints, Prog.loop_eq (hintfileGeneratorRound_consumes hintfileFd), bind_assoc,
    Prog.run_bind_returned hround]
  rfl

/-- When the iterator gives a record, the hint record decides. -/
theorem generateHints_next {iter iter' : Iter} {rs rest : List Reply} {u : World}
    {record : DatafileRecord} {recordPos : Nat}
    (hnext : (ccaskDatafileIterNext iter).run rs v = .returned (.ok (record, recordPos, iter')) rest u) :
    (generateHints fileId hintfileFd iter).run rs v =
      ((hintfileRecordWrite hintfileFd record recordPos .unset) >>= fun b =>
        (if b.1 then Prog.loop (hintfileGeneratorRound hintfileFd) (iter', b.2) else pure false) >>=
          endGeneration fileId).run rest u := by
  rw [generateHints, Prog.loop_eq (hintfileGeneratorRound_consumes hintfileFd), bind_assoc,
    hintfileGeneratorRound, bind_assoc, Prog.run_bind_returned hnext, bind_assoc]
  refine congrArg (fun k => (_ >>= k : Sys Unit).run rest u) ?_
  funext b
  obtain ⟨written, buffers⟩ := b
  cases written with
  | true => rfl
  | false => rfl

/-- When it is cut short, so is the generator. -/
theorem generateHints_pending {iter : Iter} {rs : List Reply} {u : World}
    (hnext : (ccaskDatafileIterNext iter).run rs v = .pending u) :
    (generateHints fileId hintfileFd iter).run rs v = .pending u := by
  rw [generateHints, Prog.loop_eq (hintfileGeneratorRound_consumes hintfileFd), bind_assoc,
    hintfileGeneratorRound, bind_assoc, Prog.run_bind_pending hnext]

/-- What the iterator comes to in such a state. -/
theorem Hinting.next (h : Hinting v fileId ino hintfileFd c q) {iter : Iter} (hfd : iter.fd = ino) :
    Ensures (fun _ => True) (ccaskDatafileIterNext iter) v
      (fun r u => u = v ∧ ∀ p, r = .ok p → p.2.1 = iter.offset ∧
        p.2.2 = { iter with offset := p.2.2.offset } ∧
        recordAt c iter.offset = some (p.1, p.2.2.offset)) (fun u => u = v) := by
  subst hfd
  rw [← h.contents]
  exact ccaskDatafileIterNext_found

/-- A write of a hint record that failed: the file is deleted, or it stays with a part of the record. -/
theorem Hinting.failed {l₁ l₂ : List (DatafileRecord × Nat)} {p : DatafileRecord × Nat}
    (h : Hinting v fileId ino hintfileFd c (hints l₁ ++ q)) (hq : TornHint p q) (rs : List Reply) :
    ((∃ rest, Telling.tries 5 rs = some (true, rest)) →
      Kept fileId c (l₁ ++ p :: l₂) ((endGeneration fileId false).run rs v).state.fs) ∧
    ((¬ ∃ rest, Telling.tries 5 rs = some (true, rest)) →
      Cut fileId c (l₁ ++ p :: l₂) ((endGeneration fileId false).run rs v).state.fs) := by
  obtain ⟨res, hcall, -⟩ := ccaskFilesDelete_oneCall fileId .hint v
  have hrun := hcall.attempt 5 rs
  show (_ → Kept _ _ _ (((attempt 5 (ccaskFilesDelete fileId .hint)) >>= _).run rs v).state.fs) ∧
    (_ → Cut _ _ _ (((attempt 5 (ccaskFilesDelete fileId .hint)) >>= _).run rs v).state.fs)
  rcases htold : Telling.tries 5 rs with _ | ⟨ok, rest⟩
  · rw [htold] at hrun
    rw [Prog.run_bind_pending hrun]
    refine ⟨?_, fun _ => h.cut hq⟩
    rintro ⟨rest, hrest⟩
    cases hrest
  · rw [htold] at hrun
    cases ok with
    | false =>
        obtain ⟨r, -, hrun⟩ := hrun
        rw [Prog.run_bind_returned hrun]
        refine ⟨?_, fun _ => h.cut hq⟩
        rintro ⟨rest, hrest⟩
        cases hrest
    | true =>
        rw [Prog.run_bind_returned hrun]
        refine ⟨fun _ => ⟨?_, .inl ?_⟩, fun hn => absurd ⟨rest, rfl⟩ hn⟩
        · show (v.fs.unlink (fileName fileId .hint)).read (fileName fileId .data) = some c
          rw [Fs.read_unlink, Function.update_of_ne (by simp)]
          exact h.read.1
        · show (v.fs.unlink (fileName fileId .hint)).read (fileName fileId .hint) = none
          rw [Fs.read_unlink, Function.update_self]

/-- Whatever the system answers, and wherever the process dies: the records that are left get into the
hint file, or the file is deleted, exactly when nothing disturbs the loop. -/
theorem generateHints_ends {l₁ : List (DatafileRecord × Nat)} {iter : Iter} (rs : List Reply)
    (hv : Hinting v fileId ino hintfileFd c (hints l₁)) (hs : Scan (recordAt c) iter.offset l)
    (hl : ∀ p ∈ l, Hintable p) (hfd : iter.fd = ino) (hsize : c.length ≤ iter.totalSize) :
    (Finishes l rs → Kept fileId c (l₁ ++ l)
      ((generateHints fileId hintfileFd iter).run rs v).state.fs) ∧
    (¬ Finishes l rs → Cut fileId c (l₁ ++ l)
      ((generateHints fileId hintfileFd iter).run rs v).state.fs) := by
  induction l generalizing l₁ iter rs v with
  | nil =>
      have hnext := hv.next hfd
      have hkept : Kept fileId c (l₁ ++ []) v.fs := by
        rw [List.append_nil]
        exact ⟨hv.read.1, .inr hv.read.2⟩
      refine ⟨fun _ => ?_, fun h => absurd trivial h⟩
      obtain ⟨hnone⟩ := hs
      cases hr : (ccaskDatafileIterNext iter).run rs v with
      | pending u =>
          obtain rfl : u = v := hnext.pending (fun _ _ => trivial) hr
          rw [generateHints_pending hr]
          exact hkept
      | returned r rest u =>
          obtain ⟨rfl, hfound⟩ := hnext.returned (fun _ _ => trivial) hr
          cases r with
          | ok p => cases hnone.symm.trans (hfound p rfl).2.2
          | fail e =>
              rw [generateHints_stops rfl hr]
              exact hkept
          | retry e =>
              rw [generateHints_stops rfl hr]
              exact hkept
  | cons p l ih =>
      have hcut : Cut fileId c (l₁ ++ p :: l) v.fs := by
        have hv' := hv
        rw [← List.append_nil (hints l₁)] at hv'
        exact hv'.cut (tornHint_nil p)
      obtain ⟨record, recordPos⟩ := p
      cases hs with
      | step hn hs' =>
          rename_i off'
          have hnext := hv.next hfd
          have htells : Tells (handedOut (record, iter.offset)) Res.isOk (ccaskDatafileIterNext iter) v := by
            refine ccaskDatafileIterNext_tells ?_ (show _ = some (record, off') from ?_)
            · rw [hfd, hv.contents]
              exact hsize
            · rw [hfd, hv.contents]
              exact hn
          rw [Finishes]
          cases hr : (ccaskDatafileIterNext iter).run rs v with
          | pending u =>
              obtain rfl : u = v := hnext.pending (fun _ _ => trivial) hr
              rw [generateHints_pending hr, htells.of_pending hr]
              exact ⟨False.elim, fun _ => hcut⟩
          | returned r rest u =>
              obtain ⟨rfl, hfound⟩ := hnext.returned (fun _ _ => trivial) hr
              rw [htells.of_returned hr]
              cases r with
              | fail e =>
                  rw [generateHints_stops rfl hr]
                  exact ⟨False.elim, fun _ => hcut⟩
              | retry e =>
                  rw [generateHints_stops rfl hr]
                  exact ⟨False.elim, fun _ => hcut⟩
              | ok found =>
                  obtain ⟨record', recordPos', iter'⟩ := found
                  obtain ⟨hpos, hiter, hrecord⟩ := hfound _ rfl
                  simp only at hpos hiter hrecord
                  cases hn.symm.trans hrecord
                  subst hpos
                  have hp := hl _ List.mem_cons_self
                  have hends : Ensures _ (hintfileRecordWrite hintfileFd _ _ .unset) u _ _ :=
                    hintfileRecordWrite_ensures hp
                  have htold : Tells _ Prod.fst (hintfileRecordWrite hintfileFd _ _ .unset) u :=
                    hintfileRecordWrite_tells hp
                  rw [generateHints_next hr]
                  simp only [Res.isOk]
                  cases hw : (hintfileRecordWrite hintfileFd record iter.offset .unset).run rest u with
                  | pending u' =>
                      obtain ⟨q, hq, rfl⟩ := hends.pending (fun _ _ => trivial) hw
                      rw [htold.of_pending hw, Prog.run_bind_pending hw]
                      exact ⟨False.elim, fun _ => (hv.append q).cut hq⟩
                  | returned b rest' u' =>
                      have hwritten := hends.returned (fun _ _ => trivial) hw
                      rw [htold.of_returned hw, Prog.run_bind_returned hw]
                      obtain ⟨rfl, rfl⟩ | ⟨hb, q, hq, rfl⟩ := hwritten
                      · have hv' := hv.append (hintOf (record, iter.offset)).bytes
                        rw [hints_concat] at hv'
                        have hend := ih rest' hv' hs' (fun x hx => hl x (List.mem_cons_of_mem _ hx))
                          (by rw [hiter]; exact hfd) (by rw [hiter]; exact hsize)
                        rw [List.append_assoc, List.singleton_append] at hend
                        exact hend
                      · rw [hb]
                        exact (hv.append q).failed hq rest'

end Ending

section Trust

variable {w : World} {fileId : Nat} {c : Bytes} {l : List (DatafileRecord × Nat)}

/-- However the generator ends: what it leaves is complete exactly when nothing disturbed it. -/
theorem complete_iff_undisturbed (hc : c.length < 2 ^ 63)
    (hfile : w.fs.read (fileName fileId .data) = some c)
    (hnone : w.fs.read (fileName fileId .hint) = none) (hscan : Scan (recordAt c) 0 l)
    (hrecords : ∀ p ∈ l, p.1.key ≠ [] ∧ 20 + p.1.key.length + p.1.value.length < 2 ^ 32)
    (rs : List Reply) :
    Complete fileId ((hintfileGeneratorThread fileId).run rs w).state.fs ↔ Undisturbed l rs := by
  have hyields : ∀ p, Yields (recordAt c) 0 p →
      p.1.key ≠ [] ∧ 20 + p.1.key.length + p.1.value.length < 2 ^ 32 :=
    fun p hp => hrecords p ((hscan.mem_iff p).mpr hp)
  have hl : ∀ p ∈ l, Hintable p := fun p hp =>
    hintable_of_yields (by omega) hyields p ((hscan.mem_iff p).mp hp)
  have hsizes : ∀ p ∈ l, p.1.bytes.length < 2 ^ 32 := by
    intro p hp
    obtain ⟨hsized, -, -⟩ := found_of_yields ((hscan.mem_iff p).mp hp)
    have hbound := (hrecords p hp).2
    rw [hsized.bytes_length]
    omega
  -- without a hint file there is nothing to trust
  have hwithout : Complete fileId w.fs := by
    intro hsome
    rw [hnone] at hsome
    cases hsome
  obtain ⟨ino, hdir, rfl⟩ := Fs.exists_of_read hfile
  have hcall : OneCall (ccaskFilesGetHintfileFd fileId) w _ _ := openCreate_oneCall (fileName fileId .hint) w
  have hopen := hcall.attempt 5 rs
  unfold Undisturbed hintfileGeneratorThread
  rcases htold : Telling.tries 5 rs with _ | ⟨ok, rest⟩
  · rw [htold] at hopen
    rw [Prog.run_bind_pending hopen]
    exact ⟨fun _ => trivial, fun _ => hwithout⟩
  · rw [htold] at hopen
    cases ok with
    | false =>
        obtain ⟨r, hr, hopen⟩ := hopen
        rw [Prog.run_bind_returned hopen]
        cases r with
        | ok i => cases hr
        | fail e => exact ⟨fun _ => trivial, fun _ => hwithout⟩
        | retry e => exact ⟨fun _ => trivial, fun _ => hwithout⟩
    | true =>
        -- the hint file is there now, and empty
        have hv := Hinting.opened hdir hnone
        have hearly : Complete fileId (hintOpened w fileId).fs ↔ l = [] := by
          cases l with
          | nil =>
              have hkept : Kept fileId (w.fs.data ino) [] (hintOpened w fileId).fs :=
                ⟨hv.read.1, .inr hv.read.2⟩
              exact ⟨fun _ => rfl, fun _ => hkept.complete hscan hl⟩
          | cons p l =>
              have hcut : Cut fileId (w.fs.data ino) (p :: l) (hintOpened w fileId).fs :=
                Hinting.cut (show Hinting _ _ _ _ _ (hints [] ++ []) from hv) (tornHint_nil p)
              exact ⟨fun h => absurd h (hcut.not_complete hscan hl hsizes), by simp⟩
        have hsize : ((hintOpened w fileId).fs.data ino).length < 2 ^ 63 := by
          rw [hv.contents]
          exact hc
        have hiter := ccaskDatafileIterOpen_opens hv.data hsize
        have htells := attempt_tells (n := 4) (ccaskDatafileIterOpen_tells hv.data)
          (hiter.mono (fun _ _ h => h.2.1) fun _ h => h)
        have hopens := attempt_succ_ensures (n := 4) (I := fun v => v = hintOpened w fileId) rfl
          (Q := fun r v => v = hintOpened w fileId ∧ ∀ iter : Iter, r = .ok iter → iter.fd = ino ∧
            iter.offset = 0 ∧ (w.fs.data ino).length ≤ iter.totalSize) fun v hv' => by
          subst hv'
          rw [hv.contents] at hiter
          exact hiter.mono (fun _ _ h => ⟨⟨h.1, h.2.2⟩, fun e he => absurd he (h.2.1 e)⟩) fun _ h => h
        rw [Prog.run_bind_returned hopen]
        change Complete fileId (((attempt 5 (ccaskDatafileIterOpen fileId)) >>= _).run rest
          (hintOpened w fileId)).state.fs ↔ l = [] ∨ _
        cases hr' : (attempt 5 (ccaskDatafileIterOpen fileId)).run rest (hintOpened w fileId) with
        | pending u =>
            obtain rfl : u = hintOpened w fileId := hopens.pending (fun _ _ => trivial) hr'
            rw [htells.of_pending hr', Prog.run_bind_pending hr']
            exact hearly.trans (iff_of_eq (or_false _)).symm
        | returned r rest' u =>
            obtain ⟨rfl, hok⟩ := hopens.returned (fun _ _ => trivial) hr'
            rw [htells.of_returned hr', Prog.run_bind_returned hr']
            cases r with
            | fail e => exact hearly.trans (iff_of_eq (or_false _)).symm
            | retry e => exact hearly.trans (iff_of_eq (or_false _)).symm
            | ok iter =>
                obtain ⟨hfd, h0, htotal⟩ := hok iter rfl
                have hends := generateHints_ends rest' hv (by rw [h0]; exact hscan) hl hfd htotal
                rw [List.nil_append] at hends
                constructor
                · intro hcomplete
                  by_contra hno
                  exact (hends.2 fun hf => hno (.inr hf)).not_complete hscan hl hsizes hcomplete
                · intro hfin
                  refine (hends.1 ?_).complete hscan hl
                  obtain rfl | hfin := hfin
                  · trivial
                  · exact hfin

/-- The record is read in two transfers and its hint record is written. -/
theorem complete_iff_undisturbed_one : Complete 0 ((hintfileGeneratorThread 0).run
    [.done 0, .transient, .done 0, .fail, .done 0, .done 8, .intr, .done 6, .done 0, .done 0, .done 1, .done 0,
      .done 0, .done 20] (oneFile (fileName 0 .data) oneAndRest)).state.fs :=
  (complete_iff_undisturbed (by decide) (read_oneFile _ _) (read_oneFile_of_ne (by simp) _)
    scan_oneAndRest (by decide) _).mpr (.inr trivial)

/-- The hint file is opened, the datafile is not: an empty hint file stays. -/
theorem not_complete_one : ¬ Complete 0 ((hintfileGeneratorThread 0).run
    [.done 0, .fail] (oneFile (fileName 0 .data) oneAndRest)).state.fs := by
  obtain ⟨ino, hdir, hdata⟩ := Fs.exists_of_read (read_oneFile (fileName 0 .data) oneAndRest)
  have hv := Hinting.opened hdir (read_oneFile_of_ne (m := fileName 0 .hint) (by simp) _)
  rw [hdata] at hv
  have hcut : Cut 0 oneAndRest [(⟨oneAndRest.take 16, [97], [98]⟩, 0)]
      (hintOpened (oneFile (fileName 0 .data) oneAndRest) 0).fs :=
    Hinting.cut (show Hinting _ _ _ _ _ (hints [] ++ []) from hv) (tornHint_nil _)
  have hl : ∀ p ∈ [((⟨oneAndRest.take 16, [97], [98]⟩ : DatafileRecord), 0)], Hintable p :=
    fun p hp => hintable_of_yields (by decide) yields_oneAndRest p ((scan_oneAndRest.mem_iff p).mp hp)
  exact hcut.not_complete scan_oneAndRest hl (by decide)

end Trust

end Ccask.Audit
