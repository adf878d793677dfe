import Ccask.Audit.DescriptorRace
import Ccask.Audit.HintFiles
import Ccask.Audit.WriteEnds
import Ccask.Audit.Recovery

/-!
# How far the iterator goes

The iterator steps over a record by the size of it in 32 bits. Below 2^32 that is where the next
record starts; a larger record sends it back to somewhere in the record itself, and only if it
finds nothing there do its records still lie one behind the other. After a record of 2^32 bytes
it stands where it stood before.
-/

namespace Ccask.Audit

open Ccask.Effect Ccask.Model

section Size

/-- The size of a record that its header tells, computed without wrapping around. -/
def recordSize (r : DatafileRecord) : Nat :=
  16 + (ccaskGetDatafileRecordHeader r).keySize.toNat + (ccaskGetDatafileRecordHeader r).valueSize.toNat

theorem Sized.recordSize {r : DatafileRecord} (h : Sized r) : recordSize r = r.bytes.length := by
  rw [Audit.recordSize, h.key, h.value, h.bytes_length]

/-- Records of less than 2^32 bytes stand one behind the other at the start of a file, and a larger one
behind them: then no record with a value stands where the iterator goes on. -/
def NoFalseStep (c : Bytes) : Prop :=
  ∀ rs r, (∀ q ∈ rs, Readable q) → Sized r → r.value ≠ [] → 2 ^ 32 ≤ r.bytes.length →
    encode (rs ++ [r]) <+: c →
    ∀ q, Sized q → q.value ≠ [] → ¬ q.bytes <+: c.drop ((encode rs).length + r.bytes.length % 2 ^ 32)

variable {c : Bytes}

theorem encode_append (rs rs' : List DatafileRecord) : encode (rs ++ rs') = encode rs ++ encode rs' :=
  layout_append rs rs'

/-- The record that is found behind other records continues them. -/
theorem encode_found {rs : List DatafileRecord} {r : DatafileRecord} (hrs : encode rs <+: c)
    (hr : r.bytes <+: c.drop (encode rs).length) : encode (rs ++ [r]) <+: c := by
  obtain ⟨rest, rfl⟩ := hrs
  rw [List.drop_left] at hr
  rw [encode_append]
  show encode rs ++ (r.bytes ++ []) <+: _
  rw [List.append_nil]
  exact (List.prefix_append_right_inj _).mpr hr

theorem length_encode_append (rs : List DatafileRecord) (r : DatafileRecord) :
    (encode (rs ++ [r])).length = (encode rs).length + r.bytes.length := by
  rw [encode_append, List.length_append]
  show _ + (r.bytes ++ []).length = _
  rw [List.append_nil]

/-- In a file of less than 2^32 bytes every step leads to the next record. -/
theorem noFalseStep_of_lt (h : c.length < 2 ^ 32) : NoFalseStep c := by
  intro rs r _ _ _ hge hwhole
  have hle := hwhole.length_le
  rw [length_encode_append] at hle
  omega

/-- Behind whole records the scan ends, and its records tile the file from there on. -/
theorem exists_tiling (hc : NoFalseStep c) {rs : List DatafileRecord} (hrs : ∀ q ∈ rs, Readable q)
    (hpre : encode rs <+: c) : ∃ l, Scan (recordAt c) (encode rs).length l ∧
      Tiles recordSize c.length (encode rs).length l := by
  induction hn : c.length - (encode rs).length using Nat.strongRecOn generalizing rs with
  | ind n ih =>
      cases hfound : recordAt c (encode rs).length with
      | none => exact ⟨[], .stop hfound, .nil⟩
      | some p =>
          obtain ⟨r, off'⟩ := p
          obtain ⟨hsized, hvalue, hr, hoff⟩ := recordAt_iff.mp hfound
          have hwhole := encode_found hpre hr
          have hend := length_encode_append rs r
          have hle := hwhole.length_le
          have hsize := hsized.bytes_length
          rcases Nat.lt_or_ge r.bytes.length (2 ^ 32) with hlt | hge
          · have hreadable : Readable r := ⟨hsized, hvalue, by omega⟩
            rw [Nat.mod_eq_of_lt hlt, ← hend] at hoff
            obtain ⟨l, hscan, htiles⟩ := ih _ (by omega)
              (fun q hq => (List.mem_append.mp hq).elim (hrs q)
                fun h => List.mem_singleton.mp h ▸ hreadable) hwhole rfl
            refine ⟨_, .step hfound (hoff ▸ hscan), .cons ?_ ?_⟩
            · rw [hsized.recordSize]
              omega
            · rwa [hsized.recordSize, ← hend]
          · have hnone : recordAt c off' = none := by
              cases hq : recordAt c off' with
              | none => rfl
              | some q =>
                  obtain ⟨hsized', hvalue', hq', -⟩ := recordAt_iff.mp hq
                  rw [hoff] at hq'
                  exact absurd hq' (hc rs r hrs hsized hvalue hge hwhole q.1 hsized' hvalue')
            refine ⟨_, .step hfound (.stop hnone), .cons ?_ .nil⟩
            rw [hsized.recordSize]
            omega

/-- A scan whose records tile the file has met no false step. -/
theorem noFalseStep_of_scan {l : List (DatafileRecord × Nat)} (hscan : Scan (recordAt c) 0 l)
    (htiles : Tiles recordSize c.length 0 l) : NoFalseStep c := by
  intro rs r hrs hsized hvalue hge hwhole q hsized' hvalue' hq
  obtain ⟨rest, hrest⟩ := hwhole
  have hc : c = [] ++ encode rs ++ (r.bytes ++ rest) := by
    rw [← hrest, encode_append, List.nil_append, List.append_assoc]
    show encode rs ++ ((r.bytes ++ []) ++ rest) = _
    rw [List.append_nil]
  -- The scan passes the whole records and stands in front of the large one.
  obtain ⟨m, rfl, hm⟩ : ∃ m, l = positions rs ++ m ∧ Scan (recordAt c) (encode rs).length m := by
    rw [hc] at hscan ⊢
    have hbehind := Scan.behind_layout recordAt_layout hrs [] (r.bytes ++ rest) hscan
    rwa [List.length_nil, Nat.zero_add] at hbehind
  have hm' := Tiles.behind_locate (fun a ha => (hrs a ha).toSized.recordSize) htiles
  rw [Nat.zero_add] at hm'
  have hr : recordAt c (encode rs).length = some (r, (encode rs).length + r.bytes.length % 2 ^ 32) := by
    refine recordAt_iff.mpr ⟨hsized, hvalue, ⟨rest, ?_⟩, rfl⟩
    rw [hc, List.nil_append, List.drop_left]
  have hnext := recordAt_iff.mpr ⟨hsized', hvalue', hq, rfl⟩
  cases hm with
  | stop hn =>
      rw [hr] at hn
      cases hn
  | step hn hrest' =>
      rw [hr] at hn
      obtain ⟨rfl, rfl⟩ := Prod.mk.inj (Option.some.inj hn)
      cases hm' with
      | cons _ hm' =>
          cases hrest' with
          | stop hn =>
              rw [hnext] at hn
              cases hn
          | step hn _ =>
              have hlt : r.bytes.length % 2 ^ 32 < 2 ^ 32 := Nat.mod_lt _ (by decide)
              have hoff := hm'.start_eq
              rw [hsized.recordSize] at hoff
              change (encode rs).length + _ = (encode rs).length + _ at hoff
              omega

end Size

section Loop

/-- One call of the iterator, with what has come out of it before. -/
def iterateRound (s : Iter × List (DatafileRecord × Nat)) :
    Sys ((Iter × List (DatafileRecord × Nat)) ⊕ List (DatafileRecord × Nat)) := do
  match ← ccaskDatafileIterNext s.1 with
  | .ok (record, recordPos, iter) => pure (.inl (iter, s.2 ++ [(record, recordPos)]))
  | .fail _ | .retry _ => pure (.inr s.2)

/-- The loop of `recover_datafile` and of `hintfile_generator_thread`, without what they do with a
record. -/
def iterateDatafile (fileId : Nat) : Sys (List (DatafileRecord × Nat)) := do
  match ← attempt 5 (ccaskDatafileIterOpen fileId) with
  | .fail _ | .retry _ => pure []
  | .ok iter => Prog.loop iterateRound (iter, [])

theorem iterateRound_consumes (s : Iter × List (DatafileRecord × Nat)) :
    Prog.Consumes (iterateRound s) := by
  refine consumes_next ccaskDatafileIterNext_used fun r hr => ?_
  cases r with
  | ok p => cases hr
  | fail e => exact Prog.consumes_inr _
  | retry e => exact Prog.consumes_inr _

variable {w : World} {fileId : Nat} {ino : Ino} {c : Bytes} {iter : Iter}

/-- Whatever the replies, an iterator is opened at the start of the datafile. -/
theorem ccaskDatafileIterOpen_ensures (hdir : w.fs.dir (fileName fileId .data) = some ino) :
    Ensures (fun _ => True) (attempt 5 (ccaskDatafileIterOpen fileId)) w
      (fun res v => v = w ∧ ∀ iter, res = .ok iter → iter.fd = ino ∧ iter.offset = 0)
      (fun _ => True) := by
  refine attempt_ensures (I := fun v => v = w) rfl (fun e v hv => ⟨hv, by simp⟩) ?_
  rintro v rfl
  refine (ccaskFilesGetDatafileFd_ensures.mono (fun _ _ h => h) fun _ _ => trivial).bind ?_
  rintro res u ⟨rfl, hres⟩
  cases res with
  | fail e => exact Ensures.pure ⟨rfl, by simp⟩
  | retry e => exact Ensures.pure ⟨rfl, by simp⟩
  | ok fd =>
      obtain rfl : ino = fd := Option.some.inj (hdir.symm.trans (hres fd rfl))
      refine (lseekEnd_answers (some ino)).bind ?_
      rintro size v ⟨rfl, -⟩
      refine Ensures.pure ⟨rfl, fun iter hiter => ?_⟩
      obtain rfl := Res.ok.inj hiter
      exact ⟨rfl, rfl⟩

/-- What has come out is the front of a scan, and the iterator stands in front of the rest of it. -/
structure Ahead (w : World) (ino : Ino) (l : List (DatafileRecord × Nat))
    (s : Iter × List (DatafileRecord × Nat)) : Prop where
  fd : s.1.fd = ino
  rest : ∃ m, l = s.2 ++ m ∧ Scan (recordAt (w.fs.data ino)) s.1.offset m

/-- A record that is found is the next one of the scan. -/
theorem Ahead.next {l : List (DatafileRecord × Nat)} {s : Iter × List (DatafileRecord × Nat)}
    (h : Ahead w ino l s) {p : DatafileRecord × Nat × Iter} (hpos : p.2.1 = s.1.offset)
    (hit : p.2.2 = { s.1 with offset := p.2.2.offset })
    (hfound : recordAt (w.fs.data s.1.fd) s.1.offset = some (p.1, p.2.2.offset)) :
    Ahead w ino l (p.2.2, s.2 ++ [(p.1, p.2.1)]) ∧ s.2.length < l.length := by
  obtain ⟨hfd, m, rfl, hm⟩ := h
  rw [hfd] at hfound
  cases hm with
  | stop hn =>
      rw [hfound] at hn
      cases hn
  | step hn hrest =>
      rw [hfound] at hn
      obtain ⟨rfl, rfl⟩ := Prod.mk.inj (Option.some.inj hn)
      refine ⟨⟨?_, _, ?_, hrest⟩, ?_⟩
      · show p.2.2.fd = ino
        rw [hit]
        exact hfd
      · show _ = s.2 ++ [(p.1, p.2.1)] ++ _
        rw [hpos, List.append_assoc, List.singleton_append]
      · rw [List.length_append, List.length_cons]
        omega

/-- Whatever the replies, the iteration gives the front of a scan. -/
theorem iterate_prefix {l : List (DatafileRecord × Nat)}
    (hl : Scan (recordAt (w.fs.data iter.fd)) iter.offset l) :
    Ensures (fun _ => True) (Prog.loop iterateRound (iter, [])) w (fun l' _ => l' <+: l)
      (fun _ => True) := by
  refine Ensures.loop (I := fun s v => v = w ∧ Ahead w iter.fd l s) ?_ (fun _ _ _ => trivial)
    ⟨rfl, rfl, l, rfl, hl⟩
  rintro s v ⟨rfl, h⟩
  refine (ccaskDatafileIterNext_found.mono (fun _ _ h => h) fun _ _ => trivial).bind ?_
  rintro res u ⟨rfl, hres⟩
  have hfront : s.2 <+: l := by
    obtain ⟨-, m, rfl, -⟩ := h
    exact List.prefix_append _ _
  cases res with
  | fail e => exact Ensures.pure hfront
  | retry e => exact Ensures.pure hfront
  | ok p =>
      obtain ⟨hpos, hit, hfound⟩ := hres p rfl
      exact Ensures.pure ⟨rfl, (h.next hpos hit hfound).1⟩

/-- Without errors it gives the whole of the scan. -/
theorem iterate_scan (hsize : iter.totalSize = (w.fs.data iter.fd).length) (hoff : iter.offset = 0) :
    Ensures Reply.Clean (Prog.loop iterateRound (iter, [])) w
      (fun l _ => Scan (recordAt (w.fs.data iter.fd)) 0 l) (fun _ => True) := by
  refine Ensures.loop (I := fun s v => v = w ∧ s.1.fd = iter.fd ∧
    s.1.totalSize = (w.fs.data iter.fd).length ∧
    ∀ m, Scan (recordAt (w.fs.data iter.fd)) s.1.offset m →
      Scan (recordAt (w.fs.data iter.fd)) 0 (s.2 ++ m)) ?_ (fun _ _ _ => trivial)
    ⟨rfl, rfl, hsize, fun m hm => hoff ▸ hm⟩
  rintro ⟨it, out⟩ v ⟨rfl, hfd, htotal, hpath⟩
  change it.fd = iter.fd at hfd
  have hsize' : it.totalSize = (v.fs.data it.fd).length := by
    rw [hfd]
    exact htotal
  cases hfound : recordAt (v.fs.data it.fd) it.offset with
  | none =>
      obtain ⟨e, he⟩ := ccaskDatafileIterNext_stops it hsize' hfound
      refine he.sound.bind ?_
      rintro _ _ ⟨rfl, rfl⟩
      refine Ensures.pure ?_
      rw [hfd] at hfound
      have hscan := hpath [] (.stop hfound)
      rwa [List.append_nil] at hscan
  | some p =>
      refine (ccaskDatafileIterNext_computes hsize' hfound).sound.bind ?_
      rintro _ _ ⟨rfl, rfl⟩
      refine Ensures.pure ⟨rfl, hfd, htotal, fun m hm => ?_⟩
      rw [hfd] at hfound
      have hscan := hpath _ (.step hfound hm)
      show Scan _ 0 (out ++ [(p.1, it.offset)] ++ m)
      rwa [List.append_assoc]

section Returns

theorem mallocAll_returns (n : Nat) : Returns (mallocAll n) w n := by
  induction n generalizing w with
  | zero => exact Returns.pure _
  | succ n ih =>
      refine Returns.mono (malloc_returns.bind (M := n) fun rs b rest v _ => ?_) (by omega)
      cases b with
      | true => exact ih
      | false => exact Returns.pure _

/-- More calls than a read of a record can take. -/
def roundCalls : Nat := 2 ^ 34

/-- One call of the iterator returns, whatever the header says and the system answers. -/
theorem ccaskDatafileIterNext_returns : Returns (ccaskDatafileIterNext iter) w roundCalls := by
  unfold ccaskDatafileIterNext
  split
  · exact Returns.pure _
  · have hsum : 1 + ((16 + 1) + (2 + (2 ^ 33 + 0))) ≤ roundCalls := by decide
    refine Returns.mono (malloc_returns.bind fun rs b rest v _ => ?_) hsum
    cases b with
    | false => exact Returns.pure _
    | true =>
        refine safePread_returns.bind fun rs res rest u _ => ?_
        cases res with
        | fail e => exact Returns.pure _
        | retry e => exact Returns.pure _
        | ok headerBuf =>
            refine (mallocAll_returns 2).bind fun rs res rest v _ => ?_
            cases res with
            | fail e => exact Returns.pure _
            | retry e => exact Returns.pure _
            | ok _ =>
                generalize ccaskGetDatafileRecordHeader ⟨headerBuf, [], []⟩ = header
                have hkey := header.keySize.toNat_lt
                have hvalue := header.valueSize.toNat_lt
                refine Returns.bind ((safePreadv_returns (by simp [freshBuf_iov])
                  (by simp [freshBuf_iov]) (by simp)).mono ?_) fun rs res rest u hrun => ?_
                · simp only [wanted_cons, wanted_nil, freshBuf_iov]
                  omega
                · obtain ⟨-, ⟨bufs, rfl, -, -, -, hlens⟩ | ⟨rfl, -⟩ | ⟨rfl, -⟩⟩ :=
                    (safePreadv_ensures (fun _ => True) (by simp [freshBuf_iov])
                      (by simp [freshBuf_iov]) (by simp)).returned (fun _ _ => trivial) hrun
                  · have hlength := congrArg List.length hlens
                    simp only [List.length_map, List.length_cons, List.length_nil] at hlength
                    obtain ⟨key, value, rfl⟩ := List.length_eq_two.mp hlength
                    exact Returns.pure _
                  · exact Returns.pure _
                  · exact Returns.pure _

/-- The iteration returns when its scan ends, whatever the system answers. -/
theorem iterate_returns {l : List (DatafileRecord × Nat)}
    (hl : Scan (recordAt (w.fs.data iter.fd)) iter.offset l) :
    Returns (Prog.loop iterateRound (iter, [])) w ((l.length + 1) * roundCalls) := by
  refine Returns.loop (I := fun s v => v = w ∧ Ahead w iter.fd l s)
    (f := fun s : Iter × List (DatafileRecord × Nat) => (l.length + 1 - s.2.length) * roundCalls)
    iterateRound_consumes ?_ ⟨rfl, rfl, l, rfl, hl⟩
  rintro s v ⟨rfl, h⟩ rs hcalls
  have hle : s.2.length ≤ l.length := by
    obtain ⟨-, m, rfl, -⟩ := h
    rw [List.length_append]
    omega
  have hpay : (l.length + 1 - s.2.length) * roundCalls =
      (l.length - s.2.length) * roundCalls + roundCalls := by
    rw [← Nat.succ_mul]
    congr 1
    omega
  simp only [hpay] at hcalls ⊢
  have hreturns : Returns (ccaskDatafileIterNext s.1) v roundCalls := ccaskDatafileIterNext_returns
  obtain ⟨res, rest, u, hrun, hused⟩ := hreturns rs (by omega)
  obtain ⟨rfl, hres⟩ := ccaskDatafileIterNext_found.returned (fun _ _ => trivial) hrun
  have hround : (iterateRound s).run rs u = _ := Prog.run_bind_returned hrun
  rw [hround]
  cases res with
  | fail e => exact ⟨.inr s.2, rest, u, rfl, by simp only; omega⟩
  | retry e => exact ⟨.inr s.2, rest, u, rfl, by simp only; omega⟩
  | ok p =>
      obtain ⟨hpos, hit, hfound⟩ := hres p rfl
      obtain ⟨hnext, hlt⟩ := h.next hpos hit hfound
      refine ⟨.inl (p.2.2, s.2 ++ [(p.1, p.2.1)]), rest, u, rfl, ⟨rfl, hnext⟩, ?_⟩
      have hless : l.length + 1 - (s.2 ++ [(p.1, p.2.1)]).length = l.length - s.2.length := by
        simp only [List.length_append, List.length_cons, List.length_nil]
        omega
      rw [hless]
      omega

theorem ccaskDatafileIterOpen_returns :
    Returns (attempt 5 (ccaskDatafileIterOpen fileId)) w (5 * (5 * 1 + 1)) := by
  refine attempt_returns (I := fun _ => True) trivial (fun v _ => ?_)
    fun v _ => Ensures.trivial.mono (fun _ _ _ _ _ => trivial) fun _ _ => trivial
  refine Returns.bind (attempt_returns (I := fun _ => True) trivial (fun v _ => ?_)
    fun v _ => Ensures.trivial.mono (fun _ _ _ _ _ => trivial) fun _ _ => trivial) fun rs res rest u _ => ?_
  · refine Returns.call_bind fun r => ?_
    rcases r with n | _ | _ | _
    case transient => exact Returns.pure _
    case fail => exact Returns.pure _
    all_goals
      refine Returns.state_bind ?_
      cases v.fs.dir (fileName fileId .data) with
      | none => exact Returns.pure _
      | some ino => exact Returns.pure _
  · cases res with
    | fail e => exact Returns.pure _
    | retry e => exact Returns.pure _
    | ok ino => exact (lseekEnd_returns _).bind (M := 0) fun _ _ _ _ _ => Returns.pure _

end Returns

end Loop

section Main

variable {w : World} {fileId : Nat} {c : Bytes}

/-- The iteration of a datafile ends, what it gives tiles the file, and recovery from the file ends as
well, with entries whose bytes exist. -/
structure TilesFile (w : World) (fileId : Nat) (c : Bytes) : Prop where
  ends : ∃ N, Returns (iterateDatafile fileId) w N
  tiles : ∀ rs rest l v, (iterateDatafile fileId).run rs w = .returned l rest v →
    Tiles recordSize c.length 0 l
  recovers : ∀ upsert f I, Upserts upsert f I → I w → ∃ es : List KeydirRecord,
    Computes (recoverDatafile upsert fileId) w (.ok ()) (es.foldl f w) ∧
      ∀ e ∈ es, e.recordPos + (16 + e.key.length + e.valueSize.toNat) ≤ c.length

/-- A run without errors gives the scan of the whole file. -/
theorem iterateDatafile_scan (hfile : w.fs.read (fileName fileId .data) = some c) :
    Ensures Reply.Clean (iterateDatafile fileId) w (fun l _ => Scan (recordAt c) 0 l)
      (fun _ => True) := by
  obtain ⟨ino, hdir, rfl⟩ := Fs.exists_of_read hfile
  refine (attempt_computes (ccaskDatafileIterOpen_computes hdir) (by simp)).sound.bind ?_
  rintro _ _ ⟨rfl, rfl⟩
  exact iterate_scan rfl rfl

theorem noFalseStep_of_tiles (hfile : w.fs.read (fileName fileId .data) = some c)
    (hends : ∃ N, Returns (iterateDatafile fileId) w N)
    (htiles : ∀ rs rest l v, (iterateDatafile fileId).run rs w = .returned l rest v →
      Tiles recordSize c.length 0 l) : NoFalseStep c := by
  obtain ⟨N, hN⟩ := hends
  obtain ⟨rs, hrs, hn⟩ := exists_completed N
  obtain ⟨l, rest, v, hrun, -⟩ := hN rs hn
  have hscan := (iterateDatafile_scan hfile).returned hrs hrun
  exact noFalseStep_of_scan hscan (htiles rs rest l v hrun)

/-- The loop around the iterator ends and its records tile the file exactly when the iterator never goes
on inside a record. -/
theorem tilesFile_iff (hfile : w.fs.read (fileName fileId .data) = some c) :
    TilesFile w fileId c ↔ NoFalseStep c := by
  constructor
  · intro h
    exact noFalseStep_of_tiles hfile h.ends h.tiles
  · intro h
    obtain ⟨ino, hdir, rfl⟩ := Fs.exists_of_read hfile
    have hnone : ∀ q ∈ ([] : List DatafileRecord), Readable q := fun q hq => by cases hq
    obtain ⟨l, hscan, htiles⟩ := exists_tiling h hnone List.nil_prefix
    constructor
    case ends =>
      refine ⟨_, ccaskDatafileIterOpen_returns.bind (M := (l.length + 1) * roundCalls) ?_⟩
      intro rs res rest v hrun
      obtain ⟨rfl, hres⟩ := (ccaskDatafileIterOpen_ensures hdir).returned (fun _ _ => trivial) hrun
      cases res with
      | fail e => exact Returns.pure _
      | retry e => exact Returns.pure _
      | ok iter =>
          obtain ⟨rfl, hoff⟩ := hres iter rfl
          exact iterate_returns (hoff ▸ hscan)
    case tiles =>
      intro rs rest l' v hrun
      have hall : Ensures (fun _ => True) (iterateDatafile fileId) w (fun l' _ => l' <+: l)
          (fun _ => True) := by
        refine (ccaskDatafileIterOpen_ensures hdir).bind ?_
        rintro res u ⟨rfl, hres⟩
        cases res with
        | fail e => exact Ensures.pure List.nil_prefix
        | retry e => exact Ensures.pure List.nil_prefix
        | ok iter =>
            obtain ⟨rfl, hoff⟩ := hres iter rfl
            exact iterate_prefix (hoff ▸ hscan)
      exact htiles.of_prefix (hall.returned (fun _ _ => trivial) hrun)
    case recovers =>
      intro upsert f I hu hI
      refine ⟨entries fileId l, recoverDatafile_computes hu hI hdir hscan, ?_⟩
      intro e he
      obtain ⟨p, hp, rfl⟩ := List.mem_map.mp he
      obtain ⟨off', hfound⟩ := ((hscan.mem_iff p).mp hp).found
      have hsized := (recordAt_iff.mp hfound).1
      have hle := htiles.le_of_mem hp
      rw [recordSize, hsized.key] at hle
      exact hle

end Main

section Sample

/-- A file of two records and the front of a third one. -/
theorem tilesFile_one : letI := zlib
    let contents := (bytePut 0 97 98).record.bytes ++ (bytePut 0 99 100).record.bytes ++ [0, 0, 0]
    TilesFile (oneFile (fileName 0 .data) contents) 0 contents := by
  let _ := zlib
  exact (tilesFile_iff (read_oneFile _ _)).mpr (noFalseStep_of_lt (by decide +kernel))

/-- A record of 2^32 bytes: the header, a key of 2^32 - 17 bytes and a value of one byte. -/
def hugeRecord : DatafileRecord :=
  ⟨be32 0 ++ be32 0 ++ be32 4294967279 ++ be32 1, List.replicate 4294967279 0, [0]⟩

theorem header_hugeRecord : ccaskGetDatafileRecordHeader hugeRecord = ⟨0, 0, 4294967279, 1⟩ := by
  simp only [hugeRecord, ccaskGetDatafileRecordHeader, List.append_assoc, drop_be32, readBe32_be32,
    drop_be32_8, drop_be32_12, readBe32_be32_self]

theorem sized_hugeRecord : Sized hugeRecord := by
  constructor
  case header => rfl
  case key =>
    rw [header_hugeRecord]
    show _ = (List.replicate 4294967279 0).length
    rw [List.length_replicate]
    rfl
  case value =>
    rw [header_hugeRecord]
    rfl

theorem length_hugeRecord : hugeRecord.bytes.length = 2 ^ 32 := by
  have hkey : hugeRecord.key.length = 4294967279 := List.length_replicate
  have hvalue : hugeRecord.value.length = 1 := rfl
  rw [sized_hugeRecord.bytes_length, hkey, hvalue]
  rfl

/-- A file of this one record: the iterator stands in front of it for ever. -/
theorem iterate_huge_diverges :
    Diverges (iterateDatafile 0) (oneFile (fileName 0 .data) hugeRecord.bytes) := by
  refine (iterateDatafile_scan (read_oneFile _ _)).mono ?_ fun _ _ => trivial
  intro l _ hscan
  have hfound : recordAt hugeRecord.bytes 0 = some (hugeRecord, 0) := by
    refine recordAt_iff.mpr ⟨sized_hugeRecord, List.cons_ne_nil _ _, List.prefix_refl _, ?_⟩
    rw [length_hugeRecord, Nat.mod_self]
  cases hscan with
  | stop hn =>
      rw [hfound] at hn
      cases hn
  | step hn hrest =>
      rw [hfound] at hn
      obtain ⟨rfl, rfl⟩ := Prod.mk.inj (Option.some.inj hn)
      have hsame := congrArg List.length (Scan.unique hrest (.step hfound hrest))
      rw [List.length_cons] at hsame
      omega

/-- For such a file the iteration does not end. -/
theorem not_tilesFile_huge :
    ¬ TilesFile (oneFile (fileName 0 .data) hugeRecord.bytes) 0 hugeRecord.bytes := by
  intro h
  obtain ⟨N, hN⟩ := h.ends
  obtain ⟨rs, hrs, hn⟩ := exists_completed N
  obtain ⟨l, rest, v, hrun, -⟩ := hN rs hn
  exact iterate_huge_diverges.returned hrs hrun

end Sample

end Ccask.Audit
