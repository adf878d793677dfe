import Ccask.Audit.Restart
import Ccask.Audit.WriteEnds
import Ccask.Audit.Dump
import Ccask.Audit.DescriptorRace
import Ccask.Audit.HintFiles
import Ccask.Effect.Online

/-!
# Recovery under errors

Whatever stops an iterator is taken for the end of its file. Recovery upserts the entries of the records
that were found so far, which are the first ones of every file.
-/

namespace Ccask.Audit

open Ccask.Effect Ccask.Model Ccask.Index

section Iteration

variable {A : Reply → Prop} {w : World} {id : Nat} {ino : Ino} {size : Nat}

theorem mallocAll_ensures {α : Type} (n : Nat) {k : Status → Sys α} {Q : α → World → Prop}
    {C : World → Prop} (hC : C w) (hok : Ensures A (k (.ok ())) w Q C)
    (hfail : Ensures A (k (.fail (some .noMemory))) w Q C) : Ensures A (mallocAll n >>= k) w Q C := by
  induction n with
  | zero => exact hok
  | succ n ih =>
      rw [mallocAll, bind_assoc]
      refine malloc_ensures hC fun b => ?_
      cases b with
      | true => exact ih
      | false => exact hfail

/-- Whatever the system answers, the iterator hands out nothing but the hint record at its offset. -/
theorem ccaskHintfileIterNext_found (iter : Iter) : Ensures A (ccaskHintfileIterNext iter) w
    (fun r v => v = w ∧ ∀ p, r = .ok p → ∃ off,
      hintAt (w.fs.data iter.fd) iter.offset = some (p.1, off) ∧
        p.2 = (iter.offset, { iter with offset := off })) (fun v => v = w) := by
  have hfail : ∀ e, Ensures A (pure (.fail e) : Sys (Res (HintfileRecord × Nat × Iter))) w
      (fun r v => v = w ∧ ∀ p, r = .ok p → ∃ off,
        hintAt (w.fs.data iter.fd) iter.offset = some (p.1, off) ∧
          p.2 = (iter.offset, { iter with offset := off })) (fun v => v = w) :=
    fun e => Ensures.pure ⟨rfl, nofun⟩
  unfold ccaskHintfileIterNext
  split
  · exact hfail _
  refine malloc_ensures rfl fun b => ?_
  cases b with
  | false => exact hfail _
  | true =>
      refine (safePread_ensures A).bind ?_
      rintro r v ⟨rfl, ⟨rfl, hlen⟩ | ⟨rfl, -⟩ | ⟨rfl, -⟩⟩
      · refine malloc_ensures rfl fun b => ?_
        cases b with
        | false => exact hfail _
        | true =>
            refine (safePreadv_ensures A (by simp [freshBuf_iov]) (by simp [freshBuf_iov])
              (List.cons_ne_nil _ _)).bind ?_
            rintro r u ⟨rfl, ⟨bufs, rfl, hlast, hfits, hbytes, hlens⟩ | ⟨rfl, -⟩ | ⟨rfl, -⟩⟩
            · have hbufs := chunks_flatten bufs
              rw [hlens, hbytes] at hbufs
              have hhead := hlen (by decide)
              simp only [lastNonempty_singleton, freshBuf_iov] at hlast
              simp only [wanted_cons, wanted_nil, freshBuf_iov, hintfileRecordHeaderSize] at hfits hhead
              simp only [wanted_cons, wanted_nil, Nat.add_zero, List.map_cons, List.map_nil, Iovec.of,
                length_freshBuf, chunks, List.take_take, Nat.min_self] at hbufs
              subst hbufs
              refine Ensures.pure ⟨rfl, fun p hp => ?_⟩
              cases hp
              refine ⟨_, ?_, rfl⟩
              rw [hintAt, parseHint, if_pos (by
                simp only [List.length_drop]
                exact ⟨by omega, hlast, by omega⟩)]
              simp only [Option.map_some, List.drop_drop, hintfileRecordHeaderSize]
            · exact hfail _
            · exact hfail _
      · exact hfail _
      · exact hfail _

/-- All tries of an upsert make the entry, or do nothing. -/
theorem upserts_ensures (record : KeydirRecord) : Ensures A (attempt 5 (ccaskKeydirUpsert record)) w
    (fun r v => (r = .ok () ∧ v = upserted w record) ∨ (r.isOk = false ∧ v = w)) (fun v => v = w) := by
  refine attempt_succ_ensures (I := fun v => v = w) rfl ?_
  rintro v rfl
  refine Ensures.state_bind ?_
  split
  · exact Ensures.block rfl
  · cases ccaskKeydirFind record.key v with
    | some _ => exact Ensures.modify_bind (Ensures.pure ⟨.inl ⟨rfl, rfl⟩, fun _ hr => by cases hr⟩)
    | none =>
        refine malloc_ensures rfl fun b => ?_
        cases b with
        | false => exact Ensures.pure ⟨.inr ⟨rfl, rfl⟩, fun _ _ => rfl⟩
        | true =>
            refine malloc_ensures rfl fun b => ?_
            cases b with
            | false => exact Ensures.pure ⟨.inr ⟨rfl, rfl⟩, fun _ _ => rfl⟩
            | true => exact Ensures.modify_bind (Ensures.pure ⟨.inl ⟨rfl, rfl⟩, fun _ hr => by cases hr⟩)

end Iteration

section Recovery

variable {w u : World} {l : List Nat} {L : Nat → List (DatafileRecord × Nat)} {id : Nat} {ino : Ino}
  {m : List (DatafileRecord × Nat)}

/-- The first of these entries are in the key directory. -/
def Recovered (es : List KeydirRecord) (w u : World) : Prop :=
  ∃ es', es' <+: es ∧ u = es'.foldl upserted w

theorem Recovered.none (es : List KeydirRecord) (w : World) : Recovered es w w :=
  ⟨[], List.nil_prefix, rfl⟩

theorem Recovered.of_items {α : Type} {f : α → KeydirRecord} {items items' : List α}
    (h : items' <+: items) : Recovered (items.map f) w (items'.foldl (fun v p => upserted v (f p)) w) :=
  ⟨items'.map f, h.map f, List.foldl_map.symm⟩

/-- Opening an iterator over a file that is there. -/
theorem iterOpen_opens {id : Nat} {open' : Sys (Res Ino)} (h : Ensures (fun _ => True) (attempt 5 open') w
    (fun r v => v = w ∧ ∀ i, r = .ok i → i = ino) (fun v => v = w)) :
    Ensures (fun _ => True) (attempt 5 (iterOpen id open')) w
      (fun r v => v = w ∧ ∀ iter, r = .ok iter → ∃ size, iter = ⟨id, ino, 0, size⟩) (fun v => v = w) := by
  refine attempt_ensures (I := fun v => v = w) rfl (fun e v hv => ⟨hv, nofun⟩) ?_
  rintro v rfl
  refine h.bind ?_
  rintro r u ⟨rfl, hr⟩
  cases r with
  | fail e => exact Ensures.pure ⟨rfl, nofun⟩
  | retry e => exact Ensures.pure ⟨rfl, nofun⟩
  | ok i =>
      obtain rfl := hr i rfl
      have hsize : Ensures (fun _ => True) (lseekEnd (some i)) u (fun _ v => v = u) (fun v => v = u) := by
        refine Ensures.call_bind rfl fun r _ => ?_
        cases r with
        | done n => exact Ensures.state_bind (Ensures.pure rfl)
        | intr => exact Ensures.state_bind (Ensures.pure rfl)
        | transient => exact Ensures.pure rfl
        | fail => exact Ensures.pure rfl
      refine hsize.bind ?_
      rintro size v rfl
      refine Ensures.pure ⟨rfl, fun iter hiter => ?_⟩
      cases hiter
      exact ⟨_, rfl⟩

/-- A round that finds a record upserts its entry, or recovery of the file ends. -/
theorem recoverDatafileRound_ensures (iter : Iter) :
    Ensures (fun _ => True) (recoverDatafileRound ccaskKeydirUpsert id iter) w
      (fun r u => (∃ a off, r = .inl { iter with offset := off } ∧
          recordAt (w.fs.data iter.fd) iter.offset = some (a, off) ∧
          u = upserted w (datafileEntry id a iter.offset)) ∨ ∃ res, r = .inr res ∧ True ∧ u = w)
      (fun u => u = w) := by
  refine ccaskDatafileIterNext_found.bind ?_
  rintro r v ⟨rfl, hr⟩
  cases r with
  | fail e => exact Ensures.pure (.inr ⟨_, rfl, trivial, rfl⟩)
  | retry e => exact Ensures.pure (.inr ⟨_, rfl, trivial, rfl⟩)
  | ok p =>
      obtain ⟨hpos, hiter, hat⟩ := hr p rfl
      obtain ⟨a, pos, iter'⟩ := p
      obtain rfl : pos = iter.offset := hpos
      refine (upserts_ensures _).bind ?_
      rintro res u (⟨rfl, rfl⟩ | ⟨hres, rfl⟩)
      · exact Ensures.pure (.inl ⟨a, iter'.offset, congrArg Sum.inl hiter, hat, rfl⟩)
      · cases res with
        | ok x => cases hres
        | fail e => exact Ensures.pure (.inr ⟨_, rfl, trivial, rfl⟩)
        | retry e => exact Ensures.pure (.inr ⟨_, rfl, trivial, rfl⟩)

theorem recoverHintfileRound_ensures (iter : Iter) :
    Ensures (fun _ => True) (recoverHintfileRound ccaskKeydirUpsert id iter) w
      (fun r u => (∃ a off, r = .inl { iter with offset := off } ∧
          hintAt (w.fs.data iter.fd) iter.offset = some (a, off) ∧
          u = upserted w (hintfileEntry id a)) ∨ ∃ res, r = .inr res ∧ True ∧ u = w)
      (fun u => u = w) := by
  refine (ccaskHintfileIterNext_found iter).bind ?_
  rintro r v ⟨rfl, hr⟩
  cases r with
  | fail e => exact Ensures.pure (.inr ⟨_, rfl, trivial, rfl⟩)
  | retry e => exact Ensures.pure (.inr ⟨_, rfl, trivial, rfl⟩)
  | ok p =>
      obtain ⟨off, hat, hp⟩ := hr p rfl
      obtain ⟨a, pos, iter'⟩ := p
      cases hp
      refine (upserts_ensures _).bind ?_
      rintro res u (⟨rfl, rfl⟩ | ⟨hres, rfl⟩)
      · exact Ensures.pure (.inl ⟨a, off, rfl, hat, rfl⟩)
      · cases res with
        | ok x => cases hres
        | fail e => exact Ensures.pure (.inr ⟨_, rfl, trivial, rfl⟩)
        | retry e => exact Ensures.pure (.inr ⟨_, rfl, trivial, rfl⟩)

/-- Recovery by a scan upserts the first entries of the file, whatever it returns. -/
theorem recoverDatafile_prefix (hdir : w.fs.dir (fileName id .data) = some ino)
    (hscan : Scan (recordAt (w.fs.data ino)) 0 m) :
    Ensures (fun _ => True) (recoverDatafile ccaskKeydirUpsert id) w
      (fun _ u => Recovered (entries id m) w u) (Recovered (entries id m) w) := by
  have hfd : Ensures (fun _ => True) (attempt 5 (ccaskFilesGetDatafileFd id)) w
      (fun r v => v = w ∧ ∀ i, r = .ok i → i = ino) (fun v => v = w) :=
    ccaskFilesGetDatafileFd_ensures.mono
      (fun r v h => ⟨h.1, fun i hi => Option.some.inj ((h.2 i hi).symm.trans hdir)⟩) fun _ h => h
  refine ((iterOpen_opens hfd).mono (fun _ _ h => h) fun _ h => ?_).bind ?_
  · rw [h]
    exact .none _ _
  · rintro r v ⟨rfl, hr⟩
    cases r with
    | fail e => exact Ensures.pure (.none _ _)
    | retry e => exact Ensures.pure (.none _ _)
    | ok iter =>
        obtain ⟨size, rfl⟩ := hr iter rfl
        show Ensures _ (Prog.loop (recoverDatafileRound ccaskKeydirUpsert id) ⟨id, ino, 0, size⟩) v _ _
        refine (Ensures.loop_prefix (s := fun off => (⟨id, ino, off, size⟩ : Iter)) (Q := fun _ => True)
          (f := fun v p => upserted v (datafileEntry id p.1 p.2)) (I := fun u => u.fs = v.fs)
          ?_ hscan rfl).mono ?_ ?_
        · intro off u hu
          refine (recoverDatafileRound_ensures _).mono ?_ fun _ h => h
          rintro r x (⟨a, off', rfl, hat, rfl⟩ | h)
          · rw [hu] at hat
            exact .inl ⟨a, off', rfl, hat, rfl, hu⟩
          · exact .inr h
        · rintro b u ⟨-, -, m', hm, rfl⟩
          exact .of_items hm
        · rintro u ⟨-, m', hm, rfl⟩
          exact .of_items hm

/-- What the iterator finds in a complete hint file. -/
theorem scan_hints (id : Nat) (hm : ∀ p ∈ m, Hintable p) :
    Scan (hintAt (hints m)) 0 (locate HintfileRecord.bytes 0 (m.map hintOf)) ∧
      (locate HintfileRecord.bytes 0 (m.map hintOf)).map (fun q => hintfileEntry id q.1) =
        entries id m := by
  constructor
  · have h := scan_layout hintAt (P := fun r => ∃ p, Hintable p ∧ r = hintOf p)
      (fun pre r post ⟨p, hp, hr⟩ => hintAt_layout pre post hp hr)
      (l := m.map hintOf) (by
        intro r hr
        obtain ⟨p, hp, rfl⟩ := List.mem_map.mp hr
        exact ⟨p, hm p hp, rfl⟩) [] [] (m := []) (.stop (by simp [hintAt, parseHint]))
    simpa [hints] using h
  · rw [show (fun q : HintfileRecord × Nat => hintfileEntry id q.1) =
      hintfileEntry id ∘ Prod.fst from rfl, ← List.map_map, map_fst_locate, List.map_map]
    exact List.map_congr_left fun p hp => hintfileEntry_hintOf (hm p hp)

/-- So does recovery from a complete hint file. -/
theorem recoverHintfile_prefix (hdir : w.fs.dir (fileName id .hint) = some ino)
    (hm : ∀ p ∈ m, Hintable p) (hdata : w.fs.data ino = hints m) :
    Ensures (fun _ => True) (recoverHintfile ccaskKeydirUpsert id) w
      (fun _ u => Recovered (entries id m) w u) (Recovered (entries id m) w) := by
  obtain ⟨hscan, hentries⟩ := scan_hints id hm
  rw [← hdata] at hscan
  have hfd : Ensures (fun _ => True) (attempt 5 (ccaskFilesGetHintfileFd id)) w
      (fun r v => v = w ∧ ∀ i, r = .ok i → i = ino) (fun v => v = w) := by
    refine (openCreate_ensures (fileName id .hint)).mono (fun r v h => ?_) fun _ h => h
    rw [Fs.create_of_some _ _ hdir] at h
    rcases h with ⟨hfail, rfl⟩ | ⟨rfl, rfl⟩
    · refine ⟨rfl, fun i hi => ?_⟩
      rw [hi] at hfail
      cases hfail
    · refine ⟨rfl, fun i hi => ?_⟩
      cases hi
      rfl
  refine ((iterOpen_opens hfd).mono (fun _ _ h => h) fun _ h => ?_).bind ?_
  · rw [h]
    exact .none _ _
  · rintro r v ⟨rfl, hr⟩
    cases r with
    | fail e => exact Ensures.pure (.none _ _)
    | retry e => exact Ensures.pure (.none _ _)
    | ok iter =>
        obtain ⟨size, rfl⟩ := hr iter rfl
        rw [← hentries]
        show Ensures _ (Prog.loop (recoverHintfileRound ccaskKeydirUpsert id) ⟨id, ino, 0, size⟩) v _ _
        refine (Ensures.loop_prefix (s := fun off => (⟨id, ino, off, size⟩ : Iter)) (Q := fun _ => True)
          (f := fun v p => upserted v (hintfileEntry id p.1)) (I := fun u => u.fs = v.fs)
          ?_ hscan rfl).mono ?_ ?_
        · intro off u hu
          refine (recoverHintfileRound_ensures _).mono ?_ fun _ h => h
          rintro r x (⟨a, off', rfl, hat, rfl⟩ | h)
          · rw [hu] at hat
            exact .inl ⟨a, off', rfl, hat, rfl, hu⟩
          · exact .inr h
        · rintro b u ⟨-, -, m', hm', rfl⟩
          exact .of_items hm'
        · rintro u ⟨-, m', hm', rfl⟩
          exact .of_items hm'

/-- The first entries of every file, as many as `n` says, from the oldest file on. -/
def firstEntries (ids : List Nat) (L : Nat → List (DatafileRecord × Nat)) (n : Nat → Nat) : List KeydirRecord :=
  ids.flatMap fun id => (entries id (L id)).take (n id)

theorem firstEntries_cons (ids : List Nat) (n : Nat → Nat) :
    firstEntries (id :: ids) L n = (entries id (L id)).take (n id) ++ firstEntries ids L n :=
  List.flatMap_cons

theorem fs_foldl_upserted (es : List KeydirRecord) (w : World) : (es.foldl upserted w).fs = w.fs := by
  rw [foldl_upserted]

/-- Recovery of one file, in whichever way. -/
theorem recoverFile_first (file : CcaskFile) (hdisk : Disk w.fs l L) (hmem : file.fileId ∈ l)
    (hhint : file.hasHint = true → (w.fs.read (fileName file.fileId .hint)).isSome) :
    Ensures (fun _ => True) (if file.hasHint then recoverHintfile ccaskKeydirUpsert file.fileId
      else recoverDatafile ccaskKeydirUpsert file.fileId) w
      (fun _ u => Recovered (entries file.fileId (L file.fileId)) w u)
      (Recovered (entries file.fileId (L file.fileId)) w) := by
  cases hflag : file.hasHint with
  | true =>
      obtain ⟨c, hc⟩ := Option.isSome_iff_exists.mp (hhint hflag)
      obtain ⟨-, hdata⟩ := hdisk.hints file.fileId hmem c hc
      obtain ⟨ino, hdir, hino⟩ := Fs.exists_of_read hc
      exact recoverHintfile_prefix hdir (hdisk.hintable file.fileId hmem) (hino.trans hdata)
  | false =>
      obtain ⟨c, hc, hscan⟩ := hdisk.scans file.fileId hmem
      obtain ⟨ino, hdir, rfl⟩ := Fs.exists_of_read hc
      exact recoverDatafile_prefix hdir hscan

/-- Recovery upserts first entries of every file, whatever the system answers. -/
theorem recoverFiles_prefixes (files : List CcaskFile) (hdisk : Disk w.fs l L)
    (hnodup : (files.map CcaskFile.fileId).Nodup)
    (hfiles : ∀ file ∈ files, file.fileId ∈ l ∧
      (file.hasHint = true → (w.fs.read (fileName file.fileId .hint)).isSome)) :
    Ensures (fun _ => True) (recoverFiles ccaskKeydirUpsert files) w
      (fun _ u => ∃ n, u = (firstEntries (files.map CcaskFile.fileId) L n).foldl upserted w)
      (fun u => u.fs = w.fs) := by
  induction files generalizing w with
  | nil => exact Ensures.pure ⟨fun _ => 0, rfl⟩
  | cons file files ih =>
      obtain ⟨hmem, hhint⟩ := hfiles file List.mem_cons_self
      rw [List.map_cons, List.nodup_cons] at hnodup
      -- the files that come later get the numbers `n`, this one the length of what was recovered
      have hjoin : ∀ (es : List KeydirRecord) (n : Nat → Nat), es <+: entries file.fileId (L file.fileId) →
          ∃ n', es ++ firstEntries (files.map CcaskFile.fileId) L n =
            firstEntries ((file :: files).map CcaskFile.fileId) L n' := by
        intro es n hes
        refine ⟨Function.update n file.fileId es.length, ?_⟩
        have hrest : firstEntries (files.map CcaskFile.fileId) L (Function.update n file.fileId es.length) =
            firstEntries (files.map CcaskFile.fileId) L n := by
          refine List.flatMap_congr fun id hid => ?_
          rw [Function.update_of_ne (by rintro rfl; exact hnodup.1 hid)]
        rw [List.map_cons, firstEntries_cons, Function.update_self, ← List.prefix_iff_eq_take.mp hes, hrest]
      rw [recoverFiles]
      refine ((recoverFile_first file hdisk hmem hhint).mono (fun _ _ h => h) fun u hu => ?_).bind ?_
      · obtain ⟨es, -, rfl⟩ := hu
        exact fs_foldl_upserted es w
      · rintro res u ⟨es, hes, rfl⟩
        have hdone : ∃ n, es.foldl upserted w =
            (firstEntries ((file :: files).map CcaskFile.fileId) L n).foldl upserted w := by
          obtain ⟨n, hn⟩ := hjoin es (fun _ => 0) hes
          have hzero : firstEntries (files.map CcaskFile.fileId) L (fun _ => 0) = [] :=
            List.flatMap_eq_nil_iff.mpr fun _ _ => List.take_zero
          rw [hzero, List.append_nil] at hn
          exact ⟨n, by rw [← hn]⟩
        cases res with
        | fail e => exact Ensures.pure hdone
        | retry e => exact Ensures.pure hdone
        | ok x =>
            refine (ih (by rw [fs_foldl_upserted]; exact hdisk) hnodup.2 fun g hg => ?_).mono ?_ ?_
            · rw [fs_foldl_upserted]
              exact hfiles g (List.mem_cons_of_mem _ hg)
            · rintro b v ⟨n, rfl⟩
              obtain ⟨n', hn'⟩ := hjoin es n hes
              exact ⟨n', by rw [← hn', List.foldl_append]⟩
            · intro v hv
              rw [hv, fs_foldl_upserted]

end Recovery

end Ccask.Audit
