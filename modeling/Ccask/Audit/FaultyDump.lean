import Ccask.Audit.DumpReplies
import Ccask.Audit.Onward

/-!
# A dump that gets to its end

Calls may fail while the entries are read and packed, and be tried again. When the loop gets to its end all
the same, the temporary files hold the live records as they would without errors.
-/

namespace Ccask.Audit

open Ccask.Effect Ccask.Model Ccask.Index

section Dumping

variable [Zlib] {w₀ w : World} {b : Bins Put} {fd : Ino} {seg : Nat → List Put}

omit [Zlib] in
/-- A read leaves a mounted store mounted, whatever the replies. -/
theorem ccaskReadDatafileRecord_mounted (hm : Mounted w) (id : Nat) (record : DatafileRecord) (pos : Nat) :
    Ensures (fun _ => True) (ccaskReadDatafileRecord id record pos) w (fun _ v => Mounted v)
      (fun _ => True) := by
  have hleaves : ∀ {u v : World}, Leaves .ended u v → Mounted u → Mounted v :=
    fun h hu => (h.mounted hu (by simp)).1
  rw [ccaskReadDatafileRecord_sections]
  refine ((readCheck_moves (R := Eq) w).mono (fun _ _ h => h) fun _ _ => trivial).bind ?_
  rintro r u rfl
  cases r with
  | fail e => exact Ensures.pure hm
  | retry e => exact Ensures.pure hm
  | ok needsOpen =>
      have hopen : Ensures (fun _ => True) (if needsOpen then readOpen id else pure (.ok ())) w
          (fun _ v => Mounted v) (fun _ => True) := by
        cases needsOpen with
        | true => exact (readOpen_ensures .ended).mono (fun _ _ h => hleaves h hm) fun _ _ => trivial
        | false => exact Ensures.pure hm
      refine hopen.bind fun r u hu => ?_
      cases r with
      | fail e => exact Ensures.pure hu
      | retry e => exact Ensures.pure hu
      | ok _ => exact (readTransfer_ensures .ended).mono (fun _ _ h => hleaves h hu) fun _ _ => trivial

/-- A read at the position of the record of a put gives the record or nothing. -/
theorem readPut_ensures (hm : Mounted w) {p : Put} {id : Nat} {pre post : Bytes} (hid : id ∈ ids w)
    (hread : w.fs.read (fileName id .data) = some (pre ++ p.record.bytes ++ post)) :
    Ensures (fun _ => True) (attempt 5 (ccaskReadDatafileRecord id (buffersOf (p.entry id pre.length)) pre.length))
      w (fun r v => (∀ record, r = .ok record → record = p.record) ∧ Touched w v ∧ Mounted v)
      (fun _ => True) := by
  have hkey : (p.entry id pre.length).key.length < 2 ^ 32 := p.key.length_lt
  have hreads := (((ccaskReadDatafileRecord_reads (w := w) hkey).and
    ((ccaskReadDatafileRecord_touches id (buffersOf (p.entry id pre.length)) pre.length w).mono
      (fun _ _ h => h) fun _ _ => trivial)).and (ccaskReadDatafileRecord_mounted hm id _ _))
  refine attempt_succ_ensures (I := fun v => v = w) rfl ?_
  intro u hu
  subst u
  refine hreads.mono ?_ fun _ _ => trivial
  rintro r v ⟨⟨hr, ht⟩, hv⟩
  refine ⟨⟨?_, ht, hv⟩, ?_⟩
  · rintro record rfl
    obtain ⟨ino, hserved, -, -, rfl⟩ := hr
    obtain ⟨ino', hdir, hdata⟩ := Fs.exists_of_read hread
    change servedBy id _ = _ at hserved
    rw [hm.served hid hdir] at hserved
    obtain rfl := Option.some.inj hserved
    have hdrop : (w.fs.data ino').drop pre.length = p.record.bytes ++ post := by
      rw [hdata, List.append_assoc, List.drop_left]
    show readBack ((w.fs.data ino').drop pre.length) _ _ = _
    rw [hdrop]
    have hback := readBack_of_prefix (b := p.record.bytes ++ post) p.sized.header (List.prefix_append _ _)
    rw [Put.record_key, Put.record_value] at hback
    have hvalue : (p.entry id pre.length).valueSize.toNat = p.value.bytes.length := Ptr.toNat_size p.value
    rw [hvalue]
    exact hback
  · rintro e rfl
    exact hr.elim

/-- One round of the loop over the entries puts the record into the bins, or the loop ends. -/
theorem Dumped.round_ensures (h : Dumped w₀ w b) (hfd : w.fs.dir (fileName b.last .tempData) = some fd)
    {x : Nat × Put × Nat} (hx : Found w₀ x) {b' : Bins Put}
    (hb' : b' = b.addOnto recordBytes w₀.maxActiveFileSize.toNat x.2.1)
    (hstale : ∀ i, b.last < i → i ≤ b'.last →
      (w₀.fs.read (fileName i .tempData)).getD [] = written (b.bin i)) :
    Ensures (fun _ => True) (dumpRound (logEntry x) b.last fd) w
      (fun r w' => (∀ n, r ≠ .inl (.finished n)) ∧ ∀ p, r = .inr p → p.1 = b'.last ∧ Dumped w₀ w' b' ∧
        w'.fs.dir (fileName b'.last .tempData) = some p.2) (fun _ => True) := by
  obtain ⟨pre, post, hread, hpos⟩ := hx.read
  have hid := hx.mem
  rw [← h.keeps.read_data] at hread
  rw [← h.keeps.ids_eq] at hid
  have hcall := readPut_ensures h.mounted hid hread
  rw [← hpos] at hcall
  refine ((ccaskAllocateDatafileRecord_ensures _ _).mono (fun _ _ h => h) fun _ _ => trivial).bind ?_
  rintro r v ⟨hv, hbuffers⟩
  subst v
  cases r with
  | fail e => exact Ensures.pure ⟨by simp, by simp⟩
  | retry e => exact Ensures.pure ⟨by simp, by simp⟩
  | ok buffers =>
      obtain rfl : buffers = buffersOf (logEntry x) := hbuffers buffers rfl
      refine hcall.bind ?_
      rintro r u ⟨hrecord, ht, hu⟩
      cases r with
      | fail e => exact Ensures.pure ⟨by simp, by simp⟩
      | retry e => exact Ensures.pure ⟨by simp, by simp⟩
      | ok record =>
          obtain rfl := hrecord record rfl
          dsimp only
          have hfd' : u.fs.dir (fileName b.last .tempData) = some fd := by rw [ht.fs_eq]; exact hfd
          have hdata : u.fs.data fd = written (b.bin b.last) := by
            have hlast := h.temps b.last (Nat.le_refl _)
            rw [Fs.read, hfd, Option.map_some] at hlast
            rw [ht.fs_eq]
            exact Option.some.inj hlast
          have hmax : u.maxActiveFileSize = w₀.maxActiveFileSize := by rw [ht.same, h.keeps.same]
          have hseek : Ensures (fun _ => True) (lseekEnd (some fd)) u
              (fun size v => v = u ∧ ∀ n, size = some n → n = (u.fs.data fd).length) (fun _ => True) :=
            (lseekEnd_ensures fd).mono (fun _ _ h => h) fun _ _ => trivial
          -- the file the record goes to, and the state in which it is written
          have htemp : Ensures (fun _ => True)
              (tempFileFor b.last fd (ccaskGetDatafileRecordTotalSize x.2.1.record)) u
              (fun r v => ∀ p, r = .ok p → p.1 = b'.last ∧
                v.fs.dir (fileName b'.last .tempData) = some p.2 ∧
                Dumped w₀ (v.append p.2 x.2.1.record.bytes) b') (fun _ => True) := by
            refine hseek.bind ?_
            rintro size v ⟨hv, hsize⟩
            subst v
            cases size with
            | none => exact Ensures.pure (by simp)
            | some pos =>
                obtain rfl := hsize pos rfl
                refine Ensures.state_bind ?_
                have htotal := bytes_length x.2.1.record
                rw [hmax, hdata, ← htotal]
                split
                · rename_i hlt
                  replace hb' := hb'.trans (if_pos hlt)
                  subst hb'
                  refine (((openCreate_oneCall _ u).ensures 5).mono (fun _ _ h => h) fun _ _ => trivial).bind ?_
                  rintro r v (⟨hr, -⟩ | ⟨hr, hv⟩)
                  · cases r with
                    | ok i => cases hr
                    | fail e => exact Ensures.pure (by simp)
                    | retry e => exact Ensures.pure (by simp)
                  · subst v r
                    refine Ensures.pure fun p hp => ?_
                    cases hp
                    have hcreated := Fs.data_create_self u.fs (fileName (b.last + 1) .tempData)
                    rw [ht.fs_eq, h.rest _ (Nat.lt_succ_self _), hstale _ (Nat.lt_succ_self _) (Nat.le_refl _),
                      ← ht.fs_eq] at hcreated
                    refine ⟨rfl, Fs.dir_create_self _ _, h.append
                      (u := { u with fs := (u.fs.create (fileName (b.last + 1) .tempData)).1 })
                      (trans_of Keeps (Keeps.of_touched ht) (Keeps.create u _)) ?_ ?_ (Fs.dir_create_self _ _)
                      (Nat.le_succ _) (Nat.le_refl _) ?_⟩
                    · exact hu.congr rfl fun id => Fs.dir_create_of_ne _ _ (by simp)
                    · intro i hi
                      rw [Fs.read_create, Function.update_of_ne (by simpa using hi), ht.fs_eq]
                    · rw [hcreated, written_concat]
                · rename_i hle
                  replace hb' := hb'.trans (if_neg hle)
                  subst hb'
                  refine Ensures.pure fun p hp => ?_
                  cases hp
                  refine ⟨rfl, hfd', h.append (Keeps.of_touched ht) hu ?_ hfd' (Nat.le_refl _) (Nat.le_succ _) ?_⟩
                  · intro i _
                    rw [ht.fs_eq]
                  · rw [hdata, written_concat]
          refine htemp.bind ?_
          intro r v hv
          cases r with
          | error i => exact Ensures.pure ⟨by simp, by simp⟩
          | ok p =>
              obtain ⟨hp, hdir, hdumped⟩ := hv p rfl
              refine ((safeWritev_ensures (fun _ => True) (iov_fits _) (by simp [DatafileRecord.iov])).mono
                (fun _ _ h => h) fun _ _ => trivial).bind ?_
              rintro r y (⟨rfl, -, rfl⟩ | ⟨rfl, -⟩)
              · refine Ensures.pure ⟨by simp, fun q hq => ?_⟩
                obtain rfl := Sum.inr.inj hq
                rw [gather_iov]
                exact ⟨hp, hdumped, hdir⟩
              · exact Ensures.pure ⟨by simp, by simp⟩

/-- The loop packs the records of the entries into the bins when it gets to its end. -/
theorem Dumped.run_ensures {xs : List (Nat × Put × Nat)} {b' : Bins Put} (h : Dumped w₀ w b)
    (hfd : w.fs.dir (fileName b.last .tempData) = some fd) (hxs : ∀ x ∈ xs, Found w₀ x)
    (hb' : b' = b.addAllOnto recordBytes w₀.maxActiveFileSize.toNat (xs.map fun x => x.2.1))
    (hstale : ∀ i, b.last < i → i ≤ b'.last →
      (w₀.fs.read (fileName i .tempData)).getD [] = written (b.bin i)) :
    Ensures (fun _ => True) (dumpEntries (xs.map logEntry) b.last fd) w
      (fun r v => ∀ n, r = .finished n → n = b'.last ∧ Dumped w₀ v b') (fun _ => True) := by
  induction xs generalizing w b fd with
  | nil =>
      subst hb'
      refine Ensures.pure fun n hn => ?_
      cases hn
      exact ⟨rfl, h⟩
  | cons x xs ih =>
      rw [List.map_cons, Bins.addAllOnto, List.foldl_cons] at hb'
      have hle : (b.addOnto recordBytes w₀.maxActiveFileSize.toNat x.2.1).last ≤ b'.last := by
        rw [hb']
        exact Bins.last_le_addAllOnto _ _ _ _
      rw [List.map_cons, dumpEntries_cons]
      refine (h.round_ensures hfd (hxs x List.mem_cons_self) rfl
        fun i hi hi' => hstale i hi (Nat.le_trans hi' hle)).bind ?_
      rintro r u ⟨hunfinished, hnext⟩
      cases r with
      | inl d => exact Ensures.pure fun n hn => absurd (congrArg Sum.inl hn) (hunfinished n)
      | inr p =>
          obtain ⟨hlast, hu, hfd'⟩ := hnext p rfl
          rw [Sum.elim_inr, hlast]
          refine ih hu hfd' (fun y hy => hxs y (List.mem_cons_of_mem _ hy)) hb' fun i hi hi' => ?_
          rw [Bins.bin_addOnto hi]
          exact hstale i (Nat.lt_of_le_of_lt (Bins.last_le_addAllOnto _ _ b [x.2.1]) hi) hi'

/-- Whatever the replies, a dump that gets to its end has packed the records that the key directory leads
to. -/
theorem fillTemps_dumps_of_table {xs : List (Nat × Put × Nat)} (hm : Mounted w) (htable : w.hashTable = xs.map logEntry)
    (hfound : ∀ x ∈ xs, Found w x)
    (hb : b = Bins.init.addAll recordBytes w.maxActiveFileSize.toNat (xs.map fun x => x.2.1))
    (hnone : ∀ i, w.fs.read (fileName i .tempData) = none) :
    Ensures (fun _ => True) fillTemps w
      (fun r v => ∀ n, r = .ok (.finished n) → n = b.last ∧ Dumped (locked w) v b) (fun _ => True) := by
  have hstart : Dumped (locked w) (locked { w with fs := (w.fs.create (fileName 0 .tempData)).1 })
      ⟨0, fun _ => []⟩ := by
    refine ⟨Keeps.create (locked w) 0, hm.congr rfl fun id => Fs.dir_create_of_ne _ _ (by simp),
      fun i hi => ?_, fun i hi => ?_⟩
    · obtain rfl := Nat.le_zero.mp hi
      change (w.fs.create (fileName 0 .tempData)).1.read _ = _
      rw [Fs.read_create, Function.update_self, hnone]
      rfl
    · change (w.fs.create (fileName 0 .tempData)).1.read _ = _
      rw [Fs.read_create, Function.update_of_ne]
      · rfl
      · have hne : i ≠ 0 := Nat.ne_of_gt hi
        simpa using hne
  refine (((openCreate_oneCall (fileName 0 .tempData) w).ensures 5).mono (fun _ _ h => h)
    fun _ _ => trivial).bind ?_
  rintro r v (⟨hr, -⟩ | ⟨hr, hv⟩)
  · cases r with
    | ok i => cases hr
    | fail e => exact Ensures.pure (by simp)
    | retry e => exact Ensures.pure (by simp)
  · subst v r
    refine Ensures.bind (Ensures.modify_bind (Ensures.state_bind (Ensures.pure ⟨rfl, rfl⟩)))
      (Q := fun es v => es = w.hashTable ∧ v = locked { w with fs := (w.fs.create (fileName 0 .tempData)).1 }) ?_
    rintro es v ⟨hes, hv⟩
    subst v es
    have hrun := hstart.run_ensures (Fs.dir_create_self _ _)
      (fun x hx => ⟨(hfound x hx).mem, (hfound x hx).read, (hfound x hx).value⟩)
      (show b = _ by rw [hb, Bins.addAll_eq_addAllOnto fun _ _ => rfl]; rfl) fun i _ _ => by
        show (w.fs.read _).getD [] = _
        rw [hnone]
        rfl
    rw [← htable] at hrun
    refine hrun.bind fun d u hd => Ensures.pure fun n hn => ?_
    exact hd n (Res.ok.inj hn)

/-- Those are the live records. -/
theorem fillTemps_dumps (h : Serves w seg)
    (hb : b = packed (history (ids w) seg) w.maxActiveFileSize.toNat)
    (hnone : ∀ i, w.fs.read (fileName i .tempData) = none) :
    Ensures (fun _ => True) fillTemps w
      (fun r v => ∀ n, r = .ok (.finished n) → n = b.last ∧ Dumped (locked w) v b) (fun _ => True) :=
  fillTemps_dumps_of_table h.mounted h.table_live (fun _ hx => h.found hx)
    (by rw [hb, packed, map_live_put]) hnone

end Dumping

end Ccask.Audit
