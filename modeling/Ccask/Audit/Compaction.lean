import Ccask.Audit.Refinement
import Ccask.Audit.Replace

/-!
# Compaction and restart

Without errors a compaction leaves datafiles with the last record of every key and nothing
else. A start on them gives the store back.
-/

namespace Ccask.Audit

open Ccask.Effect Ccask.Model Ccask.Index

section Packed

variable [Zlib] {hist : List Put} {limit : Nat}

theorem packed_items (hist : List Put) (limit : Nat) :
    (packed hist limit).items = Index.replay putKey [] hist :=
  Bins.items_addAll _ _

theorem packed_fits (hist : List Put) (limit : Nat) :
    (packed hist limit).Fits recordBytes limit :=
  Bins.Fits.init.addAll _

theorem mem_packed {i : Nat} (hi : i ≤ (packed hist limit).last) {p : Put}
    (hp : p ∈ (packed hist limit).bin i) : p ∈ hist := by
  have hitems : p ∈ (packed hist limit).items :=
    List.mem_flatMap.mpr ⟨i, List.mem_range.mpr (Nat.lt_succ_of_le hi), hp⟩
  rw [packed_items] at hitems
  exact Index.mem_of_mem_replay hitems

theorem length_packed (hgood : ∀ p ∈ hist, Good p) (hlimit : limit < 2 ^ 64) {i : Nat}
    (hi : i ≤ (packed hist limit).last) : (written ((packed hist limit).bin i)).length < 2 ^ 64 := by
  obtain hle | ⟨p, hp⟩ := packed_fits hist limit i hi
  · exact Nat.lt_of_le_of_lt hle hlimit
  · have hsize := (hgood p (mem_packed hi (by rw [hp]; exact List.mem_singleton_self p))).size.2
    rw [hp, written, layout_cons, layout_nil, List.append_nil]
    omega

end Packed

section Directory

variable {w v : World} {fs fs' : Fs} {b : Bins Put} {k : Nat}

/-- The directory `fs'` after all files of `fs` have been unlinked and the first `k` temporary files
renamed. -/
structure Renamed (k : Nat) (fs fs' : Fs) : Prop where
  data : ∀ i, fs'.read (fileName i .data) = if i < k then fs.read (fileName i .tempData) else none
  hint : ∀ i, fs'.read (fileName i .hint) = none
  temp : ∀ i, fs'.read (fileName i .tempData) = if i < k then none else fs.read (fileName i .tempData)
  other : ∀ name, (∀ i ext, ext ≠ .unknown → name ≠ fileName i ext) → fs'.read name = fs.read name

theorem read_play (ops : List DirOp) (v : World) (name : Name) :
    (play DirOp.act ops v).fs.read name = ((play DirOp.act ops v).fs.dir name).map v.fs.data := by
  rw [Fs.read, data_play]

/-- All datafiles and hint files that are known to the process go. -/
theorem renamed_play {files : List CcaskFile} (v : World)
    (hdata : ∀ i, (v.fs.dir (fileName i .data)).isSome → fileName i .data ∈ fileNames files)
    (hhint : ∀ i, (v.fs.dir (fileName i .hint)).isSome → fileName i .hint ∈ fileNames files) :
    Renamed k v.fs (play DirOp.act (unlinks files ++ (List.range k).map renameOp) v).fs := by
  have hgone : ∀ name, ((v.fs.dir name).isSome → name ∈ fileNames files) →
      (if name ∈ fileNames files then none else v.fs.dir name) = none := by
    intro name h
    split
    · rfl
    · rename_i hnot
      exact Option.not_isSome_iff_eq_none.mp fun hsome => hnot (h hsome)
  have htemp : ∀ i, fileName i .tempData ∉ fileNames files := by
    intro i hin
    obtain ⟨f, -, heq | ⟨-, heq⟩⟩ := mem_fileNames.mp hin
    · simp at heq
    · simp at heq
  refine ⟨fun i => ?_, fun i => ?_, fun i => ?_, fun name hname => ?_⟩
  · rw [read_play, play_append, dir_renamed_data, unlinks, dir_unlinked, dir_unlinked,
      if_neg (htemp i), hgone _ (hdata i)]
    split
    · rfl
    · rfl
  · rw [read_play, play_append, dir_renamed_other _ _ (by simp), unlinks, dir_unlinked,
      hgone _ (hhint i)]
    rfl
  · rw [read_play, play_append, dir_renamed_temp, unlinks, dir_unlinked, if_neg (htemp i)]
    split
    · rfl
    · rfl
  · rw [read_play, play_append, dir_renamed_other, unlinks, dir_unlinked, if_neg]
    · rfl
    · intro hin
      obtain ⟨f, -, heq | ⟨-, heq⟩⟩ := mem_fileNames.mp hin
      · exact hname _ _ (by decide) heq
      · exact hname _ _ (by decide) heq
    · exact fun i => ⟨hname i _ (by decide), hname i _ (by decide)⟩

theorem Renamed.tidy (h : Renamed k fs fs') (ht : Tidy fs) (hk : k ≤ 2 ^ 31) : Tidy fs' := by
  intro name hname
  by_cases hlib : ∃ i ext, ext ≠ .unknown ∧ name = fileName i ext
  · obtain ⟨i, ext, hext, rfl⟩ := hlib
    refine ⟨i, ext, ?_, hext, rfl⟩
    cases ext with
    | unknown => exact absurd rfl hext
    | hint =>
        rw [h.hint] at hname
        cases hname
    | data =>
        rw [h.data] at hname
        split at hname
        · omega
        · cases hname
    | tempData =>
        rw [h.temp] at hname
        split at hname
        · cases hname
        · obtain ⟨j, ext', hj, -, heq⟩ := ht _ hname
          rw [(fileName_inj.mp heq).1]
          exact hj
  · have hother : ∀ i ext, ext ≠ .unknown → name ≠ fileName i ext :=
      fun i ext hext heq => hlib ⟨i, ext, hext, heq⟩
    rw [h.other name hother] at hname
    exact ht name hname

end Directory

section Names

variable {w : World} {L : Nat → List (DatafileRecord × Nat)}

/-- Every file that is to be deleted is there. -/
theorem Store.linked (h : Store w L) :
    ∀ name ∈ fileNames w.files.reverse, (w.fs.dir name).isSome := by
  intro name hname
  obtain ⟨f, hf, rfl | ⟨hhint, rfl⟩⟩ := mem_fileNames.mp hname
  · obtain ⟨ino, hdir, -⟩ := h.mounted.linked f (List.mem_reverse.mp hf)
    rw [hdir]
    rfl
  · rwa [h.flags f (List.mem_reverse.mp hf), Fs.isSome_read] at hhint

/-- Every datafile and every hint file is to be deleted. -/
theorem Store.named (h : Store w L) (id : Nat) :
    ((w.fs.read (fileName id .data)).isSome → fileName id .data ∈ fileNames w.files.reverse) ∧
    ((w.fs.read (fileName id .hint)).isSome → fileName id .hint ∈ fileNames w.files.reverse) := by
  constructor
  · intro hsome
    obtain ⟨f, hf, rfl⟩ := List.mem_map.mp (h.mounted.known id hsome)
    exact mem_fileNames.mpr ⟨f, List.mem_reverse.mpr hf, .inl rfl⟩
  · intro hsome
    obtain ⟨f, hf, rfl⟩ := List.mem_map.mp (h.current id hsome)
    rw [← h.flags f hf] at hsome
    exact mem_fileNames.mpr ⟨f, List.mem_reverse.mpr hf, .inr ⟨hsome, rfl⟩⟩

end Names

section Result

variable [Zlib] {w v : World} {fs' : Fs} {b : Bins Put} {k : Nat} {seg stale : Nat → List Put}
  {L : Nat → List (DatafileRecord × Nat)}

theorem Dumped.tidy (h : Dumped w v b) (ht : Tidy w.fs) (hroom : b.last < 2 ^ 31) : Tidy v.fs := by
  intro name hname
  by_cases htemp : ∃ i, name = fileName i .tempData
  · obtain ⟨i, rfl⟩ := htemp
    by_cases hi : i ≤ b.last
    · exact ⟨i, .tempData, Nat.lt_of_le_of_lt hi hroom, by decide, rfl⟩
    · rw [h.rest i (Nat.lt_of_not_le hi)] at hname
      exact ht _ hname
  · rw [h.keeps.read name fun i heq => htemp ⟨i, heq⟩] at hname
    exact ht name hname

/-- The renamed files hold the records of the bins. -/
theorem Renamed.read_bin (h : Renamed k v.fs fs') (hd : Dumped w v b) (hk : k ≤ b.last + 1) (i : Nat) :
    fs'.read (fileName i .data) = if i < k then some (written (b.bin i)) else none := by
  rw [h.data]
  split
  · exact hd.temps i (by omega)
  · rfl

theorem Renamed.stored (h : Renamed k v.fs fs') (hd : Dumped w v b) (hk : k ≤ b.last + 1)
    (hgood : ∀ i ≤ b.last, ∀ p ∈ b.bin i, Good p)
    (hlen : ∀ i ≤ b.last, (written (b.bin i)).length < 2 ^ 64) (htidy : Tidy fs') :
    Stored fs' (List.range k).reverse b.bin := by
  have hmem : ∀ i, i ∈ (List.range k).reverse ↔ i < k := by simp
  have hread : ∀ i ∈ (List.range k).reverse, i ≤ b.last ∧
      fs'.read (fileName i .data) = some (written (b.bin i)) := by
    intro i hi
    rw [hmem] at hi
    refine ⟨by omega, ?_⟩
    rw [h.read_bin hd hk, if_pos hi]
  refine ⟨⟨?_, ?_, ?_, ?_, ?_, htidy⟩, ?_, ?_⟩
  · exact List.pairwise_reverse.mpr List.pairwise_lt_range
  · intro i
    rw [hmem, h.read_bin hd hk]
    by_cases hi : i < k
    · simp [hi]
    · simp [hi]
  · intro i hi
    obtain ⟨hlast, hc⟩ := hread i hi
    exact ⟨_, hc, scan_written fun p hp => (hgood i hlast p hp).size⟩
  · intro i hi
    obtain ⟨hlast, -⟩ := hread i hi
    exact hintable_written (hgood i hlast) (hlen i hlast)
  · intro i _ c hc
    rw [h.hint] at hc
    cases hc
  · intro i hi
    exact ⟨[], by rw [List.append_nil]; exact (hread i hi).2⟩
  · intro i hi
    exact hgood i (hread i hi).1

/-- The state between the dump and the deletion of the old files. -/
theorem Dumped.unlock (h : Dumped (locked w) v b) :
    Dumped w { v with readLocks := v.readLocks - 1 } b := by
  have hsame := congrArg (fun u : World => { u with readLocks := u.readLocks - 1 }) h.keeps.same
  exact ⟨⟨h.keeps.dir, h.keeps.read, hsame, h.keeps.files⟩, h.mounted.congr rfl fun _ => rfl, h.temps,
    h.rest⟩

/-- A compaction without errors dumps the live records behind what the temporary files hold, and then
works through its script. -/
theorem Serves.compactor_parts (h : Serves w seg) (hstore : Store w L)
    (hb : b = packedOnto stale (history (ids w) seg) w.maxActiveFileSize.toNat)
    (hstale : ∀ i ≤ b.last, (w.fs.read (fileName i .tempData)).getD [] = written (stale i)) :
    ∃ x, Computes fillTemps w (.ok (.finished b.last)) x ∧
      Dumped w { x with readLocks := x.readLocks - 1 } b ∧
      Scripted DirOp.act (replaceFiles b.last) { x with readLocks := x.readLocks - 1 }
        (script w.files b.last) (.ok ()) := by
  obtain ⟨x, hfill, hdumped⟩ := fillTemps_computes h hb rfl hstale
  have hd := hdumped.unlock
  refine ⟨x, hfill, hd, ?_⟩
  have hnames : fileNames x.files.reverse = fileNames w.files.reverse := by
    apply fileNames_congr
    rw [List.map_reverse, List.map_reverse, hd.keeps.files]
  rw [script, unlinks, ← hnames]
  refine replaceFiles_scripted ?_ ?_ ?_
  · rw [hd.keeps.ids_eq]
    exact h.mounted.sorted.imp Nat.ne_of_gt
  · intro name hname
    rw [hd.keeps.dir name]
    · exact hstore.linked name (hnames ▸ hname)
    · rintro i rfl
      obtain ⟨f, -, heq | ⟨-, heq⟩⟩ := mem_fileNames.mp hname
      · simp at heq
      · simp at heq
  · intro i hi
    rw [← Fs.isSome_read, hd.temps i hi]
    rfl

theorem compactor_parts (h : Holds w seg)
    (hb : b = packedOnto stale (history (ids w) seg) w.maxActiveFileSize.toNat)
    (hstale : ∀ i ≤ b.last, (w.fs.read (fileName i .tempData)).getD [] = written (stale i)) :
    ∃ x, Computes fillTemps w (.ok (.finished b.last)) x ∧
      Dumped w { x with readLocks := x.readLocks - 1 } b ∧
      Scripted DirOp.act (replaceFiles b.last) { x with readLocks := x.readLocks - 1 }
        (script w.files b.last) (.ok ()) :=
  h.serves.compactor_parts h.store hb hstale

theorem Serves.compactor_runs (h : Serves w seg) (hstore : Store w L)
    (hb : b = packedOnto stale (history (ids w) seg) w.maxActiveFileSize.toNat)
    (hstale : ∀ i ≤ b.last, (w.fs.read (fileName i .tempData)).getD [] = written (stale i)) :
    ∃ v, Dumped w v b ∧
      Computes ccaskCompactorDumpKeydir w (.ok ()) (play DirOp.act (script w.files b.last) v) := by
  obtain ⟨x, hfill, hd, hreplace⟩ := h.compactor_parts hstore hb hstale
  refine ⟨_, hd, Computes.bind (a := (.ok (), [])) ?_ (Computes.pure _)⟩
  exact hfill.bind (Computes.modify_bind (hreplace.computes.bind (Computes.pure _)))

theorem Serves.good_history (h : Serves w seg) : ∀ p ∈ history (ids w) seg, Good p := by
  intro p hp
  obtain ⟨id, hid, hp⟩ := List.mem_flatMap.mp hp
  exact h.good id (List.mem_reverse.mp hid) p hp

theorem Holds.good_history (h : Holds w seg) : ∀ p ∈ history (ids w) seg, Good p := h.serves.good_history

/-- What a compaction leaves. -/
theorem Serves.compact (h : Serves w seg) (hstore : Store w L)
    (hb : b = packedOnto stale (history (ids w) seg) w.maxActiveFileSize.toNat)
    (hstale : ∀ i ≤ b.last, (w.fs.read (fileName i .tempData)).getD [] = written (stale i)) :
    ∃ v w₁, Dumped w v b ∧ Computes ccaskCompactorDumpKeydir w (.ok ()) w₁ ∧
      Renamed (b.last + 1) v.fs w₁.fs ∧ w₁ = { w with fs := w₁.fs, files := w₁.files } := by
  obtain ⟨v, hd, hrun⟩ := h.compactor_runs hstore hb hstale
  refine ⟨v, _, hd, hrun, ?_, ?_⟩
  · refine renamed_play v (fun i hi => ?_) fun i hi => ?_
    · rw [← Fs.isSome_read, hd.keeps.read_data] at hi
      exact (hstore.named i).1 hi
    · rw [← Fs.isSome_read, hd.keeps.read_hint] at hi
      exact (hstore.named i).2 hi
  · have hsame := play_same (script w.files b.last) v
    have hfiles := congrArg World.files hsame
    simp only at hfiles
    rw [hfiles, hsame, hd.keeps.same]

theorem Holds.compact (h : Holds w seg)
    (hb : b = packedOnto stale (history (ids w) seg) w.maxActiveFileSize.toNat)
    (hstale : ∀ i ≤ b.last, (w.fs.read (fileName i .tempData)).getD [] = written (stale i)) :
    ∃ v w₁, Dumped w v b ∧ Computes ccaskCompactorDumpKeydir w (.ok ()) w₁ ∧
      Renamed (b.last + 1) v.fs w₁.fs ∧ w₁ = { w with fs := w₁.fs, files := w₁.files } :=
  h.serves.compact h.store hb hstale

/-- A directory in which some of the temporary files have their new names, and nothing is left of
the old files, holds the records of those files. -/
theorem Serves.stored_renamed (h : Serves w seg) (hstore : Store w L)
    (hb : b = packed (history (ids w) seg) w.maxActiveFileSize.toNat) (hroom : b.last < 2 ^ 31)
    (hd : Dumped w v b) (hr : Renamed k v.fs fs') (hk : k ≤ b.last + 1) :
    Stored fs' (List.range k).reverse b.bin := by
  have hmax := w.maxActiveFileSize.toNat_lt
  have htidy := hr.tidy (hd.tidy hstore.disk.tidy hroom) (by omega)
  subst hb
  refine hr.stored hd hk (fun i hi p hp => ?_) (fun i hi => ?_) htidy
  · exact h.good_history p (mem_packed hi hp)
  · exact length_packed h.good_history hmax hi

theorem Holds.stored_renamed (h : Holds w seg)
    (hb : b = packed (history (ids w) seg) w.maxActiveFileSize.toNat) (hroom : b.last < 2 ^ 31)
    (hd : Dumped w v b) (hr : Renamed k v.fs fs') (hk : k ≤ b.last + 1) :
    Stored fs' (List.range k).reverse b.bin :=
  h.serves.stored_renamed h.store hb hroom hd hr hk

omit [Zlib] in
/-- A shutdown after a compaction. -/
theorem Store.shutdown_compacted (h : Store w L) (hthreads : w.threads = []) {w₁ : World}
    (hsame : w₁ = { w with fs := w₁.fs, files := w₁.files }) :
    ∃ w₂, Computes ccaskShutdown w₁ () w₂ ∧ w₂.fs = w₁.fs := by
  obtain ⟨r, hring, hidle⟩ := h.idle
  rw [hsame]
  exact ⟨_, ccaskShutdown_idle hthreads hring hidle h.unlocked, rfl⟩

theorem Holds.shutdown_compacted (h : Holds w seg) (hthreads : w.threads = []) {w₁ : World}
    (hsame : w₁ = { w with fs := w₁.fs, files := w₁.files }) :
    ∃ w₂, Computes ccaskShutdown w₁ () w₂ ∧ w₂.fs = w₁.fs := h.store.shutdown_compacted hthreads hsame

theorem history_packed (hist : List Put) (limit : Nat) :
    history (List.range ((packed hist limit).last + 1)).reverse (packed hist limit).bin =
      Index.replay putKey [] hist := by
  rw [history, List.reverse_reverse]
  exact packed_items hist limit

/-- A start on a compacted directory without left-over files gives the live records. -/
theorem Reached.of_compacted {hist : List Put} {limit : Nat} {w₂ w₃ : World} {opts : CcaskOptions}
    (hb : b = packed hist limit) (hstored : Stored w₂.fs (List.range (b.last + 1)).reverse b.bin)
    (hread : ∀ i ≤ b.last, w₂.fs.read (fileName i .data) = some (written (b.bin i)))
    (hr : Restaged w₂.fs w₃.fs) (hlists : Lists opts.listing w₃.fs) :
    ∃ w₄, Computes (ccaskInit opts) w₃ (.ok ()) w₄ ∧ Reached w₄ b.bin ∧
      history (ids w₄) b.bin = Index.replay putKey [] hist := by
  have hcons : (List.range (b.last + 1)).reverse = b.last :: (List.range b.last).reverse := by
    rw [List.range_succ, List.reverse_append]
    rfl
  obtain ⟨hstored', hcurrent⟩ := hstored.restaged hr
  rw [hcons] at hstored' hcurrent
  obtain ⟨w₄, hinit, hserves, hstarted, hfs, -, hids⟩ := hstored'.init hlists
  rw [← hfs, ← hids] at hstored' hcurrent
  have hholds := hstarted.holds hserves hstored' hcurrent
  refine ⟨w₄, hinit, ⟨⟨hholds, ?_⟩, ?_, ?_⟩, ?_⟩
  · intro f rest hfiles
    rw [ids_eq hfiles] at hids
    rw [(List.cons.inj hids).1, hfs, hr.data]
    exact hread _ (Nat.le_refl _)
  · have hlen : w₄.files.length = b.last + 1 := by
      have hlen := congrArg List.length hids
      rwa [← hcons, ids, List.length_map, List.length_reverse, List.length_range] at hlen
    rw [Numbered, hlen, hids, hcons]
  · rw [hfs]
    exact hr.noTemps
  · rw [hids, ← hcons, hb]
    exact history_packed hist limit

end Result

section Life

variable [Zlib]

/-- Runs in which a process may also compact the store before it shuts it down. -/
inductive Life : World → List Put → Prop
  | run {w : World} {hist : List Put} : Run w hist → Life w hist
  | compact {w w₁ w₂ w₃ w₄ w₅ : World} {hist ps : List Put} {opts : CcaskOptions}
      {rs rest rs' rest' rs'' rest'' : List Reply} {res res' : Status} :
      Life w hist → w.threads = [] → AllClean rs →
      ccaskCompactorDumpKeydir.run rs w = .returned res rest w₁ →
      (∀ id, (w₁.fs.read (fileName id .data)).isSome → id < 2 ^ 31) → AllClean rs' →
      ccaskShutdown.run rs' w₁ = .returned () rest' w₂ → Restaged w₂.fs w₃.fs →
      Lists opts.listing w₃.fs → AllClean rs'' →
      (ccaskInit opts).run rs'' w₃ = .returned res' rest'' w₄ → Steps w₄ ps w₅ →
      Life w₅ (hist ++ ps)

variable {w : World} {hist : List Put} {seg : Nat → List Put}

/-- Histories with the same last puts, in the same order of first puts. -/
theorem packed_congr {hist' : List Put}
    (h : Index.replay putKey [] hist' = Index.replay putKey [] hist) (limit : Nat) :
    packed hist' limit = packed hist limit := by
  rw [packed, packed, h]

omit [Zlib] in
theorem lookup_congr {hist' : List Put}
    (h : Index.replay putKey [] hist' = Index.replay putKey [] hist) (k : Bytes) :
    lookup hist' k = lookup hist k := by
  rw [← lookup_replay, h, lookup_replay]

/-- A state without temporary files can be compacted. -/
theorem Reached.fresh (h : Reached w seg) (i : Nat) :
    (w.fs.read (fileName i .tempData)).getD [] = [] := by
  rw [Fs.read_eq_none _ _ |>.mpr (h.noTemps i)]
  rfl

/-- A compaction and a restart lead to a state as after a run with the live records alone. -/
theorem Reached.compact (h : Reached w seg) (hthreads : w.threads = [])
    {b : Bins Put} (hb : b = packed (history (ids w) seg) w.maxActiveFileSize.toNat) :
    ∃ w₁, Computes ccaskCompactorDumpKeydir w (.ok ()) w₁ ∧
      (∀ id, w₁.fs.read (fileName id .data) =
        if id < b.last + 1 then some (written (b.bin id)) else none) ∧
      (∀ id, w₁.fs.read (fileName id .hint) = none) ∧ (b.last < 2 ^ 31 →
        ∃ w₂, Computes ccaskShutdown w₁ () w₂ ∧ ∀ w₃ opts, Restaged w₂.fs w₃.fs →
          Lists opts.listing w₃.fs → ∃ w₄, Computes (ccaskInit opts) w₃ (.ok ()) w₄ ∧
            Reached w₄ b.bin ∧
            history (ids w₄) b.bin = Index.replay putKey [] (history (ids w) seg)) := by
  obtain ⟨v, w₁, hd, hrun, hrenamed, hsame⟩ := h.toHolds.compact (hb.trans (packed_eq _ _)) fun i _ => h.fresh i
  have hdata := hrenamed.read_bin hd (Nat.le_refl _)
  refine ⟨w₁, hrun, hdata, hrenamed.hint, fun hroom => ?_⟩
  have hstored := h.toHolds.stored_renamed hb hroom hd hrenamed (Nat.le_refl _)
  obtain ⟨w₂, hdown, hfs⟩ := h.toHolds.shutdown_compacted hthreads hsame
  rw [← hfs] at hstored hdata
  refine ⟨w₂, hdown, fun w₃ opts hr hlists => ?_⟩
  refine Reached.of_compacted hb hstored (fun i hi => ?_) hr hlists
  rw [hdata, if_pos (Nat.lt_succ_of_le hi)]

theorem Life.reached (h : Life w hist) : ∃ seg, Reached w seg ∧
    Index.replay putKey [] (history (ids w) seg) = Index.replay putKey [] hist := by
  induction h with
  | run hrun =>
      obtain ⟨seg, hreached, hhist⟩ := hrun.reached
      exact ⟨seg, hreached, by rw [hhist]⟩
  | compact _ hthreads hrs hrun hroom hrs' hdown hr hlists hrs'' hinit hsteps ih =>
      obtain ⟨seg, hreached, hhist⟩ := ih
      obtain ⟨v₁, hrun', hdata, -, hafter⟩ := hreached.compact hthreads rfl
      obtain ⟨-, rfl⟩ := hrun'.eq_of_returned hrs hrun
      obtain ⟨v₂, hdown', hup⟩ := hafter (hroom _ (by rw [hdata, if_pos (Nat.lt_succ_self _)]; rfl))
      obtain ⟨-, rfl⟩ := hdown'.eq_of_returned hrs' hdown
      obtain ⟨v₄, hinit', hreached₄, hhist₄⟩ := hup _ _ hr hlists
      obtain ⟨-, rfl⟩ := hinit'.eq_of_returned hrs'' hinit
      obtain ⟨seg', hreached', hhist'⟩ := hreached₄.steps hsteps
      refine ⟨seg', hreached', ?_⟩
      rw [hhist', hhist₄, hhist, Index.replay_append, Index.replay_replay, Index.replay_append]

/-- The files `0` to `n` hold the last record of every key and nothing else, and a start on them
answers as before. -/
structure Compacts (w : World) (hist : List Put) (w₁ : World) (n : Nat) (seg : Nat → List Put) :
    Prop where
  files : ∀ id, w₁.fs.read (fileName id .data) = if id ≤ n then some (written (seg id)) else none
  sizes : ∀ id ≤ n, (written (seg id)).length ≤ w.maxActiveFileSize.toNat ∨ ∃ p, seg id = [p]
  once : (((List.range (n + 1)).flatMap seg).map putKey).Nodup
  latest : ∀ p, p ∈ (List.range (n + 1)).flatMap seg ↔ Index.latest putKey (putKey p) hist = some p
  hints : ∀ id, w₁.fs.read (fileName id .hint) = none
  restart : ∃ w₂, Computes ccaskShutdown w₁ () w₂ ∧ ∀ w₃ opts, Restaged w₂.fs w₃.fs →
    Lists opts.listing w₃.fs → ∃ w₄, Computes (ccaskInit opts) w₃ (.ok ()) w₄ ∧
      ∀ key res, (∃ v, Computes (ccaskGet key) w₄ res v) ↔ ∃ v, Computes (ccaskGet key) w res v

/-- A compaction without errors returns CCASK_OK and preserves the store. -/
theorem compaction_preserves (h : Life w hist) (hthreads : w.threads = []) :
    ∃ w₁, Computes ccaskCompactorDumpKeydir w (.ok ()) w₁ ∧
      ((∀ id, (w₁.fs.read (fileName id .data)).isSome → id < 2 ^ 31) →
        ∃ n seg, Compacts w hist w₁ n seg) := by
  obtain ⟨seg, hreached, hhist⟩ := h.reached
  have hb := (packed_congr hhist w.maxActiveFileSize.toNat).symm
  have hitems := packed_items hist w.maxActiveFileSize.toNat
  obtain ⟨w₁, hrun, hdata, hhints, hafter⟩ := hreached.compact hthreads hb
  refine ⟨w₁, hrun, fun hroom => ⟨_, _, ?_, packed_fits hist _, ?_, ?_, hhints, ?_⟩⟩
  · intro id
    rw [hdata]
    exact if_congr Nat.lt_succ_iff rfl rfl
  · change ((packed hist w.maxActiveFileSize.toNat).items.map putKey).Nodup
    rw [hitems]
    exact Index.nodup_replay (l := []) List.nodup_nil
  · intro p
    change p ∈ (packed hist w.maxActiveFileSize.toNat).items ↔ _
    rw [hitems]
    exact Index.mem_replay
  · obtain ⟨w₂, hdown, hup⟩ := hafter (hroom _ (by rw [hdata, if_pos (Nat.lt_succ_self _)]; rfl))
    refine ⟨w₂, hdown, fun w₃ opts hr hlists => ?_⟩
    obtain ⟨w₄, hinit, hreached₄, hhist₄⟩ := hup w₃ opts hr hlists
    refine ⟨w₄, hinit, fun key res => ?_⟩
    rw [hreached₄.serves.get_iff, hreached.serves.get_iff, hhist₄, lookup_replay]

end Life

/-- After a rotation, a restart and an overwritten key, with three records for two files. -/
theorem compaction_preserves_one : letI := zlib
    (packed restartedPuts 40).last = 1 ∧ ∃ w₁ n seg, Life restartedWorld restartedPuts ∧
      Computes ccaskCompactorDumpKeydir restartedWorld (.ok ()) w₁ ∧
      Compacts restartedWorld restartedPuts w₁ n seg := by
  let _ := zlib
  have hlast : (packed restartedPuts 40).last = 1 := by decide +kernel
  have hmax : restartedWorld.maxActiveFileSize.toNat = 40 := by decide +kernel
  have hlife : Life restartedWorld restartedPuts := .run run_restartedWorld
  obtain ⟨seg, hreached, hhist⟩ := hlife.reached
  obtain ⟨w₁, hrun, hdata, -⟩ := hreached.compact (by decide +kernel) (packed_congr hhist _).symm
  obtain ⟨w₁', hrun', hcompacts⟩ := @compaction_preserves zlib _ _ hlife (by decide +kernel)
  obtain ⟨-, rfl⟩ := hrun.unique hrun'
  obtain ⟨n, seg', hcompacts⟩ := hcompacts fun id hid => by
    rw [hdata, hmax, hlast] at hid
    split at hid
    · omega
    · cases hid
  exact ⟨hlast, _, n, seg', hlife, hrun, hcompacts⟩

end Ccask.Audit
