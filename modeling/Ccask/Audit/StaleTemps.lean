import Ccask.Audit.CrashedCompaction
import Mathlib.Data.Fintype.BigOperators
import Mathlib.Data.Set.Finite.Basic

/-!
# Left-over temporary files

`ccask_compactor_dump_keydir` opens its temporary files for append and looks at their length only.
What an earlier compaction left in them becomes a part of the new datafiles, for as many of them as
the live records fill.
-/

namespace Ccask.Audit

open Ccask.Effect Ccask.Model Ccask.Index

section Directory

variable {fs : Fs}

theorem length_fileName (i : Nat) {ext : FileExt} (h : ext ≠ .unknown) :
    2 < (fileName i ext).length := by
  rw [fileName, List.length_append]
  cases ext with
  | unknown => exact absurd rfl h
  | data =>
      have hext : (extChars .data).length = 5 := rfl
      omega
  | hint =>
      have hext : (extChars .hint).length = 5 := rfl
      omega
  | tempData =>
      have hext : (extChars .tempData).length = 9 := rfl
      omega

/-- A directory has finitely many names. -/
theorem Fs.finite_names (fs : Fs) : {name | (fs.dir name).isSome}.Finite := by
  have hinj : Function.Injective (fun name : {name | (fs.dir name).isSome} =>
      (⟨(fs.dir name.1).get name.2, fs.fresh (Option.some_get name.2).symm⟩ : Fin fs.next)) := by
    intro m n hmn
    have hget : (fs.dir m.1).get m.2 = (fs.dir n.1).get n.2 := congrArg Fin.val hmn
    have hm : fs.dir m.1 = some ((fs.dir n.1).get n.2) := by rw [← hget, Option.some_get]
    exact Subtype.ext (fs.single hm (Option.some_get n.2).symm)
  have hfinite := Finite.of_injective _ hinj
  exact Set.toFinite _

theorem exists_lists (htidy : Tidy fs) : ∃ listing, Lists listing fs := by
  have hfinite := Fs.finite_names fs
  have hmem : ∀ name, name ∈ hfinite.toFinset.toList ↔ (fs.read name).isSome := by
    intro name
    rw [Finset.mem_toList, Set.Finite.mem_toFinset, Fs.isSome_read]
    rfl
  have hlong : ∀ name ∈ hfinite.toFinset.toList, 2 < name.length := by
    intro name hname
    obtain ⟨i, ext, -, hext, rfl⟩ := htidy name ((hmem name).mp hname)
    exact length_fileName i hext
  refine ⟨['.'] :: ['.', '.'] :: hfinite.toFinset.toList, ?_, fun name => ?_⟩
  · refine List.nodup_cons.mpr ⟨fun h => ?_, List.nodup_cons.mpr ⟨fun h => ?_, Finset.nodup_toList _⟩⟩
    · obtain h | h := List.mem_cons.mp h
      · cases h
      · exact absurd (hlong _ h) (by decide)
    · exact absurd (hlong _ h) (by decide)
  · rw [List.mem_cons, List.mem_cons, hmem]

end Directory

section Keys

/-- Twelve bytes. -/
def twelve (g : Fin 12 → Fin 256) : Bytes := List.ofFn fun i => UInt8.ofNat (g i)

theorem length_twelve (g : Fin 12 → Fin 256) : (twelve g).length = 12 := List.length_ofFn

theorem twelve_injective : Function.Injective twelve := by
  intro g g' hg
  funext i
  have hbyte := congrArg UInt8.toNat (congrFun (List.ofFn_injective hg) i)
  rw [UInt8.toNat_ofNat_of_lt' (g i).2, UInt8.toNat_ofNat_of_lt' (g' i).2] at hbyte
  exact Fin.ext hbyte

/-- Among fewer than `2 ^ 96` keys one of twelve bytes is missing. -/
theorem exists_key {l : List Bytes} (h : l.length < 2 ^ 96) : ∃ g, twelve g ∉ l := by
  by_contra hall
  have hmem : ∀ g, twelve g ∈ l.toFinset := by
    intro g
    rw [List.mem_toFinset]
    by_contra hnot
    exact hall ⟨g, hnot⟩
  have hcard : Fintype.card (Fin 12 → Fin 256) ≤ Fintype.card l.toFinset :=
    Fintype.card_le_of_injective (fun g => ⟨twelve g, hmem g⟩) fun g g' hg =>
      twelve_injective (congrArg Subtype.val hg)
  have hpow : 256 ^ 12 = 2 ^ 96 := (Nat.pow_mul 2 8 12).symm
  rw [Fintype.card_fun, Fintype.card_fin, Fintype.card_fin, Fintype.card_coe, hpow] at hcard
  exact absurd (hcard.trans (List.toFinset_card_le l)) (Nat.not_le.mpr h)

end Keys

section OtherTemps

variable {w v v' : World} {S : Set Nat} {i : Nat}

/-- The same process with other temporary files in its directory. Those in `S` are empty or not
there. -/
structure OtherTemps (S : Set Nat) (w v : World) : Prop where
  same : v = { w with fs := v.fs }
  dir : ∀ name, (∀ i, name ≠ fileName i .tempData) → v.fs.dir name = w.fs.dir name
  read : ∀ name, (∀ i, name ≠ fileName i .tempData) → v.fs.read name = w.fs.read name
  small : ∀ i, (v.fs.read (fileName i .tempData)).isSome → i < 2 ^ 31
  clear : ∀ i ∈ S, (v.fs.read (fileName i .tempData)).getD [] = []

/-- What is on disk once the process is gone: it died after the call that led to `u`, or was shut down
while no hint file was being made. -/
def Left (u : World) (fs : Fs) : Prop :=
  fs = u.fs ∨ u.threads = [] ∧ ∃ u', Computes ccaskShutdown u () u' ∧ fs = u'.fs

variable [Zlib]

/-- A compaction succeeds, and every start on what it leaves answers so. -/
def Gives (v : World) (answers : Buf → GetResult) : Prop :=
  ∃ w₁, Computes ccaskCompactorDumpKeydir v (.ok ()) w₁ ∧ (∃ listing, Lists listing w₁.fs) ∧
    ∀ w₂ opts, Left w₁ w₂.fs → Lists opts.listing w₂.fs →
      ∃ w₃, Computes (ccaskInit opts) w₂ (.ok ()) w₃ ∧
        ∀ key res, (∃ w₄, Computes (ccaskGet key) w₃ res w₄) ↔ res = answers key

theorem Gives.unique {answers answers' : Buf → GetResult} (h : Gives v answers)
    (h' : Gives v answers') : answers = answers' := by
  obtain ⟨w₁, hrun, ⟨listing, hlists⟩, hup⟩ := h
  obtain ⟨w₁', hrun', -, hup'⟩ := h'
  obtain ⟨-, rfl⟩ := hrun.unique hrun'
  obtain ⟨w₃, hinit, hget⟩ := hup _ ⟨listing, 0, 0⟩ (.inl rfl) hlists
  obtain ⟨w₃', hinit', hget'⟩ := hup' _ ⟨listing, 0, 0⟩ (.inl rfl) hlists
  obtain ⟨-, rfl⟩ := hinit.unique hinit'
  funext key
  obtain ⟨w₄, hfound⟩ := (hget key (answers key)).mpr rfl
  exact (hget' key _).mp ⟨w₄, hfound⟩

variable {seg stale : Nat → List Put} {b : Bins Put} {hist : List Put}

theorem Holds.otherTemps (h : Holds w seg) (hv : OtherTemps S w v) : Holds v seg := by
  have hids : ids v = ids w := by rw [hv.same]; rfl
  have hdata : ∀ id, v.fs.read (fileName id .data) = w.fs.read (fileName id .data) :=
    fun id => hv.read _ (by simp)
  have hhint : ∀ id, v.fs.read (fileName id .hint) = w.fs.read (fileName id .hint) :=
    fun id => hv.read _ (by simp)
  have hfiles : v.files = w.files := by rw [hv.same]
  have hthreads : v.threads = w.threads := by rw [hv.same]
  have hmounted : Mounted v := h.store.mounted.congr hfiles fun id => hv.dir _ (by simp)
  have htidy : Tidy v.fs := by
    intro name hname
    by_cases htemp : ∃ i, name = fileName i .tempData
    · obtain ⟨i, rfl⟩ := htemp
      exact ⟨i, .tempData, hv.small i hname, by decide, rfl⟩
    · rw [hv.read name fun i heq => htemp ⟨i, heq⟩] at hname
      exact h.store.disk.tidy name hname
  have hdisk : Disk v.fs (ids v) (recordsOf seg) := by
    rw [hids]
    have hold := h.store.disk
    refine ⟨hold.sorted, fun id => ?_, fun id hid => ?_, hold.hintable, fun id hid c hc => ?_, htidy⟩
    · rw [hdata]
      exact hold.known id
    · rw [hdata]
      exact hold.scans id hid
    · rw [hhint] at hc
      exact hold.hints id hid c hc
  refine h.transfer ⟨hmounted, ?_, hdisk, ?_, ?_, ?_, ?_, ?_⟩ hids hdata (by rw [hv.same]) ?_
  · rw [hv.same]
    exact h.store.unlocked
  · intro f hf
    rw [hfiles] at hf
    rw [hhint]
    exact h.store.flags f hf
  · intro id hid
    rw [hhint] at hid
    rw [hids]
    exact h.store.current id hid
  · rw [hthreads]
    exact h.store.nodup
  · rw [hthreads, hids]
    intro id hid
    rw [hhint]
    exact h.store.pending id hid
  · rw [hv.same]
    exact h.store.idle
  · rw [hv.same]
    exact h.running

/-- The new datafiles hold the live records behind what the temporary files held. -/
theorem Holds.gives (h : Holds v seg)
    (hb : b = packedOnto stale (history (ids v) seg) v.maxActiveFileSize.toNat)
    (hstale : ∀ i ≤ b.last, (v.fs.read (fileName i .tempData)).getD [] = written (stale i))
    (hgood : ∀ i ≤ b.last, ∀ p ∈ b.bin i, Good p)
    (hlen : ∀ i ≤ b.last, (written (b.bin i)).length < 2 ^ 64) (hroom : b.last < 2 ^ 31) :
    Gives v fun key => lookup b.items key.val := by
  obtain ⟨x, w₁, hd, hrun, hr, hsame⟩ := h.compact hb hstale
  have hthreads : w₁.threads = v.threads := by rw [hsame]
  have htidy := hr.tidy (hd.tidy h.store.disk.tidy hroom) (by omega)
  have hstored := hr.stored hd (Nat.le_refl _) hgood hlen htidy
  have hcons : (List.range (b.last + 1)).reverse = b.last :: (List.range b.last).reverse := by
    rw [List.range_succ, List.reverse_append]
    rfl
  have hleft : ∀ fs, Left w₁ fs → fs = w₁.fs := by
    rintro fs (rfl | ⟨hidle, u', hdown, rfl⟩)
    · rfl
    · obtain ⟨u, hdown', hfs⟩ := h.shutdown_compacted (hthreads.symm.trans hidle) hsame
      obtain ⟨-, rfl⟩ := hdown.unique hdown'
      exact hfs
  refine ⟨w₁, hrun, exists_lists htidy, fun w₂ opts hfs hlists => ?_⟩
  rw [← hleft _ hfs, hcons] at hstored
  obtain ⟨w₃, hinit, hserves, -, -, -, hids⟩ := hstored.init hlists
  refine ⟨w₃, hinit, fun key res => ?_⟩
  rw [hserves.get_iff, hids, ← hcons, history, List.reverse_reverse]
  rfl

end OtherTemps

section Stale

variable [Zlib] {w v : World} {S : Set Nat} {seg : Nat → List Put} {hist : List Put} {limit i : Nat}
  {q : Put}

/-- With empty temporary files the answers are those of the store. -/
theorem Reached.gives (h : Reached w seg)
    (hhist : Index.replay putKey [] (history (ids w) seg) = Index.replay putKey [] hist)
    (hroom : (packed hist w.maxActiveFileSize.toNat).last < 2 ^ 31) (hv : OtherTemps S w v)
    (hclear : ∀ i ≤ (packed hist w.maxActiveFileSize.toNat).last, i ∈ S) :
    Gives v fun key => lookup hist key.val := by
  have hholds := h.toHolds.otherTemps hv
  have hids : ids v = ids w := by rw [hv.same]; rfl
  have hmax : v.maxActiveFileSize = w.maxActiveFileSize := by rw [hv.same]
  have hb : packed hist w.maxActiveFileSize.toNat =
      packed (history (ids v) seg) v.maxActiveFileSize.toNat := by
    rw [hids, hmax]
    exact (packed_congr hhist _).symm
  have hgood := hholds.good_history
  have hgives := hholds.gives (hb.trans (packed_eq _ _)) (fun i hi => hv.clear i (hclear i hi))
    (fun i hi p hp => ?_) (fun i hi => ?_) hroom
  · rw [packed_items] at hgives
    simpa only [lookup_replay] using hgives
  · rw [hb] at hi hp
    exact hgood p (mem_packed hi hp)
  · rw [hb] at hi ⊢
    exact length_packed hgood v.maxActiveFileSize.toNat_lt hi

/-- The temporary file `i` holds the record of a put already. -/
def leftOver (w : World) (i : Nat) (q : Put) : World :=
  { w with
    fs := (w.fs.create (fileName i .tempData)).1.append (w.fs.create (fileName i .tempData)).2
      q.record.bytes }

theorem read_leftOver (h : NoTemps w.fs) (i : Nat) (q : Put) : (leftOver w i q).fs.read =
    Function.update w.fs.read (fileName i .tempData) (some q.record.bytes) := by
  have hnone : w.fs.read (fileName i .tempData) = none := (Fs.read_eq_none _ _).mpr (h i)
  rw [leftOver, Fs.read_append (Fs.dir_create_self _ _), Fs.data_create_self, Fs.read_create, hnone]
  exact Function.update_idem _ _ _

theorem leftOver_otherTemps (h : NoTemps w.fs) (hi : i < 2 ^ 31) (hS : i ∉ S) :
    OtherTemps S w (leftOver w i q) := by
  have hread := read_leftOver h i q
  have hnone : ∀ j, w.fs.read (fileName j .tempData) = none := fun j => (Fs.read_eq_none _ _).mpr (h j)
  refine ⟨rfl, fun name hname => ?_, fun name hname => ?_, fun j hj => ?_, fun j hj => ?_⟩
  · exact Fs.dir_create_of_ne _ _ (hname i)
  · rw [hread, Function.update_of_ne (hname i)]
  · by_cases hji : j = i
    · rw [hji]
      exact hi
    · rw [hread, Function.update_of_ne (by simpa using hji), hnone] at hj
      cases hj
  · have hji : j ≠ i := by
      rintro rfl
      exact hS hj
    rw [hread, Function.update_of_ne (by simpa using hji), hnone]
    rfl

omit [Zlib] in
theorem otherTemps_self (h : NoTemps w.fs) : OtherTemps S w w := by
  have hnone : ∀ j, w.fs.read (fileName j .tempData) = none := fun j => (Fs.read_eq_none _ _).mpr (h j)
  refine ⟨rfl, fun _ _ => rfl, fun _ _ => rfl, fun j hj => ?_, fun j _ => ?_⟩
  · rw [hnone] at hj
    cases hj
  · rw [hnone]
    rfl

/-- Only file `i` holds something at the start. -/
def onlyAt (i : Nat) (q : Put) : Nat → List Put := Function.update (fun _ => []) i [q]

/-- The records end up in the same file or one file later. -/
theorem packedOnto_last (i : Nat) (q : Put) (hist : List Put) (limit : Nat) :
    (packed hist limit).last ≤ (packedOnto (onlyAt i q) hist limit).last ∧
      (packedOnto (onlyAt i q) hist limit).last ≤ (packed hist limit).last + 1 := by
  have hne : ∀ j, j ≠ i → onlyAt i q j = [] := fun j hj => Function.update_of_ne hj _ _
  have hstart : Bins.Ahead recordBytes i ⟨0, fun _ => []⟩ ⟨0, onlyAt i q⟩ := by
    refine .inl ⟨rfl, Nat.zero_le _, fun hi => ?_⟩
    show 0 = (layout recordBytes (onlyAt i q 0)).length
    rw [hne 0 (Nat.ne_of_lt hi)]
    rfl
  rw [packed_eq]
  exact (hstart.addAllOnto (fun _ _ => rfl) (fun j _ hj => hne j hj) _).last_le

/-- The left-over record stays where it is. -/
theorem mem_packedOnto (hi : i ≤ (packedOnto (onlyAt i q) hist limit).last) :
    q ∈ (packedOnto (onlyAt i q) hist limit).items := by
  obtain ⟨added, hbin, -⟩ := Bins.bin_addAllOnto recordBytes limit ⟨0, onlyAt i q⟩
    (Index.replay putKey [] hist) i
  refine List.mem_flatMap.mpr ⟨i, List.mem_range.mpr (Nat.lt_succ_of_le hi), ?_⟩
  show q ∈ (Bins.addAllOnto _ _ _ _).bin i
  rw [hbin]
  apply List.mem_append_left
  show q ∈ onlyAt i q i
  rw [onlyAt, Function.update_self]
  exact List.mem_singleton_self q

omit [Zlib] in
theorem mem_onlyAt {p : Put} {j : Nat} (hp : p ∈ onlyAt i q j) : p = q := by
  rw [onlyAt, Function.update_apply] at hp
  split at hp
  · exact List.mem_singleton.mp hp
  · cases hp

theorem Reached.good_live (h : Reached w seg)
    (hhist : Index.replay putKey [] (history (ids w) seg) = Index.replay putKey [] hist) :
    ∀ p ∈ Index.replay putKey [] hist, Good p := by
  intro p hp
  rw [← hhist] at hp
  exact h.toHolds.good_history p (Index.mem_of_mem_replay hp)

theorem length_onlyAt (hq : Good q) (j : Nat) :
    (layout recordBytes (onlyAt i q j)).length < 2 ^ 32 := by
  rw [onlyAt, Function.update_apply]
  split
  · rw [layout_cons, layout_nil, List.append_nil]
    exact hq.size.2
  · show 0 < 2 ^ 32
    decide

/-- The new files stay below `2 ^ 64` bytes. -/
theorem length_packedOnto (hq : Good q) (hgood : ∀ p ∈ Index.replay putKey [] hist, Good p)
    (hlimit : limit < 2 ^ 64) : ∀ j ≤ (packedOnto (onlyAt i q) hist limit).last,
      (written ((packedOnto (onlyAt i q) hist limit).bin j)).length < 2 ^ 64 := by
  have hstart : ∀ j, (layout recordBytes (onlyAt i q j)).length < 2 ^ 32 := length_onlyAt hq
  have hbound : ∀ j ≤ (packedOnto (onlyAt i q) hist limit).last,
      (layout recordBytes ((packedOnto (onlyAt i q) hist limit).bin j)).length ≤ 2 ^ 64 - 1 := by
    refine Bins.length_addAllOnto (by omega) (fun k _ => ?_) fun k _ p hp => ?_
    · exact Nat.le_of_lt (Nat.lt_trans (hstart k) (by decide))
    · have hsize : (recordBytes p).length < 2 ^ 32 := (hgood p hp).size.2
      exact Nat.le_trans (Nat.le_of_lt (Nat.add_lt_add (hstart k) hsize)) (by decide)
  intro j hj
  exact Nat.lt_of_le_of_lt (hbound j hj) (by decide)

/-- A record left over in one of the files that the compaction fills is in the store afterwards. -/
theorem Reached.stale_shows (h : Reached w seg)
    (hhist : Index.replay putKey [] (history (ids w) seg) = Index.replay putKey [] hist)
    (hroom : (packed hist w.maxActiveFileSize.toNat).last + 1 < 2 ^ 31)
    (hi : i ≤ (packed hist w.maxActiveFileSize.toNat).last) (hq : Good q)
    (hkey : putKey q ∉ hist.map putKey) :
    ¬ ∃ answers, Gives (leftOver w i q) answers ∧ Gives w answers := by
  obtain ⟨hlow, hhigh⟩ := packedOnto_last i q hist w.maxActiveFileSize.toNat
  have hholds := h.toHolds.otherTemps (leftOver_otherTemps (S := ∅) (q := q) h.noTemps (i := i) (by omega)
    fun hin => hin)
  have hread := read_leftOver h.noTemps i q
  have hb : packedOnto (onlyAt i q) hist w.maxActiveFileSize.toNat = packedOnto (onlyAt i q)
      (history (ids (leftOver w i q)) seg) (leftOver w i q).maxActiveFileSize.toNat := by
    show _ = packedOnto (onlyAt i q) (history (ids w) seg) w.maxActiveFileSize.toNat
    rw [packedOnto, packedOnto, hhist]
  have hgood := h.good_live hhist
  have hgives := hholds.gives hb (fun j _ => ?_) (fun j _ p hp => ?_)
    (length_packedOnto hq hgood w.maxActiveFileSize.toNat_lt) (by omega)
  · rintro ⟨answers, hleft, hclean⟩
    have hsame := congrFun ((hgives.unique hleft).trans (hclean.unique (h.gives hhist (by omega)
      (otherTemps_self (S := Set.univ) h.noTemps) fun _ _ => trivial))) ⟨putKey q, Ptr.length_lt _⟩
    have hmissing : lookup hist (putKey q) = .missing := by
      rw [lookup, Index.latest_eq_none.mpr hkey]
    have hmem : q ∈ (packedOnto (onlyAt i q) hist w.maxActiveFileSize.toNat).items :=
      mem_packedOnto (by omega)
    simp only at hsame
    rw [hmissing, lookup] at hsame
    cases hlatest : Index.latest putKey (putKey q)
        (packedOnto (onlyAt i q) hist w.maxActiveFileSize.toNat).items with
    | none => exact Index.latest_eq_none.mp hlatest (List.mem_map_of_mem hmem)
    | some p =>
        rw [hlatest] at hsame
        cases hsame
  · rw [hread, Function.update_apply, onlyAt, Function.update_apply]
    by_cases hj : j = i
    · rw [if_pos (by rw [hj]), if_pos hj]
      simp [written]
    · rw [if_neg (by simpa using hj), if_neg hj]
      exact h.fresh j
  · obtain ⟨added, hbin, hadded⟩ := Bins.bin_addAllOnto recordBytes w.maxActiveFileSize.toNat
      ⟨0, onlyAt i q⟩ (Index.replay putKey [] hist) j
    rw [packedOnto, hbin] at hp
    obtain hp | hp := List.mem_append.mp hp
    · rw [mem_onlyAt hp]
      exact hq
    · exact hgood p (hadded p hp)

/-- The live records have fewer than `2 ^ 96` keys. -/
theorem Reached.few_keys (h : Reached w seg)
    (hhist : Index.replay putKey [] (history (ids w) seg) = Index.replay putKey [] hist)
    (hroom : (packed hist w.maxActiveFileSize.toNat).last + 1 < 2 ^ 31) :
    ((Index.replay putKey [] hist).map putKey).length < 2 ^ 96 := by
  have hbytes : ∀ p, recordBytes p ≠ [] := by
    intro p hnil
    have hlen := congrArg List.length hnil
    rw [p.length_record, List.length_nil] at hlen
    omega
  have hlen : ∀ i ≤ (packed hist w.maxActiveFileSize.toNat).last, (layout recordBytes
      ((packed hist w.maxActiveFileSize.toNat).bin i)).length ≤ 2 ^ 64 := by
    intro i hi
    rw [← packed_congr hhist] at hi ⊢
    exact Nat.le_of_lt (length_packed h.toHolds.good_history w.maxActiveFileSize.toNat_lt hi)
  have hitems := Bins.length_items hbytes hlen
  rw [packed_items] at hitems
  rw [List.length_map]
  refine Nat.lt_of_le_of_lt hitems ?_
  calc ((packed hist w.maxActiveFileSize.toNat).last + 1) * 2 ^ 64
      < 2 ^ 31 * 2 ^ 64 := Nat.mul_lt_mul_of_pos_right hroom (by decide)
    _ ≤ 2 ^ 96 := by decide

/-- Two directories that differ in temporary files give the same answers after a compaction and a
restart, whatever those files hold, exactly when they are empty as far as the live records get. -/
theorem ignores_temps_iff (h : Life w hist)
    (hroom : (packed hist w.maxActiveFileSize.toNat).last + 1 < 2 ^ 31) (S : Set Nat) :
    (∀ v v', OtherTemps S w v → OtherTemps S w v' → ∃ answers, Gives v answers ∧ Gives v' answers) ↔
      ∀ i ≤ (packed hist w.maxActiveFileSize.toNat).last, i ∈ S := by
  obtain ⟨seg, hreached, hhist⟩ := h.reached
  constructor
  · intro hsame i hi
    by_contra hS
    obtain ⟨g, hg⟩ := exists_key (hreached.few_keys hhist hroom)
    rw [Index.mem_keys_replay] at hg
    have hq : Good ⟨0, some ⟨twelve g, by rw [length_twelve]; decide⟩, some ⟨[0], by decide⟩⟩ := by
      refine ⟨fun hnil => ?_, List.cons_ne_nil _ _, ?_⟩
      · have hlen := congrArg List.length hnil
        rw [show Ptr.bytes _ = twelve g from rfl, length_twelve] at hlen
        cases hlen
      · show 20 + (twelve g).length + 1 < 2 ^ 32
        rw [length_twelve]
        decide
    refine hreached.stale_shows hhist hroom hi hq hg ?_
    exact hsame _ _ (leftOver_otherTemps hreached.noTemps (by omega) hS) (otherTemps_self hreached.noTemps)
  · intro hclear v v' hv hv'
    exact ⟨_, hreached.gives hhist (by omega) hv hclear, hreached.gives hhist (by omega) hv' hclear⟩

end Stale

section Sample

theorem last_writtenWorld : letI := zlib
    (packed [bytePut 0 97 98] writtenWorld.maxActiveFileSize.toNat).last = 0 := by
  decide +kernel

theorem ignores_temps_iff_one : letI := zlib
    (∀ v v', OtherTemps {0} writtenWorld v → OtherTemps {0} writtenWorld v' →
      ∃ answers, Gives v answers ∧ Gives v' answers) ↔
        ∀ i ≤ (packed [bytePut 0 97 98] writtenWorld.maxActiveFileSize.toNat).last, i ∈ ({0} : Set Nat) :=
  @ignores_temps_iff zlib _ _ (@Life.run zlib _ _ (@run_writtenWorld zlib))
    (by rw [last_writtenWorld]; decide) {0}

/-- A record that an earlier compaction left behind answers a key that was never put. -/
theorem stale_temp_shows : letI := zlib
    Life writtenWorld [bytePut 0 97 98] ∧
      OtherTemps ∅ writtenWorld (leftOver writtenWorld 0 (bytePut 0 99 100)) ∧
      OtherTemps ∅ writtenWorld writtenWorld ∧
      ¬ ∃ answers, Gives (leftOver writtenWorld 0 (bytePut 0 99 100)) answers ∧
        Gives writtenWorld answers := by
  obtain ⟨seg, hreached, hhist⟩ := @Life.reached zlib _ _ (@Life.run zlib _ _ (@run_writtenWorld zlib))
  refine ⟨@Life.run zlib _ _ (@run_writtenWorld zlib), ?_, ?_, ?_⟩
  · exact @leftOver_otherTemps zlib _ _ _ _ (@Reached.noTemps zlib _ _ hreached) (by decide) (fun h => h)
  · exact otherTemps_self (@Reached.noTemps zlib _ _ hreached)
  · exact @Reached.stale_shows zlib _ _ _ _ _ hreached hhist (by rw [last_writtenWorld]; decide)
      (Nat.zero_le _) (good_bytePut 0 99 100) (by decide)

end Sample

end Ccask.Audit
