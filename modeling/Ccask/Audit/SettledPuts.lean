import Ccask.Audit.Settling

/-!
# The puts in the directory that a compaction leads to

After the dump the directory that the rest of the compaction leads to holds the packed records. Steps of the
compaction leave it alone, and a put may add its record to one of its files.
-/

namespace Ccask.Audit

open Ccask.Effect Ccask.Model Ccask.Index

section History

variable {l : List Nat} {seg : Nat → List Put} {g : Nat} {p : Put}

theorem flatMap_update_of_not_mem (h : g ∉ l) (ps : List Put) :
    l.flatMap (Function.update seg g ps) = l.flatMap seg := by
  refine List.flatMap_congr fun i hi => Function.update_of_ne ?_ _ _
  rintro rfl
  exact h hi

/-- A record at the end of a file is the last of its key when the newer files have none of that key. -/
theorem latest_wrote (hsorted : l.Pairwise (· > ·)) (hg : g ∈ l)
    (hnewer : ∀ j ∈ l, g < j → putKey p ∉ (seg j).map putKey) (k : Bytes) :
    latest putKey k (history l (Function.update seg g (seg g ++ [p]))) =
      if putKey p = k then some p else latest putKey k (history l seg) := by
  obtain ⟨newer, older, rfl⟩ := List.append_of_mem hg
  obtain ⟨-, holder, hapart⟩ := List.pairwise_append.mp hsorted
  have hnew : g ∉ newer := fun hin => Nat.lt_irrefl g (hapart g hin g List.mem_cons_self)
  have hold : g ∉ older := fun hin => Nat.lt_irrefl g ((List.pairwise_cons.mp holder).1 g hin)
  have hsplit : ∀ s : Nat → List Put, history (newer ++ g :: older) s =
      older.reverse.flatMap s ++ (s g ++ newer.reverse.flatMap s) := by
    intro s
    simp [history]
  have hnot : putKey p ∉ (newer.reverse.flatMap seg).map putKey := by
    intro hin
    obtain ⟨q, hq, hkey⟩ := List.mem_map.mp hin
    obtain ⟨j, hj, hq⟩ := List.mem_flatMap.mp hq
    have hj := List.mem_reverse.mp hj
    refine hnewer j (List.mem_append_left _ hj) (hapart j hj g List.mem_cons_self) ?_
    rw [← hkey]
    exact List.mem_map_of_mem hq
  have hinsert := latest_insert hnot k (older.reverse.flatMap seg ++ seg g)
  rw [hsplit, hsplit, flatMap_update_of_not_mem (by simpa using hold),
    flatMap_update_of_not_mem (by simpa using hnew), Function.update_self]
  simpa only [List.append_assoc, List.singleton_append] using hinsert

/-- A file without records changes nothing. -/
theorem history_cons_of_nil (h : seg g = []) : history (g :: l) seg = history l seg := by
  simp [history, h]

end History

section Plain

variable [Zlib] {fs fs' : Fs} {l l' : List Nat} {seg : Nat → List Put} {g : Nat} {p : Put}

/-- A directory with the datafiles `l` and nothing else. A file that is not there has no records. -/
structure Plain (fs : Fs) (l : List Nat) (seg : Nat → List Put) : Prop where
  sorted : l.Pairwise (· > ·)
  known : ∀ id, id ∈ l ↔ (fs.read (fileName id .data)).isSome
  whole : ∀ id, (fs.read (fileName id .data)).getD [] = written (seg id)
  good : ∀ id, ∀ q ∈ seg id, Good q
  short : ∀ id, (written (seg id)).length < 2 ^ 64
  named : ∀ name, (fs.read name).isSome → ∃ id, name = fileName id .data

theorem written_eq_nil {ps : List Put} (h : written ps = []) : ps = [] := by
  cases ps with
  | nil => rfl
  | cons q ps =>
      have hlen := congrArg List.length h
      rw [written, layout_cons, List.length_append, q.length_record] at hlen
      simp at hlen

theorem Plain.seg_eq_nil (h : Plain fs l seg) (hg : g ∉ l) : seg g = [] := by
  have hnone : fs.read (fileName g .data) = none :=
    Option.not_isSome_iff_eq_none.mp fun hsome => hg ((h.known g).mpr hsome)
  have hwhole := h.whole g
  rw [hnone] at hwhole
  exact written_eq_nil hwhole.symm

theorem Plain.stored (h : Plain fs l seg) (hids : ∀ id ∈ l, id < 2 ^ 31) : Stored fs l seg := by
  have hread : ∀ id ∈ l, fs.read (fileName id .data) = some (written (seg id)) := by
    intro id hid
    obtain ⟨c, hc⟩ := Option.isSome_iff_exists.mp ((h.known id).mp hid)
    have hwhole := h.whole id
    rw [hc] at hwhole
    rw [hc, ← hwhole]
    rfl
  refine ⟨⟨h.sorted, h.known, fun id hid => ?_, fun id _ => ?_, fun id _ c hc => ?_, fun name hname => ?_⟩,
    fun id hid => ⟨[], by rw [List.append_nil]; exact hread id hid⟩, fun id _ => h.good id⟩
  · exact ⟨_, hread id hid, scan_written fun q hq => (h.good id q hq).size⟩
  · exact hintable_written (h.good id) (h.short id)
  · obtain ⟨i, hi⟩ := h.named _ (Option.isSome_of_eq_some hc)
    cases (fileName_inj.mp hi).2
  · obtain ⟨id, rfl⟩ := h.named name hname
    exact ⟨id, .data, hids id ((h.known id).mpr hname), by decide, rfl⟩

/-- With one more record at the end of a file, or in a new one. -/
theorem Plain.wrote (h : Plain fs l seg) (hp : Good p) (hsorted : l'.Pairwise (· > ·))
    (hmem : ∀ id, id ∈ l' ↔ id = g ∨ id ∈ l) (hshort : (written (seg g) ++ p.record.bytes).length < 2 ^ 64)
    (hread : fs'.read = Function.update fs.read (fileName g .data) (some (written (seg g) ++ p.record.bytes))) :
    Plain fs' l' (Function.update seg g (seg g ++ [p])) := by
  have hother : ∀ {id}, id ≠ g → fs'.read (fileName id .data) = fs.read (fileName id .data) := fun hne => by
    rw [hread, Function.update_of_ne (by simpa using hne)]
  have hself : fs'.read (fileName g .data) = some (written (seg g) ++ p.record.bytes) := by
    rw [hread, Function.update_self]
  refine ⟨hsorted, fun id => ?_, fun id => ?_, fun id q hq => ?_, fun id => ?_, fun name hname => ?_⟩
  · rw [hmem]
    by_cases hid : id = g
    · rw [hid, hself]
      exact ⟨fun _ => rfl, fun _ => .inl rfl⟩
    · rw [hother hid, ← h.known]
      exact ⟨fun hor => hor.resolve_left hid, .inr⟩
  · by_cases hid : id = g
    · rw [hid, hself, Function.update_self, written_concat]
      rfl
    · rw [hother hid, Function.update_of_ne hid]
      exact h.whole id
  · by_cases hid : id = g
    · rw [hid, Function.update_self] at hq
      exact good_concat (h.good g) hp q hq
    · rw [Function.update_of_ne hid] at hq
      exact h.good id q hq
  · by_cases hid : id = g
    · rw [hid, Function.update_self, written_concat]
      exact hshort
    · rw [Function.update_of_ne hid]
      exact h.short id
  · rw [hread, Function.update_apply] at hname
    split at hname
    · exact ⟨g, by assumption⟩
    · exact h.named name hname

end Plain

section Names

variable {w v : World} {t : CompactCall} {g i n : Nat} {c : Option Bytes}

/-- A temporary file is still to take the name of this datafile. -/
def Awaits (t : CompactCall) (id : Nat) : Prop := ∃ i n, toRename t = some (i, n) ∧ i ≤ id ∧ id ≤ n

/-- The old files have been unlinked. -/
def Walked : CompactCall → Prop
  | .deleting none _ _ | .renamingTemps _ _ | .done _ => True
  | _ => False

theorem Walked.cases (h : Walked t) :
    (∃ n res, t = .deleting none n res) ∨ (∃ i n, t = .renamingTemps i n) ∨ ∃ res, t = .done res := by
  cases t with
  | deleting cur n res =>
      cases cur with
      | none => exact .inl ⟨n, res, rfl⟩
      | some k => exact h.elim
  | renamingTemps i n => exact .inr (.inl ⟨i, n, rfl⟩)
  | done res => exact .inr (.inr ⟨res, rfl⟩)
  | dumping => exact h.elim
  | cancelling n => exact h.elim
  | closing n => exact h.elim
  | testing k n res => exact h.elim
  | deletingHint k n res => exact h.elim
  | advancing k n res => exact h.elim

theorem mem_renamesFrom {op : DirOp} (h : op ∈ renamesFrom i n) : ∃ j, i ≤ j ∧ j ≤ n ∧ op = renameOp j := by
  obtain ⟨j, hj, rfl⟩ := List.mem_map.mp h
  rw [List.mem_range'_1] at hj
  exact ⟨j, hj.1, by omega, rfl⟩

theorem spares_remaining (ht : Walked t) (hg : ¬ Awaits t g) :
    ∀ op ∈ remaining w t, op.Spares (fileName g .data) := by
  have hspares : ∀ {i n}, toRename t = some (i, n) → ∀ op ∈ renamesFrom i n, op.Spares (fileName g .data) := by
    intro i n hrename op hop
    obtain ⟨j, hij, hjn, rfl⟩ := mem_renamesFrom hop
    refine ⟨by simp, fun heq => ?_⟩
    obtain ⟨rfl, -⟩ := fileName_inj.mp heq
    exact hg ⟨i, n, hrename, hij, hjn⟩
  intro op hop
  obtain ⟨n, res, rfl⟩ | ⟨i, n, rfl⟩ | ⟨res, rfl⟩ := ht.cases
  · exact hspares rfl op hop
  · exact hspares rfl op hop
  · cases hop

theorem remaining_of_walked (ht : Walked t) (w v : World) : remaining v t = remaining w t := by
  obtain ⟨n, res, rfl⟩ | ⟨i, n, rfl⟩ | ⟨res, rfl⟩ := ht.cases
  · rfl
  · rfl
  · rfl

/-- What is under the name of a datafile stays there, and so does what is put there. -/
theorem settled_spared (ht : Walked t) (hg : ¬ Awaits t g) (w : World) :
    (settled w t).read (fileName g .data) = w.fs.read (fileName g .data) :=
  read_play_spared (spares_remaining ht hg) w

theorem settled_update (ht : Walked t) (hg : ¬ Awaits t g)
    (h : v.fs.read = Function.update w.fs.read (fileName g .data) c) :
    (settled v t).read = Function.update (settled w t).read (fileName g .data) c := by
  rw [settled, settled, remaining_of_walked ht w v]
  exact read_play_update (spares_remaining ht hg) h

theorem awaited_renamesFrom {id : Nat} (hi : i ≤ id) (hn : id ≤ n) (w : World) :
    (play DirOp.act (renamesFrom i n) w).fs.read (fileName id .data) = w.fs.read (fileName id .tempData) := by
  induction hk : id - i generalizing i w with
  | zero =>
      obtain rfl : id = i := by omega
      rw [renamesFrom_cons hn, play_cons, read_play_spared]
      · show (w.fs.rename _ _).read _ = _
        rw [read_rename, if_pos rfl]
      · intro op hop
        obtain ⟨j, hij, -, rfl⟩ := mem_renamesFrom hop
        exact ⟨by simp, by simpa using Nat.ne_of_gt hij⟩
  | succ k ih =>
      have hne : id ≠ i := by omega
      rw [renamesFrom_cons (by omega), play_cons, ih (by omega) _ (by omega)]
      show (w.fs.rename _ _).read _ = _
      rw [read_rename, if_neg (by simp), if_neg (by simpa using hne)]

/-- A temporary file that is to be renamed is the datafile of its id in the end. -/
theorem settled_awaited (ht : Walked t) (hg : Awaits t g) (w : World) :
    (settled w t).read (fileName g .data) = w.fs.read (fileName g .tempData) := by
  obtain ⟨i, n, hrename, hi, hn⟩ := hg
  obtain ⟨m, res, rfl⟩ | ⟨j, m, rfl⟩ | ⟨res, rfl⟩ := ht.cases
  · cases hrename
    exact awaited_renamesFrom hi hn w
  · cases hrename
    exact awaited_renamesFrom hi hn w
  · cases hrename

/-- What datafile `id` holds when the compaction has returned and nothing more is put. -/
def WillHold (w : World) (t : CompactCall) (id : Nat) (content : Bytes) : Prop :=
  (Awaits t id ∧ w.fs.read (fileName id .tempData) = some content) ∨
    (¬ Awaits t id ∧ w.fs.read (fileName id .data) = some content)

theorem willHold_iff {content : Bytes} (ht : Walked t) (w : World) :
    WillHold w t g content ↔ (settled w t).read (fileName g .data) = some content := by
  by_cases hg : Awaits t g
  · rw [settled_awaited ht hg, WillHold]
    exact ⟨fun h => h.elim And.right fun h => absurd hg h.1, fun h => .inl ⟨hg, h⟩⟩
  · rw [settled_spared ht hg, WillHold]
    exact ⟨fun h => h.elim (fun h => absurd h.1 hg) And.right, fun h => .inr ⟨hg, h⟩⟩

end Names

section Settled

variable [Zlib] {w v : World} {t t' : CompactCall} {l : List Nat} {seg : Nat → List Put} {p : Put}

/-- The directory that a compaction leads to holds these puts, and the process may write on. -/
structure Settled (w : World) (t : CompactCall) (l : List Nat) (seg : Nat → List Put) : Prop where
  plain : Plain (settled w t) l seg
  first : 0 ∈ l
  temps : ∀ i n, toRename t = some (i, n) → ∀ id ≤ n, id ∈ l
  front : ∃ f rest ino, Front w f rest ino ∧ ∀ i ∈ l, ∀ j, f.fileId < j → j < i → j ∈ l
  sorted : (ids w).Pairwise (· > ·)
  current : ∀ k, currFile t = some k → k ∈ ids w
  locks : (∃ n, t = .closing n) ∧ w.readLocks = 1 ∨ (∀ n, t ≠ .closing n) ∧ w.readLocks = 0
  idle : ∃ r, w.ringbuf = some r ∧ r.tail = r.head

/-- When an append lets its record stay: it goes into a file that no temporary file is to replace, and no newer
file will have a record of its key. -/
def Stays (w : World) (t : CompactCall) (r : DatafileRecord) : Prop :=
  ∃ f rest ino g, Front w f rest ino ∧ LandsIn w f.fileId ino r.bytes.length g ∧ ¬ Awaits t g ∧
    ∀ j content found, g < j → WillHold w t j content → Scan (recordAt content) 0 found →
      ∀ x ∈ found, x.1.key ≠ r.key

/-- A put that is entered in the key directory. -/
theorem Settled.upserted (h : Settled w t l seg) (record : KeydirRecord) :
    Settled (Audit.upserted w record) t l seg := by
  have hsettled : settled (Audit.upserted w record) t = settled w t := by
    cases t <;> exact play_congr rfl
  obtain ⟨f, rest, ino, hfront, hgap⟩ := h.front
  exact ⟨by rw [hsettled]; exact h.plain, h.first, h.temps,
    ⟨f, rest, ino, ⟨hfront.files, hfront.fd, hfront.newest⟩, hgap⟩, h.sorted, h.current, h.locks, h.idle⟩

/-- A step of the compaction. -/
theorem Settled.compact (h : Settled w t l seg) (hs : CompactStep w t v t') (hdump : t ≠ .dumping)
    (hrename : ∀ i n, t = .renamingTemps i n → i ≤ n →
      v.fs = w.fs.rename (fileName i .tempData) (fileName i .data)) : Settled v t' l seg := by
  have hplain : Plain (settled v t') l seg := by
    rw [settled_step hs hdump h.sorted h.current hrename]
    exact h.plain
  obtain ⟨f, rest, ino, hfront, hgap⟩ := h.front
  have hfiles : v.files = w.files := by
    cases hs with
    | dumped hfill => exact absurd rfl hdump
    | _ => rfl
  have hids : ids v = ids w := by rw [ids, hfiles]; rfl
  refine ⟨hplain, h.first, fun i n hn => ?_, ⟨f, rest, ino, ⟨hfiles.trans hfront.files, hfront.fd, hfront.newest⟩,
    hgap⟩, by rw [hids]; exact h.sorted, fun k hk => ?_, ?_, ?_⟩
  · cases hs <;> first | exact absurd rfl hdump | (cases hn; exact h.temps _ _ rfl) | cases hn
  · rw [hids]
    cases hs with
    | dumped hfill => exact absurd rfl hdump
    | closed n => exact (oldest_spec h.sorted hk).1
    | unlinked n hsome => cases hk; exact h.current _ rfl
    | hinted n hget hmark => cases hk; exact h.current _ rfl
    | unhinted n hget hmark => cases hk; exact h.current _ rfl
    | hintUnlinked n hsome => cases hk; exact h.current _ rfl
    | advanced k' n => exact (previousFile_mem h.sorted (h.current k' rfl) hk).1
    | deleted n => cases hk
    | renamed hi hsome => cases hk
    | missed hi => cases hk
    | finished hi => cases hk
  · right
    obtain ⟨⟨n, rfl⟩, hlocks⟩ | ⟨hclosing, hlocks⟩ := h.locks
    · cases hs
      exact ⟨by simp, by show w.readLocks - 1 = 0; rw [hlocks]⟩
    · cases hs with
      | dumped hfill => exact absurd rfl hdump
      | closed n => exact absurd rfl (hclosing n)
      | _ => exact ⟨by simp, hlocks⟩
  · cases hs with
    | dumped hfill => exact absurd rfl hdump
    | _ => exact h.idle

theorem mem_located {q : Put} {ps : List Put} (h : q ∈ ps) : ∃ x ∈ located ps, x.1.key = q.key.bytes := by
  have hmap : (locate recordBytes 0 ps).map Prod.fst = ps := map_fst_locate 0 ps
  rw [← hmap] at h
  obtain ⟨y, hy, rfl⟩ := List.mem_map.mp h
  exact ⟨_, List.mem_map_of_mem hy, rfl⟩

/-- A file that an append is to make is newer than all the others. -/
theorem Settled.newer_of_lands {f : CcaskFile} {rest : List CcaskFile} {ino : Ino} {g size : Nat}
    (h : Settled w t l seg) (ht : Walked t) (hfiles : w.files = f :: rest) (hlands : LandsIn w f.fileId ino size g)
    (hawaits : ¬ Awaits t g) (hg : g ∉ l) {i : Nat} (hi : i ∈ l) : i < g := by
  obtain ⟨f', rest', ino', hfront, hgap⟩ := h.front
  obtain ⟨rfl, rfl⟩ := List.cons.inj (hfiles.symm.trans hfront.files)
  by_contra hge
  obtain hlt | rfl := Nat.lt_or_eq_of_le (Nat.le_of_not_lt hge)
  · obtain heq | hfg := Nat.eq_or_lt_of_le hlands.le
    · have hdir := hlands.here heq.symm
      rw [heq] at hdir
      refine hg ((h.plain.known g).mpr ?_)
      rw [settled_spared ht hawaits, Fs.isSome_read, hdir]
      rfl
    · exact hg (hgap i hi g hfg hlt)
  · exact hg hi

/-- The files with one more, or the same. -/
theorem Plain.exists_files {fs : Fs} {g : Nat} (h : Plain fs l seg) (hnewer : g ∉ l → ∀ i ∈ l, i < g) :
    ∃ l' : List Nat, l'.Pairwise (· > ·) ∧ (∀ id, id ∈ l' ↔ id = g ∨ id ∈ l) ∧
      history l' seg = history l seg := by
  by_cases hg : g ∈ l
  · refine ⟨l, h.sorted, fun id => ⟨.inr, ?_⟩, rfl⟩
    rintro (rfl | hid)
    · exact hg
    · exact hid
  · exact ⟨g :: l, List.pairwise_cons.mpr ⟨hnewer hg, h.sorted⟩, fun id => List.mem_cons,
      history_cons_of_nil (h.seg_eq_nil hg)⟩

/-- A file that will hold no record of a key holds no put of it. -/
theorem Settled.not_mem_keys {j : Nat} {k : Bytes} (h : Settled w t l seg) (ht : Walked t)
    (hnone : ∀ content found, WillHold w t j content → Scan (recordAt content) 0 found →
      ∀ x ∈ found, x.1.key ≠ k) : k ∉ (seg j).map putKey := by
  intro hin
  obtain ⟨q, hq, hkey⟩ := List.mem_map.mp hin
  obtain ⟨x, hx, hxkey⟩ := mem_located hq
  have hj : j ∈ l := by
    by_contra hnot
    rw [h.plain.seg_eq_nil hnot] at hq
    cases hq
  obtain ⟨content, hcontent⟩ := Option.isSome_iff_exists.mp ((h.plain.known j).mp hj)
  have hwhole := h.plain.whole j
  rw [hcontent] at hwhole
  obtain rfl : content = written (seg j) := hwhole
  exact hnone _ _ ((willHold_iff ht w).mpr hcontent)
    (scan_written fun q hq => (h.plain.good j q hq).size) x hx (hxkey.trans hkey)

/-- An append whose record stays. It is the last one of its key, and nothing else changes. -/
theorem Settled.wrote (h : Settled w t l seg) (ht : Walked t) (hp : Good p)
    (hsize : p.record.bytes.length ≤ w.maxActiveFileSize.toNat) (hstays : Stays w t p.record) :
    ∃ id pos v l' seg', Computes (writeAppend p.record) w (.ok (id, pos)) v ∧ Settled v t l' seg' ∧
      v.maxActiveFileSize = w.maxActiveFileSize ∧ ∀ k, latest putKey k (history l' seg') =
        if putKey p = k then some p else latest putKey k (history l seg) := by
  obtain ⟨f, rest, ino, hfront, hgap⟩ := h.front
  obtain ⟨f', rest', ino', g, hfront', hlands, hawaits, hnewest⟩ := hstays
  obtain ⟨rfl, rfl⟩ := List.cons.inj (hfront.files.symm.trans hfront'.files)
  obtain ⟨pos, v, hrun, hlanded⟩ := hfront'.lands hlands hp.value_ne hsize
  have hle := hlands.le
  have hcontent : contentOf w g = written (seg g) := by
    rw [contentOf, ← settled_spared ht hawaits w]
    exact h.plain.whole g
  obtain ⟨l', hsorted, hmem, hhist⟩ :=
    h.plain.exists_files fun hg i hi => h.newer_of_lands ht hfront.files hlands hawaits hg hi
  have hlen : (written (seg g) ++ p.record.bytes).length < 2 ^ 64 := by
    have hroom := hlands.room
    have hmax := w.maxActiveFileSize.toNat_lt
    rw [hcontent] at hroom
    rw [List.length_append]
    omega
  have hread := settled_update ht hawaits hlanded.read
  rw [hcontent] at hread
  have hinsert := latest_wrote hsorted ((hmem g).mpr (.inl rfl)) fun j _ hgj =>
    h.not_mem_keys ht fun content found => hnewest j content found hgj
  obtain ⟨f', rest', ino', hfront', rfl⟩ := hlanded.front
  refine ⟨_, pos, v, l', _, hrun, ⟨h.plain.wrote hp hsorted hmem hlen hread, (hmem 0).mpr (.inr h.first),
    fun i n hn id hid => (hmem id).mpr (.inr (h.temps i n hn id hid)), ⟨f', rest', ino', hfront', ?_⟩,
    hlanded.sorted h.sorted, fun k hk => ?_, ?_, ?_⟩, by rw [hlanded.same], fun k => by rw [hinsert, hhist]⟩
  · intro i hi j hj hji
    rw [hmem] at hi ⊢
    obtain rfl | hi := hi
    · omega
    · exact .inr (hgap i hi j (by omega) hji)
  · obtain ⟨n, res, rfl⟩ | ⟨i, n, rfl⟩ | ⟨res, rfl⟩ := ht.cases <;> cases hk
  · rw [hlanded.same]
    exact h.locks
  · rw [hlanded.same]
    exact h.idle

/-- No file is newer than the newest of the list when the next id is free. -/
theorem Settled.le_newest {f : CcaskFile} {rest : List CcaskFile} {id : Nat} (h : Settled w t l seg)
    (ht : Walked t) (hfiles : w.files = f :: rest) (hawaits : ¬ Awaits t (f.fileId + 1))
    (hnone : w.fs.read (fileName (f.fileId + 1) .data) = none) (hid : id ∈ l) : id ≤ f.fileId := by
  have hfree : f.fileId + 1 ∉ l := by
    rw [h.plain.known, settled_spared ht hawaits, hnone]
    simp
  obtain ⟨f', rest', ino, hfront, hgap⟩ := h.front
  obtain ⟨rfl, rfl⟩ := List.cons.inj (hfiles.symm.trans hfront.files)
  by_contra hlt
  obtain heq | hlt := Nat.eq_or_lt_of_le (Nat.lt_of_not_le hlt)
  · rw [← heq] at hid
    exact hfree hid
  · exact hfree (hgap id hid _ (Nat.lt_succ_self _) hlt)

/-- A record that makes a new file stays. -/
theorem Settled.stays {f : CcaskFile} {rest : List CcaskFile} {ino : Ino} {r : DatafileRecord}
    (h : Settled w t l seg) (ht : Walked t) (hfront : Front w f rest ino)
    (hfull : w.maxActiveFileSize.toNat < (w.fs.data ino).length + r.bytes.length)
    (hsize : r.bytes.length ≤ w.maxActiveFileSize.toNat) (hroom : f.fileId + 1 < 2 ^ 31)
    (hawaits : ¬ Awaits t (f.fileId + 1)) (hnone : w.fs.read (fileName (f.fileId + 1) .data) = none) :
    Stays w t r := by
  refine ⟨f, rest, ino, f.fileId + 1, hfront, ⟨fun h => absurd h (by simp), fun _ => ⟨Nat.lt_succ_self _, hfull⟩,
    fun j hj hjg => absurd hjg (by omega), ?_, hroom⟩, hawaits, fun j content found hj hwill => ?_⟩
  · rw [contentOf, hnone, Option.getD_none, List.length_nil, Nat.zero_add]
    exact hsize
  · rw [willHold_iff ht] at hwill
    have hmem := (h.plain.known j).mpr (by rw [hwill]; rfl)
    have hle := h.le_newest ht hfront.files hawaits hnone hmem
    omega

/-- After the compaction every start answers with these puts. -/
theorem Settled.outlives {res : Status} (h : Settled w (.done res) l seg)
    (hids : ∀ id, (w.fs.read (fileName id .data)).isSome → id < 2 ^ 31) : Outlives w (history l seg) := by
  have hunlocked : w.readLocks = 0 := by
    obtain ⟨⟨n, hn⟩, -⟩ | ⟨-, hlocks⟩ := h.locks
    · cases hn
    · exact hlocks
  exact (h.plain.stored fun id hid => hids id ((h.plain.known id).mp hid)).outlives
    (List.ne_nil_of_mem h.first) hunlocked h.idle

theorem bin_packed_of_lt {hist : List Put} {limit i : Nat} (hi : (packed hist limit).last < i) :
    (packed hist limit).bin i = [] := by
  rw [packed_eq] at hi ⊢
  exact Bins.bin_addAllOnto_of_lt hi

/-- The directory that the rest of a compaction leads to after its dump. -/
theorem renamed_settled {L : Nat → List (DatafileRecord × Nat)} {b : Bins Put} (hstore : Store w L)
    (hd : Dumped (locked w) v b) : Renamed (b.last + 1) v.fs (settled v (.closing b.last)) := by
  have hnames : fileNames v.files.reverse = fileNames w.files.reverse := by
    apply fileNames_congr
    rw [List.map_reverse, List.map_reverse, hd.keeps.files]
    rfl
  refine renamed_play v (fun i hi => ?_) fun i hi => ?_
  · rw [← Fs.isSome_read, hd.keeps.read_data] at hi
    rw [hnames]
    exact (hstore.named i).1 hi
  · rw [← Fs.isSome_read, hd.keeps.read_hint] at hi
    rw [hnames]
    exact (hstore.named i).2 hi

/-- It has the packed files and nothing else. -/
theorem named_settled {L : Nat → List (DatafileRecord × Nat)} {b : Bins Put} {name : Name} (hstore : Store w L)
    (hfresh : NoTemps w.fs) (hd : Dumped (locked w) v b)
    (hname : ((settled v (.closing b.last)).read name).isSome) : ∃ id, name = fileName id .data := by
  have hrenamed := renamed_settled hstore hd
  by_contra hdata
  by_cases hlib : ∃ i ext, ext ≠ .unknown ∧ name = fileName i ext
  · obtain ⟨i, ext, hext, rfl⟩ := hlib
    cases ext with
    | unknown => exact hext rfl
    | data => exact hdata ⟨i, rfl⟩
    | hint =>
        rw [hrenamed.hint] at hname
        cases hname
    | tempData =>
        rw [hrenamed.temp] at hname
        split at hname
        · cases hname
        · rw [hd.rest i (by omega)] at hname
          change (w.fs.read _).isSome at hname
          rw [Fs.isSome_read, hfresh i] at hname
          cases hname
  · have hother : ∀ i ext, ext ≠ .unknown → name ≠ fileName i ext :=
      fun i ext hext heq => hlib ⟨i, ext, hext, heq⟩
    rw [hrenamed.other name hother, hd.keeps.read name fun i => hother i .tempData (by decide)] at hname
    obtain ⟨i, ext, -, hext, heq⟩ := hstore.disk.tidy name hname
    exact hother i ext hext heq

/-- Its files hold the packed records. -/
theorem plain_settled {L : Nat → List (DatafileRecord × Nat)} {b : Bins Put} {hist : List Put} {limit : Nat}
    (hstore : Store w L) (hfresh : NoTemps w.fs) (hd : Dumped (locked w) v b) (hb : b = packed hist limit)
    (hlimit : limit < 2 ^ 64) (hgood : ∀ q ∈ hist, Good q) :
    Plain (settled v (.closing b.last)) (List.range (b.last + 1)).reverse b.bin := by
  have hread := (renamed_settled hstore hd).read_bin hd (Nat.le_refl _)
  have hrest : ∀ i, ¬ i < b.last + 1 → b.bin i = [] := by
    intro i hi
    subst hb
    exact bin_packed_of_lt (by omega)
  have hbin : ∀ i, i < b.last + 1 → (∀ q ∈ b.bin i, Good q) ∧ (written (b.bin i)).length < 2 ^ 64 := by
    intro i hi
    subst hb
    have hle := Nat.le_of_lt_succ hi
    exact ⟨fun q hq => hgood q (mem_packed hle hq), length_packed hgood hlimit hle⟩
  refine ⟨List.pairwise_reverse.mpr List.pairwise_lt_range, fun i => ?_, fun i => ?_, fun i q hq => ?_,
    fun i => ?_, fun name hname => named_settled hstore hfresh hd hname⟩
  · rw [List.mem_reverse, List.mem_range, hread]
    split
    · exact ⟨fun _ => rfl, fun _ => by assumption⟩
    · exact ⟨fun hi => absurd hi (by assumption), fun hsome => by cases hsome⟩
  · rw [hread]
    split
    · rfl
    · rw [hrest i (by assumption)]
      rfl
  · by_cases hi : i < b.last + 1
    · exact (hbin i hi).1 q hq
    · rw [hrest i hi] at hq
      cases hq
  · by_cases hi : i < b.last + 1
    · exact (hbin i hi).2
    · rw [hrest i hi]
      exact Nat.two_pow_pos 64

/-- A dump leads to a directory with the packed records. -/
theorem Settled.dumped {L : Nat → List (DatafileRecord × Nat)} {b : Bins Put} {hist : List Put} {limit : Nat}
    (hstore : Store w L) (hfresh : NoTemps w.fs) (hd : Dumped (locked w) v b) (hb : b = packed hist limit)
    (hlimit : limit < 2 ^ 64) (hgood : ∀ q ∈ hist, Good q) :
    Settled v (.closing b.last) (List.range (b.last + 1)).reverse b.bin := by
  have hmem : ∀ i, i ∈ (List.range (b.last + 1)).reverse ↔ i < b.last + 1 := by simp
  obtain ⟨f, rest, hfiles, -⟩ := hd.mounted.active
  obtain ⟨ino, hdir⟩ := hd.mounted.head_dir hfiles
  refine ⟨plain_settled hstore hfresh hd hb hlimit hgood, (hmem 0).mpr (Nat.succ_pos _), fun i n hn id hid => ?_,
    ⟨f, rest, ino, hd.mounted.front hfiles hdir, fun i hi j _ hji => ?_⟩, hd.mounted.sorted, fun k hk => ?_,
    .inl ⟨⟨_, rfl⟩, ?_⟩, ?_⟩
  · cases hn
    exact (hmem id).mpr (Nat.lt_succ_of_le hid)
  · rw [hmem] at hi ⊢
    exact Nat.lt_trans hji hi
  · cases hk
  · rw [hd.keeps.same]
    show w.readLocks + 1 = 1
    rw [hstore.unlocked]
  · rw [hd.keeps.same]
    exact hstore.idle

end Settled

end Ccask.Audit
