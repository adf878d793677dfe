import Ccask.Audit.Tombstone

/-!
# Writes behind a torn record

A crash inside a write leaves a part of a record at the end of the newest file. The next
start takes that file for appending again, so that a scan finds nothing, or not the right
thing, where the part and the records behind it stand.
-/

namespace Ccask.Audit

open Ccask.Effect Ccask.Model

section Scan

variable {c : Bytes} {off off' : Nat} {r : DatafileRecord}

/-- In less than 2^32 bytes the step to the next record is the size that the header tells. -/
theorem recordAt_step (hc : c.length < 2 ^ 32) (h : recordAt c off = some (r, off')) :
    let header := ccaskGetDatafileRecordHeader ⟨(c.drop off).take 16, [], []⟩
    off' = off + (16 + header.keySize.toNat + header.valueSize.toNat) ∧ off' ≤ c.length := by
  obtain ⟨p, hp, heq⟩ := Option.map_eq_some_iff.mp h
  rw [parseRecord] at hp
  generalize ccaskGetDatafileRecordHeader ⟨(c.drop off).take 16, [], []⟩ = header at hp ⊢
  split at hp
  · rename_i hfits
    obtain ⟨-, -, hle⟩ := hfits
    rw [List.length_drop] at hle
    have hstep : (16 + header.keySize + header.valueSize).toNat =
        16 + header.keySize.toNat + header.valueSize.toNat := by
      rw [UInt32.toNat_add, UInt32.toNat_add]
      simp only [UInt32.reduceToNat]
      omega
    obtain rfl := Option.some.inj hp
    have hoff := (Prod.mk.inj heq).2
    simp only at hoff
    omega
  · cases hp

/-- There is then an end to what the iterator finds. -/
theorem exists_scan (hc : c.length < 2 ^ 32) (off : Nat) : ∃ l, Scan (recordAt c) off l := by
  induction hn : c.length - off using Nat.strongRecOn generalizing off with
  | ind n ih =>
      cases hr : recordAt c off with
      | none => exact ⟨[], .stop hr⟩
      | some p =>
          obtain ⟨r, off'⟩ := p
          obtain ⟨hstep, hle⟩ := recordAt_step hc hr
          obtain ⟨l, hl⟩ := ih (c.length - off') (by omega) off' rfl
          exact ⟨(r, off) :: l, .step hr hl⟩

theorem le_of_mem_scan (hc : c.length < 2 ^ 32) {l : List (DatafileRecord × Nat)}
    (h : Scan (recordAt c) off l) : ∀ p ∈ l, off ≤ p.2 := by
  induction h with
  | stop => simp
  | step hr _ ih =>
      intro p hp
      obtain rfl | hp := List.mem_cons.mp hp
      · exact Nat.le_refl _
      · obtain ⟨hstep, -⟩ := recordAt_step hc hr
        have hle := ih p hp
        omega

end Scan

/-- What the last puts say about a key that is among them. -/
theorem lookup_append (pre ps : List Put) {k : Bytes} (h : k ∈ ps.map putKey) :
    lookup (pre ++ ps) k = lookup ps k := by
  rw [lookup, lookup, Index.latest_append]
  cases hk : Index.latest putKey k ps with
  | none => exact absurd h (Index.latest_eq_none.mp hk)
  | some p => rfl

section Lost

variable [Zlib] {ps : List Put} {torn more : Bytes}

theorem end_le_of_mem_located {p : DatafileRecord × Nat} (hp : p ∈ located ps) :
    p.2 + 16 ≤ (written ps).length := by
  obtain ⟨⟨q, pos⟩, hq, rfl⟩ := List.mem_map.mp hp
  obtain ⟨pre, post, hsplit, hpos⟩ := mem_locate hq
  simp only at hsplit hpos
  rw [written, hsplit, layout_append, layout_cons, List.length_append, List.length_append,
    q.length_record]
  simp only [Prod.map_apply, id_eq]
  omega

/-- A scan finds nothing at the position behind a part of a record, nor anything behind a record
without a value. -/
theorem ne_of_mem_scan (hsizes : ∀ p ∈ ps, p.record.bytes.length < 2 ^ 32)
    (hcut : ∃ p : Put, torn <+: p.record.bytes ∧ torn ≠ p.record.bytes)
    (hbad : torn ≠ [] ∨ ∃ p ∈ ps, p.value.bytes = [])
    (hlen : (written ps ++ torn ++ more).length < 2 ^ 32) {l : List (DatafileRecord × Nat)}
    (hl : Scan (recordAt (written ps ++ torn ++ more)) 0 l) :
    ∀ p ∈ l, p.2 ≠ (written ps ++ torn).length := by
  intro p hp
  rw [List.length_append]
  by_cases hempty : ∃ q ∈ ps, q.value.bytes = []
  · -- the scan ends in front of the first record without a value
    obtain ⟨q, hq, hqe⟩ := hempty
    obtain ⟨pre, t, post, hsplit, ht, hpre⟩ := exists_tombstone hq hqe
    have hwritten : written ps = written pre ++ (t.record.bytes ++ written post) := by
      rw [hsplit, written, layout_append, layout_cons]
      rfl
    have hscan : Scan (recordAt (written ps ++ torn ++ more)) 0 (located pre) := by
      have h := scan_tombstone (written post ++ torn ++ more)
        (fun q hq => ⟨hpre q hq, hsizes q (hsplit ▸ List.mem_append_left _ hq)⟩) ht
      rw [hwritten]
      simpa only [List.append_assoc] using h
    rw [hl.unique hscan] at hp
    have hle := end_le_of_mem_located hp
    rw [hwritten, List.length_append]
    omega
  · have hne : torn ≠ [] := hbad.resolve_right hempty
    have hpos := List.length_pos_iff.mpr hne
    have hreadable : ∀ r ∈ ps.map Put.record, Readable r := by
      intro r hr
      obtain ⟨q, hq, rfl⟩ := List.mem_map.mp hr
      exact q.readable (fun he => hempty ⟨q, hq, he⟩) (hsizes q hq)
    obtain ⟨m, hm⟩ := exists_scan hlen (written ps).length
    have hscan := scan_encode hreadable (torn ++ more)
      (by rw [encode_record, ← List.append_assoc]; exact hm)
    rw [encode_record, ← List.append_assoc] at hscan
    rw [hl.unique hscan, positions_record] at hp
    obtain hp | hp := List.mem_append.mp hp
    · have hle := end_le_of_mem_located hp
      omega
    · -- behind the whole records: the part itself, then what its header leads to
      cases hm with
      | stop => cases hp
      | step hr hm =>
          obtain rfl | hp := List.mem_cons.mp hp
          · simp only
            omega
          · obtain ⟨hstep, -⟩ := recordAt_step hlen hr
            have hle := le_of_mem_scan hlen hm p hp
            obtain ⟨q, hq, hqne⟩ := hcut
            have hlt : torn.length < q.record.bytes.length :=
              lt_of_le_of_ne hq.length_le fun heq => hqne (hq.eq_of_length heq)
            rw [List.append_assoc, List.drop_left] at hstep
            by_cases h16 : 16 ≤ torn.length
            · have htake : (torn ++ more).take 16 = q.record.header := by
                have h16' : q.record.header.length = 16 := q.sized.header
                obtain ⟨t, ht⟩ := hq
                have heq := congrArg (List.take 16) ht
                rw [List.take_append_of_le_length h16, DatafileRecord.bytes, List.append_assoc,
                  List.take_left' h16'] at heq
                rw [List.take_append_of_le_length h16, heq]
              have hheader : ccaskGetDatafileRecordHeader ⟨q.record.header, [], []⟩ =
                  ccaskGetDatafileRecordHeader q.record := rfl
              rw [htake, hheader, q.sized.key, q.sized.value] at hstep
              rw [q.sized.bytes_length] at hlt
              omega
            · omega

end Lost

variable [Zlib]

/-- A directory in which the newest datafile `id` ends with a part of a record, behind the records
of `ps`. -/
structure TornAt (fs : Fs) (id : Nat) (tl : List Nat) (seg : Nat → List Put) (ps : List Put)
    (torn : Bytes) : Prop where
  stored : Stored fs (id :: tl) seg
  head : fs.read (fileName id .data) = some (written ps ++ torn)
  sizes : ∀ p ∈ ps, p.record.bytes.length < 2 ^ 32
  cut : ∃ p : Put, torn <+: p.record.bytes ∧ torn ≠ p.record.bytes
  current : ∀ i, (fs.read (fileName i .hint)).isSome → i ∈ id :: tl

/-- Puts that returned CCASK_OK, each with the file and the position that the key directory had
for it afterwards. In between time passes and hint generators end. -/
inductive PutRun : World → List (Nat × Put × Nat) → World → Prop
  | refl (w : World) : PutRun w [] w
  | put {w v u : World} {locs : List (Nat × Put × Nat)} {key value : Buf} {rs rest : List Reply}
      {e : KeydirRecord} :
      PutRun w locs v → AllClean rs →
      (ccaskPutBlocking (some key) (some value)).run rs v = .returned (.ok ()) rest u →
      ccaskKeydirFind key.val u = some e →
      PutRun w (locs ++ [(e.fileId, ⟨UInt32.ofNat v.clock, some key, some value⟩, e.recordPos)]) u
  | generate {w v u : World} {locs : List (Nat × Put × Nat)} {id : Nat} {rs rest : List Reply} :
      PutRun w locs v → id ∈ v.threads → AllClean rs →
      (runGenerator id).run rs v = .returned () rest u → PutRun w locs u
  | tick {w v : World} {locs : List (Nat × Put × Nat)} (now : Nat) :
      PutRun w locs v → PutRun w locs { v with clock := now }

/-- Recovery of a file, by its hint file if it has one, makes the upsert of a record in it. -/
def Recovers (v : World) (x : Nat × Put × Nat) : Prop :=
  ∃ es : List KeydirRecord, logEntry x ∈ es ∧ ∀ upsert f I, Upserts upsert f I → I v →
    Computes (if (v.fs.read (fileName x.1 .hint)).isSome then recoverHintfile upsert x.1
      else recoverDatafile upsert x.1) v (.ok ()) (es.foldl f v)

/-- After a clean restart every one of these records is recovered, and `ccask_get` gives the last
put of each of their keys. -/
def Survives (w : World) (locs : List (Nat × Put × Nat)) : Prop :=
  ∃ w₁, Computes ccaskShutdown w () w₁ ∧
    (∀ v, Restaged w₁.fs v.fs → ∀ x ∈ locs, Recovers v x) ∧
    ∀ v opts, Restaged w₁.fs v.fs → Lists opts.listing v.fs →
      ∃ v', Computes (ccaskInit opts) v (.ok ()) v' ∧
        ∀ k : Buf, k.val ∈ locs.map (fun x => putKey x.2.1) →
          ∃ u, Computes (ccaskGet k) v' (lookup (locs.map fun x => x.2.1) k.val) u

/-- The first of the records does not fit behind `c`. -/
def Rotates (threshold : UInt64) (c : Bytes) (locs : List (Nat × Put × Nat)) : Prop :=
  ∀ x, locs.head? = some x → threshold.toNat < c.length + x.2.1.record.bytes.length

section Survive

variable {w w₁ w₂ : World} {id : Nat} {tl : List Nat} {seg : Nat → List Put} {ps : List Put}
  {torn : Bytes} {locs : List (Nat × Put × Nat)}

/-- The start that accepts such a directory. -/
theorem TornAt.init (h : TornAt w.fs id tl seg ps torn) {opts : CcaskOptions}
    (hlists : Lists opts.listing w.fs) : ∃ w', Computes (ccaskInit opts) w (.ok ()) w' ∧
      Holds w' seg ∧ Started opts w' ∧ w'.fs = w.fs ∧ w'.clock = w.clock ∧ ids w' = id :: tl := by
  obtain ⟨w', hinit, hserves, hstarted, hfs, hclock, hids⟩ := h.stored.init hlists
  refine ⟨w', hinit, hstarted.holds hserves ?_ ?_, hstarted, hfs, hclock, hids⟩
  · rw [hfs, hids]
    exact h.stored
  · rw [hfs, hids]
    exact h.current

/-- Without a part of a record, and with values everywhere, the newest file holds records only. -/
theorem TornAt.appends (h : TornAt w.fs id tl seg ps []) (hvalues : ∀ p ∈ ps, p.value.bytes ≠ [])
    {v : World} (hholds : Holds v seg) (hfs : v.fs = w.fs) (hids : ids v = id :: tl) :
    Appends v seg := by
  refine { hholds with top := ?_ }
  intro f rest hfiles
  rw [ids_eq hfiles] at hids
  obtain ⟨rfl, -⟩ := List.cons.inj hids
  have hhead := h.head
  rw [List.append_nil] at hhead
  obtain ⟨c, hc, hscan⟩ := h.stored.disk.scans f.fileId List.mem_cons_self
  rw [hhead] at hc
  obtain rfl := Option.some.inj hc
  have heq := hscan.unique (scan_written fun p hp => ⟨hvalues p hp, h.sizes p hp⟩)
  have hmap := congrArg (fun l => encode (l.map Prod.fst)) heq
  have hfst : ∀ qs : List Put, (located qs).map Prod.fst = qs.map Put.record := by
    intro qs
    rw [← positions_record]
    exact map_fst_locate 0 _
  simp only [recordsOf, hfst, encode_record] at hmap
  rw [hfs, hhead, hmap]

/-- What the store holds after the puts, when they do not meet the part of a record; the newest
file starts as `c`, and holds records only when `clean`. -/
structure Carried (w₁ : World) (seg : Nat → List Put) (id : Nat) (c : Bytes) (clean : Prop)
    (locs : List (Nat × Put × Nat)) (v : World) (seg' : Nat → List Put) : Prop where
  holds : Holds v seg'
  log_eq : log (ids v) seg' = log (ids w₁) seg ++ locs
  threshold : v.maxActiveFileSize = w₁.maxActiveFileSize
  newest : ∀ f rest, v.files = f :: rest → f.fileId ≤ id + locs.length ∧
    (locs = [] → v.fs.read (fileName f.fileId .data) = some c)
  top : clean ∨ locs ≠ [] → Appends v seg'

theorem Carried.transfer {c : Bytes} {clean : Prop} {v u : World} {seg' : Nat → List Put}
    (h : Carried w₁ seg id c clean locs v seg') (hholds : Holds u seg') (hids : ids u = ids v)
    (hdata : ∀ i, u.fs.read (fileName i .data) = v.fs.read (fileName i .data))
    (ht : u.maxActiveFileSize = v.maxActiveFileSize) : Carried w₁ seg id c clean locs u seg' := by
  refine ⟨hholds, by rw [hids]; exact h.log_eq, ht.trans h.threshold, ?_, fun hc =>
    (h.top hc).transfer hholds hids hdata⟩
  intro f rest hfiles
  obtain ⟨g, rest', hg, -, -, -⟩ := h.holds.store.mounted.active
  have heq := hids
  rw [ids_eq hfiles, ids_eq hg] at heq
  rw [(List.cons.inj heq).1, hdata]
  exact h.newest g rest' hg

/-- One more put keeps it. -/
theorem Carried.put {c : Bytes} {clean : Prop} {v u : World} {seg' : Nat → List Put}
    (h : Carried w₁ seg id c clean locs v seg') {key value : Buf} {rs rest : List Reply}
    {e : KeydirRecord} (hrs : AllClean rs)
    (hrun : (ccaskPutBlocking (some key) (some value)).run rs v = .returned (.ok ()) rest u)
    (hfind : ccaskKeydirFind key.val u = some e) (hkey : key.val ≠ [])
    (hbound : 20 + key.val.length + value.val.length < 2 ^ 32) (hid : id + locs.length + 1 < 2 ^ 31)
    (htop : clean ∨ locs ≠ [] ∨
      w₁.maxActiveFileSize.toNat < c.length + (16 + key.val.length + value.val.length)) :
    ∃ seg'', Carried w₁ seg id c clean
      (locs ++ [(e.fileId, ⟨UInt32.ofNat v.clock, some key, some value⟩, e.recordPos)]) u seg'' := by
  obtain ⟨hvalue, hsize⟩ := (ccaskPutBlocking_ok (some key) (some value)).returned
    (fun _ _ => trivial) hrun rfl
  have hgood : Good ⟨UInt32.ofNat v.clock, some key, some value⟩ := ⟨hkey, hvalue, hbound⟩
  obtain ⟨f, fs, hfiles, -, -, -⟩ := h.holds.store.mounted.active
  obtain ⟨hle, hnewest⟩ := h.newest f fs hfiles
  have hmem : f.fileId ∈ ids v := by rw [ids_eq hfiles]; exact List.mem_cons_self
  obtain ⟨d, hd⟩ := Option.isSome_iff_exists.mp ((h.holds.store.disk.known f.fileId).mp hmem)
  have htop' : Appends v seg' ∨ v.maxActiveFileSize.toNat < d.length +
      (⟨UInt32.ofNat v.clock, some key, some value⟩ : Put).record.bytes.length := by
    by_cases hlocs : locs = []
    · obtain hc | hc | hc := htop
      · exact .inl (h.top (.inl hc))
      · exact absurd hlocs hc
      · rw [hnewest hlocs] at hd
        obtain rfl := Option.some.inj hd
        rw [h.threshold, Put.length_record]
        exact .inr hc
    · exact .inl (h.top (.inr hlocs))
  obtain ⟨u', hput, hids, ht, hafter⟩ := h.holds.put hgood rfl hfiles hd htop'
    (by rw [Put.length_record]; exact hsize)
  obtain ⟨-, rfl⟩ := hput.eq_of_returned hrs hrun
  obtain ⟨seg'', i, pos, happends, hlog⟩ := hafter (by omega)
  -- the key directory has the place of the last record of the log
  have he : e = (⟨UInt32.ofNat v.clock, some key, some value⟩ : Put).entry i pos := by
    rw [ccaskKeydirFind, happends.table, ← map_log_entry, hlog, List.map_append, List.map_singleton,
      Index.get_replay_nil, Index.latest_concat] at hfind
    change (if key.val = key.val then _ else _) = _ at hfind
    rw [if_pos rfl] at hfind
    exact (Option.some.inj hfind).symm
  subst he
  refine ⟨seg'', happends.toHolds, ?_, ht.trans h.threshold, ?_, fun _ => happends⟩
  · rw [hlog, h.log_eq, List.append_assoc]
    rfl
  · intro g rest' hg
    rw [List.length_append, List.length_singleton]
    refine ⟨?_, fun hnil => absurd hnil (by simp)⟩
    rw [ids_eq hg, ids_eq hfiles] at hids
    obtain hids | hids := hids
    · rw [(List.cons.inj hids).1]
      omega
    · rw [(List.cons.inj hids).1]
      omega

/-- So do all puts, when the first of them rotates or nothing else than records is in the file. -/
theorem PutRun.carried {c : Bytes} {clean : Prop} (hrun : PutRun w₁ locs w₂)
    (h₁ : Carried w₁ seg id c clean [] w₁ seg)
    (hputs : ∀ x ∈ locs, x.2.1.key.bytes ≠ [] ∧
      20 + x.2.1.key.bytes.length + x.2.1.value.bytes.length < 2 ^ 32)
    (hids : id + locs.length < 2 ^ 31) (htop : Rotates w₁.maxActiveFileSize c locs ∨ clean) :
    ∃ seg', Carried w₁ seg id c clean locs w₂ seg' := by
  induction hrun with
  | refl => exact ⟨seg, h₁⟩
  | put hrun hrs hput hfind ih =>
      rename_i v u locs key value rs rest e
      rw [List.length_append, List.length_singleton] at hids
      have htop' : Rotates w₁.maxActiveFileSize c locs ∨ clean := by
        refine htop.imp_left fun hr x hx => hr x ?_
        rw [List.head?_append, hx, Option.some_or]
      obtain ⟨seg', h⟩ := ih (fun x hx => hputs x (List.mem_append_left _ hx)) (by omega) htop'
      obtain ⟨hkey, hbound⟩ := hputs _ (List.mem_append_right _ (List.mem_singleton_self _))
      refine h.put hrs hput hfind hkey hbound (by omega) ?_
      by_cases hlocs : locs = []
      · subst hlocs
        obtain hr | hc := htop
        · have hlt := hr _ rfl
          rw [Put.length_record] at hlt
          exact .inr (.inr hlt)
        · exact .inl hc
      · exact .inr (.inl hlocs)
  | generate hrun hid hrs hgen ih =>
      obtain ⟨seg', h⟩ := ih hputs hids htop
      obtain ⟨-, rfl⟩ := (h.holds.store.runGenerator hid).eq_of_returned hrs hgen
      exact ⟨seg', h.transfer (h.holds.generated hid) (ids_generated _ _ _)
        (h.holds.read_generated hid) rfl⟩
  | tick now hrun ih =>
      obtain ⟨seg', h⟩ := ih hputs hids htop
      exact ⟨seg', h.transfer (h.holds.tick now) rfl (fun _ => rfl) rfl⟩

/-- A store that holds the records at the end of its log has them after a restart. -/
theorem Holds.survives {v : World} {seg' : Nat → List Put} (h : Holds v seg')
    {pre : List (Nat × Put × Nat)} (hlog : log (ids v) seg' = pre ++ locs) : Survives v locs := by
  obtain ⟨v₁, hdown, hafter⟩ := h.shutdown
  obtain ⟨v₁', hdown', hup⟩ := h.restart
  obtain ⟨-, rfl⟩ := hdown.unique hdown'
  refine ⟨v₁', hdown, ?_, ?_⟩
  · intro u hr x hx
    obtain ⟨hstored, -, -⟩ := hafter u.fs hr
    have hmem : x ∈ log (ids v) seg' := by rw [hlog]; exact List.mem_append_right _ hx
    obtain ⟨hid, -, -⟩ := mem_log hmem
    refine ⟨entries x.1 (recordsOf seg' x.1), ?_, ?_⟩
    · obtain ⟨i, -, hi⟩ := List.mem_flatMap.mp hmem
      obtain ⟨q, hq, rfl⟩ := List.mem_map.mp hi
      rw [recordsOf, located, entries_record]
      exact List.mem_map.mpr ⟨q, hq, rfl⟩
    · intro upsert f I hu hI
      exact recoverFile_computes (datafileNode x.1
        (u.fs.read (fileName x.1 .hint)).isSome 0) hu hI hstored.disk hid rfl
  · intro u opts hr hlists
    obtain ⟨u', hinit, hholds, hids, -⟩ := hup u opts hr hlists
    refine ⟨u', hinit, fun k hk => ?_⟩
    obtain ⟨u'', hget, -, -⟩ := hholds.serves.get k
    have hhist : history (ids u') seg' = (pre.map fun x => x.2.1) ++ locs.map fun x => x.2.1 := by
      rw [hids, ← map_log_put, hlog, List.map_append]
    rw [hhist, lookup_append _ _ (by rwa [List.map_map])] at hget
    exact ⟨u'', hget⟩

/-- Behind a part of a record the puts survive a restart when the first of them rotates. -/
theorem TornAt.survives (h : TornAt w.fs id tl seg ps torn) {opts : CcaskOptions}
    (hlists : Lists opts.listing w.fs) {rs rest : List Reply} (hrs : AllClean rs)
    (hinit : (ccaskInit opts).run rs w = .returned (.ok ()) rest w₁) (hrun : PutRun w₁ locs w₂)
    (hputs : ∀ x ∈ locs, x.2.1.key.bytes ≠ [] ∧
      20 + x.2.1.key.bytes.length + x.2.1.value.bytes.length < 2 ^ 32)
    (hid : id + locs.length < 2 ^ 31)
    (htop : Rotates opts.datafileRotateThreshold (written ps ++ torn) locs ∨
      torn = [] ∧ ∀ p ∈ ps, p.value.bytes ≠ []) : Survives w₂ locs := by
  obtain ⟨w', hinit', hholds, hstarted, hfs, -, hids⟩ := h.init hlists
  obtain ⟨-, rfl⟩ := hinit'.eq_of_returned hrs hinit
  rw [← hstarted.threshold] at htop
  have h₁ : Carried w₁ seg id (written ps ++ torn) (torn = [] ∧ ∀ p ∈ ps, p.value.bytes ≠ []) []
      w₁ seg := by
    refine ⟨hholds, (List.append_nil _).symm, rfl, ?_, ?_⟩
    · intro f rest hfiles
      rw [ids_eq hfiles] at hids
      rw [(List.cons.inj hids).1, hfs]
      exact ⟨Nat.le_refl _, fun _ => h.head⟩
    · intro hclean
      obtain ⟨rfl, hvalues⟩ := hclean.resolve_right fun hne => hne rfl
      exact h.appends hvalues hholds hfs hids
  obtain ⟨seg', hcarried⟩ := hrun.carried h₁ hputs hid htop
  exact hcarried.holds.survives hcarried.log_eq

end Survive

section Lose

omit [Zlib] in
open Classical in
/-- The datafiles of a directory without anything else. -/
theorem exists_restaged (fs : Fs) : ∃ fs', Restaged fs fs' ∧
    ∀ id, fs'.read (fileName id .hint) = none := by
  refine ⟨{ dir := fun n => if ∃ id, n = fileName id .data then fs.dir n else none
            data := fs.data
            next := fs.next
            fresh := ?_
            single := ?_ }, ⟨?_, ?_, ?_⟩, ?_⟩
  · intro n i hi
    split at hi
    · exact fs.fresh hi
    · cases hi
  · intro m n i hm hn
    split at hm
    · split at hn
      · exact fs.single hm hn
      · cases hn
    · cases hm
  · intro id
    simp only [Fs.read]
    rw [if_pos ⟨id, rfl⟩]
  · intro id h hh
    simp [Fs.read] at hh
  · intro name hname
    simp only [Fs.read] at hname
    split at hname
    · rename_i hex
      obtain ⟨id, rfl⟩ := hex
      exact ⟨id, .inl rfl⟩
    · cases hname
  · intro id
    simp [Fs.read]

omit [Zlib] in
/-- Such a directory can be read when its datafiles are known. -/
theorem exists_listed (fs : Fs) {l : List Nat} (hl : l.Nodup)
    (hknown : ∀ id, id ∈ l ↔ (fs.read (fileName id .data)).isSome) :
    ∃ fs' listing, Restaged fs fs' ∧ Lists listing fs' := by
  obtain ⟨fs', hr, hnone⟩ := exists_restaged fs
  have hlong : ∀ id (name : Name), name.length ≤ 2 → name ≠ fileName id .data := by
    rintro id name hname rfl
    rw [fileName, List.length_append] at hname
    have hext : (extChars .data).length = 5 := rfl
    omega
  refine ⟨fs', ['.'] :: ['.', '.'] :: l.map (fileName · .data), hr, ?_, fun name => ?_⟩
  · refine List.nodup_cons.mpr ⟨?_, List.nodup_cons.mpr ⟨?_, hl.map fun i j h => (fileName_inj.mp h).1⟩⟩
    · intro hmem
      obtain h | hmem := List.mem_cons.mp hmem
      · cases h
      · obtain ⟨id, -, h⟩ := List.mem_map.mp hmem
        exact hlong id ['.'] (by decide) h.symm
    · intro hmem
      obtain ⟨id, -, h⟩ := List.mem_map.mp hmem
      exact hlong id ['.', '.'] (by decide) h.symm
  · rw [List.mem_cons, List.mem_cons]
    refine or_congr Iff.rfl (or_congr Iff.rfl ⟨fun hmem => ?_, fun hsome => ?_⟩)
    · obtain ⟨id, hid, rfl⟩ := List.mem_map.mp hmem
      rw [hr.data]
      exact (hknown id).mp hid
    · obtain ⟨id, rfl | rfl⟩ := hr.names name hsome
      · rw [hr.data] at hsome
        exact List.mem_map_of_mem ((hknown id).mpr hsome)
      · rw [hnone] at hsome
        cases hsome

/-- An upsert that keeps every entry it is given. -/
def logUpsert (record : KeydirRecord) : Sys Status := do
  Prog.modify fun w => { w with hashTable := w.hashTable ++ [record] }
  pure (.ok ())

omit [Zlib] in
theorem logUpsert_upserts : Upserts logUpsert
    (fun w record => { w with hashTable := w.hashTable ++ [record] }) (fun _ => True) :=
  ⟨fun _ _ _ => Computes.modify_bind (Computes.pure _), fun _ _ _ => trivial, fun _ _ => rfl⟩

omit [Zlib] in
theorem hashTable_foldl (es : List KeydirRecord) (w : World) :
    (es.foldl (fun w record => { w with hashTable := w.hashTable ++ [record] }) w).hashTable =
      w.hashTable ++ es := by
  induction es generalizing w with
  | nil => exact (List.append_nil _).symm
  | cons e es ih =>
      rw [List.foldl_cons, ih, List.append_assoc]
      rfl

variable {w w₁ w₂ : World} {id : Nat} {tl : List Nat} {seg : Nat → List Put} {ps : List Put}
  {torn : Bytes} {locs : List (Nat × Put × Nat)}

omit [Zlib] in
/-- A record is recovered only from a position at which a scan of its file finds one. -/
theorem Recovers.mem_scan {x : Nat × Put × Nat} (h : Recovers w x)
    (hhint : w.fs.read (fileName x.1 .hint) = none) {c : Bytes}
    (hc : w.fs.read (fileName x.1 .data) = some c) {l : List (DatafileRecord × Nat)}
    (hl : Scan (recordAt c) 0 l) : ∃ p ∈ l, p.2 = x.2.2 := by
  obtain ⟨es, hmem, hall⟩ := h
  obtain ⟨ino, hdir, rfl⟩ := Fs.exists_of_read hc
  have hrec := hall _ _ _ logUpsert_upserts trivial
  rw [hhint, Option.isSome_none, if_neg Bool.false_ne_true] at hrec
  have hscan := recoverDatafile_computes logUpsert_upserts (w := w) trivial hdir hl
  have htable := congrArg World.hashTable (hrec.unique hscan).2
  rw [hashTable_foldl, hashTable_foldl, List.append_cancel_left_eq] at htable
  rw [← htable] at hmem
  obtain ⟨p, hp, heq⟩ := List.mem_map.mp hmem
  exact ⟨p, hp, congrArg KeydirRecord.recordPos heq⟩

/-- Before the first put only time passes. -/
theorem PutRun.idle (h : PutRun w locs w₂) (hlocs : locs = []) (ht : w.threads = []) :
    w₂ = { w with clock := w₂.clock } := by
  induction h with
  | refl => rfl
  | put => exact absurd hlocs (by simp)
  | generate _ hid _ _ ih =>
      rw [ih hlocs, ht] at hid
      cases hid
  | tick now _ ih => rw [ih hlocs]

/-- The first put of a run. -/
theorem PutRun.first (h : PutRun w locs w₂) (ht : w.threads = []) {x : Nat × Put × Nat}
    (hx : locs.head? = some x) : ∃ (now : Nat) (key value : Buf) (rs rest : List Reply) (u : World)
      (e : KeydirRecord), AllClean rs ∧ (ccaskPutBlocking (some key) (some value)).run rs
        { w with clock := now } = .returned (.ok ()) rest u ∧ ccaskKeydirFind key.val u = some e ∧
      x = (e.fileId, ⟨UInt32.ofNat now, some key, some value⟩, e.recordPos) ∧ Extends u w₂ := by
  induction h with
  | refl => cases hx
  | put hrun hrs hput hfind ih =>
      rename_i v u locs key value rs rest e
      by_cases hlocs : locs = []
      · subst hlocs
        have hv := hrun.idle rfl ht
        obtain rfl := Option.some.inj hx
        exact ⟨v.clock, key, value, rs, rest, u, e, hrs, hv ▸ hput, hfind, rfl, refl_of Extends u⟩
      · obtain ⟨y, ys, rfl⟩ := List.exists_cons_of_ne_nil hlocs
        obtain ⟨now, key', value', rs', rest', u', e', hrs', hput', hfind', heq, hext⟩ := ih hx
        exact ⟨now, key', value', rs', rest', u', e', hrs', hput', hfind', heq,
          trans_of Extends hext ((ccaskPutBlocking_extends _ _).of_run hput)⟩
  | generate _ _ _ hgen ih =>
      obtain ⟨now, key, value, rs, rest, u, e, hrs, hput, hfind, heq, hext⟩ := ih hx
      exact ⟨now, key, value, rs, rest, u, e, hrs, hput, hfind, heq,
        trans_of Extends hext ((runGenerator_extends _).of_run hgen)⟩
  | tick now _ ih =>
      obtain ⟨now, key, value, rs, rest, u, e, hrs, hput, hfind, heq, hext⟩ := ih hx
      exact ⟨now, key, value, rs, rest, u, e, hrs, hput, hfind, heq,
        hext.tick _⟩

/-- A put that fits goes behind whatever is in the newest file. -/
theorem Holds.put_behind {v u : World} (h : Holds v seg) {f : CcaskFile} {files : List CcaskFile}
    (hfiles : v.files = f :: files) {c : Bytes}
    (hread : v.fs.read (fileName f.fileId .data) = some c) {p : Put}
    (hts : p.timestamp = UInt32.ofNat v.clock) {rs rest : List Reply} (hrs : AllClean rs)
    (hput : (ccaskPutBlocking p.key p.value).run rs v = .returned (.ok ()) rest u)
    (hfits : c.length + p.record.bytes.length ≤ v.maxActiveFileSize.toNat) :
    u.fs.read (fileName f.fileId .data) = some (c ++ p.record.bytes) ∧
      ccaskKeydirFind p.key.bytes u = some (p.entry f.fileId c.length) := by
  have hvalue := ((ccaskPutBlocking_ok p.key p.value).returned (fun _ _ => trivial) hput rfl).1
  obtain ⟨ino, hdir, rfl⟩ := Fs.exists_of_read hread
  have hwrite := ccaskWriteRecordBlocking_fits h.store.mounted hfiles hdir h.store.unlocked hvalue hfits
  obtain ⟨-, rfl⟩ := (h.putBlocking hts hwrite).eq_of_returned hrs hput
  refine ⟨by rw [read_wrote hdir, Function.update_self], ?_⟩
  change Index.get KeydirRecord.key p.key.bytes (Index.put KeydirRecord.key
    (datafileEntry f.fileId p.record (v.fs.data ino).length) v.hashTable) = _
  rw [datafileEntry_record, Index.get_put, if_pos]
  rfl

/-- A put that goes behind a part of a record, or behind a record without a value, does not
survive a restart, as long as the file is shorter than 2^32 bytes. -/
theorem TornAt.not_survives (h : TornAt w.fs id tl seg ps torn) {opts : CcaskOptions}
    (hlists : Lists opts.listing w.fs) {rs rest : List Reply} (hrs : AllClean rs)
    (hinit : (ccaskInit opts).run rs w = .returned (.ok ()) rest w₁) (hrun : PutRun w₁ locs w₂)
    (hshort : ∀ v c, Computes ccaskShutdown w₂ () v → v.fs.read (fileName id .data) = some c →
      c.length < 2 ^ 32) {x : Nat × Put × Nat} (hx : locs.head? = some x)
    (hfits : (written ps ++ torn).length + x.2.1.record.bytes.length ≤
      opts.datafileRotateThreshold.toNat)
    (hbad : torn ≠ [] ∨ ∃ p ∈ ps, p.value.bytes = []) : ¬ Survives w₂ locs := by
  intro hsurvives
  obtain ⟨w', hinit', hholds, hstarted, hfs, -, hids⟩ := h.init hlists
  obtain ⟨-, rfl⟩ := hinit'.eq_of_returned hrs hinit
  obtain ⟨now, key, value, rs', rest', u, e, hrs', hput, hfind, rfl, hext⟩ :=
    hrun.first hstarted.threads hx
  -- the put appends its record to the part
  have hholds' := hholds.tick now
  obtain ⟨f, files, hfiles, -, -, -⟩ := hholds'.store.mounted.active
  obtain rfl : f.fileId = id := (List.cons.inj ((ids_eq hfiles).symm.trans hids)).1
  have hhead := h.head
  rw [← hfs] at hhead
  rw [← hstarted.threshold] at hfits
  obtain ⟨hread, hentry⟩ := hholds'.put_behind (p := ⟨UInt32.ofNat now, some key, some value⟩) hfiles
    hhead rfl hrs' hput hfits
  obtain rfl := Option.some.inj (hfind.symm.trans hentry)
  -- nothing takes it away, and no scan finds it
  obtain ⟨w₃, hdown, hrecovers, -⟩ := hsurvives
  obtain ⟨rs₃, rest₃, -, hrun₃⟩ := hdown.exists_run
  obtain ⟨more, hmore⟩ := (trans_of Extends hext (ccaskShutdown_extends.of_run hrun₃)).data _ _ hread
  have hlen := hshort _ _ hdown hmore
  rw [List.append_assoc] at hmore hlen
  obtain ⟨l, hl⟩ := exists_scan hlen 0
  obtain ⟨fs, hr, hnone⟩ := exists_restaged w₃.fs
  have hrec := hrecovers { w₃ with fs := fs } hr _ (List.mem_of_mem_head? hx)
  obtain ⟨q, hq, hpos⟩ := hrec.mem_scan (hnone _) ((hr.data _).trans hmore) hl
  exact ne_of_mem_scan h.sizes h.cut hbad hlen hl q hq hpos

/-- The puts after a crash survive the next restart when the first of them does not go to the file
with the part of a record, and, in a file of less than 2^32 bytes, only then, unless there is
nothing to run into. -/
theorem survives_torn (h : TornAt w.fs id tl seg ps torn) {opts : CcaskOptions}
    (hlists : Lists opts.listing w.fs) {rs rest : List Reply} (hrs : AllClean rs)
    (hinit : (ccaskInit opts).run rs w = .returned (.ok ()) rest w₁) (hrun : PutRun w₁ locs w₂)
    (hne : locs ≠ []) :
    ((∀ x ∈ locs, x.2.1.key.bytes ≠ [] ∧
        20 + x.2.1.key.bytes.length + x.2.1.value.bytes.length < 2 ^ 32) →
      id + locs.length < 2 ^ 31 →
      Rotates opts.datafileRotateThreshold (written ps ++ torn) locs ∨
        torn = [] ∧ (∀ p ∈ ps, p.value.bytes ≠ []) → Survives w₂ locs) ∧
    ((∀ v c, Computes ccaskShutdown w₂ () v → v.fs.read (fileName id .data) = some c →
        c.length < 2 ^ 32) →
      Survives w₂ locs → Rotates opts.datafileRotateThreshold (written ps ++ torn) locs ∨
        torn = [] ∧ ∀ p ∈ ps, p.value.bytes ≠ []) := by
  refine ⟨fun hputs hid htop => h.survives hlists hrs hinit hrun hputs hid htop, ?_⟩
  intro hshort hsurvives
  by_contra hnot
  rw [not_or] at hnot
  obtain ⟨x, xs, rfl⟩ := List.exists_cons_of_ne_nil hne
  have hfits : (written ps ++ torn).length + x.2.1.record.bytes.length ≤
      opts.datafileRotateThreshold.toNat := by
    apply Nat.le_of_not_lt
    intro hlt
    exact hnot.1 fun y hy => Option.some.inj hy ▸ hlt
  refine h.not_survives hlists hrs hinit hrun hshort rfl hfits ?_ hsurvives
  by_contra hclean
  rw [not_or, not_not] at hclean
  exact hnot.2 ⟨hclean.1, fun p hp he => hclean.2 ⟨p, hp, he⟩⟩

end Lose

section Sample

/-- A directory after a crash: one record, and five bytes of the next one. -/
def tornDirectory : World := oneFile (fileName 0 .data)
  (written [bytePut 1 97 98] ++ (bytePut 2 97 99).record.bytes.take 5)

def tornOptions : CcaskOptions := ⟨[['.'], ['.', '.'], fileName 0 .data], 4, 100⟩

theorem tornAt_tornDirectory : TornAt tornDirectory.fs 0 [] (fun _ => [bytePut 1 97 98])
    [bytePut 1 97 98] ((bytePut 2 97 99).record.bytes.take 5) := by
  have hgood := good_bytePut 1 97 98
  have hlen : (bytePut 2 97 99).record.bytes.length = 18 := by rw [Put.length_record]; rfl
  have hprefix := List.take_prefix 5 (bytePut 2 97 99).record.bytes
  have hne : (bytePut 2 97 99).record.bytes.take 5 ≠ (bytePut 2 97 99).record.bytes := by
    intro heq
    have hcut := congrArg List.length heq
    rw [List.length_take, hlen] at hcut
    omega
  have hread : tornDirectory.fs.read (fileName 0 .data) = some _ := read_oneFile _ _
  have hother : ∀ m, m ≠ fileName 0 .data → tornDirectory.fs.read m = none :=
    fun m hm => read_oneFile_of_ne hm _
  have hmem : ∀ p ∈ [bytePut 1 97 98], p = bytePut 1 97 98 := fun p hp => List.mem_singleton.mp hp
  have hscan : Scan (recordAt (written [bytePut 1 97 98] ++ (bytePut 2 97 99).record.bytes.take 5)) 0
      (located [bytePut 1 97 98]) := by
    have hreadable : ∀ r ∈ [(bytePut 1 97 98).record], Readable r := by
      intro r hr
      rw [List.mem_singleton.mp hr]
      exact Put.readable hgood.value_ne hgood.size.2
    have h := scan_encode hreadable
      ((bytePut 2 97 99).record.bytes.take 5)
      (.stop (recordAt_torn _ (bytePut 2 97 99).sized hprefix hne))
    rw [List.append_nil] at h
    exact h
  refine ⟨⟨⟨List.pairwise_singleton _ _, ?_, ?_, ?_, ?_, ?_⟩, ?_, ?_⟩, hread, ?_, ⟨_, hprefix, hne⟩, ?_⟩
  · intro i
    rw [List.mem_singleton]
    constructor
    · rintro rfl
      rw [hread]
      rfl
    · intro hsome
      by_contra hi
      rw [hother _ (by simpa using hi)] at hsome
      cases hsome
  · intro i hi
    rw [List.mem_singleton.mp hi]
    exact ⟨_, hread, hscan⟩
  · intro i _ q hq
    have hput : ∀ p ∈ [bytePut 1 97 98], Good p := fun p hp => by rw [hmem p hp]; exact hgood
    refine hintable_written hput ?_ q hq
    rw [written, layout_cons, layout_nil, List.append_nil, Put.length_record]
    decide
  · intro i _ c hc
    rw [hother _ (by simp)] at hc
    cases hc
  · intro name hname
    refine ⟨0, .data, by decide, by decide, ?_⟩
    by_contra hne
    rw [hother name hne] at hname
    cases hname
  · intro i hi
    rw [List.mem_singleton.mp hi]
    exact ⟨_, hread⟩
  · intro i _ p hp
    rw [hmem p hp]
    exact hgood
  · intro p hp
    rw [hmem p hp]
    exact hgood.size.2
  · intro i hi
    rw [hother _ (by simp)] at hi
    cases hi

theorem lists_tornOptions : Lists tornOptions.listing tornDirectory.fs := by
  refine ⟨by decide, fun name => ?_⟩
  have hiff : (tornDirectory.fs.read name).isSome ↔ name = fileName 0 .data := by
    constructor
    · intro hsome
      by_contra hne
      rw [tornDirectory, read_oneFile_of_ne hne] at hsome
      cases hsome
    · rintro rfl
      rw [tornDirectory, read_oneFile]
      rfl
  rw [hiff]
  simp [tornOptions]

/-- A start on it, and a put of the same key. -/
theorem exists_tornRun : ∃ (w₁ w₂ : World) (rs rest : List Reply), AllClean rs ∧
    (ccaskInit tornOptions).run rs tornDirectory = .returned (.ok ()) rest w₁ ∧
    PutRun w₁ [(0, bytePut 0 97 99, 23)] w₂ ∧
    ∀ v c, Computes ccaskShutdown w₂ () v → v.fs.read (fileName 0 .data) = some c →
      c.length < 2 ^ 32 := by
  obtain ⟨w₁, hinit, hholds, hstarted, hfs, hclock, hids⟩ := tornAt_tornDirectory.init lists_tornOptions
  obtain ⟨rs, rest, hrs, hrun⟩ := hinit.exists_run
  obtain ⟨f, files, hfiles, -, -, -⟩ := hholds.store.mounted.active
  have hid : f.fileId = 0 := (List.cons.inj ((ids_eq hfiles).symm.trans hids)).1
  have hhead := tornAt_tornDirectory.head
  have hlen : (written [bytePut 1 97 98] ++ (bytePut 2 97 99).record.bytes.take 5).length = 23 := by
    rw [List.length_append, List.length_take, written, layout_cons, layout_nil, List.append_nil,
      Put.length_record, Put.length_record]
    rfl
  have hrec : (bytePut 0 97 99).record.bytes.length = 18 := by rw [Put.length_record]; rfl
  rw [← hfs, ← hid] at hhead
  obtain ⟨ino, hdir, hdata⟩ := Fs.exists_of_read hhead
  have hts : (bytePut 0 97 99).timestamp = UInt32.ofNat w₁.clock := by rw [hclock]; rfl
  have hfits : 23 + (bytePut 0 97 99).record.bytes.length ≤ w₁.maxActiveFileSize.toNat := by
    rw [hrec, hstarted.threshold]
    decide
  have hput := hholds.putBlocking hts (ccaskWriteRecordBlocking_fits hholds.store.mounted hfiles hdir
    hholds.store.unlocked (by rw [Put.record_value]; decide) (by rw [hdata, hlen]; exact hfits))
  obtain ⟨rs', rest', hrs', hrun'⟩ := hput.exists_run
  obtain ⟨hread, hentry⟩ := hholds.put_behind hfiles hhead hts hrs' hrun' (by rw [hlen]; exact hfits)
  rw [hlen] at hentry
  have hputs := PutRun.put (.refl w₁) hrs' hrun' hentry
  rw [hclock] at hputs
  simp only [List.nil_append, Put.entry, hid] at hputs
  refine ⟨w₁, _, rs, rest, hrs, hrun, hputs, ?_⟩
  intro v c hdown hc
  have hidle := ccaskShutdown_idle (w := wrote w₁ 0 ino (bytePut 0 97 99).record)
    hstarted.threads hstarted.ringbuf rfl hholds.store.unlocked
  obtain ⟨-, rfl⟩ := hidle.unique hdown
  change (wrote w₁ 0 ino (bytePut 0 97 99).record).fs.read (fileName 0 .data) = some c at hc
  rw [hid] at hread
  rw [hread] at hc
  rw [← Option.some.inj hc, List.length_append, hlen, hrec]
  decide

omit [Zlib] in
theorem survives_torn_one : letI := zlib
    ∃ w₁ w₂, PutRun w₁ [(0, bytePut 0 97 99, 23)] w₂ ∧
    ((∀ x ∈ [((0 : Nat), bytePut 0 97 99, (23 : Nat))], x.2.1.key.bytes ≠ [] ∧
        20 + x.2.1.key.bytes.length + x.2.1.value.bytes.length < 2 ^ 32) →
      0 + [((0 : Nat), bytePut 0 97 99, (23 : Nat))].length < 2 ^ 31 →
      Rotates tornOptions.datafileRotateThreshold
        (written [bytePut 1 97 98] ++ (bytePut 2 97 99).record.bytes.take 5)
        [(0, bytePut 0 97 99, 23)] ∨ (bytePut 2 97 99).record.bytes.take 5 = [] ∧
          (∀ p ∈ [bytePut 1 97 98], p.value.bytes ≠ []) → Survives w₂ [(0, bytePut 0 97 99, 23)]) ∧
    ((∀ v c, Computes ccaskShutdown w₂ () v → v.fs.read (fileName 0 .data) = some c →
        c.length < 2 ^ 32) →
      Survives w₂ [(0, bytePut 0 97 99, 23)] → Rotates tornOptions.datafileRotateThreshold
        (written [bytePut 1 97 98] ++ (bytePut 2 97 99).record.bytes.take 5)
        [(0, bytePut 0 97 99, 23)] ∨ (bytePut 2 97 99).record.bytes.take 5 = [] ∧
          ∀ p ∈ [bytePut 1 97 98], p.value.bytes ≠ []) := by
  let _ := zlib
  obtain ⟨w₁, w₂, rs, rest, hrs, hinit, hrun, -⟩ := exists_tornRun
  exact ⟨w₁, w₂, hrun, survives_torn tornAt_tornDirectory lists_tornOptions hrs hinit hrun (by simp)⟩

omit [Zlib] in
/-- A put behind five bytes of a record is lost by the next restart. -/
theorem not_survives_torn : letI := zlib
    ∃ w₁ w₂ rs rest, TornAt tornDirectory.fs 0 [] (fun _ => [bytePut 1 97 98]) [bytePut 1 97 98]
        ((bytePut 2 97 99).record.bytes.take 5) ∧ Lists tornOptions.listing tornDirectory.fs ∧
      AllClean rs ∧ (ccaskInit tornOptions).run rs tornDirectory = .returned (.ok ()) rest w₁ ∧
      PutRun w₁ [(0, bytePut 0 97 99, 23)] w₂ ∧ ¬ Survives w₂ [(0, bytePut 0 97 99, 23)] := by
  let _ := zlib
  obtain ⟨w₁, w₂, rs, rest, hrs, hinit, hrun, hshort⟩ := exists_tornRun
  refine ⟨w₁, w₂, rs, rest, tornAt_tornDirectory, lists_tornOptions, hrs, hinit, hrun, ?_⟩
  have hlen : (written [bytePut 1 97 98] ++ (bytePut 2 97 99).record.bytes.take 5).length = 23 := by
    rw [List.length_append, List.length_take, written, layout_cons, layout_nil, List.append_nil,
      Put.length_record, Put.length_record]
    rfl
  refine tornAt_tornDirectory.not_survives lists_tornOptions hrs hinit hrun hshort rfl ?_ (.inl ?_)
  · rw [hlen, Put.length_record]
    decide
  · rw [ne_eq, ← List.length_eq_zero_iff, List.length_take, Put.length_record]
    decide

end Sample

end Ccask.Audit
