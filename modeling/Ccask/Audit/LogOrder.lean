import Ccask.Audit.Compaction
import Ccask.Audit.RotationRace

/-!
# The order of the log and the order of the key directory

A record is appended under the lock of its file and entered under the lock of the key
directory. The records of a key lie in the files in the order in which the first locks were
taken, and its entry is that of the thread that came last to the second one.
-/

namespace Ccask.Audit

open Ccask.Effect Ccask.Model

section Order

variable {l : List Nat} {seg : Nat → List Put}

/-- The order in which recovery comes to the records. -/
def Before (a b : KeydirRecord) : Prop :=
  a.fileId < b.fileId ∨ a.fileId = b.fileId ∧ a.recordPos < b.recordPos

theorem Before.asymm (a b : KeydirRecord) (h : Before a b) : ¬ Before b a := by
  unfold Before at *
  omega

theorem Before.trans {a b c : KeydirRecord} (h : Before a b) (h' : Before b c) : Before a c := by
  unfold Before at *
  omega

theorem entries_sorted [Zlib] (id : Nat) (ps : List Put) :
    (entries id (located ps)).Pairwise Before := by
  rw [entries, located, List.map_map, List.pairwise_map]
  refine (locate_sorted fun p _ => ?_).imp fun {a b} hab => .inr ⟨rfl, hab⟩
  exact List.ne_nil_of_length_pos (by rw [p.length_record]; omega)

theorem allEntries_sorted [Zlib] (hl : l.Pairwise (· > ·)) (seg : Nat → List Put) :
    (allEntries l (recordsOf seg)).Pairwise Before := by
  rw [allEntries, List.pairwise_flatMap]
  refine ⟨fun id _ => entries_sorted id (seg id), ?_⟩
  refine (List.pairwise_reverse.mpr hl).imp fun {i j} hij a ha b hb => .inl ?_
  obtain ⟨p, -, rfl⟩ := List.mem_map.mp ha
  obtain ⟨q, -, rfl⟩ := List.mem_map.mp hb
  exact hij

end Order

/-- There is an id for another file. -/
def Room (w : World) : Prop :=
  ∀ file, ccaskFilesGetActiveFile w = some file → file.fileId + 1 < 2 ^ 31

/-- There are ids left after the first files. -/
theorem room_of_ids {w : World} {id : Nat} {l : List Nat} (hids : ids w = id :: l) (hid : id ≤ 1) :
    Room w := by
  intro file hfile
  obtain ⟨rest, hfiles⟩ := List.head?_eq_some_iff.mp hfile
  rw [ids_eq hfiles] at hids
  rw [(List.cons.inj hids).1]
  omega

section Pending

variable {ι : Type} [DecidableEq ι] {w : World} {c : Pool World ι PutCall} {i : ι} {t : PutCall}

/-- A thread is still to enter this record. -/
def Pending (c : Pool World ι PutCall) (e : KeydirRecord) : Prop :=
  ∃ i r id pos, c.thread i = .upsert r id pos ∧ e = datafileEntry id r pos

theorem pending_set {e : KeydirRecord} (h : Pending (c.set i w t) e) :
    (∃ r id pos, t = .upsert r id pos ∧ e = datafileEntry id r pos) ∨ Pending c e := by
  obtain ⟨j, r, id, pos, hj, he⟩ := h
  by_cases hji : j = i
  · rw [hji, Pool.thread_set_self] at hj
    exact .inl ⟨r, id, pos, hj, he⟩
  · rw [Pool.thread_set_of_ne _ _ _ hji] at hj
    exact .inr ⟨j, r, id, pos, hj, he⟩

/-- Another thread does not make a thread enter its record. -/
theorem Pending.set {e : KeydirRecord} (h : Pending c e)
    (hi : ∀ r id pos, c.thread i = .upsert r id pos → e ≠ datafileEntry id r pos) :
    Pending (c.set i w t) e := by
  obtain ⟨j, r, id, pos, hj, he⟩ := h
  refine ⟨j, r, id, pos, ?_, he⟩
  rw [Pool.thread_set_of_ne]
  · exact hj
  · rintro rfl
    exact hi r id pos hj he

end Pending

variable [Zlib]

section Filed

/-- The datafiles of a store that holds these puts, whatever its key directory says. -/
def Filed (w : World) (seg : Nat → List Put) : Prop :=
  ∃ table, Appends { w with hashTable := table } seg

variable {w v : World} {seg : Nat → List Put} {p : Put}

theorem Filed.store (h : Filed w seg) : Store w (recordsOf seg) := by
  obtain ⟨table, happends⟩ := h
  have hs := happends.store
  exact ⟨hs.mounted.congr rfl fun _ => rfl, hs.unlocked, hs.disk, hs.flags, hs.current, hs.nodup,
    hs.pending, hs.idle⟩

theorem Filed.stored (h : Filed w seg) : Stored w.fs (ids w) seg := by
  obtain ⟨table, happends⟩ := h
  exact happends.stored

/-- The key directory alone changes. -/
theorem Filed.entered (h : Filed w seg) (record : KeydirRecord) : Filed (upserted w record) seg := h

/-- An append puts the record at the end of the log. -/
theorem Filed.append (h : Filed w seg) (hp : Good p)
    (hsize : p.record.bytes.length ≤ w.maxActiveFileSize.toNat) (hroom : Room w) :
    ∃ id pos v seg', Computes (writeAppend p.record) w (.ok (id, pos)) v ∧ Filed v seg' ∧
      log (ids v) seg' = log (ids w) seg ++ [(id, p, pos)] ∧ v.hashTable = w.hashTable ∧
      v.maxActiveFileSize = w.maxActiveFileSize ∧
      (ids v = ids w ∨ ∃ f rest, ids w = f :: rest ∧ ids v = (f + 1) :: ids w) := by
  have hm := h.store.mounted
  obtain ⟨f, rest, hfiles, -⟩ := hm.active
  have hid := hroom f (by rw [ccaskFilesGetActiveFile, hfiles]; rfl)
  obtain ⟨ino, hdir⟩ := hm.head_dir hfiles
  obtain ⟨table, happends⟩ := h
  have hmax := w.maxActiveFileSize.toNat_lt
  by_cases hfits : (w.fs.data ino).length + p.record.bytes.length ≤ w.maxActiveFileSize.toNat
  · have hdata : w.fs.data ino = written (seg f.fileId) := by
      have hc := happends.top f rest hfiles
      rw [Fs.read, hdir, Option.map_some] at hc
      exact Option.some.inj hc
    have hlog : log (f.fileId :: rest.map CcaskFile.fileId)
        (Function.update seg f.fileId (seg f.fileId ++ [p])) =
          log (f.fileId :: rest.map CcaskFile.fileId) seg ++ [(f.fileId, p, (written (seg f.fileId)).length)] :=
      log_wrote (hm.not_mem_rest hfiles) p
    rw [← ids_eq hfiles, ← hdata] at hlog
    exact ⟨_, _, _, _, writeAppend_fits hm hfiles hdir hp.value_ne hfits,
      ⟨_, happends.wrote hfiles hdir hp (lt_of_le_of_lt hfits hmax)⟩, hlog, rfl, rfl, .inl rfl⟩
  · have hfull := Nat.lt_of_not_le hfits
    have hrot := happends.toHolds.rotated hfiles hid
    have hnot : f.fileId + 1 ∉ ids w := by
      intro hin
      have hsome := (happends.store.disk.known _).mp hin
      rw [hm.next_absent hfiles] at hsome
      cases hsome
    have hempty := data_rotated hm hfiles
    have hlog : ∀ s : Nat → List Put, log ((f.fileId + 1) :: ids w)
        (Function.update s (f.fileId + 1) (s (f.fileId + 1) ++ [p])) = log ((f.fileId + 1) :: ids w) s ++
          [(f.fileId + 1, p, (written (s (f.fileId + 1))).length)] := fun s => log_wrote hnot p
    have hlog := hlog (Function.update seg (f.fileId + 1) [])
    rw [log_rotated hnot, ← ids_rotated hfiles, Function.update_self] at hlog
    have hwrote := hrot.wrote rfl (Fs.dir_create_self _ _) hp
      (by rw [data_rotated happends.store.mounted hfiles, List.length_nil]; omega)
    rw [Function.update_self] at hwrote
    exact ⟨_, _, _, _, writeAppend_rotates hm hfiles hdir (by omega) hp.value_ne hfull hsize,
      ⟨_, hwrote⟩, hlog, rfl, rfl, .inr ⟨_, _, ids_eq hfiles, ids_rotated hfiles⟩⟩

end Filed

section Calls

variable {ι : Type} {w : World} {c : Pool World ι PutCall} {seg : Nat → List Put}

/-- The call is to append the record of a put that the store can hold. -/
def Begins (w : World) (t : PutCall) : Prop :=
  ∃ p : Put, Good p ∧ p.record.bytes.length ≤ w.maxActiveFileSize.toNat ∧ t = .append p.record

/-- There is an id for another file when a record is appended, and an entry takes the place of an
earlier one. -/
def InLogOrder (w : World) : PutCall → Prop
  | .append _ => Room w
  | .upsert r id pos =>
    ∀ e, ccaskKeydirFind r.key w = some e → Before e (datafileEntry id r pos)
  | .done _ => True

/-- The datafiles hold the puts, and an entry leads to one of the records, as does one that is still to
be entered. -/
structure Recorded (c : Pool World ι PutCall) (seg : Nat → List Put) : Prop where
  filed : Filed c.shared seg
  found : ∀ k e, ccaskKeydirFind k c.shared = some e →
    e ∈ allEntries (ids c.shared) (recordsOf seg)
  pending : ∀ e, Pending c e → e ∈ allEntries (ids c.shared) (recordsOf seg)
  calls : ∀ i, Begins c.shared (c.thread i) ∨ ∀ r, c.thread i ≠ .append r

/-- A record later than that of the entry of its key is still to be entered. -/
structure Entered (c : Pool World ι PutCall) (seg : Nat → List Put) : Prop
    extends Recorded c seg where
  newest : ∀ e ∈ allEntries (ids c.shared) (recordsOf seg), Pending c e ∨
    ∃ e', ccaskKeydirFind e.key c.shared = some e' ∧ (e = e' ∨ Before e e')

/-- The entries of a store that nobody writes to yet. -/
theorem Holds.find (h : Holds w seg) (k : Bytes) : ccaskKeydirFind k w =
    Index.latest KeydirRecord.key k (allEntries (ids w) (recordsOf seg)) := by
  rw [ccaskKeydirFind, h.table, Index.get_replay_nil]

theorem Appends.recorded (h : Appends c.shared seg)
    (hc : ∀ i, Begins c.shared (c.thread i) ∨ ∃ res, c.thread i = .done res) : Recorded c seg := by
  refine ⟨⟨_, h⟩, fun k e hk => ?_, ?_, fun i => ?_⟩
  · rw [h.toHolds.find] at hk
    exact List.mem_reverse.mp (Index.mem_of_get hk)
  · rintro e ⟨i, r, id, pos, hi, -⟩
    obtain ⟨p, -, -, hp⟩ | ⟨res, hres⟩ := hc i
    · cases hi.symm.trans hp
    · cases hi.symm.trans hres
  · obtain hbegins | ⟨res, hres⟩ := hc i
    · exact .inl hbegins
    · exact .inr fun r hr => by cases hres.symm.trans hr

theorem Appends.entered (h : Appends c.shared seg) (hc : ∀ i, Begins c.shared (c.thread i)) :
    Entered c seg := by
  refine ⟨h.recorded fun i => .inl (hc i), fun e he => .inr ?_⟩
  rw [h.toHolds.find]
  cases hlast : Index.latest KeydirRecord.key e.key (allEntries (ids c.shared) (recordsOf seg)) with
  | none => exact absurd (List.mem_map_of_mem he) (Index.latest_eq_none.mp hlast)
  | some e' => exact ⟨e', rfl, Index.latest_greatest
      (allEntries_sorted h.store.mounted.sorted seg) he hlast⟩

/-- With no record left to be entered an entry is that of the last record of its key. -/
theorem Entered.find (h : Entered c seg) (hidle : ∀ i r id pos, c.thread i ≠ .upsert r id pos)
    (k : Bytes) : ccaskKeydirFind k c.shared =
      Index.latest KeydirRecord.key k (allEntries (ids c.shared) (recordsOf seg)) := by
  have hnewest : ∀ e ∈ allEntries (ids c.shared) (recordsOf seg),
      ∃ e', ccaskKeydirFind e.key c.shared = some e' ∧ (e = e' ∨ Before e e') := by
    intro e he
    obtain ⟨i, r, id, pos, hi, -⟩ | hnew := h.newest e he
    · exact absurd hi (hidle i r id pos)
    · exact hnew
  cases hk : ccaskKeydirFind k c.shared with
  | none =>
      refine (Index.latest_eq_none.mpr fun hin => ?_).symm
      obtain ⟨e, he, hkey⟩ := List.mem_map.mp hin
      obtain ⟨e', he', -⟩ := hnewest e he
      rw [hkey, hk] at he'
      cases he'
  | some e =>
      refine (Index.latest_of_greatest Before.asymm (allEntries_sorted h.filed.store.mounted.sorted seg)
        (h.found k e hk) (Index.key_of_get hk) fun b hb hkey => ?_).symm
      obtain ⟨e', he', hle⟩ := hnewest b hb
      rw [hkey, hk] at he'
      cases he'
      exact hle

variable [DecidableEq ι] {i : ι} {t : PutCall}

theorem calls_set (hc : ∀ j, Begins c.shared (c.thread j) ∨ ∀ r, c.thread j ≠ .append r)
    (hmax : w.maxActiveFileSize = c.shared.maxActiveFileSize) (ht : ∀ r, t ≠ .append r) (j : ι) :
    Begins w ((c.set i w t).thread j) ∨ ∀ r, (c.set i w t).thread j ≠ .append r := by
  by_cases hji : j = i
  · rw [hji, Pool.thread_set_self]
    exact .inr ht
  · rw [Pool.thread_set_of_ne _ _ _ hji, Begins, hmax]
    exact hc j

/-- An append leaves its record to be entered. -/
theorem Recorded.append {p : Put} (h : Recorded c seg) (hp : Good p)
    (hsize : p.record.bytes.length ≤ c.shared.maxActiveFileSize.toNat)
    (hroom : Room c.shared) : ∃ id pos w seg',
      Computes (writeAppend p.record) c.shared (.ok (id, pos)) w ∧ w.hashTable = c.shared.hashTable ∧
      allEntries (ids w) (recordsOf seg') =
        allEntries (ids c.shared) (recordsOf seg) ++ [datafileEntry id p.record pos] ∧
      Recorded (c.set i w (.upsert p.record id pos)) seg' := by
  obtain ⟨id, pos, w, seg', happend, hfiled, hlog, htable, hmax, -⟩ := h.filed.append hp hsize hroom
  have hes : allEntries (ids w) (recordsOf seg') =
      allEntries (ids c.shared) (recordsOf seg) ++ [datafileEntry id p.record pos] := by
    rw [← map_log_entry, hlog, List.map_append, map_log_entry, datafileEntry_record]
    rfl
  refine ⟨id, pos, w, seg', happend, htable, hes, hfiled, fun k e hk => ?_, fun e he => ?_,
    calls_set h.calls hmax fun r => PutCall.noConfusion⟩
  · rw [Pool.shared_set, ccaskKeydirFind, htable] at hk
    rw [Pool.shared_set, hes]
    exact List.mem_append_left _ (h.found k e hk)
  · rw [Pool.shared_set, hes]
    obtain ⟨r, id', pos', heq, rfl⟩ | he := pending_set he
    · cases heq
      exact List.mem_append_right _ (List.mem_singleton_self _)
    · exact List.mem_append_left _ (h.pending e he)

/-- An update leads to the record that was appended. -/
theorem Recorded.upsert {r : DatafileRecord} {id pos : Nat} (h : Recorded c seg)
    (hi : c.thread i = .upsert r id pos) (res : Status) :
    Recorded (c.set i (upserted c.shared (datafileEntry id r pos)) (.done res)) seg := by
  refine ⟨h.filed.entered _, fun k e hk => ?_, fun e he => ?_,
    calls_set h.calls rfl fun r => PutCall.noConfusion⟩
  · rw [Pool.shared_set, find_upserted] at hk
    split at hk
    · rw [← Option.some.inj hk]
      exact h.pending _ ⟨i, r, id, pos, hi, rfl⟩
    · exact h.found k e hk
  · obtain ⟨r', id', pos', heq, -⟩ | he := pending_set he
    · cases heq
    · exact h.pending e he

/-- A section of a call is one of the two. -/
theorem Recorded.step_cases (h : Recorded c seg) (hroom : ∀ r, c.thread i = .append r → Room c.shared)
    (hs : Section (fun _ => AllClean) PutCall.sect c.shared (c.thread i) w t) :
    (∃ (p : Put) (id pos : Nat) (seg' : Nat → List Put), c.thread i = .append p.record ∧ t = .upsert p.record id pos ∧
      w.hashTable = c.shared.hashTable ∧ allEntries (ids w) (recordsOf seg') =
        allEntries (ids c.shared) (recordsOf seg) ++ [datafileEntry id p.record pos] ∧
      Recorded (c.set i w t) seg') ∨
    ∃ r id pos, c.thread i = .upsert r id pos ∧ t = .done (.ok ()) ∧
      w = upserted c.shared (datafileEntry id r pos) ∧ Recorded (c.set i w t) seg := by
  cases hi : c.thread i with
  | append r =>
      rw [hi] at hs
      obtain ⟨p, hp, hsize, hr⟩ | hr := h.calls i
      · rw [hi] at hr
        cases hr
        obtain ⟨id, pos, v, seg', happend, htable, hes, hrecorded⟩ :=
          h.append (i := i) hp hsize (hroom _ hi)
        obtain ⟨rfl, rfl⟩ := hs.computes rfl (fun _ h => h) (happend.bind (Computes.pure _))
        exact .inl ⟨p, id, pos, seg', rfl, rfl, htable, hes, hrecorded⟩
      · exact absurd hi (hr r)
  | upsert r id pos =>
      rw [hi] at hs
      obtain ⟨rfl, rfl⟩ := hs.computes rfl (fun _ h => h)
        ((writeUpsert_computes h.filed.store.unlocked id pos).bind (Computes.pure _))
      exact .inr ⟨r, id, pos, rfl, rfl, rfl, h.upsert hi _⟩
  | done res =>
      rw [hi] at hs
      exact absurd rfl hs.ne_none

/-- An update in the order of the log makes the entry that of the latest record. -/
theorem Entered.upsert {r : DatafileRecord} {id pos : Nat} (h : Entered c seg)
    (hi : c.thread i = .upsert r id pos) (hok : InLogOrder c.shared (.upsert r id pos)) :
    ∀ e ∈ allEntries (ids c.shared) (recordsOf seg),
      Pending (c.set i (upserted c.shared (datafileEntry id r pos)) t) e ∨
      ∃ e', ccaskKeydirFind e.key (upserted c.shared (datafileEntry id r pos)) = some e' ∧
        (e = e' ∨ Before e e') := by
  intro e he
  rw [find_upserted]
  by_cases heq : e = datafileEntry id r pos
  · rw [heq]
    exact .inr ⟨_, if_pos rfl, .inl rfl⟩
  · obtain hpend | ⟨e', he', hle⟩ := h.newest e he
    · refine .inl (hpend.set fun r' id' pos' hr => ?_)
      rw [hi] at hr
      cases hr
      exact heq
    · split
      · rename_i hkey
        have hbefore := hok e' (by rw [← he', ← hkey]; rfl)
        obtain rfl | hlt := hle
        · exact .inr ⟨_, rfl, .inr hbefore⟩
        · exact .inr ⟨_, rfl, .inr (hlt.trans hbefore)⟩
      · exact .inr ⟨e', he', hle⟩

/-- A section of a call that keeps to the order of the log. -/
theorem Entered.step (h : Entered c seg) (hok : InLogOrder c.shared (c.thread i))
    (hs : Section (fun _ => AllClean) PutCall.sect c.shared (c.thread i) w t) :
    ∃ seg', Entered (c.set i w t) seg' := by
  obtain ⟨p, id, pos, seg', hi, rfl, htable, hes, hrecorded⟩ | ⟨r, id, pos, hi, rfl, rfl, hrecorded⟩ :=
    h.toRecorded.step_cases (fun r hr => by rw [hr] at hok; exact hok) hs
  · refine ⟨seg', hrecorded, fun e he => ?_⟩
    rw [Pool.shared_set, hes] at he
    obtain he | he := List.mem_append.mp he
    · obtain hpend | hnew := h.newest e he
      · exact .inl (hpend.set fun r id' pos' hr => by cases hi.symm.trans hr)
      · rw [Pool.shared_set, ccaskKeydirFind, htable]
        exact .inr hnew
    · exact .inl ⟨i, _, _, _, Pool.thread_set_self .., List.mem_singleton.mp he⟩
  · rw [hi] at hok
    exact ⟨seg, hrecorded, h.upsert hi hok⟩

end Calls

section Agreement

/-- The key directory says of every key what the files say: it is the one that recovery would make,
the entry of a key is that of its record with the greatest file id and position, and a restart
changes the answer of no `ccask_get`. -/
structure Agrees (w : World) : Prop where
  recovers : ∃ w', Computes ccaskKeydirInit w (.ok ()) w' ∧
    ∀ k, ccaskKeydirFind k w' = ccaskKeydirFind k w
  greatest : ∃ L, Disk w.fs (ids w) L ∧ ∀ k,
    (ccaskKeydirFind k w = none → ∀ e ∈ allEntries (ids w) L, e.key ≠ k) ∧
    ∀ e, ccaskKeydirFind k w = some e → e.key = k ∧ e ∈ allEntries (ids w) L ∧
      ∀ e' ∈ allEntries (ids w) L, e'.key = k → e' = e ∨ Before e' e
  restart : ∃ w₁, Computes ccaskShutdown w () w₁ ∧ ∀ w₂ opts, Restaged w₁.fs w₂.fs →
    Lists opts.listing w₂.fs → ∃ w₃, Computes (ccaskInit opts) w₂ (.ok ()) w₃ ∧
      ∀ key, ∃ res v v', Computes (ccaskGet key) w res v ∧ Computes (ccaskGet key) w₃ res v'

variable {ι : Type} {w : World} {c c₀ : Pool World ι PutCall} {seg : Nat → List Put} {hist : List Put}

theorem Filed.recovers (h : Filed w seg) : ∃ w', Computes ccaskKeydirInit w (.ok ()) w' ∧
    ∀ k, ccaskKeydirFind k w' =
      Index.latest KeydirRecord.key k (allEntries (ids w) (recordsOf seg)) :=
  ⟨_, ccaskKeydirInit_computes h.store.disk rfl h.store.flags, fun k => Index.get_replay_nil k _⟩

theorem Entered.agrees (h : Entered c seg) (hidle : ∀ i r id pos, c.thread i ≠ .upsert r id pos) :
    Agrees c.shared := by
  have hfind := h.find hidle
  refine ⟨?_, ⟨recordsOf seg, h.filed.store.disk, fun k => ⟨fun hk e he hkey => ?_, fun e hk => ?_⟩⟩, ?_⟩
  · obtain ⟨w', hinit, hw'⟩ := h.filed.recovers
    exact ⟨w', hinit, fun k => by rw [hw', hfind]⟩
  · rw [hfind, Index.latest_eq_none] at hk
    exact hk (by rw [← hkey]; exact List.mem_map_of_mem he)
  · have hkey := Index.key_of_get hk
    refine ⟨hkey, h.found k e hk, fun e' he' hk' => ?_⟩
    rw [hfind, ← hk'] at hk
    exact Index.latest_greatest (allEntries_sorted h.filed.store.mounted.sorted seg) he' hk
  · obtain ⟨w₁, hdown, hup⟩ := h.filed.stored.restart h.filed.store
    refine ⟨w₁, hdown, fun w₂ opts hr hlists => ?_⟩
    obtain ⟨w₃, hinit, hholds, hids, -⟩ := hup w₂ opts hr hlists
    refine ⟨w₃, hinit, fun key => ?_⟩
    have hlog : ccaskKeydirFind key.val c.shared = (Index.latest
        (fun x : Nat × Put × Nat => putKey x.2.1) key.val (log (ids c.shared) seg)).map logEntry := by
      rw [hfind, ← map_log_entry]
      exact Index.latest_map (fun _ => rfl) _ _
    obtain ⟨v, hget, -⟩ := ccaskGet_log h.filed.store.mounted h.filed.stored.contents
      h.filed.stored.good hlog
    obtain ⟨v', hget', -⟩ := hholds.serves.get key
    rw [hids] at hget'
    exact ⟨_, v, v', hget, hget'⟩

variable [DecidableEq ι]

/-- After every run in which an entry takes the place of earlier ones only, the key directory
agrees with the log whenever no call is between its append and its update. -/
theorem keydir_agrees (h : Life c₀.shared hist) (hs : ∀ i, Begins c₀.shared (c₀.thread i))
    (hrun : Pool.Runs (Section (fun _ => AllClean) PutCall.sect)
      (fun c i => InLogOrder c.shared (c.thread i)) c₀ c)
    (hidle : ∀ i r id pos, c.thread i ≠ .upsert r id pos) : Agrees c.shared := by
  obtain ⟨seg, hreached, -⟩ := h.reached
  obtain ⟨seg', hentered⟩ := hrun.inv (P := fun c => ∃ seg, Entered c seg)
    (fun c i w t hc hok hs => hc.elim fun seg hc => hc.step hok hs)
    ⟨seg, hreached.toAppends.entered hs⟩
  exact hentered.agrees hidle

end Agreement

section Sample

/-- Two threads with a record each of the same key. -/
def twoPuts (w : World) : Pool World Bool PutCall :=
  ⟨w, fun i => .append (bytePut 0 97 (if i then 98 else 99)).record⟩

variable {w : World} {c c' : Pool World Bool PutCall} {ok : Pool World Bool PutCall → Bool → Prop}
  {seg : Nat → List Put} {r : DatafileRecord} {id pos : Nat}

theorem begins_twoPuts (hmax : w.maxActiveFileSize = 100) (i : Bool) :
    Begins w ((twoPuts w).thread i) := by
  refine ⟨_, good_bytePut _ _ _, ?_, rfl⟩
  rw [hmax, Put.length_record]
  show 16 + 1 + 1 ≤ 100
  decide

omit [Zlib] in
/-- The append of a thread. -/
theorem append_next (h : Pool.Runs (Section (fun _ => AllClean) PutCall.sect) p c c') {i : Bool}
    (hi : c'.thread i = .append r) (hok : p c' i)
    (happend : Computes (writeAppend r) c'.shared (.ok (id, pos)) w) :
    Pool.Runs (Section (fun _ => AllClean) PutCall.sect) p c (c'.set i w (.upsert r id pos)) := by
  refine h.tail (.mk i hok ?_)
  rw [hi]
  exact .of_computes rfl (fun _ h => h) (happend.bind (Computes.pure _))

omit [Zlib] in
/-- The update of the key directory by a thread. -/
theorem upsert_next (h : Pool.Runs (Section (fun _ => AllClean) PutCall.sect) ok c c') {i : Bool}
    (hi : c'.thread i = .upsert r id pos) (hok : ok c' i) (hl : c'.shared.readLocks = 0) :
    Pool.Runs (Section (fun _ => AllClean) PutCall.sect) ok c
      (c'.set i (upserted c'.shared (datafileEntry id r pos)) (.done (.ok ()))) := by
  refine h.tail (.mk i hok ?_)
  rw [hi]
  exact .of_computes rfl (fun _ h => h) ((writeUpsert_computes hl id pos).bind (Computes.pure _))

/-- An append of one of the two records. -/
theorem Filed.append_byte (h : Filed w seg) (v : UInt8) (hmax : w.maxActiveFileSize = 100)
    (hroom : Room w) : ∃ id pos w' seg',
      Computes (writeAppend (bytePut 0 97 v).record) w (.ok (id, pos)) w' ∧ Filed w' seg' ∧
      allEntries (ids w') (recordsOf seg') =
        allEntries (ids w) (recordsOf seg) ++ [datafileEntry id (bytePut 0 97 v).record pos] ∧
      w'.hashTable = w.hashTable ∧ w'.maxActiveFileSize = w.maxActiveFileSize ∧
      (ids w' = ids w ∨ ∃ f rest, ids w = f :: rest ∧ ids w' = (f + 1) :: ids w) := by
  have hsize : (bytePut 0 97 v).record.bytes.length ≤ w.maxActiveFileSize.toNat := by
    rw [hmax, Put.length_record]
    show 16 + 1 + 1 ≤ 100
    decide
  obtain ⟨id, pos, w', seg', happend, hfiled, hlog, hrest⟩ :=
    h.append (good_bytePut 0 97 v) hsize hroom
  refine ⟨id, pos, w', seg', happend, hfiled, ?_, hrest⟩
  rw [← map_log_entry, hlog, List.map_append, map_log_entry, datafileEntry_record]
  rfl

/-- Both threads append, one behind the other. -/
theorem appends_two (happends : Appends w seg) (hids : ids w = [0]) (hmax : w.maxActiveFileSize = 100) :
    ∃ id₁ pos₁ w₁ id₂ pos₂ w₂ seg₂, Room w₁ ∧
      Computes (writeAppend (bytePut 0 97 98).record) w (.ok (id₁, pos₁)) w₁ ∧
      Computes (writeAppend (bytePut 0 97 99).record) w₁ (.ok (id₂, pos₂)) w₂ ∧ Filed w₂ seg₂ ∧
      w₂.hashTable = w.hashTable ∧ allEntries (ids w₂) (recordsOf seg₂) =
        allEntries (ids w) (recordsOf seg) ++ [datafileEntry id₁ (bytePut 0 97 98).record pos₁,
          datafileEntry id₂ (bytePut 0 97 99).record pos₂] := by
  obtain ⟨id₁, pos₁, w₁, seg₁, happend₁, hfiled₁, hes₁, htable₁, hmax₁, hids₁⟩ :=
    Filed.append_byte ⟨_, happends⟩ 98 hmax (room_of_ids hids (Nat.zero_le 1))
  have hroom₁ : Room w₁ := by
    rw [hids] at hids₁
    obtain hids₁ | ⟨f, rest, hf, hids₁⟩ := hids₁
    · exact room_of_ids hids₁ (Nat.zero_le 1)
    · cases hf
      exact room_of_ids hids₁ (Nat.le_refl _)
  obtain ⟨id₂, pos₂, w₂, seg₂, happend₂, hfiled₂, hes₂, htable₂, -⟩ :=
    hfiled₁.append_byte 99 (hmax₁.trans hmax) hroom₁
  refine ⟨id₁, pos₁, w₁, id₂, pos₂, w₂, seg₂, hroom₁, happend₁, happend₂, hfiled₂,
    htable₂.trans htable₁, ?_⟩
  rw [hes₂, hes₁, List.append_assoc]
  rfl

omit [Zlib] in
/-- Both threads append before either of them enters its record, in the order of the log. -/
theorem keydir_agrees_one : letI := zlib
    ∃ c₀ c : Pool World Bool PutCall, Life c₀.shared [] ∧ (∀ i, c.thread i = .done (.ok ())) ∧
      Agrees c.shared := by
  let _ := zlib
  obtain ⟨w, hrun, happends, hids, -, hmax, -⟩ := exists_run_nil
  obtain ⟨id₁, pos₁, w₁, id₂, pos₂, w₂, seg₂, hroom₁, happend₁, happend₂, hfiled₂, htable₂, hes⟩ :=
    appends_two happends hids hmax
  have hnone : ∀ k, ccaskKeydirFind k w₂ = none := by
    intro k
    rw [ccaskKeydirFind, htable₂, happends.table, hids]
    rfl
  have hsorted := allEntries_sorted hfiled₂.store.mounted.sorted seg₂
  rw [hes, hids] at hsorted
  have hbefore : Before (datafileEntry id₁ (bytePut 0 97 98).record pos₁)
      (datafileEntry id₂ (bytePut 0 97 99).record pos₂) := List.pairwise_pair.mp hsorted
  have hfirst : InLogOrder w₂ (.upsert (bytePut 0 97 98).record id₁ pos₁) := by
    intro e he
    cases (hnone _).symm.trans he
  have hsecond : InLogOrder (upserted w₂ (datafileEntry id₁ (bytePut 0 97 98).record pos₁))
      (.upsert (bytePut 0 97 99).record id₂ pos₂) := by
    intro e he
    have hkey : (datafileEntry id₁ (bytePut 0 97 98).record pos₁).key = (bytePut 0 97 99).record.key := rfl
    rw [find_upserted, if_pos hkey] at he
    rw [← Option.some.inj he]
    exact hbefore
  have hrun₁ := append_next (p := fun c i => InLogOrder c.shared (c.thread i))
    (.refl (a := twoPuts w)) (i := true) rfl (room_of_ids hids (Nat.zero_le 1)) happend₁
  have hrun₂ := append_next hrun₁ (i := false) rfl hroom₁ happend₂
  have hrun₃ := upsert_next hrun₂ (i := true) rfl hfirst hfiled₂.store.unlocked
  have hrun₄ := upsert_next hrun₃ (i := false) rfl hsecond hfiled₂.store.unlocked
  refine ⟨twoPuts w, _, .run hrun, fun i => ?_,
    keydir_agrees (.run hrun) (begins_twoPuts hmax) hrun₄ fun i r id pos hi => ?_⟩
  · cases i with
    | true => rfl
    | false => rfl
  · cases i with
    | true => cases hi
    | false => cases hi

omit [Zlib] in
/-- The thread that has appended its record first enters it last, over the record that a restart
will find. -/
theorem not_keydir_agrees : letI := zlib
    ∃ c₀ c : Pool World Bool PutCall, Life c₀.shared [] ∧ (∀ i, Begins c₀.shared (c₀.thread i)) ∧
      Pool.Runs (Section (fun _ => AllClean) PutCall.sect) (fun _ _ => True) c₀ c ∧
      (∀ i, c.thread i = .done (.ok ())) ∧ ¬ Agrees c.shared := by
  let _ := zlib
  obtain ⟨w, hrun, happends, hids, -, hmax, -⟩ := exists_run_nil
  obtain ⟨id₁, pos₁, w₁, id₂, pos₂, w₂, seg₂, -, happend₁, happend₂, hfiled₂, -, hes⟩ :=
    appends_two happends hids hmax
  have hes : allEntries (ids w₂) (recordsOf seg₂) = [datafileEntry id₁ (bytePut 0 97 98).record pos₁,
      datafileEntry id₂ (bytePut 0 97 99).record pos₂] := by
    rw [hes, hids]
    rfl
  have hrun₁ := append_next (p := fun _ _ => True) (.refl (a := twoPuts w)) (i := true) rfl trivial
    happend₁
  have hrun₂ := append_next hrun₁ (i := false) rfl trivial happend₂
  have hrun₃ := upsert_next hrun₂ (i := false) (Pool.thread_set_self ..) trivial hfiled₂.store.unlocked
  have hrun₄ := upsert_next hrun₃ (i := true) rfl trivial hfiled₂.store.unlocked
  refine ⟨twoPuts w, _, .run hrun, begins_twoPuts hmax, hrun₄, fun i => ?_, fun hagrees => ?_⟩
  · cases i with
    | true => rfl
    | false => rfl
  · obtain ⟨v, hinit, hfind⟩ := hagrees.recovers
    obtain ⟨v', hinit', hfind'⟩ := ((hfiled₂.entered _).entered _).recovers
    obtain ⟨-, rfl⟩ := hinit.unique hinit'
    have hsorted := allEntries_sorted hfiled₂.store.mounted.sorted seg₂
    rw [hes, List.pairwise_pair] at hsorted
    have hlast : ccaskKeydirFind [97] v' = some (datafileEntry id₂ (bytePut 0 97 99).record pos₂) := by
      rw [hfind']
      show Index.latest KeydirRecord.key [97] (allEntries (ids w₂) (recordsOf seg₂)) = _
      rw [hes]
      rfl
    rw [hfind] at hlast
    have hheld := (Index.get_put [97] _ _).symm.trans hlast
    rw [if_pos rfl] at hheld
    rw [Option.some.inj hheld] at hsorted
    exact Before.asymm _ _ hsorted hsorted

end Sample

end Ccask.Audit
