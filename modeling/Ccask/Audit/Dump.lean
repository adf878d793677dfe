import Ccask.Audit.AppendOnly
import Ccask.Audit.Puts
import Ccask.Index.Packing

/-!
# The dump of a compaction

The loop over the key directory copies every live record to the temporary files. Whatever
the system answers it touches nothing but those; without errors it packs the live records
into them, in the order of the key directory.
-/

namespace Ccask.Audit

open Ccask.Effect Ccask.Model Ccask.Index

instance : Std.Refl Touched := ⟨Touched.refl⟩

instance : IsTrans World Touched := ⟨fun _ _ _ h h' => h.trans h'⟩

/-- The same state up to temporary files, descriptors and access times. -/
structure Keeps (w v : World) : Prop where
  dir : ∀ name, (∀ i, name ≠ fileName i .tempData) → v.fs.dir name = w.fs.dir name
  read : ∀ name, (∀ i, name ≠ fileName i .tempData) → v.fs.read name = w.fs.read name
  same : v = { w with fs := v.fs, files := v.files }
  files : v.files.map shape = w.files.map shape

namespace Keeps

variable {w v u : World}

theorem of_touched (h : Touched w v) : Keeps w v :=
  ⟨fun _ _ => by rw [h.fs_eq], fun _ _ => by rw [h.fs_eq], by rw [h.same], h.files⟩

instance : Std.Refl Keeps := ⟨fun w => of_touched (Touched.refl w)⟩

instance : IsTrans World Keeps := ⟨fun _ _ _ h h' =>
  ⟨fun name hname => (h'.dir name hname).trans (h.dir name hname),
    fun name hname => (h'.read name hname).trans (h.read name hname), by rw [h'.same, h.same],
    h'.files.trans h.files⟩⟩

theorem create (w : World) (i : Nat) :
    Keeps w { w with fs := (w.fs.create (fileName i .tempData)).1 } :=
  ⟨fun name hname => Fs.dir_create_of_ne _ _ (hname i),
    fun name hname => by rw [Fs.read_create, Function.update_of_ne (hname i)], rfl, rfl⟩

theorem append {i : Nat} {ino : Ino} (h : w.fs.dir (fileName i .tempData) = some ino) (bytes : Bytes) :
    Keeps w (w.append ino bytes) :=
  ⟨fun _ _ => rfl,
    fun name hname => by rw [World.append, Fs.read_append h, Function.update_of_ne (hname i)], rfl, rfl⟩

theorem ids_eq (h : Keeps w v) : ids v = ids w := by
  have hmap := congrArg (List.map Prod.fst) h.files
  rwa [List.map_map, List.map_map] at hmap

theorem hashTable_eq (h : Keeps w v) : v.hashTable = w.hashTable := by rw [h.same]

theorem readLocks_eq (h : Keeps w v) : v.readLocks = w.readLocks := by rw [h.same]

theorem read_data (h : Keeps w v) (id : Nat) :
    v.fs.read (fileName id .data) = w.fs.read (fileName id .data) :=
  h.read _ fun _ => by simp

theorem read_hint (h : Keeps w v) (id : Nat) :
    v.fs.read (fileName id .hint) = w.fs.read (fileName id .hint) :=
  h.read _ fun _ => by simp

end Keeps

section Reading

/-- Reading a record moves descriptors and access times. -/
theorem ccaskReadDatafileRecord_touches (fileId : Nat) (record : DatafileRecord) (recordPos : Nat) :
    Moves Touched (ccaskReadDatafileRecord fileId record recordPos) := by
  have hset : ∀ (id : Nat) (F : World → CcaskFile → CcaskFile), (∀ w f, shape (F w f) = shape f) →
      Moves Touched (Prog.modify fun w => w.setFile id (F w)) :=
    fun id F hF => Moves.modify fun w => Touched.setFile w id (hF w)
  have hopen : ∀ file, Moves Touched (openForRead file) := by
    intro file
    refine (attempt_moves (ccaskFilesGetDatafileFd_moves _)).bind fun r => ?_
    cases r with
    | fail e => exact Moves.pure _
    | retry e => exact Moves.pure _
    | ok ino =>
        refine Moves.bind (hset _ (fun _ f => { f with fd := some ino }) fun _ _ => rfl) fun _ => ?_
        split
        · exact Moves.pure _
        · have hmark := Moves.bind (hset file.fileId (fun _ f => { f with isFdInvalidatorRunning := true })
            fun _ _ => rfl) fun _ => Moves.pure (R := Touched) (Res.ok ())
          refine Moves.call fun r => ?_
          cases r with
          | done n => exact hmark
          | intr => exact hmark
          | transient => exact Moves.pure _
          | fail => exact Moves.pure _
  refine Moves.state fun w => ?_
  cases ccaskFilesGetFile fileId w with
  | none => exact Moves.pure _ w
  | some file =>
      have hfd : Moves Touched (if file.fd.isNone then openForRead file else pure (.ok ())) := by
        split
        · exact hopen file
        · exact Moves.pure _
      refine hfd.bind (fun r => ?_) w
      cases r with
      | ok u =>
          refine Moves.state fun w => ?_
          refine (safePreadv_moves _ _ (iov_fits record) (iov_fresh record)).bind (fun r => ?_) w
          have haccess := hset fileId (fun w f => { f with lastAccessed := w.clock }) fun _ _ => rfl
          split
          · exact haccess.bind fun _ => Moves.pure _
          · exact Moves.block
          · exact haccess.bind fun _ => Moves.pure _
          · exact haccess.bind fun _ => Moves.pure _
      | fail e => exact Moves.pure _
      | retry e => exact Moves.pure _

end Reading

section Frame

variable {w : World}

/-- An open that makes a file, however often it is tried. -/
theorem openCreate_ensures (name : Name) : Ensures (fun _ => True) (attempt 5 (openCreate name)) w
    (fun r v => (r.isOk = false ∧ v = w) ∨ (r = .ok (w.fs.create name).2 ∧
      v = { w with fs := (w.fs.create name).1 })) (fun v => v = w) := by
  refine attempt_ensures (I := fun v => v = w) rfl (fun _ _ h => .inl ⟨rfl, h⟩) ?_
  rintro v rfl
  have hopen : Ensures (fun _ => True) (do
      let w ← Prog.state
      Prog.modify fun w => { w with fs := (w.fs.create name).1 }
      pure (.ok (w.fs.create name).2) : Sys (Res Ino)) v
      (fun r u => r = .ok (v.fs.create name).2 ∧ u = { v with fs := (v.fs.create name).1 })
      (fun u => u = v) := by
    refine Ensures.state.bind ?_
    rintro _ _ ⟨rfl, rfl⟩
    refine Ensures.modify.bind ?_
    rintro _ _ rfl
    exact Ensures.pure ⟨rfl, rfl⟩
  refine Ensures.bind (Ensures.call rfl) ?_
  rintro r _ ⟨-, rfl⟩
  cases r with
  | transient => exact Ensures.pure rfl
  | fail => exact Ensures.pure (.inl ⟨rfl, rfl⟩)
  | done n =>
      refine hopen.mono ?_ fun _ h => h
      rintro r u ⟨rfl, h⟩
      exact .inr ⟨rfl, h⟩
  | intr =>
      refine hopen.mono ?_ fun _ h => h
      rintro r u ⟨rfl, h⟩
      exact .inr ⟨rfl, h⟩

/-- The temporary files up to `n` are there, and which of the later ones are is as before. -/
structure TempsUpTo (w v : World) (n : Nat) : Prop where
  upto : ∀ i ≤ n, (v.fs.dir (fileName i .tempData)).isSome
  rest : ∀ i, n < i → v.fs.dir (fileName i .tempData) = w.fs.dir (fileName i .tempData)

theorem TempsUpTo.congr {v u : World} {n : Nat} (h : TempsUpTo w v n) (hdir : u.fs.dir = v.fs.dir) :
    TempsUpTo w u n := by
  refine ⟨?_, ?_⟩
  · rw [hdir]
    exact h.upto
  · rw [hdir]
    exact h.rest

/-- One more temporary file. -/
theorem TempsUpTo.create {v : World} {n : Nat} (hupto : ∀ i < n, (v.fs.dir (fileName i .tempData)).isSome)
    (hrest : ∀ i, n ≤ i → v.fs.dir (fileName i .tempData) = w.fs.dir (fileName i .tempData)) :
    TempsUpTo w { v with fs := (v.fs.create (fileName n .tempData)).1 } n := by
  refine ⟨fun i hi => ?_, fun i hi => ?_⟩
  · obtain rfl | hi := Nat.eq_or_lt_of_le hi
    · rw [Fs.dir_create_self]
      rfl
    · rw [Fs.dir_create_of_ne _ _ (by simp; omega)]
      exact hupto i hi
  · rw [Fs.dir_create_of_ne _ _ (by simp; omega)]
    exact hrest i (Nat.le_of_lt hi)

variable {w₀ : World}

/-- The file a record goes to is the last temporary one. -/
theorem tempFileFor_ensures {n : Nat} {fd : Ino} (recordSize : Nat) (hw : Keeps w₀ w)
    (hn : TempsUpTo w₀ w n) (hfd : w.fs.dir (fileName n .tempData) = some fd) :
    Ensures (fun _ => True) (tempFileFor n fd recordSize) w
      (fun r v => Keeps w₀ v ∧ ∀ p, r = .ok p →
        TempsUpTo w₀ v p.1 ∧ v.fs.dir (fileName p.1 .tempData) = some p.2)
      (Keeps w₀) := by
  refine ((lseekEnd_moves (R := Eq) (some fd) w).mono (fun _ _ h => h) fun v h => h ▸ hw).bind ?_
  rintro pos _ rfl
  cases pos with
  | none => exact Ensures.pure ⟨hw, by simp⟩
  | some pos =>
      refine Ensures.state.bind ?_
      rintro _ _ ⟨rfl, rfl⟩
      split
      · refine ((openCreate_ensures (fileName (n + 1) .tempData)).mono (fun _ _ h => h)
          fun v h => h ▸ hw).bind ?_
        rintro r v (⟨hr, rfl⟩ | ⟨rfl, rfl⟩)
        · cases r with
          | ok ino => cases hr
          | fail e => exact Ensures.pure ⟨hw, by simp⟩
          | retry e => exact Ensures.pure ⟨hw, by simp⟩
        · refine Ensures.pure ⟨trans_of Keeps hw (Keeps.create _ _), ?_⟩
          rintro p hp
          cases hp
          exact ⟨TempsUpTo.create (fun i hi => hn.upto i (Nat.le_of_lt_succ hi)) (fun i hi => hn.rest i hi),
            Fs.dir_create_self _ _⟩
      · refine Ensures.pure ⟨hw, ?_⟩
        rintro p hp
        cases hp
        exact ⟨hn, hfd⟩

/-- The loop changes nothing but temporary files, whatever the replies. -/
theorem dumpEntries_ensures (es : List KeydirRecord) {n : Nat} {fd : Ino} (hw : Keeps w₀ w)
    (hn : TempsUpTo w₀ w n) (hfd : w.fs.dir (fileName n .tempData) = some fd) :
    Ensures (fun _ => True) (dumpEntries es n fd) w
      (fun r v => Keeps w₀ v ∧ ∀ n', r = .finished n' → TempsUpTo w₀ v n') (Keeps w₀) := by
  induction es generalizing w n fd with
  | nil =>
      refine Ensures.pure ⟨hw, ?_⟩
      rintro n' hn'
      cases hn'
      exact hn
  | cons kd es ih =>
      refine ((ccaskAllocateDatafileRecord_moves (R := Eq) _ _ w).mono (fun _ _ h => h)
        fun v h => h ▸ hw).bind ?_
      rintro r _ rfl
      cases r with
      | fail e => exact Ensures.pure ⟨hw, by simp⟩
      | retry e => exact Ensures.pure ⟨hw, by simp⟩
      | ok buffers =>
          refine (((attempt_moves (ccaskReadDatafileRecord_touches _ _ _)) w).mono (fun _ _ h => h)
            fun v h => trans_of Keeps hw (Keeps.of_touched h)).bind ?_
          intro r v hv
          have hwv := trans_of Keeps hw (Keeps.of_touched hv)
          have hdir : v.fs.dir = w.fs.dir := by rw [hv.fs_eq]
          cases r with
          | fail e => exact Ensures.pure ⟨hwv, by simp⟩
          | retry e => exact Ensures.pure ⟨hwv, by simp⟩
          | ok record =>
              rw [← hdir] at hfd
              refine (tempFileFor_ensures _ hwv (hn.congr hdir) hfd).bind ?_
              rintro r u ⟨hwu, hok⟩
              cases r with
              | error tempId => exact Ensures.pure ⟨hwu, by simp⟩
              | ok p =>
                  obtain ⟨hn', hfd'⟩ := hok p rfl
                  have happend : ∀ b, Keeps w₀ (u.append p.2 b) :=
                    fun b => trans_of Keeps hwu (Keeps.append hfd' b)
                  have hwrite : Ensures (fun _ => True) (safeWritev (some p.2) record.iov) u
                      (fun _ x => ∃ b, x = u.append p.2 b) (Keeps w₀) := by
                    refine (safeWritev_ensures (fun _ => True) (iov_fits record)
                      (by simp [DatafileRecord.iov])).mono ?_ ?_
                    · rintro r x (⟨-, -, rfl⟩ | ⟨-, -, b, -, rfl⟩)
                      · exact ⟨_, rfl⟩
                      · exact ⟨_, rfl⟩
                    · rintro x ⟨b, -, rfl⟩
                      exact happend b
                  refine hwrite.bind ?_
                  rintro r x ⟨b, rfl⟩
                  cases r with
                  | fail e => exact Ensures.pure ⟨happend b, by simp⟩
                  | retry e => exact Ensures.pure ⟨happend b, by simp⟩
                  | ok _ => exact ih (happend b) (hn'.congr rfl) hfd'

/-- The state with one more read lock. -/
def locked (w : World) : World := { w with readLocks := w.readLocks + 1 }

/-- Up to the end of the loop nothing happens but to temporary files, and to the read lock. -/
theorem fillTemps_ensures (w : World) : Ensures (fun _ => True) fillTemps w
    (fun r v => match r with
      | .ok dumpEnd => Keeps (locked w) v ∧ ∀ n, dumpEnd = .finished n → TempsUpTo w v n
      | .fail _ | .retry _ => v = w)
    (fun v => v = w ∨ Keeps (locked w) v) := by
  refine ((openCreate_ensures (fileName 0 .tempData)).mono (fun _ _ h => h) fun v h => .inl h).bind ?_
  rintro r v (⟨hr, rfl⟩ | ⟨rfl, rfl⟩)
  · cases r with
    | ok ino => cases hr
    | fail e => exact Ensures.pure rfl
    | retry e => exact Ensures.pure rfl
  · have hkeeps : Keeps (locked w) (locked { w with fs := (w.fs.create (fileName 0 .tempData)).1 }) :=
      Keeps.create (locked w) 0
    have hfilled : TempsUpTo (locked w)
        (locked { w with fs := (w.fs.create (fileName 0 .tempData)).1 }) 0 :=
      TempsUpTo.create (v := locked w) (fun i hi => absurd hi (Nat.not_lt_zero i)) fun _ _ => rfl
    have hiter : Ensures (fun _ => True) ccaskKeydirRecordIter
        { w with fs := (w.fs.create (fileName 0 .tempData)).1 }
        (fun _ v => v = locked { w with fs := (w.fs.create (fileName 0 .tempData)).1 })
        (fun v => v = w ∨ Keeps (locked w) v) := by
      refine Ensures.modify.bind ?_
      rintro _ _ rfl
      refine Ensures.state.bind ?_
      rintro _ _ ⟨rfl, rfl⟩
      exact Ensures.pure rfl
    refine hiter.bind ?_
    rintro entries _ rfl
    refine ((dumpEntries_ensures entries hkeeps hfilled (Fs.dir_create_self _ _)).mono
      (fun _ _ h => h) fun v h => .inr h).bind ?_
    rintro r v ⟨hv, hn⟩
    exact Ensures.pure ⟨hv, fun n hr => ⟨(hn n hr).upto, (hn n hr).rest⟩⟩

variable {fd : Ino}

theorem tempFileFor_fits {n recordSize : Nat}
    (h : (w.fs.data fd).length + recordSize ≤ w.maxActiveFileSize.toNat) :
    Computes (tempFileFor n fd recordSize) w (.ok (n, fd)) w := by
  refine (lseekEnd_computes (some fd)).bind (Computes.state_bind ?_)
  rw [if_neg (Nat.not_lt.mpr h)]
  exact Computes.pure _

theorem tempFileFor_full {n recordSize : Nat}
    (h : w.maxActiveFileSize.toNat < (w.fs.data fd).length + recordSize) :
    Computes (tempFileFor n fd recordSize) w
      (.ok (n + 1, (w.fs.create (fileName (n + 1) .tempData)).2))
      { w with fs := (w.fs.create (fileName (n + 1) .tempData)).1 } := by
  refine (lseekEnd_computes (some fd)).bind (Computes.state_bind ?_)
  rw [if_pos h]
  exact (attempt_computes (openCreate_computes _) (by simp)).bind (Computes.pure _)

end Frame

section Live

theorem lookup_replay (hist : List Put) (k : Bytes) :
    lookup (Index.replay putKey [] hist) k = lookup hist k := by
  have hnodup : ((Index.replay putKey [] hist).map putKey).Nodup :=
    Index.nodup_replay (l := []) List.nodup_nil
  rw [lookup, lookup, Index.latest_of_nodup hnodup, Index.get_replay_nil]

variable [Zlib] {w : World} {l : List Nat} {seg : Nat → List Put}

/-- The records the key directory leads to, in its order. -/
def live (l : List Nat) (seg : Nat → List Put) : List (Nat × Put × Nat) :=
  Index.replay (fun x => putKey x.2.1) [] (log l seg)

theorem Serves.table_live (h : Serves w seg) : w.hashTable = (live (ids w) seg).map logEntry := by
  rw [h.table, ← map_log_entry]
  exact Index.replay_map (g := logEntry) (fun _ => rfl) [] (log (ids w) seg)

theorem map_live_put (l : List Nat) (seg : Nat → List Put) :
    (live l seg).map (fun x => x.2.1) = Index.replay putKey [] (history l seg) := by
  rw [← map_log_put]
  exact (Index.replay_map (g := fun x : Nat × Put × Nat => x.2.1) (fun _ => rfl) [] (log l seg)).symm

theorem mem_log_of_mem_live {x : Nat × Put × Nat} (h : x ∈ live l seg) : x ∈ log l seg :=
  Index.mem_of_mem_replay h

end Live

section Pack

variable [Zlib] {w₀ w : World} {b : Bins Put} {fd : Ino}

/-- The bytes of the record of a put. -/
abbrev recordBytes (p : Put) : Bytes := p.record.bytes

/-- The dump has filled the temporary files as the bins say. -/
structure Dumped (w₀ w : World) (b : Bins Put) : Prop where
  keeps : Keeps w₀ w
  mounted : Mounted w
  temps : ∀ i ≤ b.last, w.fs.read (fileName i .tempData) = some (written (b.bin i))
  rest : ∀ i, b.last < i → w.fs.read (fileName i .tempData) = w₀.fs.read (fileName i .tempData)

/-- A record is written to a temporary file that is, or now becomes, the last one. -/
theorem Dumped.append (h : Dumped w₀ w b) {u : World} (hu : Keeps w u) (hm : Mounted u) {n : Nat}
    (hother : ∀ i, i ≠ n → u.fs.read (fileName i .tempData) = w.fs.read (fileName i .tempData))
    (hfd : u.fs.dir (fileName n .tempData) = some fd) (hn : b.last ≤ n) (hn' : n ≤ b.last + 1)
    {p : Put} {ps : List Put} (hps : written ps = u.fs.data fd ++ p.record.bytes) :
    Dumped w₀ (u.append fd p.record.bytes) ⟨n, Function.update b.bin n ps⟩ := by
  have hread : (u.append fd p.record.bytes).fs.read = Function.update u.fs.read
      (fileName n .tempData) (some (written ps)) := by
    rw [hps]
    exact Fs.read_append hfd _
  refine ⟨trans_of Keeps (trans_of Keeps h.keeps hu) (Keeps.append hfd _), hm.congr rfl fun _ => rfl,
    ?_, ?_⟩
  · intro i hi
    simp only at hi ⊢
    rw [hread]
    by_cases heq : i = n
    · rw [heq, Function.update_self, Function.update_self]
    · rw [Function.update_of_ne (by simpa using heq), Function.update_of_ne heq, hother i heq]
      exact h.temps i (by omega)
  · intro i hi
    simp only at hi
    rw [hread, Function.update_of_ne (by simp; omega), hother i (by omega)]
    exact h.rest i (by omega)

/-- One round of the loop over the entries: how the loop ends, or where the next record may go. -/
def dumpRound (kd : KeydirRecord) (currTempId : Nat) (fd : Ino) : Sys (DumpEnd ⊕ (Nat × Ino)) := do
  match ← ccaskAllocateDatafileRecord (UInt32.ofNat kd.key.length) kd.valueSize with
  | .fail _ | .retry _ => pure (.inl .returned)
  | .ok buffers =>
    match ← attempt 5 (ccaskReadDatafileRecord kd.fileId buffers kd.recordPos) with
    | .fail _ | .retry _ => pure (.inl (.cancelled currTempId))
    | .ok record =>
      match ← tempFileFor currTempId fd (ccaskGetDatafileRecordTotalSize record) with
      | .error tempId => pure (.inl (.cancelled tempId))
      | .ok (tempId, fd') =>
        match ← safeWritev (some fd') record.iov with
        | .ok () => pure (.inr (tempId, fd'))
        | .fail _ | .retry _ => pure (.inl (.cancelled tempId))

omit [Zlib] in
/-- A round and the rounds after it. -/
theorem dumpEntries_cons (kd : KeydirRecord) (es : List KeydirRecord) (n : Nat) (fd : Ino) :
    dumpEntries (kd :: es) n fd =
      dumpRound kd n fd >>= Sum.elim pure fun p => dumpEntries es p.1 p.2 := by
  rw [dumpEntries, dumpRound, bind_assoc]
  refine bind_congr fun r => ?_
  cases r with
  | fail e => rfl
  | retry e => rfl
  | ok buffers =>
      simp only [bind_assoc]
      refine bind_congr fun r => ?_
      cases r with
      | fail e => rfl
      | retry e => rfl
      | ok record =>
          simp only [bind_assoc]
          refine bind_congr fun r => ?_
          cases r with
          | error tempId => rfl
          | ok p =>
              simp only [bind_assoc]
              refine bind_congr fun r => ?_
              cases r <;> rfl

/-- One round of the loop puts the record of an entry into the bins. -/
theorem Dumped.round (h : Dumped w₀ w b) (hfd : w.fs.dir (fileName b.last .tempData) = some fd)
    {x : Nat × Put × Nat} {pre post : Bytes} (hid : x.1 ∈ ids w₀)
    (hread : w₀.fs.read (fileName x.1 .data) = some (pre ++ x.2.1.record.bytes ++ post))
    (hpos : x.2.2 = pre.length) (hvalue : x.2.1.value.bytes ≠ []) {b' : Bins Put}
    (hb' : b' = b.addOnto recordBytes w₀.maxActiveFileSize.toNat x.2.1)
    (hstale : ∀ i, b.last < i → i ≤ b'.last →
      (w₀.fs.read (fileName i .tempData)).getD [] = written (b.bin i)) :
    ∃ w' fd', Dumped w₀ w' b' ∧ w'.fs.dir (fileName b'.last .tempData) = some fd' ∧
      Computes (dumpRound (logEntry x) b.last fd) w (.inr (b'.last, fd')) w' := by
  rw [← h.keeps.read_data] at hread
  rw [← h.keeps.ids_eq] at hid
  obtain ⟨w₁, hcall, ht, hm⟩ := readPut_computes h.mounted hid hread hvalue
  rw [← hpos] at hcall
  have hmax : w₁.maxActiveFileSize = w₀.maxActiveFileSize := by rw [ht.same, h.keeps.same]
  have hfd₁ : w₁.fs.dir (fileName b.last .tempData) = some fd := by rw [ht.fs_eq]; exact hfd
  have hdata : w₁.fs.data fd = written (b.bin b.last) := by
    have hlast := h.temps b.last (Nat.le_refl _)
    rw [Fs.read, hfd, Option.map_some] at hlast
    rw [ht.fs_eq]
    exact Option.some.inj hlast
  have hround : ∀ {n : Nat} {fd' : Ino} {w₂ : World}, Computes (tempFileFor b.last fd
        (ccaskGetDatafileRecordTotalSize x.2.1.record)) w₁ (.ok (n, fd')) w₂ →
      Computes (dumpRound (logEntry x) b.last fd) w (.inr (n, fd')) (w₂.append fd' x.2.1.record.bytes) := by
    intro n fd' w₂ htemp
    refine (ccaskAllocateDatafileRecord_computes _ _).bind ?_
    refine (attempt_computes hcall (by simp)).bind (htemp.bind ?_)
    have hwrite : Computes (safeWritev (some fd') x.2.1.record.iov) w₂ (.ok ())
        (w₂.append fd' (gather x.2.1.record.iov)) :=
      safeWritev_computes (iov_fits _) ((iov_last _).mpr hvalue)
    rw [gather_iov] at hwrite
    exact hwrite.bind (Computes.pure _)
  have hsize := bytes_length x.2.1.record
  rw [Bins.addOnto] at hb'
  split at hb'
  · rename_i hlt
    subst hb'
    have hfull : w₁.maxActiveFileSize.toNat < (w₁.fs.data fd).length +
        ccaskGetDatafileRecordTotalSize x.2.1.record := by
      rw [hmax, hdata, ← hsize]
      exact hlt
    have hnew := Fs.data_create_self w₁.fs (fileName (b.last + 1) .tempData)
    rw [ht.fs_eq, h.rest _ (Nat.lt_succ_self _), hstale _ (Nat.lt_succ_self _) (Nat.le_refl _),
      ← ht.fs_eq] at hnew
    refine ⟨_, _, h.append (u := { w₁ with fs := (w₁.fs.create (fileName (b.last + 1) .tempData)).1 })
      (trans_of Keeps (Keeps.of_touched ht) (Keeps.create w₁ _)) ?_ ?_ (Fs.dir_create_self _ _)
      (Nat.le_succ _) (Nat.le_refl _) ?_, Fs.dir_create_self _ _, hround (tempFileFor_full hfull)⟩
    · refine hm.congr rfl fun id => ?_
      exact Fs.dir_create_of_ne _ _ (by simp)
    · intro i hi
      rw [Fs.read_create, Function.update_of_ne (by simpa using hi), ht.fs_eq]
    · rw [hnew, written_concat]
  · rename_i hle
    subst hb'
    have hfits : (w₁.fs.data fd).length + ccaskGetDatafileRecordTotalSize x.2.1.record ≤
        w₁.maxActiveFileSize.toNat := by
      rw [hmax, hdata, ← hsize]
      exact Nat.le_of_not_lt hle
    refine ⟨_, _, h.append (Keeps.of_touched ht) hm ?_ hfd₁ (Nat.le_refl _) (Nat.le_succ _) ?_, hfd₁,
      hround (tempFileFor_fits hfits)⟩
    · intro i _
      rw [ht.fs_eq]
    · rw [hdata, written_concat]

/-- A round, and then the others. -/
theorem Dumped.step (h : Dumped w₀ w b) (hfd : w.fs.dir (fileName b.last .tempData) = some fd)
    {x : Nat × Put × Nat} {pre post : Bytes} (hid : x.1 ∈ ids w₀)
    (hread : w₀.fs.read (fileName x.1 .data) = some (pre ++ x.2.1.record.bytes ++ post))
    (hpos : x.2.2 = pre.length) (hvalue : x.2.1.value.bytes ≠ []) {b' : Bins Put}
    (hb' : b' = b.addOnto recordBytes w₀.maxActiveFileSize.toNat x.2.1)
    (hstale : ∀ i, b.last < i → i ≤ b'.last →
      (w₀.fs.read (fileName i .tempData)).getD [] = written (b.bin i)) :
    ∃ w' fd', Dumped w₀ w' b' ∧ w'.fs.dir (fileName b'.last .tempData) = some fd' ∧
      ∀ es r u, Computes (dumpEntries es b'.last fd') w' r u →
        Computes (dumpEntries (logEntry x :: es) b.last fd) w r u := by
  obtain ⟨w', fd', hdumped, hdir, hround⟩ := h.round hfd hid hread hpos hvalue hb' hstale
  refine ⟨w', fd', hdumped, hdir, fun es r u hrest => ?_⟩
  rw [dumpEntries_cons]
  exact hround.bind hrest

/-- An entry whose record is found in a datafile. -/
structure Found (w : World) (x : Nat × Put × Nat) : Prop where
  mem : x.1 ∈ ids w
  read : ∃ pre post, w.fs.read (fileName x.1 .data) = some (pre ++ x.2.1.record.bytes ++ post) ∧
    x.2.2 = pre.length
  value : x.2.1.value.bytes ≠ []

/-- The loop packs the records of the entries into the bins. -/
theorem Dumped.run {xs : List (Nat × Put × Nat)} {b' : Bins Put} (h : Dumped w₀ w b)
    (hfd : w.fs.dir (fileName b.last .tempData) = some fd) (hxs : ∀ x ∈ xs, Found w₀ x)
    (hb' : b' = b.addAllOnto recordBytes w₀.maxActiveFileSize.toNat (xs.map fun x => x.2.1))
    (hstale : ∀ i, b.last < i → i ≤ b'.last →
      (w₀.fs.read (fileName i .tempData)).getD [] = written (b.bin i)) :
    ∃ w', Computes (dumpEntries (xs.map logEntry) b.last fd) w (.finished b'.last) w' ∧
      Dumped w₀ w' b' := by
  induction xs generalizing w b fd with
  | nil =>
      subst hb'
      exact ⟨w, Computes.pure _, h⟩
  | cons x xs ih =>
      have hx := hxs x List.mem_cons_self
      obtain ⟨pre, post, hread, hpos⟩ := hx.read
      rw [List.map_cons, Bins.addAllOnto, List.foldl_cons] at hb'
      have hle : (b.addOnto recordBytes w₀.maxActiveFileSize.toNat x.2.1).last ≤ b'.last := by
        rw [hb']
        exact Bins.last_le_addAllOnto _ _ _ _
      obtain ⟨w₁, fd', h₁, hfd₁, hround⟩ := h.step hfd hx.mem hread hpos hx.value rfl
        fun i hi hi' => hstale i hi (Nat.le_trans hi' hle)
      obtain ⟨w', hrun, h'⟩ := ih h₁ hfd₁ (fun y hy => hxs y (List.mem_cons_of_mem _ hy)) hb'
        (fun i hi hi' => by
          rw [Bins.bin_addOnto hi]
          exact hstale i (Nat.lt_of_le_of_lt (Bins.last_le_addAllOnto _ _ b [x.2.1]) hi) hi')
      exact ⟨w', hround _ _ _ hrun, h'⟩

/-- The live records of a history, packed into files. -/
def packed (hist : List Put) (limit : Nat) : Bins Put :=
  Bins.init.addAll recordBytes limit (Index.replay putKey [] hist)

/-- The same behind what the files hold already. -/
def packedOnto (stale : Nat → List Put) (hist : List Put) (limit : Nat) : Bins Put :=
  Bins.addAllOnto recordBytes limit ⟨0, stale⟩ (Index.replay putKey [] hist)

theorem packed_eq (hist : List Put) (limit : Nat) :
    packed hist limit = packedOnto (fun _ => []) hist limit :=
  Bins.addAll_eq_addAllOnto (fun _ _ => rfl) _

theorem Serves.found {seg : Nat → List Put} (h : Serves w seg) {x : Nat × Put × Nat}
    (hx : x ∈ live (ids w) seg) : Found w x := by
  obtain ⟨hid, hput, pre, post, hwritten, hpos⟩ := mem_log (mem_log_of_mem_live hx)
  obtain ⟨tail, htail⟩ := h.contents x.1 hid
  refine ⟨hid, ⟨pre, post ++ tail, ?_, hpos⟩, (h.good x.1 hid x.2.1 hput).value_ne⟩
  rw [htail, hwritten, List.append_assoc]

/-- Without errors the live records end up in the temporary files, behind the records that were there
before. -/
theorem fillTemps_computes {seg stale : Nat → List Put} {n : Nat} (h : Serves w seg)
    (hb : b = packedOnto stale (history (ids w) seg) w.maxActiveFileSize.toNat) (hn : n = b.last)
    (hstale : ∀ i ≤ n, (w.fs.read (fileName i .tempData)).getD [] = written (stale i)) :
    ∃ v, Computes fillTemps w (.ok (.finished n)) v ∧ Dumped (locked w) v b := by
  subst hn
  have hopened : Mounted (locked { w with fs := (w.fs.create (fileName 0 .tempData)).1 }) :=
    h.mounted.congr rfl fun id => Fs.dir_create_of_ne _ _ (by simp)
  have hstart : Dumped (locked w) (locked { w with fs := (w.fs.create (fileName 0 .tempData)).1 })
      ⟨0, stale⟩ := by
    refine ⟨Keeps.create (locked w) 0, hopened, fun i hi => ?_, fun i hi => ?_⟩
    · obtain rfl := Nat.le_zero.mp hi
      change (w.fs.create (fileName 0 .tempData)).1.read _ = _
      rw [Fs.read_create, Function.update_self, hstale 0 (Nat.zero_le _)]
    · change (w.fs.create (fileName 0 .tempData)).1.read _ = _
      rw [Fs.read_create, Function.update_of_ne]
      · rfl
      · have hne : i ≠ 0 := Nat.ne_of_gt hi
        simpa using hne
  have hlive := map_live_put (ids w) seg
  have hfound : ∀ x ∈ live (ids w) seg, Found (locked w) x :=
    fun x hx => ⟨(h.found hx).mem, (h.found hx).read, (h.found hx).value⟩
  obtain ⟨v, hrun, hdumped⟩ := hstart.run (Fs.dir_create_self _ _) hfound
    (by rw [hb, packedOnto, hlive]; rfl) fun i _ hi => hstale i hi
  refine ⟨v, ?_, hdumped⟩
  refine (attempt_computes (openCreate_computes _) (by simp)).bind ?_
  refine Computes.bind (Computes.modify_bind (Computes.state_bind (Computes.pure _))) ?_
  rw [← h.table_live] at hrun
  exact hrun.bind (Computes.pure _)

end Pack

end Ccask.Audit
