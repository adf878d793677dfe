import Ccask.Audit.DescriptorRace
import Ccask.Audit.FileList
import Ccask.Model.Invalidators

/-!
# One invalidator for each open descriptor

The test of an invalidator is made without the lock. What it has found still holds when it has the lock:
only the invalidator of a file closes it, and a file that is not active stays so.
-/

namespace Ccask.Audit

open Ccask.Effect Ccask.Model

section Invariant

/-- The files whose invalidator lives. -/
def watchedIds (s : Watched) : List Nat := s.invalidators.map Invalidator.fileId

/-- The descriptor of a file is open when it is the active one or its invalidator lives. -/
structure DescriptorKept (alive : List Nat) (active : Nat) (f : CcaskFile) : Prop where
  writes : f.isActive = true ↔ f.fileId = active
  running : f.isFdInvalidatorRunning = true ↔ f.fileId ∈ alive
  opened : f.fd.isSome ↔ f.fileId = active ∨ f.fileId ∈ alive

/-- Every file is kept, and no file has two invalidators. -/
structure Guarded (s : Watched) (active : Nat) : Prop where
  head : ∃ head, s.world.files.head? = some head ∧ head.fileId = active
  sorted : (s.world.files.map CcaskFile.fileId).Pairwise (· > ·)
  kept : ∀ f ∈ s.world.files, DescriptorKept (watchedIds s) active f
  nodup : (watchedIds s).Nodup
  known : ∀ id ∈ watchedIds s, id ∈ s.world.files.map CcaskFile.fileId ∧ id ≠ active

variable {s : Watched} {w : World} {active id : Nat} {vs : List Invalidator}

/-- The rest of the world does not matter, nor how far an invalidator has come. -/
theorem Guarded.congr (h : Guarded s active) (hfiles : w.files = s.world.files)
    (hlive : vs.map Invalidator.fileId = watchedIds s) : Guarded ⟨w, vs⟩ active := by
  obtain ⟨hhead, hsorted, hkept, hnodup, hknown⟩ := h
  have hlive' : watchedIds ⟨w, vs⟩ = watchedIds s := hlive
  refine ⟨?_, ?_, ?_, ?_, ?_⟩
  · rwa [hfiles]
  · rwa [hfiles]
  · rwa [hfiles, hlive']
  · rwa [hlive']
  · rwa [hfiles, hlive']

/-- A file and the list of the invalidators change together. -/
theorem Guarded.setFile (h : Guarded s active) {F : CcaskFile → CcaskFile} (hF : ∀ f, (F f).fileId = f.fileId)
    (hfile : ∀ f ∈ s.world.files, f.fileId = id → DescriptorKept (vs.map Invalidator.fileId) active (F f))
    (hother : ∀ i, i ≠ id → (i ∈ vs.map Invalidator.fileId ↔ i ∈ watchedIds s))
    (hnodup : (vs.map Invalidator.fileId).Nodup)
    (hknown : id ∈ vs.map Invalidator.fileId → id ∈ s.world.files.map CcaskFile.fileId ∧ id ≠ active) :
    Guarded ⟨s.world.setFile id F, vs⟩ active := by
  obtain ⟨⟨head, hhead, hactive⟩, hsorted, hkept, -, hlive⟩ := h
  have hids : (s.world.setFile id F).files.map CcaskFile.fileId = s.world.files.map CcaskFile.fileId := by
    rw [World.setFile, List.map_map]
    apply List.map_congr_left
    intro f _
    show (if f.fileId = id then F f else f).fileId = f.fileId
    split
    · exact hF f
    · rfl
  refine ⟨?_, ?_, ?_, hnodup, ?_⟩
  · refine ⟨if head.fileId = id then F head else head, ?_, ?_⟩
    · rw [World.setFile, List.head?_map, hhead]
      rfl
    · split
      · rw [hF, hactive]
      · exact hactive
  · rwa [hids]
  · intro g hg
    obtain ⟨f, hf, rfl⟩ := List.mem_map.mp hg
    split
    · rename_i hid
      exact hfile f hf hid
    · rename_i hid
      obtain ⟨hact, hrun, hopen⟩ := hkept f hf
      have hsame : f.fileId ∈ vs.map Invalidator.fileId ↔ f.fileId ∈ watchedIds s := hother _ hid
      exact ⟨hact, hrun.trans hsame.symm, hopen.trans (or_congr_right hsame.symm)⟩
  · intro i hi
    rw [hids]
    by_cases hid : i = id
    · subst hid
      exact hknown hi
    · exact hlive i ((hother i hid).mp hi)

/-- What a section leaves of the files and the invalidators, but for a rotation. -/
inductive Alters (s : Watched) : Watched → Prop
  | same {w : World} {vs : List Invalidator} : w.files = s.world.files → w.threads = s.world.threads →
      vs.map Invalidator.fileId = watchedIds s → Alters s ⟨w, vs⟩
  | touched (id : Nat) {F : CcaskFile → CcaskFile} : (∀ f, (F f).fileId = f.fileId ∧
      (F f).isActive = f.isActive ∧ (F f).fd = f.fd ∧
        (F f).isFdInvalidatorRunning = f.isFdInvalidatorRunning) →
      Alters s ⟨s.world.setFile id F, s.invalidators⟩
  | opened {id : Nat} {file : CcaskFile} (ino : Ino) : ccaskFilesGetFile id s.world = some file →
      file.fd = none → file.isFdInvalidatorRunning = false →
      Alters s ⟨s.world.setFile id fun f => { f with fd := some ino, isFdInvalidatorRunning := true },
        .asleep id :: s.invalidators⟩
  | reopened {id : Nat} {file : CcaskFile} (ino : Ino) : ccaskFilesGetFile id s.world = some file →
      file.fd = none → file.isFdInvalidatorRunning = true →
      Alters s ⟨s.world.setFile id fun f => { f with fd := some ino }, s.invalidators⟩
  | closed {id k : Nat} : s.invalidators[k]? = some (.closing id) →
      Alters s ⟨s.world.setFile id fun f => { f with fd := none, isFdInvalidatorRunning := false },
        s.invalidators.eraseIdx k⟩

/-- A file that is found is the only one with its id. -/
theorem Guarded.eq_of_getFile (h : Guarded s active) {file f : CcaskFile}
    (hget : ccaskFilesGetFile id s.world = some file) (hf : f ∈ s.world.files) (hid : f.fileId = id) :
    f = file := by
  have hfid : file.fileId = id := by simpa using List.find?_some hget
  exact List.inj_on_of_nodup_map (h.sorted.imp Nat.ne_of_gt) hf (List.mem_of_find?_eq_some hget)
    (hid.trans hfid.symm)

/-- A closed file has no invalidator and is not the active one. -/
theorem Guarded.closed_file (h : Guarded s active) {file : CcaskFile}
    (hget : ccaskFilesGetFile id s.world = some file) (hfd : file.fd = none) :
    id ≠ active ∧ id ∉ watchedIds s ∧ file.isFdInvalidatorRunning = false ∧
      id ∈ s.world.files.map CcaskFile.fileId := by
  have hmem : file ∈ s.world.files := List.mem_of_find?_eq_some hget
  have hfid : file.fileId = id := by simpa using List.find?_some hget
  obtain ⟨-, hrun, hopen⟩ := h.kept file hmem
  rw [hfd, hfid, Option.isSome_none] at hopen
  have hnot : ¬ (id = active ∨ id ∈ watchedIds s) := fun hor => Bool.false_ne_true (hopen.mpr hor)
  rw [not_or] at hnot
  refine ⟨hnot.1, hnot.2, ?_, hfid ▸ List.mem_map_of_mem hmem⟩
  rw [hfid] at hrun
  exact Bool.not_eq_true _ ▸ fun ht => hnot.2 (hrun.mp ht)

/-- An invalidator that has passed its test. -/
theorem watchedIds_set {k : Nat} (hk : s.invalidators[k]? = some (.asleep id)) :
    (s.invalidators.set k (.closing id)).map Invalidator.fileId = watchedIds s := by
  obtain ⟨hlt, hat⟩ := List.getElem?_eq_some_iff.mp hk
  have hsame : (s.invalidators.set k (.closing id)).map Invalidator.fileId =
      (s.invalidators.set k (s.invalidators[k])).map Invalidator.fileId := by
    rw [List.map_set, List.map_set, hat]
    rfl
  rw [hsame, List.set_getElem_self, watchedIds]

/-- An invalidator that ends. -/
theorem erase_watched {k : Nat} (hnodup : (watchedIds s).Nodup) (hk : s.invalidators[k]? = some (.closing id)) :
    id ∈ watchedIds s ∧ (s.invalidators.eraseIdx k).map Invalidator.fileId = (watchedIds s).erase id := by
  have hat : (watchedIds s)[k]? = some id := by
    rw [watchedIds, List.getElem?_map, hk]
    rfl
  obtain ⟨hlt, hat'⟩ := List.getElem?_eq_some_iff.mp hat
  refine ⟨List.mem_of_getElem? hat, ?_⟩
  rw [← hat', hnodup.erase_getElem k hlt, watchedIds, List.eraseIdx_map]

theorem Guarded.alters {s' : Watched} (h : Guarded s active) (hs : Alters s s') : Guarded s' active := by
  cases hs with
  | same hfiles _ hlive => exact h.congr hfiles hlive
  | touched id hF =>
      refine h.setFile (fun f => (hF f).1) (fun f hf _ => ?_) (fun _ _ => Iff.rfl) h.nodup fun hid => h.known _ hid
      obtain ⟨hact, hrun, hopen⟩ := h.kept f hf
      obtain ⟨hid, hact', hfd', hrun'⟩ := hF f
      exact ⟨by rw [hact', hid]; exact hact, by rw [hrun', hid]; exact hrun, by rw [hfd', hid]; exact hopen⟩
  | opened ino hget hfd hrun =>
      obtain ⟨hne, hnot, -, hmem⟩ := h.closed_file hget hfd
      refine h.setFile (fun _ => rfl) (fun f hf hid => ?_) (fun i hi => ?_) ?_ fun _ => ⟨hmem, hne⟩
      · obtain ⟨hact, -, -⟩ := h.kept f hf
        exact ⟨hact, iff_of_true rfl (hid ▸ List.mem_cons_self),
          iff_of_true rfl (.inr (hid ▸ List.mem_cons_self))⟩
      · rw [List.map_cons, List.mem_cons]
        exact ⟨fun hor => hor.resolve_left hi, .inr⟩
      · exact List.nodup_cons.mpr ⟨hnot, h.nodup⟩
  | reopened ino hget hfd hrun =>
      obtain ⟨-, -, hrun', -⟩ := h.closed_file hget hfd
      rw [hrun] at hrun'
      cases hrun'
  | closed hk =>
      rename_i id k
      obtain ⟨hmem, herase⟩ := erase_watched h.nodup hk
      have hgone : id ∉ (watchedIds s).erase id := h.nodup.not_mem_erase
      refine h.setFile (fun _ => rfl) (fun f hf hid => ?_) (fun i hi => ?_) ?_ fun hid => h.known id hmem
      · obtain ⟨hact, -, -⟩ := h.kept f hf
        rw [herase]
        subst hid
        refine ⟨hact, iff_of_false Bool.false_ne_true hgone, iff_of_false Bool.false_ne_true ?_⟩
        rintro (heq | hin)
        · exact (h.known _ hmem).2 heq
        · exact hgone hin
      · rw [herase, h.nodup.mem_erase_iff]
        exact ⟨fun hin => hin.2, fun hin => ⟨hi, hin⟩⟩
      · rw [herase]
        exact h.nodup.erase id

/-- A rotation makes a new active file and closes the one that was active, which had no invalidator. -/
theorem Guarded.rotated (h : Guarded s active) (hlt : active < 2 ^ 64 - 1)
    (hw : w.files = (afterRotation s.world).files) : Guarded ⟨w, s.invalidators⟩ (active + 1) := by
  obtain ⟨⟨head, hhead, rfl⟩, hsorted, hkept, hnodup, hknown⟩ := h
  obtain ⟨rest, hfiles⟩ : ∃ rest, s.world.files = head :: rest := List.head?_eq_some_iff.mp hhead
  rw [afterRotation_files hfiles hsorted (by omega)] at hw
  rw [hfiles, List.map_cons, List.pairwise_cons] at hsorted
  have hnew : head.fileId + 1 ∉ watchedIds s := by
    intro hmem
    have hold := (hknown _ hmem).1
    rw [hfiles, List.map_cons] at hold
    obtain heq | hold := List.mem_cons.mp hold
    · exact Nat.succ_ne_self _ heq
    · exact Nat.lt_asymm (hsorted.1 _ hold) (Nat.lt_succ_self _)
  have hhead' : head.fileId ∉ watchedIds s := fun hmem => (hknown _ hmem).2 rfl
  refine ⟨⟨_, by rw [hw]; rfl, rfl⟩, ?_, ?_, hnodup, ?_⟩
  · rw [hw, List.map_cons, List.map_cons, List.pairwise_cons, List.pairwise_cons]
    refine ⟨fun id hid => ?_, hsorted⟩
    obtain rfl | hid := List.mem_cons.mp hid
    · exact Nat.lt_succ_self _
    · exact Nat.lt_succ_of_lt (hsorted.1 id hid)
  · intro f hf
    rw [hw] at hf
    show DescriptorKept (watchedIds s) (head.fileId + 1) f
    obtain rfl | rfl | hf := List.mem_cons.mp hf |>.imp_right List.mem_cons.mp
    · exact ⟨iff_of_true rfl rfl, iff_of_false Bool.false_ne_true hnew, iff_of_true rfl (.inl rfl)⟩
    · obtain ⟨-, hrun, -⟩ := hkept head (hfiles ▸ List.mem_cons_self)
      refine ⟨iff_of_false Bool.false_ne_true (Nat.succ_ne_self _).symm, hrun,
        iff_of_false Bool.false_ne_true ?_⟩
      rintro (heq | hin)
      · exact (Nat.succ_ne_self _).symm heq
      · exact hhead' hin
    · obtain ⟨hact, hrun, hopen⟩ := hkept f (hfiles ▸ List.mem_cons_of_mem _ hf)
      have hlt' : f.fileId < head.fileId := hsorted.1 _ (List.mem_map_of_mem hf)
      have hne : f.fileId ≠ head.fileId + 1 := by omega
      have hne' : f.fileId ≠ head.fileId := Nat.ne_of_lt hlt'
      refine ⟨?_, hrun, ?_⟩
      · rw [hact]
        exact iff_of_false hne' hne
      · rw [hopen]
        exact ⟨fun hor => .inr (hor.resolve_left hne'), fun hor => .inr (hor.resolve_left hne)⟩
  · intro id hid
    obtain ⟨hmem, hne⟩ := hknown id hid
    rw [hw, List.map_cons]
    refine ⟨List.mem_cons_of_mem _ ?_, fun heq => hnew (heq ▸ hid)⟩
    rw [hfiles] at hmem
    exact hmem

end Invariant

section Sections

variable {s : Watched} {w : World} {id pos : Nat} {record : DatafileRecord}

/-- The file has been opened, but the thread of its invalidator could not be created. -/
def unwatched (id : Nat) (ino : Ino) (s : Watched) : Watched :=
  ⟨s.world.setFile id fun f => { f with fd := some ino }, s.invalidators⟩

/-- A check looks at the files only. -/
theorem onShared_check (id : Nat) : Ensures (fun _ => True) (onShared (readCheck id)) s
    (fun _ s' => Alters s s') (fun _ => True) := by
  have hcheck : Ensures (fun _ => True) (readCheck id) s.world _ _ := (readCheck_moves (R := Eq)).ensures
  refine hcheck.zoom.mono ?_ fun _ _ => trivial
  rintro r s' ⟨w, rfl, rfl⟩
  exact .same rfl rfl rfl

theorem onShared_transfer (id : Nat) (record : DatafileRecord) (pos : Nat) :
    Ensures (fun _ => True) (onShared (readTransfer id record pos)) s
      (fun _ s' => Alters s s') (fun _ => True) := by
  have htransfer : Ensures (fun _ => True) (readTransfer id record pos) s.world _ _ := readTransfer_accesses
  refine htransfer.zoom.mono ?_ fun _ _ => trivial
  rintro r s' ⟨w, rfl, rfl⟩
  exact .touched id fun _ => ⟨rfl, rfl, rfl, rfl⟩

/-- A file that is closed is opened and gets its invalidator, if it has none, or the thread could not be
created. -/
theorem watchedReadOpen_ensures (id : Nat) : Ensures (fun _ => True) (watchedReadOpen id) s
    (fun r s' => (r = .unwatched ∧ ∃ ino, s' = unwatched id ino s) ∨ Alters s s') (fun _ => True) := by
  refine Ensures.state_bind ?_
  cases hget : ccaskFilesGetFile id s.world with
  | none => exact Ensures.block trivial
  | some file =>
      have hfid : file.fileId = id := by simpa using List.find?_some hget
      dsimp only
      split
      · rename_i hclosed
        have hfd : file.fd = none := Option.isNone_iff_eq_none.mp hclosed
        have hopen : Ensures (fun _ => True) (attempt 5 (ccaskFilesGetDatafileFd file.fileId)) s.world _ _ :=
          ccaskFilesGetDatafileFd_ensures
        unfold watchedOpen
        refine (hopen.zoom.mono (fun _ _ h => h) fun _ _ => trivial).bind ?_
        rintro r s' ⟨w, ⟨rfl, -⟩, rfl⟩
        cases r with
        | fail e => exact Ensures.pure (.inr (.same rfl rfl rfl))
        | retry e => exact Ensures.pure (.inr (.same rfl rfl rfl))
        | ok ino =>
            rw [hfid]
            refine Ensures.modify_bind ?_
            cases hrun : file.isFdInvalidatorRunning with
            | true => exact Ensures.pure (.inr (.reopened ino hget hfd hrun))
            | false =>
                refine Ensures.call_bind trivial fun r _ => ?_
                rcases r with n | _ | _ | _
                case transient => exact Ensures.pure (.inl ⟨rfl, ino, rfl⟩)
                case fail => exact Ensures.pure (.inl ⟨rfl, ino, rfl⟩)
                all_goals
                  refine Ensures.modify_bind (Ensures.modify_bind (Ensures.pure (.inr ?_)))
                  dsimp only
                  rw [setFile_setFile (F := fun f => { f with fd := some ino }) fun _ => rfl]
                  exact .opened ino hget hfd hrun
      · exact Ensures.pure (.inr (.same rfl rfl rfl))

/-- A reader leaves the files as these sections do, unless a thread could not be created. -/
theorem Reader.alters {t t' : Reader} {m : Prog Watched Reader} {rs rest : List Reply} {s' : Watched}
    (hsect : t.sect = some m) (hrun : m.run rs s = .returned t' rest s') :
    ((∃ id record pos, t' = .unwatched id record pos) ∧ ∃ id ino, s' = unwatched id ino s) ∨
      Alters s s' := by
  have hall : ∀ r ∈ rs, (fun _ : Reply => True) r := fun _ _ => trivial
  cases t with
  | check id record pos =>
      cases hsect
      right
      refine ((onShared_check id).bind (R := fun _ s' => Alters s s') fun r v hv => ?_).returned hall hrun
      cases r with
      | ok b => cases b <;> exact Ensures.pure hv
      | fail e => exact Ensures.pure hv
      | retry e => exact Ensures.pure hv
  | opening id record pos =>
      cases hsect
      refine ((watchedReadOpen_ensures id).bind (R := fun t' s' =>
        ((∃ id record pos, t' = Reader.unwatched id record pos) ∧ ∃ id ino, s' = unwatched id ino s) ∨
          Alters s s') fun r v hv => ?_).returned hall hrun
      cases r with
      | opened => exact Ensures.pure (.inr (hv.resolve_left nofun))
      | unwatched =>
          obtain ⟨-, ino, hv⟩ | hv := hv
          · exact Ensures.pure (.inl ⟨⟨_, _, _, rfl⟩, id, ino, hv⟩)
          · exact Ensures.pure (.inr hv)
      | failed e => exact Ensures.pure (.inr (hv.resolve_left nofun))
  | reading id record pos =>
      cases hsect
      right
      exact ((onShared_transfer id record pos).bind (R := fun _ s' => Alters s s') fun r v hv =>
        Ensures.pure hv).returned hall hrun
  | unwatched id record pos =>
      cases hsect
      right
      exact ((onShared_transfer id record pos).bind (R := fun _ s' => Alters s s') fun r v hv =>
        Ensures.pure hv).returned hall hrun
  | done res => cases hsect

/-- The files and the generators are those of a rotation. -/
def RotatedTo (w v : World) : Prop := v.files = (afterRotation w).files ∧ w.threads <:+ v.threads

/-- The files and the generators are as they were. -/
def Unmoved (w v : World) : Prop := v.files = w.files ∧ v.threads = w.threads

theorem safeWritev_files (fd : Option Ino) : Ensures (fun _ => True) (safeWritev fd record.iov) w
    (fun _ v => Unmoved w v) (fun _ => True) := by
  cases fd with
  | none => exact Ensures.pure ⟨rfl, rfl⟩
  | some ino =>
      refine (safeWritev_ensures (fun _ => True) (iov_fits record) (List.cons_ne_nil _ _)).mono ?_
        fun _ _ => trivial
      rintro r v (⟨-, -, rfl⟩ | ⟨-, -, b, -, rfl⟩)
      · exact ⟨rfl, rfl⟩
      · exact ⟨rfl, rfl⟩

/-- The locked section of a write leaves the files as they are, or rotates them. -/
theorem writeLocked_files (id : Nat) : Ensures (fun _ => True) (writeLocked record id) w
    (fun r v => Unmoved w v ∨ (r = .rotated ∧ RotatedTo w v)) (fun _ => True) := by
  refine Ensures.state_bind ?_
  cases hget : ccaskFilesGetFile id w with
  | none => exact Ensures.block trivial
  | some file =>
      refine (lseekEnd_answers file.fd).bind ?_
      rintro pos v ⟨rfl, -⟩
      cases pos with
      | none => exact Ensures.pure (.inl ⟨rfl, rfl⟩)
      | some pos =>
          dsimp only
          split
          · refine ccaskFilesRotate_answers.bind ?_
            rintro res u (⟨-, ts, hts, rfl⟩ | ⟨-, rfl, -⟩)
            · exact Ensures.pure (.inr ⟨rfl, rfl, hts.suffix⟩)
            · exact Ensures.pure (.inl ⟨rfl, rfl⟩)
          · refine (safeWritev_files _).bind fun res u hu => ?_
            cases res with
            | ok _ => exact Ensures.pure (.inl hu)
            | fail e => exact Ensures.pure (.inl hu)
            | retry e => exact Ensures.pure (.inl hu)

/-- Only the locked section of a write rotates the files. -/
theorem writer_files {t t' : WriteCall} {m : Sys WriteCall} {rs rest : List Reply} {v : World}
    (hsect : t.sect = some m) (hrun : m.run rs w = .returned t' rest v) :
    Unmoved w v ∨ ((∃ r i, t = .locked r i) ∧ (∃ r, t' = .fetch r) ∧ RotatedTo w v) := by
  have hall : ∀ r ∈ rs, (fun _ : Reply => True) r := fun _ _ => trivial
  cases t with
  | fetch record =>
      cases hsect
      left
      have hfetch : Ensures (fun _ => True) writeFetch w (fun _ v => Unmoved w v) (fun _ => True) := by
        refine Ensures.state_bind ?_
        cases ccaskFilesGetActiveFile w with
        | none => exact Ensures.block trivial
        | some file => exact Ensures.pure ⟨rfl, rfl⟩
      exact (hfetch.bind (R := fun _ (v : World) => Unmoved w v) fun _ _ hv =>
        Ensures.pure hv).returned hall hrun
  | locked record id =>
      cases hsect
      have hlocked := ((writeLocked_files id).bind (R := fun t' (v : World) => Unmoved w v ∨
        ((∃ r, t' = WriteCall.fetch r) ∧ RotatedTo w v)) fun r v hv => ?_).returned hall hrun
      · exact hlocked.imp_right fun h => ⟨⟨record, id, rfl⟩, h⟩
      · cases r with
        | rotated => exact Ensures.pure (hv.imp_right fun h => ⟨⟨_, rfl⟩, h.2⟩)
        | failed e => exact Ensures.pure (hv.imp_right fun h => by cases h.1)
        | appended pos => exact Ensures.pure (hv.imp_right fun h => by cases h.1)
  | upsert record id pos =>
      cases hsect
      left
      have hupsert : Ensures (fun _ => True) (writeUpsert record id pos) w (fun _ v => Unmoved w v)
          (fun _ => True) := by
        refine (upserts_answers _).bind ?_
        rintro r v ⟨-, hv⟩
        have hsame : Unmoved w v := by
          obtain ⟨-, rfl⟩ | ⟨-, rfl, -⟩ := hv
          · exact ⟨rfl, rfl⟩
          · exact ⟨rfl, rfl⟩
        cases r with
        | ok u => exact Ensures.pure hsame
        | fail e => exact Ensures.pure hsame
        | retry e => exact Ensures.pure hsame
      exact (hupsert.bind (R := fun _ (v : World) => Unmoved w v) fun _ _ hv =>
        Ensures.pure hv).returned hall hrun
  | done res => cases hsect

end Sections

section Runs

variable {ι : Type} [DecidableEq ι] {c c' : Threads ι} {active : Nat} {w : World}

/-- The files of a successful `ccask_files_init`, and no call is being made. -/
structure FilesOpened (c : Threads ι) : Prop where
  mounted : ∃ names threshold w rs rest w', (names.filterMap dataId).Nodup ∧
    (∀ i ∈ names.filterMap dataId, i < 2 ^ 64 - 1) ∧
    (ccaskFilesInit names threshold).run rs w = .returned (.ok ()) rest w' ∧
    c.shared.world.files = w'.files
  invalidators : c.shared.invalidators = []
  readers : ∀ i, ∃ res, c.reader i = .done res
  writer : ∃ res, c.writer = .done res

/-- A write that rotates the files finds an active id below 2^64 - 1. -/
def RotatesBelow (c c' : Threads ι) : Prop :=
  ∀ record fileId, c.writer = .locked record fileId → (∃ r, c'.writer = .fetch r) →
    ∀ f, c.shared.world.files.head? = some f → f.fileId < 2 ^ 64 - 1

/-- The active file that is chosen has no invalidator, and the others are as they were. -/
theorem chosenFiles_cons (w : World) {files : List CcaskFile}
    (hnode : ∀ f ∈ files, f.isFdInvalidatorRunning = false) : ∃ head rest,
      chosenFiles w files = head :: rest ∧ head.isActive = true ∧ head.fd.isSome ∧
        head.isFdInvalidatorRunning = false ∧ ∀ f ∈ rest, f ∈ files := by
  cases files with
  | nil => exact ⟨_, [], rfl, rfl, rfl, rfl, nofun⟩
  | cons head rest =>
      rw [chosenFiles]
      split
      · exact ⟨_, _, rfl, rfl, rfl, rfl, fun _ hf => hf⟩
      · exact ⟨_, _, rfl, rfl, rfl, hnode head List.mem_cons_self, fun _ hf => List.mem_cons_of_mem _ hf⟩

/-- After the start no descriptor but that of the active file is open. -/
theorem guarded_chosen {files : List CcaskFile} (hsorted : (files.map CcaskFile.fileId).Pairwise (· > ·))
    (hnode : ∀ f ∈ files, f.isActive = false ∧ f.fd = none ∧ f.isFdInvalidatorRunning = false)
    {s : Watched} (hs : s.invalidators = []) (hfiles : s.world.files = chosenFiles w files) :
    ∃ active, Guarded s active := by
  obtain ⟨hsorted', -⟩ := chosenFiles_active (w := w) hsorted fun f hf => (hnode f hf).1
  obtain ⟨head, rest, hchosen, hact, hfd, hrun, hrest⟩ := chosenFiles_cons w fun f hf => (hnode f hf).2.2
  have hlive : watchedIds s = [] := by rw [watchedIds, hs]; rfl
  rw [hchosen] at hfiles hsorted'
  refine ⟨head.fileId, ⟨head, by rw [hfiles]; rfl, rfl⟩, by rw [hfiles]; exact hsorted', ?_, ?_, ?_⟩
  · intro f hf
    rw [hfiles] at hf
    rw [hlive]
    obtain rfl | hf := List.mem_cons.mp hf
    · exact ⟨iff_of_true hact rfl, iff_of_false (by rw [hrun]; exact Bool.false_ne_true) List.not_mem_nil,
        iff_of_true hfd (.inl rfl)⟩
    · have hne : f.fileId ≠ head.fileId :=
        Nat.ne_of_lt ((List.pairwise_cons.mp hsorted').1 _ (List.mem_map_of_mem hf))
      obtain ⟨hact', hfd', hrun'⟩ := hnode f (hrest f hf)
      refine ⟨iff_of_false (by rw [hact']; exact Bool.false_ne_true) hne,
        iff_of_false (by rw [hrun']; exact Bool.false_ne_true) List.not_mem_nil,
        iff_of_false (by rw [hfd']; exact Bool.false_ne_true) ?_⟩
      exact fun hor => hor.elim hne List.not_mem_nil
  · rw [hlive]
    exact List.nodup_nil
  · rw [hlive]
    exact nofun

/-- No step makes a second invalidator, or leaves a descriptor open without one. -/
theorem Guarded.step (h : Guarded c.shared active) (hs : Threads.Step c c') (hrot : RotatesBelow c c') :
    ∃ active', Guarded c'.shared active' := by
  cases hs with
  | read i rs hsect hrun ht =>
      refine ⟨active, h.alters ((Reader.alters hsect hrun).resolve_left ?_)⟩
      rintro ⟨⟨id, record, pos, rfl⟩, -⟩
      exact ht id record pos rfl
  | call i fileId record recordPos _ => exact ⟨active, h⟩
  | write rs hsect hrun =>
      obtain ⟨v, hrun', rfl⟩ := Prog.zoom_returned hrun
      obtain hsame | ⟨⟨record, i, ht⟩, hfetch, hfiles⟩ := writer_files hsect hrun'
      · exact ⟨active, h.congr hsame.1 rfl⟩
      · obtain ⟨⟨head, hhead, rfl⟩, -⟩ := id h
        exact ⟨_, h.rotated (hrot record i ht hfetch head hhead) hfiles.1⟩
  | put record _ => exact ⟨active, h⟩
  | test k hk hpass =>
      rename_i id
      exact ⟨active, h.alters (.same rfl rfl (watchedIds_set hk))⟩
  | close k hk => exact ⟨active, h.alters (.closed hk)⟩
  | hint fileId => exact ⟨active, h.alters (.touched fileId fun _ => ⟨rfl, rfl, rfl, rfl⟩)⟩
  | clock now => exact ⟨active, h.alters (.same rfl rfl rfl)⟩

/-- The files are those of a successful `ccask_files_init`. -/
def FilesOf (files : List CcaskFile) : Prop :=
  ∃ names threshold w rs rest w', (names.filterMap dataId).Nodup ∧
    (∀ i ∈ names.filterMap dataId, i < 2 ^ 64 - 1) ∧
    (ccaskFilesInit names threshold).run rs w = .returned (.ok ()) rest w' ∧ files = w'.files

theorem FilesOf.guarded {s : Watched} (h : FilesOf s.world.files) (hnone : s.invalidators = []) :
    ∃ active, Guarded s active := by
  obtain ⟨names, threshold, w, rs, rest, w', hids, hmax, hrun, hfiles⟩ := h
  obtain ⟨hchosen, -⟩ := ccaskFilesInit_returned hids (fun i hi => by have := hmax i hi; omega) hrun
  obtain ⟨hsorted, hmem⟩ := scannedFiles_spec (w := { w with files := [] })
    (hids.sublist (statted_sublist names (rs.drop 2))) rfl
  refine guarded_chosen hsorted (fun f hf => ?_) hnone (hfiles.trans hchosen)
  obtain ⟨i, -, rfl⟩ := (hmem f).mp hf
  exact ⟨rfl, rfl, rfl⟩

/-- In every state that is reached each file has at most one invalidator, the flag says whether it has
one, and the descriptor of a file that is not active is open exactly when it has one. What an invalidator
closes is open, and not the active file. -/
theorem one_invalidator (h : FilesOpened c)
    (hrun : Relation.ReflTransGen (fun c c' => Threads.Step c c' ∧ RotatesBelow c c') c c') :
    (∀ id, (watchedIds c'.shared).count id ≤ 1) ∧
    (∀ f ∈ c'.shared.world.files, (f.isFdInvalidatorRunning = true ↔ f.fileId ∈ watchedIds c'.shared) ∧
      (f.isActive = false → (f.fd.isSome ↔ f.fileId ∈ watchedIds c'.shared))) ∧
    ∀ id, .closing id ∈ c'.shared.invalidators → ∃ f, ccaskFilesGetFile id c'.shared.world = some f ∧
      f.isActive = false ∧ f.fd.isSome := by
  have hguarded : ∃ active, Guarded c'.shared active := by
    induction hrun with
    | refl => exact FilesOf.guarded h.mounted h.invalidators
    | tail _ hs ih =>
        obtain ⟨active, ih⟩ := ih
        exact ih.step hs.1 hs.2
  obtain ⟨active, hg⟩ := hguarded
  refine ⟨fun id => List.nodup_iff_count_le_one.mp hg.nodup id, fun f hf => ?_, fun id hid => ?_⟩
  · obtain ⟨hact, hrun, hopen⟩ := hg.kept f hf
    refine ⟨hrun, fun hnot => ?_⟩
    have hne : f.fileId ≠ active := fun heq => by
      rw [hact.mpr heq] at hnot
      cases hnot
    rw [hopen]
    exact ⟨fun hor => hor.resolve_left hne, .inr⟩
  · have hlive : id ∈ watchedIds c'.shared := List.mem_map.mpr ⟨_, hid, rfl⟩
    obtain ⟨hmem, hne⟩ := hg.known id hlive
    obtain ⟨f, hf, rfl⟩ := List.mem_map.mp hmem
    obtain ⟨hact, -, hopen⟩ := hg.kept f hf
    refine ⟨f, ?_, ?_, hopen.mpr (.inr hlive)⟩
    · cases hget : ccaskFilesGetFile f.fileId c'.shared.world with
      | none =>
          have hno := List.find?_eq_none.mp hget f hf
          rw [decide_eq_true rfl] at hno
          exact absurd rfl hno
      | some g => rw [hg.eq_of_getFile hget hf rfl]
    · cases hact' : f.isActive with
      | false => rfl
      | true => exact absurd (hact.mp hact') hne

end Runs

section Sample

/-- What `ccask_files_init` leaves of a directory with one datafile of this name. -/
def opened (name : Name) : Outcome World Status :=
  (ccaskFilesInit [name] 0).run (List.replicate 5 (.done 0)) (oneFile name [])

/-- Two threads that have made no call yet. -/
def idleThreads (name : Name) : Threads Unit where
  shared := ⟨(opened name).state, []⟩
  reader _ := .done (.fail none)
  writer := .done (.fail none)

theorem filesOpened_idle {name : Name} (id : Nat) (hid : [name].filterMap dataId = [id])
    (hlt : id < 2 ^ 64 - 1) (hrun : ∃ rest, opened name = .returned (.ok ()) rest (opened name).state) :
    FilesOpened (idleThreads name) := by
  obtain ⟨rest, hrun⟩ := hrun
  refine ⟨⟨[name], 0, _, _, rest, _, ?_, ?_, hrun, rfl⟩, rfl, fun _ => ⟨_, rfl⟩, ⟨_, rfl⟩⟩
  · rw [hid]
    exact List.nodup_singleton id
  · rw [hid]
    exact fun i hi => List.mem_singleton.mp hi ▸ hlt

/-- A write rotates the files, and a reader opens the one that is no longer written. -/
theorem one_invalidator_one : ∃ c', Relation.ReflTransGen (fun c c' => Threads.Step c c' ∧ RotatesBelow c c')
      (idleThreads ['7', '.', 'd', 'a', 't', 'a']) c' ∧ watchedIds c'.shared = [7] ∧
    ∀ f ∈ c'.shared.world.files, f.isActive = false → (f.fd.isSome ↔ f.fileId = 7) := by
  have hopened : FilesOpened (idleThreads ['7', '.', 'd', 'a', 't', 'a']) :=
    filesOpened_idle 7 (by decide +kernel) (by decide) ⟨_, rfl⟩
  have hrun : ∃ c', Relation.ReflTransGen (fun c c' => Threads.Step c c' ∧ RotatesBelow c c')
      (idleThreads ['7', '.', 'd', 'a', 't', 'a']) c' ∧ watchedIds c'.shared = [7] :=
    ⟨_, (((((.single ⟨.put oneRecord rfl, by intro _ _ h; cases h⟩ : Relation.ReflTransGen _ _ _).tail
      ⟨.write [] rfl rfl, by intro _ _ h; cases h⟩).tail
      ⟨.write (List.replicate 5 (.done 0)) rfl rfl, fun _ _ _ _ f hf => by cases hf; decide⟩).tail
      ⟨.call () 7 oneRecord 0 rfl, by intro _ _ h; cases h⟩).tail
      ⟨.read () [] rfl rfl (by intro _ _ _ h; cases h), by intro _ _ h; cases h⟩).tail
      ⟨.read () (List.replicate 2 (.done 0)) rfl rfl (by intro _ _ _ h; cases h),
        by intro _ _ h; cases h⟩, rfl⟩
  obtain ⟨c', hrun, hlive⟩ := hrun
  obtain ⟨-, hfiles, -⟩ := one_invalidator hopened hrun
  refine ⟨c', hrun, hlive, fun f hf hact => ?_⟩
  have hopen := (hfiles f hf).2 hact
  rwa [hlive, List.mem_singleton] at hopen

/-- After `-2.data` has been rotated twice the head is closed. A reader opens it and starts its
invalidator, and the next rotation closes the descriptor once more. -/
theorem invalidator_of_closed : ∃ c', FilesOpened (idleThreads minusTwo) ∧
    Relation.ReflTransGen Threads.Step (idleThreads minusTwo) c' ∧
    ∃ f ∈ c'.shared.world.files, f.isActive = false ∧ f.fd = none ∧ f.fileId ∈ watchedIds c'.shared := by
  refine ⟨_, filesOpened_idle (2 ^ 64 - 2) (by decide +kernel) (by decide) ⟨_, rfl⟩,
    (((((((((.single (.put oneRecord rfl) : Relation.ReflTransGen _ _ _).tail
      (.write [] rfl rfl)).tail
      (.write (List.replicate 5 (.done 0)) rfl rfl)).tail
      (.write [] rfl rfl)).tail
      (.write (List.replicate 5 (.done 0)) rfl rfl)).tail
      (.call () (2 ^ 64 - 1) oneRecord 0 rfl)).tail
      (.read () [] rfl rfl nofun)).tail
      (.read () (List.replicate 2 (.done 0)) rfl rfl nofun)).tail
      (.write [] rfl rfl)).tail
      (.write (List.replicate 5 (.done 0)) rfl rfl), ?_⟩
  decide +kernel

end Sample

end Ccask.Audit
