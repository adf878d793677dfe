import Ccask.Audit.HintPairs
import Ccask.Audit.Onward

/-!
# Hint files after a compaction

Each step of the compaction keeps the pairing, so that in the end a hint file beside a datafile describes its
records, and a run in which it does not.
-/

namespace Ccask.Audit

open Ccask.Effect Ccask.Model Ccask.Index

section Redirection

variable {w₀ w v : World} {S : Prop} {old new : Bytes} {id : Nat} {t : GeneratorThread} {j : Ino}

/-- Names have changed, but none of a hint file has become another's. -/
structure Redirected (w v : World) : Prop where
  data : v.fs.data = w.fs.data
  next : v.fs.next = w.fs.next
  hint : ∀ i j, v.fs.dir (fileName i .hint) = some j → w.fs.dir (fileName i .hint) = some j
  files : v.files = w.files

namespace Redirected

theorem still (h : Redirected w v) (hj : Still w j) : Still v j :=
  ⟨by rw [h.next]; exact hj.old, fun i hi => hj.unhinted i (h.hint i j hi)⟩

theorem ids_eq (h : Redirected w v) : ids v = ids w := by rw [ids, h.files]; rfl

theorem hintFlag_eq (h : Redirected w v) (id : Nat) : hintFlag id v = hintFlag id w := by
  rw [hintFlag, ccaskFilesGetFile, h.files]
  rfl

theorem read_eq (h : Redirected w v) {name : Name} (hdir : v.fs.dir name = w.fs.dir name) :
    v.fs.read name = w.fs.read name := by
  rw [Fs.read, Fs.read, hdir, h.data]

theorem follows (h : Redirected w v) (hf : Follows w₀ w S old new id t) (ho : Owned w id t)
    (hdir : v.fs.dir (fileName id .hint) = w.fs.dir (fileName id .hint)) : Follows w₀ v S old new id t :=
  hf.frame ho hdir (fun _ _ => by rw [h.data])
    (fun _ _ ht => ⟨h.still (hf.scanning _ _ ht).2.1, by rw [h.data]⟩) (h.hintFlag_eq id)

end Redirected

end Redirection

section Compaction

variable [Zlib] {w₀ v : World} {seg : Nat → List Put} {b : Bins Put} {c : Compacting} {t : CompactCall}
  {k n : Nat}

/-- A step of the compaction after the dump. -/
theorem Pairing.turn (h : Pairing w₀ seg b c) (hr : Redirected c.shared v) (hdumping : t ≠ .dumping)
    (hkeeps : ∀ id, Unlinked c.compactor id → Unlinked t id)
    (hintact : ∀ id, ¬ Unlinked t id → v.fs.dir (fileName id .data) = c.shared.fs.dir (fileName id .data))
    (hreplaced : ∀ id j, Unlinked t id → v.fs.dir (fileName id .data) = some j →
      Checked t id ∧ id ≤ b.last ∧ c.shared.fs.data j = written (b.bin id))
    (htemps : ∀ i m, toRename t = some (i, m) → m = b.last ∧ ∀ k, i ≤ k → k ≤ m →
      v.fs.read (fileName k .tempData) = some (written (b.bin k)))
    (hcurrent : ∀ k, currFile t = some k → k ∈ ids w₀)
    (hhintless : ∀ k m res, t = .deletingHint k m res → c.generator k = .ended)
    (hhints : ∀ id, v.fs.dir (fileName id .hint) = c.shared.fs.dir (fileName id .hint) ∨
      (c.generator id = .ended ∧ v.fs.dir (fileName id .hint) = none))
    (hfollows : ∀ id, ¬ Doomed v.fs t id → v.fs.dir (fileName id .hint) = c.shared.fs.dir (fileName id .hint) →
      Follows w₀ c.shared (Checked t id) (hints (recordsOf seg id)) (hints (recordsOf b.bin id)) id
        (c.generator id)) :
    Pairing w₀ seg b { c with shared := v, compactor := t } := by
  constructor
  case files => exact hr.ids_eq.trans h.files
  case intact =>
    intro id hid
    exact (hintact id hid).trans (h.intact id fun hu => hid (hkeeps id hu))
  case contents =>
    intro id j hj
    obtain ⟨hstill, hdata⟩ := h.contents id j hj
    exact ⟨hr.still hstill, (congrFun hr.data j).trans hdata⟩
  case replaced =>
    intro id hid j hj
    obtain ⟨hcheck, hlast, hdata⟩ := hreplaced id j hid hj
    exact ⟨hcheck, hlast, (congrFun hr.data j).trans hdata⟩
  case temps => exact htemps
  case dumps => exact fun hd => absurd hd hdumping
  case current => exact hcurrent
  case hintless => exact hhintless
  case owned =>
    intro id
    obtain hdir | ⟨hended, -⟩ := hhints id
    · exact (h.owned id).congr hdir (hr.hintFlag_eq id)
    · show Owned v id (c.generator id)
      rw [hended]
      exact owned_ended
  case strangers =>
    intro id hid
    obtain ⟨hended, hnone⟩ := h.strangers id hid
    refine ⟨hended, ?_⟩
    obtain hdir | ⟨-, hnone'⟩ := hhints id
    · exact hdir.trans hnone
    · exact hnone'
  case follows =>
    intro id hid
    obtain hdir | ⟨hended, hnone⟩ := hhints id
    · exact hr.follows (hfollows id hid hdir) (h.owned id) hdir
    · show Follows w₀ v _ _ _ id (c.generator id)
      rw [hended]
      exact .of_ended hnone

/-- A step that leaves the directory and the list as they are. -/
theorem Pairing.pass (h : Pairing w₀ seg b c) (hfs : v.fs = c.shared.fs) (hfiles : v.files = c.shared.files)
    (hdumping : t ≠ .dumping) (hkeeps : ∀ id, Unlinked c.compactor id → Unlinked t id)
    (hunlinked : ∀ id, Unlinked t id → ¬ Unlinked c.compactor id → c.shared.fs.dir (fileName id .data) = none)
    (hchecked : ∀ id, Checked c.compactor id → Checked t id)
    (htemps : ∀ i m, toRename t = some (i, m) → ∃ i', i' ≤ i ∧ toRename c.compactor = some (i', m))
    (hcurrent : ∀ k, currFile t = some k → k ∈ ids w₀)
    (hhintless : ∀ k m res, t = .deletingHint k m res → c.generator k = .ended)
    (hdoomed : ∀ id, Doomed c.shared.fs c.compactor id → Doomed c.shared.fs t id)
    (hfollows : ∀ id, ¬ Doomed c.shared.fs t id → ¬ Checked c.compactor id → Checked t id →
      Follows w₀ c.shared (Checked t id) (hints (recordsOf seg id)) (hints (recordsOf b.bin id)) id
        (c.generator id)) :
    Pairing w₀ seg b { c with shared := v, compactor := t } := by
  have hr : Redirected c.shared v := ⟨by rw [hfs], by rw [hfs], fun _ _ hi => by rwa [hfs] at hi, hfiles⟩
  refine h.turn hr hdumping hkeeps (fun _ _ => by rw [hfs]) ?_ ?_ hcurrent hhintless
    (fun _ => .inl (by rw [hfs])) ?_
  · intro id j hid hj
    rw [hfs] at hj
    by_cases hu : Unlinked c.compactor id
    · obtain ⟨hcheck, hrest⟩ := h.replaced id hu j hj
      exact ⟨hchecked id hcheck, hrest⟩
    · rw [hunlinked id hid hu] at hj
      cases hj
  · intro i m hm
    obtain ⟨i', hi, hm'⟩ := htemps i m hm
    obtain ⟨hlast, htemp⟩ := h.temps i' m hm'
    exact ⟨hlast, fun k hk hk' => by rw [hfs]; exact htemp k (Nat.le_trans hi hk) hk'⟩
  · intro id hid _
    rw [hfs] at hid
    have hold : ¬ Doomed c.shared.fs c.compactor id := fun hd => hid (hdoomed id hd)
    by_cases hs : Checked c.compactor id
    · exact (h.follows id hold).congr ⟨fun _ => hs, hchecked id⟩
    · by_cases hs' : Checked t id
      · exact hfollows id hid hs hs'
      · exact (h.follows id hold).congr ⟨fun hs'' => absurd hs'' hs', fun hs'' => absurd hs'' hs⟩

/-- The oldest file is fetched. -/
theorem Pairing.closed (h : Pairing w₀ seg b c) (hw : Store w₀ (recordsOf seg))
    (ht : c.compactor = .closing n) : Pairing w₀ seg b
      { c with shared := { c.shared with readLocks := c.shared.readLocks - 1 }
               compactor := .deleting (c.shared.files.getLast?.map CcaskFile.fileId) n (.ok ()) } := by
  have hsorted : (ids c.shared).Pairwise (· > ·) := by rw [h.files]; exact hw.mounted.sorted
  have hstranger : ∀ id, (∀ k, c.shared.files.getLast?.map CcaskFile.fileId = some k → id < k) →
      id ∉ ids w₀ := fun id hid => h.files ▸ not_mem_of_oldest hsorted hid
  have hrename : toRename c.compactor = some (0, n) := by rw [ht]; rfl
  refine h.pass rfl rfl (by simp) ?_ ?_ ?_ ?_ ?_ (by simp) ?_ ?_
  · rw [ht]
    exact fun id hu => hu.elim
  · exact fun id hid hu => h.absent hw (hstranger id hid) hu
  · rw [ht]
    exact fun id hs => hs.elim
  · rintro i m hm
    cases hm
    exact ⟨0, Nat.le_refl _, hrename⟩
  · exact fun k hk => h.files ▸ (oldest_spec hsorted hk).1
  · rw [ht]
    exact fun id hd => hd
  · intro id _ _ hid
    obtain ⟨hended, hnone⟩ := h.strangers id (hstranger id hid)
    rw [hended]
    exact .of_ended hnone

/-- The next file is fetched. -/
theorem Pairing.advanced (h : Pairing w₀ seg b c) (hw : Store w₀ (recordsOf seg))
    (ht : c.compactor = .advancing k n (.ok ())) : Pairing w₀ seg b
      { c with compactor := .deleting (previousFile k c.shared) n (.ok ()) } := by
  have hsorted : (ids c.shared).Pairwise (· > ·) := by rw [h.files]; exact hw.mounted.sorted
  have hk : k ∈ ids c.shared := by
    rw [h.files]
    exact h.current k (by rw [ht]; rfl)
  have hstranger : ∀ id, (∀ k', previousFile k c.shared = some k' → id < k') → ¬ id ≤ k →
      id ∉ ids w₀ :=
    fun id hid hlt => h.files ▸ not_mem_of_previousFile hsorted hk (Nat.lt_of_not_le hlt) hid
  refine h.pass rfl rfl (by simp) ?_ ?_ ?_ ?_ ?_ (by simp) ?_ ?_
  · rw [ht]
    exact fun id hid k' hk' => Nat.lt_of_le_of_lt hid (previousFile_mem hsorted hk hk').2
  · intro id hid hu
    refine h.absent hw (hstranger id hid ?_) hu
    rwa [ht] at hu
  · rw [ht]
    exact fun id hid k' hk' => Nat.lt_of_le_of_lt hid (previousFile_mem hsorted hk hk').2
  · rintro i m hm
    cases hm
    exact ⟨0, Nat.le_refl _, by rw [ht]; rfl⟩
  · exact fun k' hk' => h.files ▸ (previousFile_mem hsorted hk hk').1
  · rw [ht]
    exact fun id hd => hd
  · intro id _ hs hid
    rw [ht] at hs
    obtain ⟨hended, hnone⟩ := h.strangers id (hstranger id hid hs)
    rw [hended]
    exact .of_ended hnone

/-- The file has the mark. -/
theorem Pairing.hinted (h : Pairing w₀ seg b c) (ht : c.compactor = .testing k n (.ok ()))
    (hmark : hintFlag k c.shared = some true) :
    Pairing w₀ seg b { c with compactor := .deletingHint k n (.ok ()) } := by
  refine h.pass rfl rfl (by simp) ?_ ?_ ?_ ?_ ?_ ?_ ?_ ?_
  · rw [ht]
    exact fun id hid => hid
  · rw [ht]
    exact fun id hid hu => absurd hid hu
  · rw [ht]
    exact fun id hid => hid
  · rintro i m hm
    cases hm
    exact ⟨0, Nat.le_refl _, by rw [ht]; rfl⟩
  · rintro k' hk'
    cases hk'
    exact h.current k (by rw [ht]; rfl)
  · intro k' n' res hk'
    cases hk'
    exact (h.owned k).flag hmark
  · rw [ht]
    exact fun id hd => hd
  · rw [ht]
    exact fun id _ hs hid => absurd hid hs

/-- The file does not have the mark, and its hint file stays. -/
theorem Pairing.unhinted (h : Pairing w₀ seg b c) (hok : Unentangled w₀ c) {k n : Nat}
    (ht : c.compactor = .testing k n (.ok ())) (hmark : hintFlag k c.shared = some false)
    (hsame : SameHints w₀ c.shared k → k ≤ n → hints (recordsOf seg k) = hints (recordsOf b.bin k)) :
    Pairing w₀ seg b { c with compactor := .advancing k n (.ok ()) } := by
  refine h.pass rfl rfl (by simp) ?_ ?_ ?_ ?_ ?_ (by simp) ?_ ?_
  · rw [ht]
    exact fun id hid => hid
  · rw [ht]
    exact fun id hid hu => absurd hid hu
  · rw [ht]
    exact fun id hid => Nat.le_of_lt hid
  · rintro i m hm
    cases hm
    exact ⟨0, Nat.le_refl _, by rw [ht]; rfl⟩
  · rintro k' hk'
    cases hk'
    exact h.current k (by rw [ht]; rfl)
  · rw [ht]
    exact fun id hd => hd
  · intro id hd hs hid
    have hdoomed : ¬ Doomed c.shared.fs c.compactor id := by rw [ht]; exact hd
    have hf := h.follows id hdoomed
    rw [ht] at hs
    obtain rfl : id = k := Nat.le_antisymm hid (Nat.le_of_not_lt hs)
    refine hf.check hid (fun hreads => ?_) fun hended => ?_
    · refine hsame ((hok id n (.ok ()) ht hreads).resolve_left hdoomed) ?_
      exact Nat.le_of_not_lt fun hlt => hd (.inl hlt)
    · refine hf.unmarked hended ?_ hmark
      rw [ht]
      exact hs

/-- Every file has been unlinked. -/
theorem Pairing.deleted (h : Pairing w₀ seg b c) (ht : c.compactor = .deleting none n (.ok ())) :
    Pairing w₀ seg b { c with compactor := .renamingTemps 0 n } := by
  have hall : ∀ id, Checked c.compactor id := by
    intro id
    rw [ht]
    exact fun k hk => by cases hk
  refine h.pass rfl rfl (by simp) (fun _ _ => trivial) (fun id _ hu => absurd (checked_unlinked (hall id)) hu)
    (fun _ _ => trivial) ?_ (fun k hk => by cases hk) (by simp) ?_ fun id _ hs => absurd (hall id) hs
  · rintro i m hm
    cases hm
    exact ⟨0, Nat.le_refl _, by rw [ht]; rfl⟩
  · rw [ht]
    exact fun id hd => hd

/-- A temporary file could not be renamed. -/
theorem Pairing.missed (h : Pairing w₀ seg b c) {i : Nat} (ht : c.compactor = .renamingTemps i n) :
    Pairing w₀ seg b { c with compactor := .renamingTemps (i + 1) n } := by
  have hall : ∀ id, Checked c.compactor id := fun id => by rw [ht]; trivial
  refine h.pass rfl rfl (by simp) (fun _ _ => trivial) (fun id _ hu => absurd (checked_unlinked (hall id)) hu)
    (fun _ _ => trivial) ?_ (fun k hk => by cases hk) (by simp) ?_ fun id _ hs => absurd (hall id) hs
  · rintro i' m hm
    cases hm
    exact ⟨i, Nat.le_succ _, by rw [ht]; rfl⟩
  · rw [ht]
    rintro id (hlt | ⟨hlt, hnone⟩)
    · exact .inl hlt
    · exact .inr ⟨Nat.lt_succ_of_lt hlt, hnone⟩

/-- The compaction returns. -/
theorem Pairing.finished (h : Pairing w₀ seg b c) {i : Nat} (ht : c.compactor = .renamingTemps i n) :
    Pairing w₀ seg b { c with compactor := .done (.ok ()) } := by
  have hall : ∀ id, Checked c.compactor id := fun id => by rw [ht]; trivial
  refine h.pass rfl rfl (by simp) (fun _ _ => trivial) (fun id _ hu => absurd (checked_unlinked (hall id)) hu)
    (fun _ _ => trivial) (by simp [toRename]) (fun k hk => by cases hk) (by simp) ?_
    fun id _ hs => absurd (hall id) hs
  intro id hd
  refine ⟨⟨_, rfl⟩, ?_⟩
  rw [ht] at hd
  obtain hlt | ⟨-, hnone⟩ := hd
  · cases hdir : c.shared.fs.dir (fileName id .data) with
    | none => rfl
    | some j =>
        obtain ⟨-, hle, -⟩ := h.replaced id (checked_unlinked (hall id)) j hdir
        rw [(h.temps i n (by rw [ht]; rfl)).1] at hlt
        exact absurd hle (Nat.not_le.mpr hlt)
  · exact hnone

end Compaction

section Compaction

variable [Zlib] {w₀ v : World} {seg : Nat → List Put} {b : Bins Put} {c : Compacting} {k n : Nat}

/-- The packed file has the hint records of the old one when the two files say so. -/
theorem Pairing.same_hints (h : Pairing w₀ seg b c) (hw : Reached w₀ seg)
    (hb : b = packed (history (ids w₀) seg) w₀.maxActiveFileSize.toNat)
    (ht : toRename c.compactor = some (0, n)) (hsame : SameHints w₀ c.shared k) (hk : k ≤ n) :
    hints (recordsOf seg k) = hints (recordsOf b.bin k) := by
  obtain ⟨old, new, l, l', hold, hnew, hl, hl', heq⟩ := hsame
  obtain ⟨hlast, htemps⟩ := h.temps 0 n ht
  have hmem : k ∈ ids w₀ := (hw.store.disk.known k).mpr (by rw [hold]; rfl)
  obtain ⟨content, hcontent, hscan⟩ := hw.store.disk.scans k hmem
  rw [hold] at hcontent
  cases hcontent
  rw [htemps k (Nat.zero_le _) hk] at hnew
  cases hnew
  have hgood : ∀ p ∈ b.bin k, Good p := by
    intro p hp
    subst hb
    exact hw.good_history p (mem_packed (hlast ▸ hk) hp)
  rw [hscan.unique hl, heq, ← (scan_written fun p hp => (hgood p hp).size).unique hl']
  rfl

/-- A datafile of the list is unlinked. -/
theorem Pairing.unlinked (h : Pairing w₀ seg b c) (ht : c.compactor = .deleting (some k) n (.ok ())) :
    Pairing w₀ seg b { c with shared := { c.shared with fs := c.shared.fs.unlink (fileName k .data) }
                              compactor := .testing k n (.ok ()) } := by
  let v : World := { c.shared with fs := c.shared.fs.unlink (fileName k .data) }
  have hdir : ∀ name, v.fs.dir name = if name = fileName k .data then none else c.shared.fs.dir name :=
    fun name => Fs.dir_unlink _ _ name
  have hother : ∀ {name}, name ≠ fileName k .data → v.fs.dir name = c.shared.fs.dir name := fun hne => by
    rw [hdir, if_neg hne]
  have hr : Redirected c.shared v := ⟨rfl, rfl, fun i j hi => by rwa [hother (by simp)] at hi, rfl⟩
  have hunlinked : ∀ id, Unlinked c.compactor id ↔ id < k := by
    intro id
    rw [ht]
    exact ⟨fun hid => hid k rfl, fun hid k' hk' => by cases hk'; exact hid⟩
  have hchecked : ∀ id, Checked c.compactor id ↔ id < k := by
    intro id
    rw [ht]
    exact ⟨fun hid => hid k rfl, fun hid k' hk' => by cases hk'; exact hid⟩
  refine h.turn hr (by simp) (fun id hid => Nat.le_of_lt ((hunlinked id).mp hid)) ?_ ?_ ?_ ?_ (by simp)
    (fun id => .inl (hother (by simp))) ?_
  · intro id hid
    have hne : id ≠ k := fun heq => hid (Nat.le_of_eq heq)
    exact hother (by simpa using hne)
  · intro id j hid hj
    rw [hdir] at hj
    split at hj
    · cases hj
    · rename_i hne
      have hlt : id < k := Nat.lt_of_le_of_ne hid fun heq => hne (by rw [heq])
      obtain ⟨-, hrest⟩ := h.replaced id ((hunlinked id).mpr hlt) j hj
      exact ⟨hlt, hrest⟩
  · rintro i m hm
    cases hm
    obtain ⟨hlast, htemps⟩ := h.temps 0 n (by rw [ht]; rfl)
    exact ⟨hlast, fun i hi hi' => (hr.read_eq (hother (by simp))).trans (htemps i hi hi')⟩
  · rintro k' hk'
    cases hk'
    exact h.current k (by rw [ht]; rfl)
  · intro id hid _
    refine (h.follows id fun hd => hid ?_).congr (hchecked id).symm
    rw [ht] at hd
    exact .inl (hd.resolve_right fun hlt => Nat.not_lt_zero _ hlt.1)

/-- The hint file of a file that has the mark is unlinked. -/
theorem Pairing.hintUnlinked (h : Pairing w₀ seg b c) (ht : c.compactor = .deletingHint k n (.ok ())) :
    Pairing w₀ seg b { c with shared := { c.shared with fs := c.shared.fs.unlink (fileName k .hint) }
                              compactor := .advancing k n (.ok ()) } := by
  let v : World := { c.shared with fs := c.shared.fs.unlink (fileName k .hint) }
  have hdir : ∀ name, v.fs.dir name = if name = fileName k .hint then none else c.shared.fs.dir name :=
    fun name => Fs.dir_unlink _ _ name
  have hother : ∀ {name}, name ≠ fileName k .hint → v.fs.dir name = c.shared.fs.dir name := fun hne => by
    rw [hdir, if_neg hne]
  have hr : Redirected c.shared v := by
    refine ⟨rfl, rfl, fun i j hi => ?_, rfl⟩
    rw [hdir] at hi
    split at hi
    · cases hi
    · exact hi
  have hunlinked : ∀ id, Unlinked c.compactor id ↔ id ≤ k := fun id => by rw [ht]; exact Iff.rfl
  refine h.turn hr (by simp) (fun id hid => (hunlinked id).mp hid) (fun id _ => hother (by simp)) ?_ ?_ ?_
    (by simp) (fun id => ?_) ?_
  · intro id j hid hj
    obtain ⟨-, hrest⟩ := h.replaced id ((hunlinked id).mpr hid) j ((hother (by simp)).symm.trans hj)
    exact ⟨hid, hrest⟩
  · rintro i m hm
    cases hm
    obtain ⟨hlast, htemps⟩ := h.temps 0 n (by rw [ht]; rfl)
    exact ⟨hlast, fun i hi hi' => (hr.read_eq (hother (by simp))).trans (htemps i hi hi')⟩
  · rintro k' hk'
    cases hk'
    exact h.current k (by rw [ht]; rfl)
  · by_cases hid : id = k
    · subst hid
      exact .inr ⟨h.hintless id n (.ok ()) ht, by rw [hdir, if_pos rfl]⟩
    · exact .inl (hother (by simpa using hid))
  · intro id hid hsame
    have hf := h.follows id fun hd => hid (by
      rw [ht] at hd
      exact .inl (hd.resolve_right fun hlt => Nat.not_lt_zero _ hlt.1))
    by_cases heq : id = k
    · -- the hint file is gone, and the generator has ended
      subst heq
      rw [h.hintless id n (.ok ()) ht]
      rw [hdir, if_pos rfl] at hsame
      exact .of_ended hsame.symm
    · refine hf.congr ?_
      rw [ht]
      exact ⟨fun hle => Nat.lt_of_le_of_ne hle heq, Nat.le_of_lt⟩

/-- A temporary file takes the name of a datafile. -/
theorem Pairing.renamed (h : Pairing w₀ seg b c) {i : Nat} (ht : c.compactor = .renamingTemps i n) (hi : i ≤ n) :
    Pairing w₀ seg b
      { c with shared := { c.shared with fs := c.shared.fs.rename (fileName i .tempData) (fileName i .data) }
               compactor := .renamingTemps (i + 1) n } := by
  let v : World := { c.shared with fs := c.shared.fs.rename (fileName i .tempData) (fileName i .data) }
  have hdir : ∀ name, v.fs.dir name = if name = fileName i .data then c.shared.fs.dir (fileName i .tempData)
      else if name = fileName i .tempData then none else c.shared.fs.dir name := fun _ => rfl
  have hother : ∀ {name}, name ≠ fileName i .data → name ≠ fileName i .tempData →
      v.fs.dir name = c.shared.fs.dir name := fun hne hne' => by
    rw [hdir, if_neg hne, if_neg hne']
  have hr : Redirected c.shared v :=
    ⟨rfl, rfl, fun i j hi => by rwa [hother (by simp) (by simp)] at hi, rfl⟩
  have hall : ∀ id, Checked c.compactor id := fun id => by rw [ht]; trivial
  obtain ⟨hlast, htemps⟩ := h.temps i n (by rw [ht]; rfl)
  refine h.turn hr (by simp) (fun _ _ => trivial) (fun _ hid => absurd trivial hid) ?_ ?_
    (fun k hk => by cases hk) (by simp) (fun id => .inl (hother (by simp) (by simp))) ?_
  · intro id j _ hj
    refine ⟨trivial, ?_⟩
    rw [hdir] at hj
    by_cases heq : id = i
    · subst heq
      rw [if_pos rfl] at hj
      have hread := htemps id (Nat.le_refl _) hi
      rw [Fs.read, hj] at hread
      exact ⟨hlast ▸ hi, Option.some.inj hread⟩
    · rw [if_neg (by simpa using heq), if_neg (by simp)] at hj
      exact (h.replaced id (checked_unlinked (hall id)) j hj).2
  · rintro i' m hm
    cases hm
    refine ⟨hlast, fun k hk hk' => (hr.read_eq ?_).trans (htemps k (Nat.le_of_succ_le hk) hk')⟩
    exact hother (by simp) (by simpa using Nat.ne_of_gt hk)
  · intro id hid _
    refine (h.follows id fun hd => hid ?_).congr ⟨fun _ => hall id, fun _ => trivial⟩
    rw [ht] at hd
    obtain hlt | ⟨hlt, hnone⟩ := hd
    · exact .inl hlt
    · refine .inr ⟨Nat.lt_succ_of_lt hlt, (hother ?_ (by simp)).trans hnone⟩
      simpa using Nat.ne_of_lt hlt

end Compaction

section Dump

variable [Zlib] {w₀ v : World} {seg : Nat → List Put} {b : Bins Put} {c : Compacting} {n : Nat}

omit [Zlib] in
theorem hintFlag_of_shape {w : World} (h : v.files.map shape = w.files.map shape) (id : Nat) :
    hintFlag id v = hintFlag id w := by
  have hflag : ∀ u : World, hintFlag id u =
      ((u.files.map shape).find? fun s => s.1 = id).map fun s => s.2.1 := by
    intro u
    rw [List.find?_map, Option.map_map]
    rfl
  rw [hflag, hflag, h]

/-- The entries have been dumped. -/
theorem Pairing.dumped (h : Pairing w₀ seg b c)
    (hb : b = packed (history (ids w₀) seg) w₀.maxActiveFileSize.toNat) (ht : c.compactor = .dumping)
    {rs rest : List Reply} (hfill : fillTemps.run rs c.shared = .returned (.ok (.finished n)) rest v) :
    Pairing w₀ seg b { c with shared := v, compactor := .closing n } := by
  obtain ⟨hserves, hmax, hnone⟩ := h.dumps ht
  have hpacked : b = packed (history (ids c.shared) seg) c.shared.maxActiveFileSize.toNat := by
    rw [h.files, hmax]
    exact hb
  obtain ⟨rfl, hd⟩ := (fillTemps_dumps hserves hpacked hnone).returned (fun _ _ => trivial) hfill n rfl
  have hdir : ∀ {name}, (∀ i, name ≠ fileName i .tempData) → v.fs.dir name = c.shared.fs.dir name :=
    fun hname => hd.keeps.dir _ hname
  have hread : ∀ {name}, (∀ i, name ≠ fileName i .tempData) → v.fs.read name = c.shared.fs.read name :=
    fun hname => hd.keeps.read _ hname
  have hdata : ∀ {name fd}, (∀ i, name ≠ fileName i .tempData) → c.shared.fs.dir name = some fd →
      v.fs.data fd = c.shared.fs.data fd := by
    intro name fd hname hfd
    have heq := hread hname
    rw [Fs.read, Fs.read, hdir hname, hfd] at heq
    exact Option.some.inj heq
  have hintact : ∀ id, c.shared.fs.dir (fileName id .data) = w₀.fs.dir (fileName id .data) :=
    fun id => h.intact id (by rw [ht]; exact fun hu => hu)
  have hflag := hintFlag_of_shape (w := c.shared) hd.keeps.files
  have hcontents : ∀ id j, w₀.fs.dir (fileName id .data) = some j →
      Still v j ∧ v.fs.data j = c.shared.fs.data j := by
    intro id j hj
    rw [← hintact] at hj
    exact ⟨still_of_dir ((hdir (by simp)).trans hj) (by simp), hdata (by simp) hj⟩
  constructor
  case files =>
    refine Eq.trans ?_ h.files
    have hshape := congrArg (List.map Prod.fst) hd.keeps.files
    rw [List.map_map, List.map_map] at hshape
    exact hshape
  case intact => exact fun id _ => (hdir (by simp)).trans (hintact id)
  case contents =>
    intro id j hj
    obtain ⟨hstill, heq⟩ := hcontents id j hj
    exact ⟨hstill, heq.trans (h.contents id j hj).2⟩
  case replaced => exact fun id hid => hid.elim
  case temps =>
    rintro i m hm
    cases hm
    exact ⟨rfl, fun k _ hk => hd.temps k hk⟩
  case dumps => exact fun hd => by cases hd
  case current => exact fun k hk => by cases hk
  case hintless => exact fun _ _ _ hk => by cases hk
  case owned => exact fun id => (h.owned id).congr (hdir (by simp)) (hflag id)
  case strangers =>
    intro id hid
    obtain ⟨hended, hnone'⟩ := h.strangers id hid
    exact ⟨hended, (hdir (by simp)).trans hnone'⟩
  case follows =>
    intro id _
    have hold : ¬ Doomed c.shared.fs c.compactor id := by
      rw [ht]
      rintro ⟨⟨res, hres⟩, -⟩
      cases hres
    have hf := h.follows id hold
    have hcheck : ¬ Checked c.compactor id := by rw [ht]; exact fun hs => hs
    refine (hf.frame (h.owned id) (hdir (by simp)) (fun fd hfd => hdata (by simp) hfd) ?_ (hflag id)).congr
      ⟨fun hs => hs.elim, fun hs => absurd hs hcheck⟩
    intro fd s hs
    obtain ⟨-, -, -, hopened, -⟩ := hf.scanning fd s hs
    exact hcontents id s.1.fd (hopened.resolve_left hcheck)

end Dump

section Step

variable [Zlib] {w₀ v : World} {seg : Nat → List Put} {b : Bins Put} {c c' : Compacting} {t : CompactCall}

/-- A step of the compaction keeps the pairing. -/
theorem Pairing.compact (h : Pairing w₀ seg b c) (hw : Reached w₀ seg)
    (hb : b = packed (history (ids w₀) seg) w₀.maxActiveFileSize.toNat) (hok : Unentangled w₀ c)
    (hs : CompactStep c.shared c.compactor v t) : Pairing w₀ seg b { c with shared := v, compactor := t } := by
  generalize ht : c.compactor = t₀ at hs
  cases hs with
  | dumped hfill => exact h.dumped hb ht hfill
  | closed n => exact h.closed hw.store ht
  | unlinked n hsome => exact h.unlinked ht
  | hinted n hget hmark => exact h.hinted ht (by rw [hintFlag, hget, Option.map_some, hmark])
  | unhinted n hget hmark =>
      refine h.unhinted hok ht (by rw [hintFlag, hget, Option.map_some, hmark]) fun hsame hk => ?_
      exact h.same_hints hw hb (by rw [ht]; rfl) hsame hk
  | hintUnlinked n hsome => exact h.hintUnlinked ht
  | advanced k n => exact h.advanced hw.store ht
  | deleted n => exact h.deleted ht
  | renamed hi hsome => exact h.renamed ht hi
  | missed hi => exact h.missed ht
  | finished hi => exact h.finished ht

/-- One step of a run keeps the pairing while the compaction is on its course. -/
theorem Pairing.step (hw : Reached w₀ seg) (hb : b = packed (history (ids w₀) seg) w₀.maxActiveFileSize.toNat)
    (h : OnCourse c.compactor → Pairing w₀ seg b c) (hs : Compacting.Step (KeepsPairs w₀) c c')
    (hon : OnCourse c'.compactor) : Pairing w₀ seg b c' := by
  cases hs with
  | compact hok hsect hrun =>
      have hstep := compact_step hsect hrun hon
      exact (h hstep.onCourse).compact hw hb hok hstep
  | generate fileId hok hsect hrun => exact (h hon).generate hw hb hok hsect hrun

theorem Pairing.run (hw : Reached w₀ seg) (hb : b = packed (history (ids w₀) seg) w₀.maxActiveFileSize.toNat)
    (h : OnCourse c.compactor → Pairing w₀ seg b c)
    (hrun : Relation.ReflTransGen (Compacting.Step (KeepsPairs w₀)) c c') :
    OnCourse c'.compactor → Pairing w₀ seg b c' := by
  induction hrun with
  | refl => exact h
  | tail _ hs ih => exact Pairing.step hw hb ih hs

/-- The pairing at the call of the compaction. -/
theorem Pairing.start (hw : Reached w₀ seg) : Pairing w₀ seg b (Compacting.start w₀) := by
  have hdir : ∀ id, w₀.fs.read (fileName id .hint) = none → w₀.fs.dir (fileName id .hint) = none :=
    fun id => (Fs.read_eq_none _ _).mp
  have hmark : ∀ id m, hintFlag id w₀ = some m → m = (w₀.fs.read (fileName id .hint)).isSome := by
    intro id m hf
    obtain ⟨f, hget, rfl⟩ := Option.map_eq_some_iff.mp hf
    have hid : f.fileId = id := by simpa using List.find?_some hget
    rw [← hid]
    exact hw.store.flags f (List.mem_of_find?_eq_some hget)
  have hstranger : ∀ id, id ∉ ids w₀ → w₀.fs.read (fileName id .hint) = none := by
    intro id hid
    by_contra hread
    exact hid (hw.store.current id (Option.isSome_iff_ne_none.mpr hread))
  constructor
  case files => rfl
  case intact => exact fun _ _ => rfl
  case contents => exact fun id j hj => ⟨still_of_dir hj (by simp), rfl⟩
  case replaced => exact fun id hid => hid.elim
  case temps => exact fun i m hm => by cases hm
  case dumps => exact fun _ => ⟨hw.serves, rfl, fun i => (Fs.read_eq_none _ _).mpr (hw.noTemps i)⟩
  case current => exact fun k hk => by cases hk
  case hintless => exact fun _ _ _ hk => by cases hk
  case owned =>
    intro id
    show Owned w₀ id (if id ∈ w₀.threads then .start else .ended)
    split
    · rename_i hid
      have hnone := (hw.store.pending id hid).2
      refine ⟨fun _ => hdir id hnone, fun _ hfd => (by cases hfd), fun hf => ?_⟩
      have hsome := hmark id true hf
      rw [hnone] at hsome
      cases hsome
    · exact owned_ended
  case strangers =>
    intro id hid
    refine ⟨if_neg fun hthread => hid ?_, hdir id (hstranger id hid)⟩
    exact List.mem_of_mem_tail (hw.store.pending id hthread).1
  case follows =>
    intro id _
    show Follows w₀ w₀ False _ _ id (if id ∈ w₀.threads then .start else .ended)
    split
    · exact ⟨by simp, by simp, by simp, by simp⟩
    · refine ⟨by simp, by simp, fun _ q hq => ⟨fun hs => hs.elim, fun _ => ?_⟩, fun _ _ hf => hdir id ?_⟩
      · have hmem := hw.store.current id (by rw [hq]; rfl)
        exact (hw.store.disk.hints id hmem q hq).2
      · have hsome := hmark id false hf
        cases hread : w₀.fs.read (fileName id .hint) with
        | none => rfl
        | some q =>
            rw [hread] at hsome
            cases hsome

end Step

section Result

variable [Zlib] {w : World} {seg : Nat → List Put} {b : Bins Put} {c : Compacting} {hist : List Put} {id : Nat}

/-- Recovery upserts the same entries from the hint file of this id as from its datafile. -/
def SameUpserts (fs : Fs) (id : Nat) : Prop :=
  ∃ es : List KeydirRecord, ∀ upsert f I, Upserts upsert f I → ∀ v, I v → v.fs = fs →
    Computes (recoverDatafile upsert id) v (.ok ()) (es.foldl f v) ∧
    Computes (recoverHintfile upsert id) v (.ok ()) (es.foldl f v)

omit [Zlib] in
theorem sameUpserts_of_hints {fs : Fs} {content : Bytes} {l : List (DatafileRecord × Nat)}
    (hdata : fs.read (fileName id .data) = some content) (hhint : fs.read (fileName id .hint) = some (hints l))
    (hscan : Scan (recordAt content) 0 l) (hl : ∀ p ∈ l, Hintable p) : SameUpserts fs id := by
  refine ⟨entries id l, fun upsert f I hu v hv hfs => ?_⟩
  subst hfs
  obtain ⟨i, hi, rfl⟩ := Fs.exists_of_read hdata
  obtain ⟨j, hj, hj'⟩ := Fs.exists_of_read hhint
  exact ⟨recoverDatafile_computes hu hv hi hscan, recoverHintfile_computes hu hv hj hl hj'⟩

/-- Once the compaction has returned and the generators have ended, a hint file that is beside a datafile
describes that datafile. -/
theorem Pairing.same_upserts (h : Pairing w seg b c) (hw : Reached w seg)
    (hb : b = packed (history (ids w) seg) w.maxActiveFileSize.toNat) (hdone : c.compactor = .done (.ok ()))
    (hended : c.generator id = .ended) (hdata : (c.shared.fs.read (fileName id .data)).isSome)
    (hhint : (c.shared.fs.read (fileName id .hint)).isSome) : SameUpserts c.shared.fs id := by
  obtain ⟨content, hcontent⟩ := Option.isSome_iff_exists.mp hdata
  obtain ⟨q, hq⟩ := Option.isSome_iff_exists.mp hhint
  obtain ⟨j, hj, rfl⟩ := Fs.exists_of_read hcontent
  have hcheck : Checked c.compactor id := by rw [hdone]; trivial
  have hdoomed : ¬ Doomed c.shared.fs c.compactor id := by
    rw [hdone]
    rintro ⟨-, hnone⟩
    rw [hj] at hnone
    cases hnone
  obtain ⟨l, hscan, hl, hwanted, -⟩ := h.finds hw hb id j hj
  have hkept := (h.follows id hdoomed).kept (.inr hended) q hq
  rw [hkept.1 hcheck, ← hwanted.1 hcheck] at hq
  exact sameUpserts_of_hints hcontent hq hscan hl

/-- In every run of a compaction beside the generators of hint files whose steps all keep the pairs, once the
compaction has returned CCASK_OK and the generators have ended, every hint file that is beside a datafile
describes its records. -/
theorem hints_paired (h : Life w hist)
    (hrun : Relation.ReflTransGen (Compacting.Step (KeepsPairs w)) (Compacting.start w) c)
    (hdone : c.compactor = .done (.ok ())) (hended : ∀ id, c.generator id = .ended)
    (hdata : (c.shared.fs.read (fileName id .data)).isSome)
    (hhint : (c.shared.fs.read (fileName id .hint)).isSome) : SameUpserts c.shared.fs id := by
  obtain ⟨seg, hw, -⟩ := h.reached
  have hpairing : Pairing w seg (packed (history (ids w) seg) w.maxActiveFileSize.toNat) c :=
    Pairing.run hw rfl (fun _ => .start hw) hrun (by rw [hdone]; rfl)
  exact hpairing.same_upserts hw rfl hdone (hended id) hdata hhint

end Result

section Sample

/-- One section of a thread, in which every call comes through. -/
def nextTurn (c : Compacting) : ActingThread → Option Compacting
  | .compactor => do
      let m ← c.compactor.sect
      let t ← (m.run wholeReplies c.shared).value
      pure { c with shared := after m c.shared, compactor := t }
  | .generator id => do
      let m ← (c.generator id).sect id
      let t ← (m.run wholeReplies c.shared).value
      pure { c with shared := after m c.shared, generator := Function.update c.generator id t }

/-- Turns that are allowed, one after another. -/
def playTurns (allowed : Compacting → ActingThread → Bool) :
    List ActingThread → Compacting → Option Compacting
  | [], c => some c
  | turn :: turns, c => if allowed c turn then (nextTurn c turn).bind (playTurns allowed turns) else none

variable {ok : Compacting → ActingThread → List Reply → Prop} {allowed : Compacting → ActingThread → Bool}
  {c c' : Compacting} {turn : ActingThread} {turns : List ActingThread}

theorem step_of_nextTurn (hok : ok c turn wholeReplies) (h : nextTurn c turn = some c') :
    Compacting.Step ok c c' := by
  cases turn with
  | compactor =>
      simp only [nextTurn, Option.bind_eq_bind, Option.bind_eq_some_iff] at h
      obtain ⟨m, hsect, t, hvalue, hc⟩ := h
      cases hc
      obtain ⟨rest, hrun⟩ := Outcome.of_value hvalue
      exact .compact hok hsect hrun
  | generator id =>
      simp only [nextTurn, Option.bind_eq_bind, Option.bind_eq_some_iff] at h
      obtain ⟨m, hsect, t, hvalue, hc⟩ := h
      cases hc
      obtain ⟨rest, hrun⟩ := Outcome.of_value hvalue
      exact .generate id hok hsect hrun

theorem run_of_playTurns (hok : ∀ c turn, allowed c turn = true → ok c turn wholeReplies)
    (h : playTurns allowed turns c = some c') : Relation.ReflTransGen (Compacting.Step ok) c c' := by
  induction turns generalizing c with
  | nil =>
      cases h
      exact .refl
  | cons turn turns ih =>
      rw [playTurns] at h
      split at h
      · obtain ⟨u, hu, hrest⟩ := Option.bind_eq_some_iff.mp h
        exact .head (step_of_nextTurn (hok c turn ‹_›) hu) (ih hrest)
      · cases h

/-- A generator that gets no turn stays where it is. -/
theorem generator_of_playTurns {i : Nat} (hi : ∀ id, .generator id ∈ turns → id ≠ i)
    (h : playTurns allowed turns c = some c') : c'.generator i = c.generator i := by
  induction turns generalizing c with
  | nil =>
      cases h
      rfl
  | cons turn turns ih =>
      rw [playTurns] at h
      split at h
      · obtain ⟨u, hu, hrest⟩ := Option.bind_eq_some_iff.mp h
        rw [ih (fun id hid => hi id (List.mem_cons_of_mem _ hid)) hrest]
        cases turn with
        | compactor =>
            simp only [nextTurn, Option.bind_eq_bind, Option.bind_eq_some_iff] at hu
            obtain ⟨m, -, t, -, hu⟩ := hu
            cases hu
            rfl
        | generator id =>
            simp only [nextTurn, Option.bind_eq_bind, Option.bind_eq_some_iff] at hu
            obtain ⟨m, -, t, -, hu⟩ := hu
            cases hu
            exact Function.update_of_ne (Ne.symm (hi id List.mem_cons_self)) _ _
      · cases h

/-- The generator of the file that is looked at does not read it, and the others find their datafiles. -/
def apart (c : Compacting) : ActingThread → Bool
  | .compactor =>
      match c.compactor with
      | .testing k _ _ =>
          match c.generator k with
          | .scanning _ _ | .completed => false
          | _ => true
      | _ => true
  | .generator id =>
      match c.generator id with
      | .opening _ => (c.shared.fs.dir (fileName id .data)).any fun ino =>
          (c.shared.fs.data ino).length < 2 ^ 63 && (((Telling.tries 5).andThen .any) wholeReplies).any Prod.fst
      | .scanning _ s => (recordAt (c.shared.fs.data s.1.fd) s.1.offset).all fun found =>
          (handedOut (found.1, s.1.offset) wholeReplies).any Prod.fst
      | .failed => (Telling.tries 5 wholeReplies).any Prod.fst
      | _ => true

theorem told_of_any {told : Option (Bool × List Reply)} (h : told.any Prod.fst = true) :
    ∃ rest, told = some (true, rest) := by
  obtain ⟨⟨b, rest⟩, htold, rfl⟩ := (Option.any_eq_true _ _).mp h
  exact ⟨rest, htold⟩

theorem keepsPairs_of_apart (w₀ : World) (h : apart c turn = true) : KeepsPairs w₀ c turn wholeReplies := by
  cases turn with
  | compactor =>
      intro k n res ht hreads
      simp only [apart, ht] at h
      cases hgen : c.generator k with
      | scanning fd s => rw [hgen] at h; cases h
      | completed => rw [hgen] at h; cases h
      | start => rw [hgen] at hreads; exact hreads.elim
      | opening fd => rw [hgen] at hreads; exact hreads.elim
      | failed => rw [hgen] at hreads; exact hreads.elim
      | ended => rw [hgen] at hreads; exact hreads.elim
  | generator id =>
      refine .inr ?_
      simp only [apart] at h
      cases hgen : c.generator id with
      | start => trivial
      | opening fd =>
          rw [hgen] at h
          obtain ⟨ino, hdir, hfile⟩ := (Option.any_eq_true _ _).mp h
          obtain ⟨hlen, htold⟩ := (Bool.and_eq_true _ _).mp hfile
          exact ⟨ino, hdir, of_decide_eq_true hlen, told_of_any htold⟩
      | scanning fd s =>
          rw [hgen] at h
          intro record off hat
          exact told_of_any ((Option.all_eq_true _ _).mp h _ hat)
      | completed => trivial
      | failed =>
          rw [hgen] at h
          exact told_of_any h
      | ended => trivial

/-- Two puts that fill a datafile, and a longer one of the first key. -/
def stalePuts : List Put := [bytePut 0 97 98, bytePut 0 99 100, longPut 97 101]

def staleWorld : World := afterPut (longPut 97 101)
  (afterPut (bytePut 0 99 100) (afterPut (bytePut 0 97 98) tightWorld))

theorem run_staleWorld : letI := zlib; Run staleWorld stalePuts := by
  let _ := zlib
  have hplays : getsThrough (ccaskInit tightOptions) (World.boot Fs.empty 0) = true ∧
      PutsThrough (bytePut 0 97 98) tightWorld ∧
      PutsThrough (bytePut 0 99 100) (afterPut (bytePut 0 97 98) tightWorld) ∧
      PutsThrough (longPut 97 101) (afterPut (bytePut 0 99 100) (afterPut (bytePut 0 97 98) tightWorld)) := by
    decide +kernel
  obtain ⟨hstart, hone, htwo, hthree⟩ := hplays
  obtain ⟨res, rest, hinit⟩ := run_after hstart
  exact .start (fun _ => rfl) lists_emptyOptions allClean_wholeReplies hinit
    (steps_afterPut (steps_afterPut (steps_afterPut (.refl tightWorld) (good_bytePut 0 97 98) hone)
      (good_bytePut 0 99 100) htwo) (good_longPut 97 101) hthree)

/-- The generator makes its hint file and waits. The compaction goes through, and then the generator reads
the datafile. -/
def lateTurns : List ActingThread :=
  [.generator 0] ++ List.replicate 11 .compactor ++ List.replicate 5 (.generator 0)

/-- The generator reads the datafile and writes all of the hint file. The compaction goes through, and then
the generator sets the mark. -/
def earlyTurns : List ActingThread :=
  List.replicate 5 (.generator 0) ++ List.replicate 11 .compactor ++ [.generator 0]

def lateRun : Option Compacting :=
  letI := zlib
  playTurns apart lateTurns (Compacting.start staleWorld)

def earlyRun : Option Compacting :=
  letI := zlib
  playTurns (fun _ _ => true) earlyTurns (Compacting.start staleWorld)

/-- Whether the compaction has returned CCASK_OK and the generator has ended, with both files there. -/
def endedPaired (c : Compacting) : Bool :=
  (match c.compactor, c.generator 0 with
    | .done res, .ended => res.isOk
    | _, _ => false) &&
  (c.shared.fs.read (fileName 0 .data)).isSome && (c.shared.fs.read (fileName 0 .hint)).isSome

theorem endedPaired_spec (h : endedPaired c = true) : c.compactor = .done (.ok ()) ∧ c.generator 0 = .ended ∧
    (c.shared.fs.read (fileName 0 .data)).isSome ∧ (c.shared.fs.read (fileName 0 .hint)).isSome := by
  obtain ⟨hends, hhint⟩ := (Bool.and_eq_true _ _).mp h
  obtain ⟨hends, hdata⟩ := (Bool.and_eq_true _ _).mp hends
  split at hends
  · rename_i res hdone hgen
    refine ⟨?_, hgen, hdata, hhint⟩
    cases res with
    | ok a => exact hdone
    | fail e => cases hends
    | retry e => cases hends
  · cases hends

/-- The generators of other files had ended at the call. -/
theorem ended_of_playTurns (hturns : ∀ id, .generator id ∈ turns → id = 0)
    (h : playTurns allowed turns (Compacting.start staleWorld) = some c') (hends : endedPaired c' = true)
    (hthreads : staleWorld.threads = [0]) (id : Nat) : c'.generator id = .ended := by
  by_cases hid : id = 0
  · subst hid
    exact (endedPaired_spec hends).2.1
  · rw [generator_of_playTurns (fun i hi => (hturns i hi).trans_ne (Ne.symm hid)) h]
    exact if_neg (by rw [hthreads]; simpa using hid)

theorem evaluated_lateRun : letI := zlib
    staleWorld.threads = [0] ∧ lateRun.any endedPaired = true := by
  decide +kernel

theorem hints_paired_one : letI := zlib
    ∃ c, Life staleWorld stalePuts ∧
      Relation.ReflTransGen (Compacting.Step (KeepsPairs staleWorld)) (Compacting.start staleWorld) c ∧
      c.compactor = .done (.ok ()) ∧ (∀ id, c.generator id = .ended) ∧
      (c.shared.fs.read (fileName 0 .data)).isSome ∧ (c.shared.fs.read (fileName 0 .hint)).isSome ∧
      SameUpserts c.shared.fs 0 := by
  let _ := zlib
  obtain ⟨hthreads, hlate⟩ := evaluated_lateRun
  obtain ⟨c, hplay, hends⟩ := (Option.any_eq_true _ _).mp hlate
  have hlife : Life staleWorld stalePuts := .run run_staleWorld
  have hrun := run_of_playTurns (fun _ _ => keepsPairs_of_apart staleWorld) hplay
  have hended := ended_of_playTurns (by simp [lateTurns]) hplay hends hthreads
  obtain ⟨hdone, -, hdata, hhint⟩ := endedPaired_spec hends
  exact ⟨c, hlife, hrun, hdone, hended, hdata, hhint, hints_paired hlife hrun hdone hended hdata hhint⟩

/-- The sizes that the recovery of a file puts into an empty key directory. -/
def recoveredSizes (recover : Sys Status) (fs : Fs) : List UInt32 :=
  (after recover (World.boot fs 0)).hashTable.map KeydirRecord.valueSize

theorem not_sameUpserts {fs : Fs} {id : Nat}
    (hdata : getsThrough (recoverDatafile ccaskKeydirUpsert id) (World.boot fs 0) = true)
    (hhint : getsThrough (recoverHintfile ccaskKeydirUpsert id) (World.boot fs 0) = true)
    (hne : recoveredSizes (recoverDatafile ccaskKeydirUpsert id) fs ≠
      recoveredSizes (recoverHintfile ccaskKeydirUpsert id) fs) : ¬ SameUpserts fs id := by
  rintro ⟨es, hsame⟩
  obtain ⟨hd, hh⟩ := hsame _ _ _ ccaskKeydirUpsert_upserts (World.boot fs 0) rfl rfl
  obtain ⟨_, _, hdrun⟩ := run_after hdata
  obtain ⟨_, _, hhrun⟩ := run_after hhint
  refine hne ?_
  rw [recoveredSizes, recoveredSizes, (hd.eq_of_returned allClean_wholeReplies hdrun).2,
    (hh.eq_of_returned allClean_wholeReplies hhrun).2]

/-- Whether recovery finds other sizes in the hint file. -/
def recoversOther (c : Compacting) : Bool :=
  getsThrough (recoverDatafile ccaskKeydirUpsert 0) (World.boot c.shared.fs 0) &&
  getsThrough (recoverHintfile ccaskKeydirUpsert 0) (World.boot c.shared.fs 0) &&
  (recoveredSizes (recoverDatafile ccaskKeydirUpsert 0) c.shared.fs !=
    recoveredSizes (recoverHintfile ccaskKeydirUpsert 0) c.shared.fs)

theorem evaluated_earlyRun : letI := zlib
    staleWorld.threads = [0] ∧ (earlyRun.any fun c => endedPaired c && recoversOther c) = true := by
  decide +kernel

/-- A generator has read its datafile and not set the mark when the compaction looks at it: no call fails, and
the hint file of the old file stays beside the packed one. -/
theorem hint_of_replaced_datafile : letI := zlib
    ∃ w hist c, Life w hist ∧
      Relation.ReflTransGen (Compacting.Step fun _ _ rs => AllClean rs) (Compacting.start w) c ∧
      c.compactor = .done (.ok ()) ∧ (∀ id, c.generator id = .ended) ∧
      (c.shared.fs.read (fileName 0 .data)).isSome ∧ (c.shared.fs.read (fileName 0 .hint)).isSome ∧
      ¬ SameUpserts c.shared.fs 0 := by
  let _ := zlib
  obtain ⟨hthreads, hearly⟩ := evaluated_earlyRun
  obtain ⟨c, hplay, hends⟩ := (Option.any_eq_true _ _).mp hearly
  obtain ⟨hends, hother⟩ := (Bool.and_eq_true _ _).mp hends
  obtain ⟨hrecovers, hne⟩ := (Bool.and_eq_true _ _).mp hother
  obtain ⟨hdatafile, hhintfile⟩ := (Bool.and_eq_true _ _).mp hrecovers
  have hrun : Relation.ReflTransGen (Compacting.Step fun _ _ rs => AllClean rs) (Compacting.start staleWorld) c :=
    run_of_playTurns (fun _ _ _ => allClean_wholeReplies) hplay
  have hended := ended_of_playTurns (by simp [earlyTurns]) hplay hends hthreads
  obtain ⟨hdone, -, hdata, hhint⟩ := endedPaired_spec hends
  exact ⟨staleWorld, stalePuts, c, .run run_staleWorld, hrun, hdone, hended, hdata, hhint,
    not_sameUpserts hdatafile hhintfile (bne_iff_ne.mp hne)⟩

end Sample

end Ccask.Audit
