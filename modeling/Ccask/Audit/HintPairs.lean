import Ccask.Audit.CompactSections
import Ccask.Audit.GeneratorSections

/-!
# Hint files beside a compaction

The compaction asks once for each file whether it has a hint file. What becomes of the hint file afterwards depends
on which datafile its generator reads. `Pairing` follows every hint file through the unlinks and the renames.
-/

namespace Ccask.Audit

open Ccask.Effect Ccask.Model Ccask.Index

section Phases

/-- The datafiles that have been unlinked, among those of the list. -/
def Unlinked : CompactCall → Nat → Prop
  | .deleting cur _ _, id => ∀ k, cur = some k → id < k
  | .testing k _ _, id | .deletingHint k _ _, id | .advancing k _ _, id => id ≤ k
  | .renamingTemps _ _, _ | .done _, _ => True
  | .dumping, _ | .cancelling _, _ | .closing _, _ => False

/-- The files whose mark has been looked at, and whose hint file is gone if they had the mark. -/
def Checked : CompactCall → Nat → Prop
  | .deleting cur _ _, id => ∀ k, cur = some k → id < k
  | .testing k _ _, id | .deletingHint k _ _, id => id < k
  | .advancing k _ _, id => id ≤ k
  | .renamingTemps _ _, _ | .done _, _ => True
  | .dumping, _ | .cancelling _, _ | .closing _, _ => False

/-- The temporary files that are still to be renamed: the first and the last one. -/
def toRename : CompactCall → Option (Nat × Nat)
  | .closing n | .deleting _ n _ | .testing _ n _ | .deletingHint _ n _ | .advancing _ n _ => some (0, n)
  | .renamingTemps i n => some (i, n)
  | .dumping | .cancelling _ | .done _ => none

/-- No datafile will have the name when the compaction has returned. -/
def Doomed (fs : Fs) (t : CompactCall) (id : Nat) : Prop :=
  match toRename t with
  | some (i, n) => n < id ∨ (id < i ∧ fs.dir (fileName id .data) = none)
  | none => (∃ res, t = .done res) ∧ fs.dir (fileName id .data) = none

/-- The file of the list that is worked on. -/
def currFile : CompactCall → Option Nat
  | .deleting cur _ _ => cur
  | .testing k _ _ | .deletingHint k _ _ | .advancing k _ _ => some k
  | _ => none

end Phases

section Condition

/-- The packed file has the hint records of the file whose name it takes. -/
def SameHints (w₀ w : World) (id : Nat) : Prop :=
  ∃ c c' l l', w₀.fs.read (fileName id .data) = some c ∧ w.fs.read (fileName id .tempData) = some c' ∧
    Scan (recordAt c) 0 l ∧ Scan (recordAt c') 0 l' ∧ hints l = hints l'

/-- A generator that has its datafile open, or has read it and not set the mark yet. -/
def readsFile : GeneratorThread → Prop
  | .scanning _ _ | .completed => True
  | _ => False

/-- When the mark of a file is looked at, its generator does not stand between the open of the datafile and the
mark, unless no datafile will have the name or the packed one has the same hint records. -/
def Unentangled (w₀ : World) (c : Compacting) : Prop :=
  ∀ k n res, c.compactor = .testing k n res → readsFile (c.generator k) →
    Doomed c.shared.fs c.compactor k ∨ SameHints w₀ c.shared k

/-- The steps that keep hint files and datafiles paired: the compaction does not pass a generator that reads the
file, and the calls of a generator for its datafile come through. -/
def KeepsPairs (w₀ : World) (c : Compacting) : ActingThread → List Reply → Prop
  | .compactor, _ => Unentangled w₀ c
  | .generator id, rs => Doomed c.shared.fs c.compactor id ∨ Undisrupted c.shared id (c.generator id) rs

end Condition

section Invariant

variable {w₀ w v : World} {id : Nat} {S S' : Prop} {old new : Bytes} {t : GeneratorThread}

/-- The hint records that are to be in the hint file in the end. -/
def Wanted (S : Prop) (old new q : Bytes) : Prop := (S → q = new) ∧ (¬ S → q = old)

theorem Wanted.congr {q : Bytes} (h : Wanted S old new q) (hS : S' ↔ S) : Wanted S' old new q :=
  ⟨fun hs => h.1 (hS.mp hs), fun hs => h.2 fun hs' => hs (hS.mpr hs')⟩

theorem Wanted.of_eq {q : Bytes} (h : Wanted S old new q) (heq : old = new) : Wanted S' old new q := by
  have hq : q = new := by
    by_cases hs : S
    · exact h.1 hs
    · exact (h.2 hs).trans heq
  exact ⟨fun _ => hq, fun _ => hq.trans heq.symm⟩

/-- What a generator finds in the file under the name of a datafile. -/
def Finds (w₀ w : World) (S : Prop) (old new : Bytes) (id : Nat) : Prop :=
  ∀ j, w.fs.dir (fileName id .data) = some j → ∃ l, Scan (recordAt (w.fs.data j)) 0 l ∧
    (∀ p ∈ l, Hintable p) ∧ Wanted S old new (hints l) ∧ (S ∨ w₀.fs.dir (fileName id .data) = some j)

/-- How far the generator of a file has come. `S` says whether its mark has been looked at. -/
structure Follows (w₀ w : World) (S : Prop) (old new : Bytes) (id : Nat) (t : GeneratorThread) : Prop where
  opening : ∀ fd, t = .opening fd → w.fs.data fd = []
  scanning : ∀ fd s, t = .scanning fd s → s.2 = .unset ∧ Still w s.1.fd ∧
    (w.fs.data s.1.fd).length ≤ s.1.totalSize ∧ (S ∨ w₀.fs.dir (fileName id .data) = some s.1.fd) ∧
    ∃ l₁ l₂, w.fs.data fd = hints l₁ ∧ Scan (recordAt (w.fs.data s.1.fd)) s.1.offset l₂ ∧
      (∀ p ∈ l₂, Hintable p) ∧ Wanted S old new (hints (l₁ ++ l₂))
  kept : (t = .completed ∨ t = .ended) → ∀ q, w.fs.read (fileName id .hint) = some q → Wanted S old new q
  unmarked : t = .ended → ¬ S → hintFlag id w = some false → w.fs.dir (fileName id .hint) = none

namespace Follows

/-- Nothing that concerns the file has changed. -/
theorem frame (h : Follows w₀ w S old new id t) (ho : Owned w id t)
    (hdir : v.fs.dir (fileName id .hint) = w.fs.dir (fileName id .hint))
    (hdata : ∀ fd, w.fs.dir (fileName id .hint) = some fd → v.fs.data fd = w.fs.data fd)
    (hstill : ∀ fd s, t = .scanning fd s → Still v s.1.fd ∧ v.fs.data s.1.fd = w.fs.data s.1.fd)
    (hflag : hintFlag id v = hintFlag id w) : Follows w₀ v S old new id t := by
  refine ⟨fun fd ht => ?_, fun fd s ht => ?_, fun ht q hq => ?_, fun ht hS hf => ?_⟩
  · rw [hdata fd (ho.held fd (by rw [ht]; rfl))]
    exact h.opening fd ht
  · obtain ⟨hbuf, -, hsize, hold, hhints⟩ := h.scanning fd s ht
    obtain ⟨hs, heq⟩ := hstill fd s ht
    rw [hdata fd (ho.held fd (by rw [ht]; rfl)), heq]
    exact ⟨hbuf, hs, hsize, hold, hhints⟩
  · refine h.kept ht q ?_
    rw [Fs.read, hdir] at hq
    rw [Fs.read]
    cases hd : w.fs.dir (fileName id .hint) with
    | none => rw [hd] at hq; cases hq
    | some fd =>
        rw [hd, Option.map_some, hdata fd hd] at hq
        exact hq
  · rw [hdir]
    exact h.unmarked ht hS (hflag ▸ hf)

theorem congr (h : Follows w₀ w S old new id t) (hS : S' ↔ S) : Follows w₀ w S' old new id t := by
  refine ⟨h.opening, fun fd s ht => ?_, fun ht q hq => (h.kept ht q hq).congr hS,
    fun ht hs => h.unmarked ht fun hs' => hs (hS.mpr hs')⟩
  obtain ⟨hbuf, hstill, hsize, hold, l₁, l₂, hl₁, hl₂, hhint, hwanted⟩ := h.scanning fd s ht
  exact ⟨hbuf, hstill, hsize, hold.imp hS.mpr fun h => h, l₁, l₂, hl₁, hl₂, hhint, hwanted.congr hS⟩

/-- The mark is looked at while the generator has not opened the datafile, or while it makes no difference. -/
theorem check (h : Follows w₀ w S old new id t) (hS : S') (hreads : readsFile t → old = new)
    (hended : t = .ended → w.fs.dir (fileName id .hint) = none) : Follows w₀ w S' old new id t := by
  refine ⟨h.opening, fun fd s ht => ?_, fun ht q hq => ?_, fun _ hs => absurd hS hs⟩
  · obtain ⟨hbuf, hstill, hsize, -, l₁, l₂, hl₁, hl₂, hhint, hwanted⟩ := h.scanning fd s ht
    exact ⟨hbuf, hstill, hsize, .inl hS, l₁, l₂, hl₁, hl₂, hhint,
      hwanted.of_eq (hreads (by rw [ht]; trivial))⟩
  · have hwanted := h.kept ht q hq
    obtain rfl | rfl := ht
    · exact hwanted.of_eq (hreads trivial)
    · rw [Fs.read, hended rfl] at hq
      cases hq

/-- There is no hint file any more, and no generator. -/
theorem of_ended (hnone : w.fs.dir (fileName id .hint) = none) : Follows w₀ w S old new id .ended := by
  refine ⟨by simp, by simp, fun _ q hq => ?_, fun _ _ _ => hnone⟩
  rw [Fs.read, hnone] at hq
  cases hq

end Follows

/-- What holds while the compaction is on its course. -/
structure Pairing [Zlib] (w₀ : World) (seg : Nat → List Put) (b : Bins Put) (c : Compacting) : Prop where
  files : ids c.shared = ids w₀
  intact : ∀ id, ¬ Unlinked c.compactor id →
    c.shared.fs.dir (fileName id .data) = w₀.fs.dir (fileName id .data)
  contents : ∀ id j, w₀.fs.dir (fileName id .data) = some j →
    Still c.shared j ∧ c.shared.fs.data j = w₀.fs.data j
  replaced : ∀ id, Unlinked c.compactor id → ∀ j, c.shared.fs.dir (fileName id .data) = some j →
    Checked c.compactor id ∧ id ≤ b.last ∧ c.shared.fs.data j = written (b.bin id)
  temps : ∀ i n, toRename c.compactor = some (i, n) → n = b.last ∧ ∀ k, i ≤ k → k ≤ n →
    c.shared.fs.read (fileName k .tempData) = some (written (b.bin k))
  dumps : c.compactor = .dumping → Serves c.shared seg ∧
    c.shared.maxActiveFileSize = w₀.maxActiveFileSize ∧ ∀ i, c.shared.fs.read (fileName i .tempData) = none
  current : ∀ k, currFile c.compactor = some k → k ∈ ids w₀
  hintless : ∀ k n res, c.compactor = .deletingHint k n res → c.generator k = .ended
  owned : ∀ id, Owned c.shared id (c.generator id)
  strangers : ∀ id, id ∉ ids w₀ → c.generator id = .ended ∧ c.shared.fs.dir (fileName id .hint) = none
  follows : ∀ id, ¬ Doomed c.shared.fs c.compactor id → Follows w₀ c.shared (Checked c.compactor id)
    (hints (recordsOf seg id)) (hints (recordsOf b.bin id)) id (c.generator id)

end Invariant

section Contents

variable [Zlib] {w₀ v : World} {seg : Nat → List Put} {b : Bins Put} {c : Compacting} {t : CompactCall} {id : Nat}

omit [Zlib] in
theorem checked_unlinked (h : Checked t id) : Unlinked t id := by
  cases t with
  | deleting cur n res => exact h
  | testing k n res => exact Nat.le_of_lt h
  | deletingHint k n res => exact Nat.le_of_lt h
  | advancing k n res => exact h
  | renamingTemps i n => trivial
  | done res => trivial
  | dumping => exact h
  | cancelling n => exact h
  | closing n => exact h

/-- A file that is not in the list has no datafile while its name has not been taken. -/
theorem Pairing.absent (h : Pairing w₀ seg b c) (hw : Store w₀ (recordsOf seg)) (hid : id ∉ ids w₀)
    (hu : ¬ Unlinked c.compactor id) : c.shared.fs.dir (fileName id .data) = none := by
  rw [h.intact id hu, ← Fs.read_eq_none]
  by_contra hread
  exact hid ((hw.disk.known id).mpr (Option.isSome_iff_ne_none.mpr hread))

theorem Pairing.finds (h : Pairing w₀ seg b c) (hw : Reached w₀ seg)
    (hb : b = packed (history (ids w₀) seg) w₀.maxActiveFileSize.toNat) (id : Nat) :
    Finds w₀ c.shared (Checked c.compactor id) (hints (recordsOf seg id)) (hints (recordsOf b.bin id)) id := by
  intro j hj
  by_cases hu : Unlinked c.compactor id
  · obtain ⟨hcheck, hlast, hdata⟩ := h.replaced id hu j hj
    have hgood : ∀ p ∈ b.bin id, Good p := by
      intro p hp
      subst hb
      exact hw.good_history p (mem_packed hlast hp)
    have hlen : (written (b.bin id)).length < 2 ^ 64 := by
      subst hb
      exact length_packed hw.good_history w₀.maxActiveFileSize.toNat_lt hlast
    refine ⟨located (b.bin id), ?_, hintable_written hgood hlen,
      ⟨fun _ => rfl, fun hs => absurd hcheck hs⟩, .inl hcheck⟩
    rw [hdata]
    exact scan_written fun p hp => (hgood p hp).size
  · have hold : w₀.fs.dir (fileName id .data) = some j := by rw [← h.intact id hu, hj]
    have hcheck : ¬ Checked c.compactor id := fun hs => hu (checked_unlinked hs)
    have hread : w₀.fs.read (fileName id .data) = some (w₀.fs.data j) := by rw [Fs.read, hold]; rfl
    have hmem : id ∈ ids w₀ := (hw.store.disk.known id).mpr (by rw [hread]; rfl)
    obtain ⟨content, hcontent, hscan⟩ := hw.store.disk.scans id hmem
    rw [hread] at hcontent
    cases hcontent
    refine ⟨recordsOf seg id, ?_, hw.store.disk.hintable id hmem,
      ⟨fun hs => absurd hs hcheck, fun _ => rfl⟩, .inr hold⟩
    rw [(h.contents id j hold).2]
    exact hscan

end Contents

section Generators

variable [Zlib] {w₀ v : World} {seg : Nat → List Put} {b : Bins Put} {c : Compacting} {id : Nat}
  {t : GeneratorThread} {old new : Bytes} {S : Prop}

omit [Zlib] in
/-- A generator step of the file itself. -/
theorem Follows.step {w : World} {t' : GeneratorThread} (h : Follows w₀ w S old new id t) (ho : Owned w id t)
    (hs : GeneratorStep w id t v t') (hdata : Finds w₀ w S old new id) : Follows w₀ v S old new id t' := by
  cases hs with
  | refused => exact .of_ended (ho.fresh rfl)
  | made =>
      refine ⟨fun fd ht => ?_, by simp, by simp, by simp⟩
      cases ht
      show (w.fs.create _).1.data _ = _
      rw [Fs.data_create_self, (Fs.read_eq_none _ _).mpr (ho.fresh rfl)]
      rfl
  | opened fd hdir hoff hsize =>
      rename_i iter
      refine ⟨by simp, fun fd' s ht => ?_, by simp, by simp⟩
      cases ht
      obtain ⟨l, hscan, hhint, hwanted, hold⟩ := hdata _ hdir
      refine ⟨rfl, still_of_dir hdir (by simp), hsize, hold, [], l, h.opening fd rfl, ?_, hhint, hwanted⟩
      rw [hoff]
      exact hscan
  | stopped fd hnone =>
      refine ⟨by simp, by simp, fun _ q hq => ?_, by simp⟩
      obtain ⟨-, -, -, -, l₁, l₂, hl₁, hl₂, -, hwanted⟩ := h.scanning fd _ rfl
      rw [Fs.read, ho.held fd rfl, Option.map_some, hl₁] at hq
      obtain rfl := hl₂.unique (.stop hnone)
      obtain rfl := Option.some.inj hq
      rwa [List.append_nil] at hwanted
  | wrote fd hat =>
      rename_i iter record off
      refine ⟨by simp, fun fd' s ht => ?_, by simp, by simp⟩
      cases ht
      obtain ⟨-, hstill, hsize, hold, l₁, l₂, hl₁, hl₂, hhint, hwanted⟩ := h.scanning fd _ rfl
      have hne : iter.fd ≠ fd := by
        rintro rfl
        exact hstill.unhinted id (ho.held _ rfl)
      have hsame : (w.append fd (hintOf (record, iter.offset)).bytes).fs.data iter.fd = w.fs.data iter.fd :=
        Fs.data_append_of_ne _ _ _ hne
      cases hl₂ with
      | stop hn => cases hat.symm.trans hn
      | step hn hrest =>
          cases hat.symm.trans hn
          rename_i l₂
          refine ⟨rfl, ⟨hstill.old, hstill.unhinted⟩, by rw [hsame]; exact hsize, hold,
            l₁ ++ [(record, iter.offset)], l₂, ?_, by rw [hsame]; exact hrest,
            fun p hp => hhint p (List.mem_cons_of_mem _ hp), ?_⟩
          · show (w.fs.append fd _).data fd = _
            rw [Fs.data_append_self, hl₁, hints_concat]
          · rw [List.append_assoc, List.singleton_append]
            exact hwanted
  | torn fd iter q => exact ⟨by simp, by simp, by simp, by simp⟩
  | marked =>
      refine ⟨by simp, by simp, fun _ => h.kept (.inl rfl), fun _ _ hf => ?_⟩
      rw [hintFlag, getFile_setFile id id (F := fun file => { file with hasHint := true }) (fun _ => rfl),
        if_pos rfl] at hf
      cases hget : ccaskFilesGetFile id w with
      | none => rw [hget] at hf; cases hf
      | some f => rw [hget] at hf; cases hf
  | deleted =>
      refine .of_ended ?_
      show (w.fs.unlink _).dir _ = _
      rw [Fs.dir_unlink, if_pos rfl]

/-- A section of a generator keeps the pairing. -/
theorem Pairing.generate (h : Pairing w₀ seg b c) (hw : Reached w₀ seg)
    (hb : b = packed (history (ids w₀) seg) w₀.maxActiveFileSize.toNat) {m : Sys GeneratorThread}
    {rs rest : List Reply}
    (hok : KeepsPairs w₀ c (.generator id) rs) (hsect : (c.generator id).sect id = some m)
    (hrun : m.run rs c.shared = .returned t rest v) :
    Pairing w₀ seg b { c with shared := v, generator := Function.update c.generator id t } := by
  obtain ⟨he, howned⟩ := generator_effect hsect hrun (h.owned id)
  have hother : ∀ i, i ≠ id → Function.update c.generator id t i = c.generator i :=
    fun i hi => Function.update_of_ne hi _ _
  have hdead : ∀ i, Doomed v.fs c.compactor i ↔ Doomed c.shared.fs c.compactor i := by
    intro i
    rw [Doomed, Doomed, he.dir_data]
  have hknown : id ∈ ids w₀ := by
    by_contra hid
    rw [(h.strangers id hid).1] at hsect
    cases hsect
  constructor
  case files => exact he.ids_eq.trans h.files
  case intact =>
    intro i hi
    rw [← h.intact i hi]
    exact he.dir_data i
  case contents =>
    intro i j hj
    obtain ⟨hstill, heq⟩ := h.contents i j hj
    obtain ⟨hstill', heq'⟩ := he.still hstill
    exact ⟨hstill', heq'.trans heq⟩
  case replaced =>
    intro i hi j hj
    change v.fs.dir _ = _ at hj
    rw [he.dir_data] at hj
    obtain ⟨hcheck, hle, hdata⟩ := h.replaced i hi j hj
    exact ⟨hcheck, hle, (he.data_named hj (by simp)).trans hdata⟩
  case temps =>
    intro i n hn
    obtain ⟨hlast, htemps⟩ := h.temps i n hn
    exact ⟨hlast, fun k hk hk' => (he.read_of_ne (by simp)).trans (htemps k hk hk')⟩
  case dumps =>
    intro hd
    obtain ⟨hserves, hmax, hnone⟩ := h.dumps hd
    refine ⟨he.serves hserves, ?_, fun i => (he.read_of_ne (by simp)).trans (hnone i)⟩
    exact (congrArg World.maxActiveFileSize he.same_rest).trans hmax
  case current => exact h.current
  case hintless =>
    intro k n res hk
    have hended := h.hintless k n res hk
    have hne : k ≠ id := by
      rintro rfl
      rw [hended] at hsect
      cases hsect
    exact (hother k hne).trans hended
  case owned =>
    intro i
    show Owned v i (Function.update c.generator id t i)
    by_cases hi : i = id
    · subst hi
      rw [Function.update_self]
      exact howned
    · rw [hother i hi]
      exact (h.owned i).congr (he.dir_hint hi) (he.hintFlag_eq hi)
  case strangers =>
    intro i hi
    have hne : i ≠ id := fun heq => hi (heq ▸ hknown)
    obtain ⟨hended, hnone⟩ := h.strangers i hi
    exact ⟨(hother i hne).trans hended, (he.dir_hint hne).trans hnone⟩
  case follows =>
    intro i hi
    have hi' : ¬ Doomed c.shared.fs c.compactor i := fun hd => hi ((hdead i).mpr hd)
    have hf := h.follows i hi'
    show Follows w₀ v _ _ _ i (Function.update c.generator id t i)
    by_cases hid : i = id
    · subst hid
      rw [Function.update_self]
      have hscan : Scannable c.shared (c.generator i) := by
        cases ht : c.generator i with
        | scanning fd s =>
            obtain ⟨hbuf, -, hsize, -, l₁, l₂, -, hl₂, hhint, -⟩ := hf.scanning fd s ht
            refine ⟨hbuf, hsize, fun record off hat => ?_⟩
            cases hl₂ with
            | stop hn => cases hat.symm.trans hn
            | step hn hrest =>
                cases hat.symm.trans hn
                exact hhint _ List.mem_cons_self
        | start => trivial
        | opening fd => trivial
        | completed => trivial
        | failed => trivial
        | ended => trivial
      exact hf.step (h.owned i) (generator_step hsect hrun hscan (hok.resolve_left hi')) (h.finds hw hb i)
    · rw [hother i hid]
      refine hf.frame (h.owned i) (he.dir_hint hid) (fun fd hfd => ?_) (fun fd s ht => ?_) (he.hintFlag_eq hid)
      · exact he.data_named hfd (by simpa using hid)
      · exact he.still (hf.scanning fd s ht).2.1

end Generators

end Ccask.Audit
