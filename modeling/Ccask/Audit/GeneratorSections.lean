import Ccask.Audit.HintFiles
import Ccask.Audit.Draining

/-!
# The sections of a hint generator

What the thread of one file may do whatever the replies are, and what it does when its datafile is found and read.
-/

namespace Ccask.Audit

open Ccask.Effect Ccask.Model Ccask.Index

section Effects

variable {w v : World} {id i : Nat} {fd j : Ino} {t t' : GeneratorThread}

/-- The descriptor on the hint file that a generator has. -/
def heldFd : GeneratorThread → Option Ino
  | .opening fd | .scanning fd _ => some fd
  | _ => none

/-- Whether the file is known to have a hint file. -/
def hintFlag (id : Nat) (w : World) : Option Bool := (ccaskFilesGetFile id w).map CcaskFile.hasHint

/-- What a section of a generator may do. -/
inductive HintEffect (id : Nat) (w : World) : World → Prop
  | same : HintEffect id w w
  | created : HintEffect id w { w with fs := (w.fs.create (fileName id .hint)).1 }
  | appended {fd : Ino} (q : Bytes) : w.fs.dir (fileName id .hint) = some fd → HintEffect id w (w.append fd q)
  | marked : HintEffect id w (w.setFile id fun file => { file with hasHint := true })
  | deleted : HintEffect id w { w with fs := w.fs.unlink (fileName id .hint) }

/-- A file that is not a hint file. -/
structure Still (w : World) (j : Ino) : Prop where
  old : j < w.fs.next
  unhinted : ∀ i, w.fs.dir (fileName i .hint) ≠ some j

theorem still_of_dir {name : Name} (h : w.fs.dir name = some j) (hname : ∀ i, name ≠ fileName i .hint) :
    Still w j :=
  ⟨w.fs.fresh h, fun i hi => hname i (w.fs.single h hi)⟩

namespace HintEffect

theorem dir_of_ne (h : HintEffect id w v) {name : Name} (hne : name ≠ fileName id .hint) :
    v.fs.dir name = w.fs.dir name := by
  cases h with
  | same => rfl
  | created => exact Fs.dir_create_of_ne _ _ hne
  | appended q _ => rfl
  | marked => rfl
  | deleted =>
      show (w.fs.unlink _).dir _ = _
      rw [Fs.dir_unlink, if_neg hne]

theorem dir_data (h : HintEffect id w v) (i : Nat) :
    v.fs.dir (fileName i .data) = w.fs.dir (fileName i .data) := h.dir_of_ne (by simp)

theorem dir_hint (h : HintEffect id w v) (hne : i ≠ id) :
    v.fs.dir (fileName i .hint) = w.fs.dir (fileName i .hint) := h.dir_of_ne (by simpa using hne)

/-- Nothing is written but to the hint file. -/
theorem data_eq (h : HintEffect id w v) (hj : j < w.fs.next) (hne : w.fs.dir (fileName id .hint) ≠ some j) :
    v.fs.data j = w.fs.data j := by
  cases h with
  | same => rfl
  | created => exact Fs.data_create _ _ hj
  | appended q hfd =>
      refine Fs.data_append_of_ne _ _ _ ?_
      rintro rfl
      exact hne hfd
  | marked => rfl
  | deleted => rfl

/-- The files under other names keep their contents. -/
theorem data_named (h : HintEffect id w v) {name : Name} (hname : w.fs.dir name = some j)
    (hne : name ≠ fileName id .hint) : v.fs.data j = w.fs.data j :=
  h.data_eq (w.fs.fresh hname) fun hj => hne (w.fs.single hname hj)

theorem read_of_ne (h : HintEffect id w v) {name : Name} (hne : name ≠ fileName id .hint) :
    v.fs.read name = w.fs.read name := by
  rw [Fs.read, Fs.read, h.dir_of_ne hne]
  cases hdir : w.fs.dir name with
  | none => rfl
  | some j => exact congrArg some (h.data_named hdir hne)

theorem still (h : HintEffect id w v) (hj : Still w j) : Still v j ∧ v.fs.data j = w.fs.data j := by
  refine ⟨⟨?_, fun i hi => ?_⟩, h.data_eq hj.old (hj.unhinted id)⟩
  · refine Nat.lt_of_lt_of_le hj.old ?_
    cases h with
    | same => exact Nat.le_refl _
    | created => exact Fs.next_le_create _ _
    | appended q _ => exact Nat.le_refl _
    | marked => exact Nat.le_refl _
    | deleted => exact Nat.le_refl _
  · by_cases hne : i = id
    · subst hne
      cases h with
      | same => exact hj.unhinted i hi
      | created =>
          cases hdir : w.fs.dir (fileName i .hint) with
          | some k =>
              rw [Fs.create_of_some _ _ hdir] at hi
              exact hj.unhinted i hi
          | none =>
              change (w.fs.create _).1.dir _ = _ at hi
              rw [Fs.dir_create_self, (Fs.create_of_none _ _ hdir).1] at hi
              exact Nat.lt_irrefl _ (Option.some.inj hi ▸ hj.old)
      | appended q _ => exact hj.unhinted i hi
      | marked => exact hj.unhinted i hi
      | deleted =>
          change (w.fs.unlink _).dir _ = _ at hi
          rw [Fs.dir_unlink, if_pos rfl] at hi
          cases hi
    · rw [h.dir_hint hne] at hi
      exact hj.unhinted i hi

theorem same_rest (h : HintEffect id w v) : v = { w with fs := v.fs, files := v.files } := by
  cases h <;> rfl

theorem ids_eq (h : HintEffect id w v) : ids v = ids w := by
  cases h with
  | marked => exact ids_setFile w id fun _ => rfl
  | same => rfl
  | created => rfl
  | appended q _ => rfl
  | deleted => rfl

theorem hintFlag_eq (h : HintEffect id w v) (hne : i ≠ id) : hintFlag i v = hintFlag i w := by
  cases h with
  | marked =>
      rw [hintFlag, getFile_setFile id i (F := fun file => { file with hasHint := true }) (fun _ => rfl),
        if_neg hne]
      rfl
  | same => rfl
  | created => rfl
  | appended q _ => rfl
  | deleted => rfl

theorem mounted (h : HintEffect id w v) (hm : Mounted w) : Mounted v := by
  cases h with
  | marked => exact hm.hinted id
  | same => exact hm
  | created => exact hm.congr rfl fun i => Fs.dir_create_of_ne _ _ (by simp)
  | appended q _ => exact hm.congr rfl fun _ => rfl
  | deleted =>
      refine hm.congr rfl fun i => ?_
      show (w.fs.unlink _).dir _ = _
      rw [Fs.dir_unlink, if_neg (by simp)]

theorem serves [Zlib] (h : HintEffect id w v) {seg : Nat → List Put} (hs : Serves w seg) : Serves v seg := by
  refine ⟨h.mounted hs.mounted, ?_, ?_, ?_⟩
  · rw [h.ids_eq]
    intro i hi
    rw [h.read_of_ne (by simp)]
    exact hs.contents i hi
  · rw [h.ids_eq, h.same_rest]
    exact hs.table
  · rw [h.ids_eq]
    exact hs.good

end HintEffect

/-- What is appended to one file. -/
def WritesInto (fd : Ino) (w v : World) : Prop := ∃ q, v = w.append fd q

instance : Std.Refl (WritesInto fd) := ⟨fun _ => ⟨[], append_nil.symm⟩⟩

instance : IsTrans World (WritesInto fd) := ⟨by
  rintro w v u ⟨q, rfl⟩ ⟨q', rfl⟩
  exact ⟨q ++ q', append_append q q'⟩⟩

/-- What a generator says of its hint file: there is none before it makes one, its descriptor is on it, and
the file is not marked before the generator has ended. -/
structure Owned (w : World) (id : Nat) (t : GeneratorThread) : Prop where
  fresh : t = .start → w.fs.dir (fileName id .hint) = none
  held : ∀ fd, heldFd t = some fd → w.fs.dir (fileName id .hint) = some fd
  flag : hintFlag id w = some true → t = .ended

theorem owned_ended : Owned w id .ended := ⟨by simp, fun _ h => (by cases h), fun _ => rfl⟩

theorem Owned.congr (h : Owned w id t) (hdir : v.fs.dir (fileName id .hint) = w.fs.dir (fileName id .hint))
    (hflag : hintFlag id v = hintFlag id w) : Owned v id t :=
  ⟨fun ht => by rw [hdir]; exact h.fresh ht, fun fd hfd => by rw [hdir]; exact h.held fd hfd,
    fun hf => h.flag (hflag ▸ hf)⟩

/-- Whatever the replies, a section of a generator touches only its own hint file and its mark. -/
theorem generator_effect {m : Sys GeneratorThread} {rs rest : List Reply} (hsect : t.sect id = some m)
    (hrun : m.run rs w = .returned t' rest v) (h : Owned w id t) : HintEffect id w v ∧ Owned v id t' := by
  cases t with
  | start =>
      have hflag : hintFlag id w ≠ some true := fun hf => by cases h.flag hf
      cases hsect
      obtain ⟨r, mid, u, hr, hrest⟩ := Prog.run_bind_eq_returned hrun
      have hopen := ((openCreate_oneCall (fileName id .hint) w).ensures 5).returned (fun _ _ => trivial) hr
      cases r with
      | ok fd =>
          cases hrest
          obtain ⟨hfail, -⟩ | ⟨hok, rfl⟩ := hopen
          · cases hfail
          · obtain rfl := Res.ok.inj hok
            refine ⟨.created, by simp, fun fd hfd => ?_, fun hf => absurd hf hflag⟩
            cases hfd
            exact Fs.dir_create_self _ _
      | fail e =>
          cases hrest
          obtain ⟨-, rfl⟩ | ⟨hok, -⟩ := hopen
          · exact ⟨.same, owned_ended⟩
          · cases hok
      | retry e =>
          cases hrest
          obtain ⟨-, rfl⟩ | ⟨hok, -⟩ := hopen
          · exact ⟨.same, owned_ended⟩
          · cases hok
  | opening fd =>
      have hflag : hintFlag id w ≠ some true := fun hf => by cases h.flag hf
      cases hsect
      obtain ⟨r, mid, u, hr, hrest⟩ := Prog.run_bind_eq_returned hrun
      obtain rfl : w = u := (attempt_moves (iterOpen_moves (R := Eq) _ (ccaskFilesGetDatafileFd_moves _))).of_run hr
      cases r with
      | ok iter =>
          cases hrest
          refine ⟨.same, by simp, fun fd' hfd => ?_, fun hf => absurd hf hflag⟩
          cases hfd
          exact h.held fd rfl
      | fail e => cases hrest; exact ⟨.same, owned_ended⟩
      | retry e => cases hrest; exact ⟨.same, owned_ended⟩
  | scanning fd s =>
      have hflag : hintFlag id w ≠ some true := fun hf => by cases h.flag hf
      have hheld := h.held fd rfl
      cases hsect
      obtain ⟨r, mid, u, hr, hrest⟩ := Prog.run_bind_eq_returned hrun
      obtain ⟨q, rfl⟩ : WritesInto fd w u :=
        (hintfileGeneratorRound_moves_to s fun w q => (⟨q, rfl⟩ : WritesInto fd w _)).of_run hr
      have happended : HintEffect id w (w.append fd q) := .appended q hheld
      rcases r with s' | b
      · cases hrest
        refine ⟨happended, by simp, fun fd' hfd => ?_, fun hf => absurd hf hflag⟩
        cases hfd
        exact hheld
      · cases b with
        | true => cases hrest; exact ⟨happended, by simp, fun _ hfd => (by cases hfd), fun hf => absurd hf hflag⟩
        | false => cases hrest; exact ⟨happended, by simp, fun _ hfd => (by cases hfd), fun hf => absurd hf hflag⟩
  | completed =>
      cases hsect
      cases hrun
      exact ⟨.marked, owned_ended⟩
  | failed =>
      cases hsect
      obtain ⟨r, mid, u, hr, hrest⟩ := Prog.run_bind_eq_returned hrun
      cases hrest
      obtain ⟨res, hcall, -⟩ := ccaskFilesDelete_oneCall id .hint w
      obtain ⟨-, rfl⟩ | ⟨-, rfl⟩ := (hcall.ensures 5).returned (fun _ _ => trivial) hr
      · exact ⟨.same, owned_ended⟩
      · exact ⟨.deleted, owned_ended⟩
  | ended => cases hsect

end Effects

section Steps

variable {w v : World} {id : Nat} {t t' : GeneratorThread}

/-- The calls a generator makes for its datafile come through: the file is there and is opened, no read
of it fails, and when a hint record could not be made or written the unlink of the hint file does not
fail. -/
def Undisrupted (w : World) (id : Nat) : GeneratorThread → List Reply → Prop
  | .opening _, rs => ∃ ino, w.fs.dir (fileName id .data) = some ino ∧ (w.fs.data ino).length < 2 ^ 63 ∧
      ∃ rest, ((Telling.tries 5).andThen .any) rs = some (true, rest)
  | .scanning _ s, rs => ∀ record off, recordAt (w.fs.data s.1.fd) s.1.offset = some (record, off) →
      ∃ rest, handedOut (record, s.1.offset) rs = some (true, rest)
  | .failed, rs => ∃ rest, Telling.tries 5 rs = some (true, rest)
  | _, _ => True

/-- The file that is scanned is known in its whole length, and its records can have hint records. -/
def Scannable (w : World) : GeneratorThread → Prop
  | .scanning _ s => s.2 = .unset ∧ (w.fs.data s.1.fd).length ≤ s.1.totalSize ∧
      ∀ record off, recordAt (w.fs.data s.1.fd) s.1.offset = some (record, off) → Hintable (record, s.1.offset)
  | _ => True

/-- What an undisrupted section of a generator does. -/
inductive GeneratorStep (w : World) (id : Nat) : GeneratorThread → World → GeneratorThread → Prop
  | refused : GeneratorStep w id .start w .ended
  | made : GeneratorStep w id .start { w with fs := (w.fs.create (fileName id .hint)).1 }
      (.opening (w.fs.create (fileName id .hint)).2)
  | opened (fd : Ino) {iter : Iter} : w.fs.dir (fileName id .data) = some iter.fd → iter.offset = 0 →
      (w.fs.data iter.fd).length ≤ iter.totalSize →
      GeneratorStep w id (.opening fd) w (.scanning fd (iter, .unset))
  | stopped (fd : Ino) {iter : Iter} : recordAt (w.fs.data iter.fd) iter.offset = none →
      GeneratorStep w id (.scanning fd (iter, .unset)) w .completed
  | wrote (fd : Ino) {iter : Iter} {record : DatafileRecord} {off : Nat} :
      recordAt (w.fs.data iter.fd) iter.offset = some (record, off) →
      GeneratorStep w id (.scanning fd (iter, .unset)) (w.append fd (hintOf (record, iter.offset)).bytes)
        (.scanning fd ({ iter with offset := off }, .unset))
  | torn (fd : Ino) (iter : Iter) (q : Bytes) :
      GeneratorStep w id (.scanning fd (iter, .unset)) (w.append fd q) .failed
  | marked : GeneratorStep w id .completed (w.setFile id fun file => { file with hasHint := true }) .ended
  | deleted : GeneratorStep w id .failed { w with fs := w.fs.unlink (fileName id .hint) } .ended

theorem scanning_step {fd : Ino} {iter : Iter} {m : Sys GeneratorThread} {rs rest : List Reply}
    (hsect : (GeneratorThread.scanning fd (iter, .unset)).sect id = some m)
    (hrun : m.run rs w = .returned t' rest v) (hsize : (w.fs.data iter.fd).length ≤ iter.totalSize)
    (hrecord : ∀ record off, recordAt (w.fs.data iter.fd) iter.offset = some (record, off) →
      Hintable (record, iter.offset))
    (hcalls : Undisrupted w id (.scanning fd (iter, .unset)) rs) :
    GeneratorStep w id (.scanning fd (iter, .unset)) v t' := by
  cases hsect
  obtain ⟨r, mid, u, hround, hrest⟩ := Prog.run_bind_eq_returned hrun
  rw [hintfileGeneratorRound] at hround
  obtain ⟨next, mid', u', hnext, hround⟩ := Prog.run_bind_eq_returned hround
  obtain ⟨hsame, hfound⟩ := ccaskDatafileIterNext_found.returned (fun _ _ => trivial) hnext
  subst u'
  -- the iterator stops only where no record is found
  have hstops : next.isOk = false → recordAt (w.fs.data iter.fd) iter.offset = none := by
    intro hnext'
    cases hat : recordAt (w.fs.data iter.fd) iter.offset with
    | none => rfl
    | some p =>
        obtain ⟨record, off⟩ := p
        obtain ⟨rest', htold⟩ := hcalls record off hat
        have htells := (ccaskDatafileIterNext_tells hsize hat).of_returned hnext
        rw [htold, hnext'] at htells
        cases htells
  cases next with
  | fail e =>
      cases hround
      cases hrest
      exact .stopped fd (hstops rfl)
  | retry e =>
      cases hround
      cases hrest
      exact .stopped fd (hstops rfl)
  | ok p =>
      obtain ⟨record, recordPos, iter'⟩ := p
      obtain ⟨hpos, hiter, hat⟩ := hfound _ rfl
      simp only at hpos hiter hat
      subst hpos
      obtain ⟨b, mid'', u'', hwrite, hround⟩ := Prog.run_bind_eq_returned hround
      have hends : Ensures _ (hintfileRecordWrite fd _ _ .unset) w _ _ :=
        hintfileRecordWrite_ensures (hrecord record iter'.offset hat)
      obtain ⟨rfl, rfl⟩ | ⟨hb, q, -, rfl⟩ := hends.returned (fun _ _ => trivial) hwrite
      · cases hround
        cases hrest
        rw [hiter]
        exact .wrote fd hat
      · obtain ⟨written, buffers⟩ := b
        obtain rfl : written = false := hb
        cases hround
        cases hrest
        exact .torn fd iter q

theorem generator_step {m : Sys GeneratorThread} {rs rest : List Reply} (hsect : t.sect id = some m)
    (hrun : m.run rs w = .returned t' rest v) (hscan : Scannable w t) (hcalls : Undisrupted w id t rs) :
    GeneratorStep w id t v t' := by
  cases t with
  | start =>
      cases hsect
      obtain ⟨r, mid, u, hr, hrest⟩ := Prog.run_bind_eq_returned hrun
      have hopen := ((openCreate_oneCall (fileName id .hint) w).ensures 5).returned (fun _ _ => trivial) hr
      cases r with
      | ok fd =>
          cases hrest
          obtain ⟨hfail, -⟩ | ⟨hok, rfl⟩ := hopen
          · cases hfail
          · obtain rfl := Res.ok.inj hok
            exact .made
      | fail e =>
          cases hrest
          obtain ⟨-, rfl⟩ | ⟨hr, -⟩ := hopen
          · exact .refused
          · cases hr
      | retry e =>
          cases hrest
          obtain ⟨-, rfl⟩ | ⟨hr, -⟩ := hopen
          · exact .refused
          · cases hr
  | opening fd =>
      cases hsect
      obtain ⟨ino, hdir, hsize, rest', htold⟩ := hcalls
      obtain ⟨r, mid, u, hr, hrest⟩ := Prog.run_bind_eq_returned hrun
      have hiter := ccaskDatafileIterOpen_opens hdir hsize
      have htells := (attempt_tells (n := 4) (ccaskDatafileIterOpen_tells hdir)
        (hiter.mono (fun _ _ h => h.2.1) fun _ h => h)).of_returned hr
      have hopens := attempt_succ_ensures (n := 4) (I := fun v => v = w) rfl
        (Q := fun r v => v = w ∧ ∀ iter : Iter, r = .ok iter → iter.fd = ino ∧
          iter.offset = 0 ∧ (w.fs.data ino).length ≤ iter.totalSize) fun v hv => by
        subst hv
        exact hiter.mono (fun _ _ h => ⟨⟨h.1, h.2.2⟩, fun e he => absurd he (h.2.1 e)⟩) fun _ h => h
      obtain ⟨hsame, hok⟩ := hopens.returned (fun _ _ => trivial) hr
      subst u
      rw [htold] at htells
      cases r with
      | ok iter =>
          cases hrest
          obtain ⟨rfl, hoff, hlen⟩ := hok iter rfl
          exact .opened fd hdir hoff hlen
      | fail e => cases htells
      | retry e => cases htells
  | scanning fd s =>
      obtain ⟨iter, buffers⟩ := s
      obtain ⟨rfl, hsize, hrecord⟩ := hscan
      exact scanning_step hsect hrun hsize hrecord hcalls
  | completed =>
      cases hsect
      cases hrun
      exact .marked
  | failed =>
      cases hsect
      obtain ⟨rest', htold⟩ := hcalls
      obtain ⟨r, mid, u, hr, hrest⟩ := Prog.run_bind_eq_returned hrun
      cases hrest
      obtain ⟨res, hcall, -⟩ := ccaskFilesDelete_oneCall id .hint w
      have htried := hcall.attempt 5 rs
      rw [htold] at htried
      cases hr.symm.trans htried
      exact .deleted
  | ended => cases hsect

end Steps

section Sequence

variable {w : World} {rs : List Reply}

/-- The rounds of a generator and what follows them. -/
theorem scanning_sections {fileId : Nat} {fd : Ino} {k : Bool → Sys Unit}
    (hk : ∀ b rs w, Solo (GeneratorThread.sect fileId) (fun _ => .ended) (if b then .completed else .failed) rs w
      ((k b).run rs w)) (s : Iter × HintfileBuffers) :
    Solo (GeneratorThread.sect fileId) (fun _ => .ended) (.scanning fd s) rs w
      ((Prog.loop (hintfileGeneratorRound fd) s >>= k).run rs w) := by
  refine Solo.loop (f := GeneratorThread.scanning fd) (e := fun b => if b then .completed else .failed)
    (hintfileGeneratorRound_consumes fd) (fun _ => rfl) (fun _ => rfl) (fun b => ?_) hk s rs w
  cases b <;> rfl

/-- The sections of a generator one after another are `hintfile_generator_thread`. -/
theorem hintfileGeneratorThread_sections (fileId : Nat) :
    Solo (GeneratorThread.sect fileId) (fun _ => .ended) .start rs w
      ((hintfileGeneratorThread fileId).run rs w) := by
  refine Solo.bind rfl fun r rest v _ => ?_
  cases r with
  | fail e => exact ⟨_, rfl, .ended _ _ _⟩
  | retry e => exact ⟨_, rfl, .ended _ _ _⟩
  | ok fd =>
      refine ⟨_, rfl, Solo.bind rfl fun r rest' u _ => ?_⟩
      cases r with
      | fail e => exact ⟨_, rfl, .ended _ _ _⟩
      | retry e => exact ⟨_, rfl, .ended _ _ _⟩
      | ok iter =>
          refine ⟨_, rfl, scanning_sections (fun b rs w => ?_) (iter, .unset)⟩
          cases b with
          | true => exact .returned rfl rfl (.ended _ _ _)
          | false => exact Solo.bind rfl fun r rest v _ => ⟨_, rfl, .ended _ _ _⟩

end Sequence

end Ccask.Audit
