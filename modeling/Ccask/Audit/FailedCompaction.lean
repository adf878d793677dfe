import Ccask.Audit.Compaction
import Ccask.Audit.DumpReplies
import Ccask.Audit.Durable

/-!
# A compaction that fails

Which failures leave the store as it was. The replies are arbitrary, and so were those that have led
to the state before.
-/

namespace Ccask.Audit

open Ccask.Effect Ccask.Model

/-- No unlink removes a file: every one of a file that is there fails. -/
def Refuses (fs : Fs) : List Name → List Reply → Prop
  | [], _ => True
  | name :: names, rs => match Telling.tries 5 rs with
    | none => True
    | some (ok, rest) => (ok = true → fs.dir name = none) ∧ Refuses fs names rest

/-- The datafiles and hint files are as before, a new temporary file is left only when its deletion
was tried and failed, and the read lock is released. -/
structure Unchanged (w v : World) (logged : List Nat) : Prop where
  data : ∀ id, v.fs.read (fileName id .data) = w.fs.read (fileName id .data)
  hint : ∀ id, v.fs.read (fileName id .hint) = w.fs.read (fileName id .hint)
  temps : ∀ i, w.fs.dir (fileName i .tempData) = none →
    (v.fs.dir (fileName i .tempData)).isSome → i ∈ logged
  lock : v.readLocks = w.readLocks

/-- The first open fails; or every record can be retrieved and the loop over the key directory gets to its
end, the temporary files that the records fill were there before, and then no unlink succeeds. -/
def Harmless (w : World) (rs : List Reply) : Prop :=
  (∃ rest, Telling.tries 5 rs = some (false, rest)) ∨
    (∀ kd ∈ w.hashTable, Retrievable w kd) ∧ ∃ mid, fillTold w rs = some (true, mid) ∧
      (∀ i ≤ lastTemp w, (w.fs.dir (fileName i .tempData)).isSome) ∧
      Refuses w.fs (fileNames w.files.reverse) mid

section Unlinks

theorem unlink_of_none {fs : Fs} {name : Name} (h : fs.dir name = none) : fs.unlink name = fs := by
  have hdir : (fs.unlink name).dir = fs.dir := by
    funext m
    rw [Fs.dir_unlink]
    split
    · rename_i hm
      rw [hm, h]
    · rfl
  cases fs
  simp only [Fs.unlink] at hdir ⊢
  congr

theorem ccaskFilesDelete_oneCall (id : Nat) (ext : FileExt) (w : World) :
    ∃ res, OneCall (ccaskFilesDelete id ext) w res { w with fs := w.fs.unlink (fileName id ext) } ∧
      (res.isOk = true → (w.fs.dir (fileName id ext)).isSome) := by
  have hrun : ∃ res : Status, (∀ e, res ≠ .retry e) ∧
      (res.isOk = true → (w.fs.dir (fileName id ext)).isSome) ∧
      ∀ rest, (ccaskFilesDelete id ext).run (.intr :: rest) w =
        .returned res rest { w with fs := w.fs.unlink (fileName id ext) } := by
    simp only [ccaskFilesDelete, Prog.run_call_bind, Prog.run_state_bind]
    cases hdir : w.fs.dir (fileName id ext) with
    | none =>
        rw [unlink_of_none hdir]
        exact ⟨.fail none, by simp, by simp [Res.isOk], fun _ => rfl⟩
    | some ino => exact ⟨.ok (), by simp, fun _ => rfl, fun _ => rfl⟩
  obtain ⟨res, hretry, hsome, hrest⟩ := hrun
  refine ⟨res, ⟨rfl, ⟨_, fun _ => rfl⟩, ⟨_, fun _ => rfl⟩, ?_, hretry⟩, hsome⟩
  intro r rest hr
  cases r with
  | done k => exact hrest rest
  | intr => exact hrest rest
  | transient => exact False.elim hr
  | fail => exact False.elim hr

end Unlinks

section Deleting

/-- The replies left and the state after some unlinks. -/
def unlinked : List Name → List Reply → World → Option (List Reply × World)
  | [], rs, w => some (rs, w)
  | name :: names, rs, w => match Telling.tries 5 rs with
    | none => none
    | some (ok, rest) => unlinked names rest (if ok then { w with fs := w.fs.unlink name } else w)

variable {w v : World} {rs rest : List Reply}

theorem unlinked_append (names names' : List Name) (rs : List Reply) (w : World) :
    unlinked (names ++ names') rs w =
      (unlinked names rs w).bind fun p => unlinked names' p.1 p.2 := by
  induction names generalizing rs w with
  | nil => rfl
  | cons name names ih =>
      rw [List.cons_append, unlinked, unlinked]
      cases Telling.tries 5 rs with
      | none => rfl
      | some p => exact ih p.2 _

/-- One file is unlinked, if an unlink of it comes through. -/
theorem ccaskFilesDelete_unlinked {id : Nat} {ext : FileExt} {r : Status}
    (h : (attempt 5 (ccaskFilesDelete id ext)).run rs w = .returned r rest v) :
    unlinked [fileName id ext] rs w = some (rest, v) := by
  obtain ⟨res, hcall, -⟩ := ccaskFilesDelete_oneCall id ext w
  have hrun := hcall.attempt 5 rs
  rw [unlinked]
  cases htried : Telling.tries 5 rs with
  | none =>
      rw [htried] at hrun
      simp only at hrun
      rw [h] at hrun
      cases hrun
  | some p =>
      obtain ⟨ok, mid⟩ := p
      rw [htried] at hrun
      cases ok with
      | false =>
          obtain ⟨r', -, hrun⟩ := hrun
          rw [h] at hrun
          cases hrun
          rfl
      | true =>
          simp only at hrun
          rw [h] at hrun
          cases hrun
          rfl

theorem deleteFiles_unlinked (files : List CcaskFile) {st r : Status}
    (h : (deleteFiles files st).run rs w = .returned r rest v) :
    unlinked (fileNames files) rs w = some (rest, v) := by
  induction files generalizing rs w st with
  | nil =>
      cases h
      rfl
  | cons f files ih =>
      obtain ⟨rd, mid, u, hdata, h⟩ := Prog.run_bind_eq_returned h
      rw [fileNames_cons, ← List.singleton_append, unlinked_append, ccaskFilesDelete_unlinked hdata,
        Option.bind_some]
      cases hf : f.hasHint with
      | true =>
          rw [hf] at h
          obtain ⟨rh, mid', u', hhint, h⟩ := Prog.run_bind_eq_returned h
          rw [if_pos rfl, unlinked_append, ccaskFilesDelete_unlinked hhint, Option.bind_some]
          exact ih h
      | false =>
          rw [hf] at h
          exact ih h

/-- What unlinks can do to the directory. -/
theorem dir_of_unlinked {names : List Name} (h : unlinked names rs w = some (rest, v)) :
    v = { w with fs := v.fs } ∧ v.fs.data = w.fs.data ∧ ∀ name, v.fs.dir name = w.fs.dir name ∨
      (name ∈ names ∧ v.fs.dir name = none) := by
  induction names generalizing rs w with
  | nil =>
      cases h
      exact ⟨rfl, rfl, fun _ => .inl rfl⟩
  | cons m names ih =>
      rw [unlinked] at h
      cases htried : Telling.tries 5 rs with
      | none =>
          rw [htried] at h
          cases h
      | some p =>
          rw [htried] at h
          obtain ⟨hsame, hdata, hdir⟩ := ih h
          obtain ⟨ok, mid⟩ := p
          cases ok with
          | false =>
              refine ⟨hsame, hdata, fun name => ?_⟩
              obtain heq | ⟨hin, hnone⟩ := hdir name
              · exact .inl heq
              · exact .inr ⟨List.mem_cons_of_mem _ hin, hnone⟩
          | true =>
              refine ⟨hsame, hdata, fun name => ?_⟩
              obtain heq | ⟨hin, hnone⟩ := hdir name
              · change v.fs.dir name = (w.fs.unlink m).dir name at heq
                rw [Fs.dir_unlink] at heq
                by_cases hm : name = m
                · rw [if_pos hm] at heq
                  exact .inr ⟨by rw [hm]; exact List.mem_cons_self, heq⟩
                · rw [if_neg hm] at heq
                  exact .inl heq
              · exact .inr ⟨List.mem_cons_of_mem _ hin, hnone⟩

theorem refuses_congr {fs fs' : Fs} {names : List Name} (h : ∀ name ∈ names, fs.dir name = fs'.dir name) :
    Refuses fs names rs ↔ Refuses fs' names rs := by
  induction names generalizing rs with
  | nil => exact Iff.rfl
  | cons name names ih =>
      rw [Refuses, Refuses]
      rcases Telling.tries 5 rs with _ | ⟨ok, rest⟩
      · exact Iff.rfl
      · exact and_congr (by rw [h name List.mem_cons_self])
          (ih fun m hm => h m (List.mem_cons_of_mem _ hm))

/-- All files stay exactly when every unlink of a file that is there fails. -/
theorem refuses_iff {names : List Name} (h : unlinked names rs w = some (rest, v)) :
    (∀ name, v.fs.dir name = w.fs.dir name) ↔ Refuses w.fs names rs := by
  induction names generalizing rs w with
  | nil =>
      cases h
      exact ⟨fun _ => trivial, fun _ _ => rfl⟩
  | cons m names ih =>
      rw [unlinked] at h
      rw [Refuses]
      cases htried : Telling.tries 5 rs with
      | none =>
          rw [htried] at h
          cases h
      | some p =>
          rw [htried] at h
          obtain ⟨ok, mid⟩ := p
          cases ok with
          | false =>
              have hih := ih h
              exact hih.trans ⟨fun h => ⟨by simp, h⟩, fun h => h.2⟩
          | true =>
              have hih := ih h
              obtain ⟨-, -, hdir⟩ := dir_of_unlinked h
              cases hm : w.fs.dir m with
              | none =>
                  rw [if_pos rfl, unlink_of_none hm] at hih
                  exact hih.trans ⟨fun h => ⟨fun _ => rfl, h⟩, fun h => h.2⟩
              | some ino =>
                  refine ⟨fun hall => ?_, fun hnone => ?_⟩
                  · have hgone : v.fs.dir m = none := by
                      obtain heq | ⟨-, hnone⟩ := hdir m
                      · rw [heq, if_pos rfl, Fs.dir_unlink, if_pos rfl]
                      · exact hnone
                    rw [hall, hm] at hgone
                    cases hgone
                  · have := hnone.1 rfl
                    cases this

end Deleting

section Failed

variable {w v u : World} {rs rest mid : List Reply} {n : Nat} {logged : List Nat}

/-- The dump fails before its loop exactly when no first open comes through. -/
theorem fillTemps_run (rs : List Reply) (w : World) :
    match Telling.tries 5 rs with
    | some (false, rest) => ∃ e, fillTemps.run rs w = .returned (.fail e) rest w
    | _ => ∀ r mid u, fillTemps.run rs w = .returned r mid u → ∃ d, r = .ok d := by
  have hopen := (openCreate_oneCall (fileName 0 .tempData) w).attempt 5 rs
  cases htried : Telling.tries 5 rs with
  | none =>
      rw [htried] at hopen
      intro r mid u hrun
      have hpending : fillTemps.run rs w = .pending w := Prog.run_bind_pending hopen
      rw [hpending] at hrun
      cases hrun
  | some p =>
      obtain ⟨ok, rest⟩ := p
      rw [htried] at hopen
      cases ok with
      | false =>
          obtain ⟨r, hr, hopen⟩ := hopen
          have hrun : fillTemps.run rs w = _ := Prog.run_bind_returned hopen
          cases r with
          | ok a => cases hr
          | fail e => exact ⟨e, hrun⟩
          | retry e => exact ⟨e, hrun⟩
      | true =>
          intro r mid u hrun
          obtain ⟨r', mid', u', hopen', hrun⟩ := Prog.run_bind_eq_returned hrun
          have heq := hopen.symm.trans hopen'
          cases heq
          obtain ⟨es, mid₁, u₁, -, hrun⟩ := Prog.run_bind_eq_returned hrun
          obtain ⟨d, mid₂, u₂, -, hrun⟩ := Prog.run_bind_eq_returned hrun
          cases hrun
          exact ⟨d, rfl⟩

theorem deleteTemps_readLocks (l : List Nat) (h : (deleteTemps l).run rs w = .returned logged rest v) :
    v.readLocks = w.readLocks := by
  induction l generalizing rs w logged with
  | nil =>
      cases h
      rfl
  | cons i l ih =>
      obtain ⟨r, mid, u, hdelete, h⟩ := Prog.run_bind_eq_returned h
      obtain ⟨logged', mid', u', hrest, h⟩ := Prog.run_bind_eq_returned h
      cases h
      rw [ih hrest, (dir_of_unlinked (ccaskFilesDelete_unlinked hdelete)).1]

/-- The unlinks that follow are about files which the dump has left alone. -/
theorem Keeps.refuses_iff (h : Keeps (locked w) u) (rs : List Reply) :
    Refuses u.fs (fileNames u.files.reverse) rs ↔ Refuses w.fs (fileNames w.files.reverse) rs := by
  have hnames : fileNames u.files.reverse = fileNames w.files.reverse := by
    apply fileNames_congr
    rw [List.map_reverse, List.map_reverse]
    exact congrArg List.reverse h.files
  rw [hnames]
  refine refuses_congr fun name hname => h.dir name fun i => ?_
  obtain ⟨f, -, rfl | ⟨-, rfl⟩⟩ := mem_fileNames.mp hname
  · simp
  · simp

/-- When the loop got to its end, what follows changes nothing exactly if there are no new temporary
files and no unlink succeeds. -/
theorem unchanged_finished (hkeeps : Keeps (locked w) u) (htemps : TempsUpTo w u n)
    (hunlinked : unlinked (fileNames u.files.reverse) mid { u with readLocks := u.readLocks - 1 } =
      some (rest, v)) :
    Unchanged w v [] ↔ (∀ i ≤ n, (w.fs.dir (fileName i .tempData)).isSome) ∧
      Refuses w.fs (fileNames w.files.reverse) mid := by
  have hrefuses := (refuses_iff hunlinked).trans (hkeeps.refuses_iff mid)
  obtain ⟨hsame, hdata, hdir⟩ := dir_of_unlinked hunlinked
  simp only at hrefuses hdata hdir
  have htemp : ∀ i, v.fs.dir (fileName i .tempData) = u.fs.dir (fileName i .tempData) := by
    intro i
    obtain heq | ⟨hin, -⟩ := hdir (fileName i .tempData)
    · exact heq
    · obtain ⟨f, -, heq | ⟨-, heq⟩⟩ := mem_fileNames.mp hin
      · simp at heq
      · simp at heq
  have hlock : v.readLocks = w.readLocks := by
    rw [hsame]
    change u.readLocks - 1 = w.readLocks
    rw [hkeeps.readLocks_eq]
    rfl
  rw [← hrefuses]
  constructor
  · rintro ⟨hdata', hhint', htemps', -⟩
    have hstay : ∀ id ext, v.fs.read (fileName id ext) = u.fs.read (fileName id ext) →
        v.fs.dir (fileName id ext) = u.fs.dir (fileName id ext) := by
      intro id ext hread
      obtain heq | ⟨-, hnone⟩ := hdir (fileName id ext)
      · exact heq
      · rw [Fs.read_eq_none _ _ |>.mpr hnone, eq_comm, Fs.read_eq_none] at hread
        rw [hnone, hread]
    refine ⟨fun i hi => ?_, fun name => ?_⟩
    · rw [← Option.ne_none_iff_isSome]
      intro hnone
      have hleft := htemps' i hnone (by rw [htemp]; exact htemps.upto i hi)
      cases hleft
    · obtain heq | ⟨hin, -⟩ := hdir name
      · exact heq
      · obtain ⟨f, -, rfl | ⟨-, rfl⟩⟩ := mem_fileNames.mp hin
        · exact hstay _ _ (by rw [hdata', hkeeps.read_data]; rfl)
        · exact hstay _ _ (by rw [hhint', hkeeps.read_hint]; rfl)
  · rintro ⟨hold, hall⟩
    have hread : ∀ name, v.fs.read name = u.fs.read name := by
      intro name
      rw [Fs.read, Fs.read, hall, hdata]
    refine ⟨fun id => ?_, fun id => ?_, fun i hnone hleft => ?_, hlock⟩
    · rw [hread, hkeeps.read_data]
      rfl
    · rw [hread, hkeeps.read_hint]
      rfl
    · by_cases hi : i ≤ n
      · have hsome := hold i hi
        rw [hnone] at hsome
        cases hsome
      · rw [htemp, htemps.rest i (Nat.lt_of_not_le hi), hnone] at hleft
        cases hleft

/-- When the loop cannot get to its end after the first open, there is no second way out. -/
theorem harmless_iff_finished (hw : OffTemps w) (hfirst : ¬ ∃ rest, Telling.tries 5 rs = some (false, rest))
    {d : DumpEnd} (hfill : fillTemps.run rs w = .returned (.ok d) mid u) :
    Harmless w rs ↔ d = .finished (lastTemp w) ∧
      (∀ i ≤ lastTemp w, (w.fs.dir (fileName i .tempData)).isSome) ∧
      Refuses w.fs (fileNames w.files.reverse) mid := by
  constructor
  · rintro (h | ⟨hes, mid', htold, hrest⟩)
    · exact absurd h hfirst
    · have hrun := (fillTemps_tells hw hes).of_returned hfill
      rw [htold] at hrun
      obtain ⟨hend, rfl⟩ := Prod.mk.inj (Option.some.inj hrun)
      cases d with
      | returned => cases hend
      | cancelled n => cases hend
      | finished n =>
          obtain ⟨-, hn⟩ := (fillTemps_packs hw).returned (fun _ _ => trivial) hfill n rfl
          exact ⟨by rw [hn], hrest⟩
  · rintro ⟨rfl, hrest⟩
    obtain ⟨hes, -⟩ := (fillTemps_packs hw).returned (fun _ _ => trivial) hfill _ rfl
    exact .inr ⟨hes, mid, (fillTemps_tells hw hes).of_returned hfill, hrest⟩

/-- A compaction that returns CCASK_FAIL leaves everything as it was in these cases only. -/
theorem unchanged_iff_harmless (hw : OffTemps w) {e : Option Errno}
    (hrun : compactKeydir.run rs w = .returned (.fail e, logged) rest v) :
    Unchanged w v logged ↔ Harmless w rs := by
  obtain ⟨r, mid, u, hfill, hrest⟩ := Prog.run_bind_eq_returned hrun
  have hens := (fillTemps_ensures w).returned (fun _ _ => trivial) hfill
  have hsplit := fillTemps_run rs w
  by_cases hfirst : ∃ rest, Telling.tries 5 rs = some (false, rest)
  · have hharm : Harmless w rs := .inl hfirst
    obtain ⟨rest', htried⟩ := hfirst
    rw [htried] at hsplit
    obtain ⟨e', hsplit⟩ := hsplit
    rw [hsplit] at hfill
    cases hfill
    cases hrest
    refine ⟨fun _ => hharm, fun _ => ⟨fun _ => rfl, fun _ => rfl, fun i hnone hsome => ?_, rfl⟩⟩
    rw [hnone] at hsome
    cases hsome
  · obtain ⟨d, rfl⟩ : ∃ d, r = .ok d := by
      cases htried : Telling.tries 5 rs with
      | none =>
          rw [htried] at hsplit
          exact hsplit _ _ _ hfill
      | some p =>
          obtain ⟨ok, rest'⟩ := p
          rw [htried] at hsplit
          cases ok with
          | false => exact absurd ⟨rest', htried⟩ hfirst
          | true => exact hsplit _ _ _ hfill
    obtain ⟨hkeeps, htemps⟩ := hens
    rw [harmless_iff_finished hw hfirst hfill]
    -- the exits from inside the loop leave the read lock taken
    have hleak : (∀ n, d ≠ .finished n) → v.readLocks = u.readLocks →
        (Unchanged w v logged ↔ d = .finished (lastTemp w) ∧
          (∀ i ≤ lastTemp w, (w.fs.dir (fileName i .tempData)).isSome) ∧
          Refuses w.fs (fileNames w.files.reverse) mid) := by
      intro hd hlocks
      refine ⟨fun h => ?_, fun h => absurd h.1 (hd _)⟩
      have hlock := h.lock
      rw [hlocks, hkeeps.readLocks_eq] at hlock
      exact absurd hlock (Nat.succ_ne_self _)
    cases d with
    | returned =>
        cases hrest
        exact hleak (by simp) rfl
    | cancelled n =>
        obtain ⟨l, mid', u', hdelete, hrest⟩ := Prog.run_bind_eq_returned hrest
        cases hrest
        exact hleak (by simp) (deleteTemps_readLocks _ hdelete)
    | finished n =>
        obtain ⟨-, hn⟩ := (fillTemps_packs hw).returned (fun _ _ => trivial) hfill n rfl
        obtain ⟨x, mid₁, u₁, hclose, hrest⟩ := Prog.run_bind_eq_returned hrest
        cases hclose
        obtain ⟨st, mid₂, u₂, hreplace, hrest⟩ := Prog.run_bind_eq_returned hrest
        cases hrest
        obtain ⟨_, _, _, hstate, hreplace⟩ := Prog.run_bind_eq_returned hreplace
        cases hstate
        obtain ⟨st, mid₃, u₃, hdelete, hreplace⟩ := Prog.run_bind_eq_returned hreplace
        obtain ⟨rfl, rfl⟩ : mid₃ = rest ∧ u₃ = v := by
          cases st with
          | ok a =>
              obtain ⟨_, _, _, -, hreplace⟩ := Prog.run_bind_eq_returned hreplace
              cases hreplace
          | fail e' =>
              cases hreplace
              exact ⟨rfl, rfl⟩
          | retry e' =>
              cases hreplace
              exact ⟨rfl, rfl⟩
        rw [unchanged_finished hkeeps (htemps n rfl) (deleteFiles_unlinked _ hdelete), hn]
        exact ⟨fun h => ⟨rfl, h⟩, fun h => h.2⟩

end Failed

section Reachable

variable {w v : World} {rs rest : List Reply} {logged : List Nat}

/-- What keeps the descriptors off the temporary files. -/
def KeepsOff (w v : World) : Prop := OffTemps w → OffTemps v

instance : Std.Refl KeepsOff := ⟨fun _ => id⟩

instance : IsTrans World KeepsOff := ⟨fun _ _ _ h h' hw => h' (h hw)⟩

/-- A file may get the name of a temporary file when it had one, or is a new one. -/
theorem KeepsOff.of_names (hfiles : v.files = w.files) (hnext : w.fs.next ≤ v.fs.next)
    (hnames : ∀ i ino, v.fs.dir (fileName i .tempData) = some ino →
      w.fs.dir (fileName i .tempData) = some ino ∨ w.fs.next ≤ ino) : KeepsOff w v := by
  intro hw id ino hopen
  obtain ⟨hlt, hoff⟩ := hw id ino ((openFd_congr hfiles id).symm.trans hopen)
  refine ⟨Nat.lt_of_lt_of_le hlt hnext, fun i hi => ?_⟩
  obtain hold | hnew := hnames i ino hi
  · exact hoff i hold
  · exact Nat.not_le_of_lt hlt hnew

theorem KeepsOff.create (w : World) (name : Name) :
    KeepsOff w { w with fs := (w.fs.create name).1 } := by
  refine .of_names rfl (Grows.create w.fs name).next fun i ino hi => ?_
  by_cases hname : fileName i .tempData = name
  · cases hdir : w.fs.dir name with
    | some ino' =>
        rw [Fs.create_of_some w.fs name hdir] at hi
        exact .inl hi
    | none =>
        obtain ⟨-, hd, -⟩ := Fs.create_of_none w.fs name hdir
        rw [hd, hname, Function.update_self] at hi
        cases hi
        exact .inr (Nat.le_refl _)
  · exact .inl ((w.fs.dir_create_of_ne name hname).symm.trans hi)

theorem KeepsOff.unlink (w : World) (name : Name) : KeepsOff w { w with fs := w.fs.unlink name } := by
  refine .of_names rfl (Nat.le_refl _) fun i ino hi => .inl ?_
  rw [Fs.dir_unlink] at hi
  split at hi
  · cases hi
  · exact hi

theorem KeepsOff.rename (w : World) (i : Nat) :
    KeepsOff w { w with fs := w.fs.rename (fileName i .tempData) (fileName i .data) } := by
  refine .of_names rfl (Nat.le_refl _) fun j ino hj => .inl ?_
  rw [Fs.dir_rename, if_neg (by simp)] at hj
  split at hj
  · cases hj
  · exact hj

theorem ccaskFilesChangeExt_keepsOff (i : Nat) :
    Moves KeepsOff (ccaskFilesChangeExt i .tempData .data) := by
  refine Moves.call fun r => ?_
  rcases r with n | _ | _ | _
  case transient => exact Moves.pure _
  case fail => exact Moves.pure _
  all_goals
    refine Moves.state fun w => ?_
    cases w.fs.dir (fileName i .tempData) with
    | none => exact Moves.pure _ w
    | some ino => exact modify_bind_moves (fun w => KeepsOff.rename w i) (fun _ => Moves.pure _) w

theorem ccaskFilesDelete_keepsOff (id : Nat) (ext : FileExt) : Moves KeepsOff (ccaskFilesDelete id ext) :=
  ccaskFilesDelete_moves id ext fun w => KeepsOff.unlink w _

theorem ccaskFilesGetTempDatafileFd_keepsOff (id : Nat) : Moves KeepsOff (ccaskFilesGetTempDatafileFd id) :=
  openCreate_moves _ fun w => KeepsOff.create w _

theorem tempFileFor_keepsOff (tempId : Nat) (fd : Ino) (size : Nat) :
    Moves KeepsOff (tempFileFor tempId fd size) := by
  refine (lseekEnd_moves _).bind fun pos => ?_
  cases pos with
  | none => exact Moves.pure _
  | some pos =>
      refine Moves.state fun w => ?_
      split
      · refine (attempt_moves (ccaskFilesGetTempDatafileFd_keepsOff _)).bind (fun r => ?_) w
        cases r with
        | ok fd => exact Moves.pure _
        | fail e => exact Moves.pure _
        | retry e => exact Moves.pure _
      · exact Moves.pure _ w

theorem dumpEntries_keepsOff (es : List KeydirRecord) (tempId : Nat) (fd : Ino) :
    Moves KeepsOff (dumpEntries es tempId fd) := by
  induction es generalizing tempId fd with
  | nil => exact Moves.pure _
  | cons kd es ih =>
      have hread : ∀ buffers, Moves KeepsOff (ccaskReadDatafileRecord kd.fileId buffers kd.recordPos) :=
        fun buffers => (ccaskReadDatafileRecord_opens _ _ _).mono fun _ _ h => (Retains.opens h).offTemps
      refine (ccaskAllocateDatafileRecord_moves _ _).bind fun r => ?_
      cases r with
      | fail e => exact Moves.pure _
      | retry e => exact Moves.pure _
      | ok buffers =>
          refine (attempt_moves (hread buffers)).bind fun r => ?_
          cases r with
          | fail e => exact Moves.pure _
          | retry e => exact Moves.pure _
          | ok record =>
              refine (tempFileFor_keepsOff _ _ _).bind fun r => ?_
              cases r with
              | error tempId => exact Moves.pure _
              | ok p =>
                  refine (safeWritev_moves _ (iov_fits record)
                    fun w ino bytes => (Retains.append w ino bytes).offTemps).bind fun r => ?_
                  cases r with
                  | ok _ => exact ih _ _
                  | fail e => exact Moves.pure _
                  | retry e => exact Moves.pure _

theorem deleteFiles_keepsOff (files : List CcaskFile) (res : Status) :
    Moves KeepsOff (deleteFiles files res) := by
  induction files generalizing res with
  | nil => exact Moves.pure _
  | cons f files ih =>
      refine (attempt_moves (ccaskFilesDelete_keepsOff _ _)).bind fun r => ?_
      split
      · exact (attempt_moves (ccaskFilesDelete_keepsOff _ _)).bind fun r' => ih _
      · exact (Moves.pure _).bind fun r' => ih _

theorem deleteTemps_keepsOff (l : List Nat) : Moves KeepsOff (deleteTemps l) := by
  induction l with
  | nil => exact Moves.pure _
  | cons i l ih =>
      exact (attempt_moves (ccaskFilesDelete_keepsOff _ _)).bind fun r => ih.bind fun logged => Moves.pure _

theorem renameTemps_keepsOff (l : List Nat) : Moves KeepsOff (renameTemps l) := by
  induction l with
  | nil => exact Moves.pure _
  | cons i l ih => exact (attempt_moves (ccaskFilesChangeExt_keepsOff i)).bind fun r => ih

/-- A compaction keeps them off, however it ends and wherever it is cut short. -/
theorem compactKeydir_keepsOff : Moves KeepsOff compactKeydir := by
  have hfill : Moves KeepsOff fillTemps := by
    refine (attempt_moves (ccaskFilesGetTempDatafileFd_keepsOff 0)).bind fun r => ?_
    cases r with
    | fail e => exact Moves.pure _
    | retry e => exact Moves.pure _
    | ok fd =>
        have hiter : Moves KeepsOff ccaskKeydirRecordIter :=
          modify_bind_moves (fun _ => id) fun _ => Moves.state fun w => Moves.pure _ w
        exact hiter.bind fun es => (dumpEntries_keepsOff es 0 fd).bind fun d => Moves.pure _
  have hreplace : ∀ n, Moves KeepsOff (replaceFiles n) := by
    refine fun n => Moves.state fun w => ?_
    refine (deleteFiles_keepsOff _ _).bind (fun r => ?_) w
    cases r with
    | ok _ => exact (renameTemps_keepsOff _).bind fun _ => Moves.pure _
    | fail e => exact Moves.pure _
    | retry e => exact Moves.pure _
  refine hfill.bind fun r => ?_
  rcases r with (_ | n | n) | e | e
  · exact Moves.pure _
  · exact (deleteTemps_keepsOff _).bind fun _ => Moves.pure _
  · exact modify_bind_moves (fun _ => id) fun _ => (hreplace n).bind fun _ => Moves.pure _
  · exact Moves.pure _
  · exact Moves.pure _

variable [Zlib]

/-- What may happen to a directory and the processes over it: what happens without compactions, and
compactions under any replies, also ones that are cut short. -/
inductive Proceed : World → World → Prop
  | step {w v : World} : Happens w v → Proceed w v
  | compact {w : World} (rs : List Reply) : Proceed w (compactKeydir.run rs w).state

/-- In no reachable state is a descriptor on a temporary file. -/
theorem offTemps_of_runs {w₀ : World} (hnew : w₀.files = []) (hw : Relation.ReflTransGen Proceed w₀ w) :
    OffTemps w := by
  induction hw with
  | refl =>
      intro id ino hopen
      rw [openFd, ccaskFilesGetFile, hnew] at hopen
      cases hopen
  | tail _ hstep ih =>
      cases hstep with
      | step hs => exact hs.retains.offTemps ih
      | compact rs =>
          rename_i u _
          cases hrun : compactKeydir.run rs u with
          | returned a rest v => exact (compactKeydir_keepsOff u).returned (fun _ _ => trivial) hrun ih
          | pending v => exact (compactKeydir_keepsOff u).pending (fun _ _ => trivial) hrun ih

/-- In every reachable state: a compaction that returns CCASK_FAIL leaves everything as it was exactly
when the replies to it and the state before are harmless. -/
theorem failed_compaction_iff {w₀ : World} (hnew : w₀.files = [])
    (hw : Relation.ReflTransGen Proceed w₀ w) {e : Option Errno}
    (hrun : compactKeydir.run rs w = .returned (.fail e, logged) rest v) :
    Unchanged w v logged ↔ Harmless w rs :=
  unchanged_iff_harmless (offTemps_of_runs hnew hw) hrun

end Reachable

section Sample

/-- The first allocation of the loop fails: CCASK_FAIL, and the read lock stays taken. -/
theorem compactKeydir_noMemory {w : World} {kd : KeydirRecord} {es : List KeydirRecord}
    (h : w.hashTable = kd :: es) : ∃ v,
      compactKeydir.run [.done 0, .fail] w = .returned (.fail (some .noMemory), []) [] v ∧
      v.readLocks = w.readLocks + 1 := by
  cases w
  simp only at h
  subst h
  exact ⟨_, rfl, rfl⟩

theorem exists_noMemory : letI := zlib
    ∃ w v, Run w [bytePut 0 97 98] ∧
      compactKeydir.run [.done 0, .fail] w = .returned (.fail (some .noMemory), []) [] v ∧
      v.readLocks = w.readLocks + 1 := by
  let _ := zlib
  obtain ⟨w, hrun, -⟩ := exists_run_one
  obtain ⟨seg, hreached, hhist⟩ := hrun.reached
  have hkey := (hreached.serves.keys.2 (putKey (bytePut 0 97 98))).mpr (by rw [hhist]; simp)
  cases htable : w.hashTable with
  | nil =>
      rw [htable] at hkey
      cases hkey
  | cons kd es =>
      obtain ⟨v, hv, hlock⟩ := compactKeydir_noMemory htable
      exact ⟨w, v, hrun, hv, hlock⟩

/-- The state after that: its temporary file is there. -/
def leftWorld : World :=
  letI := zlib
  (compactKeydir.run [.done 0, .fail] writtenWorld).state

theorem runs_leftWorld : letI := zlib
    Relation.ReflTransGen Proceed (World.boot Fs.empty 0) leftWorld := by
  let _ := zlib
  have hstart : Happens (World.boot Fs.empty 0) startedWorld := by
    have hcall := Happens.call (w := World.boot Fs.empty 0) (.init emptyOptions) (List.replicate 9 (.done 0))
    rwa [Op.after, init_startedWorld] at hcall
  have hput : Happens startedWorld writtenWorld := by
    have hcall := Happens.call (w := startedWorld)
      (.putBlocking (bytePut 0 97 98).key (bytePut 0 97 98).value) putReplies
    rwa [Op.after, put_writtenWorld] at hcall
  exact .tail (.tail (.single (.step hstart)) (.step hput)) (.compact _)

/-- The next compaction gets through its loop, and the unlink of the datafile fails. -/
def refusedReplies : List Reply := crashReplies.take 7 ++ [.fail]

theorem failed_compaction_iff_one : letI := zlib
    ∃ rest v, compactKeydir.run refusedReplies leftWorld = .returned (.fail none, []) rest v ∧
      Unchanged leftWorld v [] := by
  let _ := zlib
  obtain ⟨rest, hrun⟩ : ∃ rest, compactKeydir.run refusedReplies leftWorld =
      .returned (.fail none, []) rest (compactKeydir.run refusedReplies leftWorld).state :=
    Outcome.of_value (by decide +kernel)
  have hentries : leftWorld.hashTable = [⟨[97], 0, 0, 1, 0⟩] := by decide +kernel
  have hret : ∀ kd ∈ leftWorld.hashTable, Retrievable leftWorld kd := by
    intro kd hkd
    rw [hentries, List.mem_singleton] at hkd
    subst hkd
    exact ⟨by decide, 0, by decide +kernel, by decide +kernel⟩
  have htold : fillTold leftWorld refusedReplies = some (true, [.fail]) := by decide +kernel
  have hlast : lastTemp leftWorld = 0 := by decide +kernel
  have htemp : (leftWorld.fs.dir (fileName 0 .tempData)).isSome := by decide +kernel
  have hnames : fileNames leftWorld.files.reverse = [fileName 0 .data] := by decide +kernel
  refine ⟨rest, _, hrun, (failed_compaction_iff rfl runs_leftWorld hrun).mpr
    (.inr ⟨hret, [.fail], htold, fun i hi => ?_, ?_⟩)⟩
  · rw [hlast] at hi
    rw [Nat.le_zero.mp hi]
    exact htemp
  · rw [hnames]
    exact ⟨fun h => (by cases h), trivial⟩

theorem not_unchanged_one : letI := zlib
    ∃ w v, Run w [bytePut 0 97 98] ∧
      compactKeydir.run [.done 0, .fail] w = .returned (.fail (some .noMemory), []) [] v ∧
      ¬ Unchanged w v [] := by
  let _ := zlib
  obtain ⟨w, v, hrun, hv, hlock⟩ := exists_noMemory
  refine ⟨w, v, hrun, hv, fun h => ?_⟩
  rw [h.lock] at hlock
  exact Nat.succ_ne_self _ hlock.symm

end Sample

end Ccask.Audit
