import Ccask.Model.Main
import Ccask.Audit.PossibleStarts

/-!
# Runs of the program

`main` starts, compacts and shuts down. Without errors its first run packs the directory, and every further
one leaves it as it is. Under errors a run that exits with -1 has lost nothing, and one that exits with 0
may have lost the last puts of any datafiles for good.
-/

namespace Ccask.Audit

open Ccask.Effect Ccask.Model Ccask.Index

variable [Zlib]

section Settled

variable {w u : World} {fs fs' : Fs} {opts : CcaskOptions} {hist : List Put} {b : Bins Put}

/-- The datafiles hold the bins, and there are no other files. -/
def Consists (fs : Fs) (b : Bins Put) : Prop :=
  ∀ name c, fs.read name = some c ↔ ∃ i ≤ b.last, name = fileName i .data ∧ c = written (b.bin i)

theorem Consists.read_eq (h : Consists fs b) (h' : Consists fs' b) : fs'.read = fs.read := by
  funext name
  apply Option.ext
  intro c
  rw [h' name c, h name c]

theorem Consists.noTemps (h : Consists fs b) : NoTemps fs := by
  intro i
  rw [← Fs.read_eq_none, Option.eq_none_iff_forall_ne_some]
  intro c hc
  obtain ⟨j, -, hname, -⟩ := (h _ c).mp hc
  simp at hname

/-- Nothing but the new datafiles is left after a compaction. -/
theorem Renamed.consists {x : World} (h : Renamed (b.last + 1) x.fs fs') (hd : Dumped u x b)
    (htidy : Tidy fs') (hfresh : ∀ i, u.fs.read (fileName i .tempData) = none) : Consists fs' b := by
  intro name c
  constructor
  · intro hc
    obtain ⟨i, ext, -, hext, rfl⟩ := htidy name (by rw [hc]; rfl)
    cases ext with
    | unknown => exact absurd rfl hext
    | hint =>
        rw [h.hint] at hc
        cases hc
    | tempData =>
        rw [h.temp] at hc
        split at hc
        · cases hc
        · rename_i hi
          rw [hd.rest i (by omega), hfresh] at hc
          cases hc
    | data =>
        rw [h.read_bin hd (Nat.le_refl _)] at hc
        split at hc
        · rename_i hi
          exact ⟨i, Nat.le_of_lt_succ hi, rfl, (Option.some.inj hc).symm⟩
        · cases hc
  · rintro ⟨i, hi, rfl, rfl⟩
    rw [h.read_bin hd (Nat.le_refl _), if_pos (Nat.lt_succ_of_le hi)]

/-- What `main` does after the start. -/
theorem Boots.settles (h : Boots opts w hist u) (hfresh : NoTemps w.fs)
    (hb : b = packed hist opts.datafileRotateThreshold.toNat) (hroom : b.last < 2 ^ 31) :
    ∃ x y, Computes ccaskCompactorDumpKeydir u (.ok ()) x ∧ Computes ccaskShutdown x () y ∧
      Consists y.fs b ∧ Stored y.fs (List.range (b.last + 1)).reverse b.bin := by
  obtain ⟨seg, hserves, rfl⟩ := h.serves
  obtain ⟨L, hstore⟩ := h.store
  have hnone : ∀ i, u.fs.read (fileName i .tempData) = none := by
    intro i
    rw [h.temps, Fs.read_eq_none]
    exact hfresh i
  rw [← h.threshold] at hb
  obtain ⟨v, x, hd, hcompact, hrenamed, hsame⟩ := hserves.compact hstore (hb.trans (packed_eq _ _))
    fun i _ => by rw [hnone]; rfl
  obtain ⟨y, hdown, hfs⟩ := hstore.shutdown_compacted h.threads hsame
  have hstored := hserves.stored_renamed hstore hb hroom hd hrenamed (Nat.le_refl _)
  refine ⟨x, y, hcompact, hdown, ?_, ?_⟩
  · rw [hfs]
    exact hrenamed.consists hd hstored.disk.tidy hnone
  · rw [hfs]
    exact hstored

end Settled

section Runs

variable {w v u x y : World} {fs fs' : Fs} {listing : List Name} {hist : List Put} {l : List Nat}
  {seg : Nat → List Put} {b : Bins Put}

/-- A directory of packed datafiles holds these puts. -/
theorem Consists.bears (h : Consists fs b) (hb : b = packed hist 60)
    (hstored : Stored fs (List.range (b.last + 1)).reverse b.bin) : Bears fs (Index.replay putKey [] hist) := by
  refine ⟨_, _, hstored, fun id hid => ?_, ?_⟩
  · obtain ⟨c, hc⟩ := Option.isSome_iff_exists.mp hid
    obtain ⟨i, -, hname, -⟩ := (h _ c).mp hc
    simp at hname
  · rw [hb]
    exact history_packed hist 60

/-- A run without errors exits with 0 and packs the directory. -/
theorem Bears.main (h : Bears w.fs hist) (hlists : Lists listing w.fs) (hfresh : NoTemps w.fs)
    (hroom : (packed hist 60).last < 2 ^ 31) : ∃ v, Computes (Model.main listing) w 0 v ∧
      Consists v.fs (packed hist 60) ∧ Bears v.fs (Index.replay putKey [] hist) := by
  obtain ⟨l, seg, hstored, hcurrent, rfl⟩ := h
  have hopts : Lists (CcaskOptions.mk listing 10 60).listing w.fs := hlists
  obtain ⟨u, hinit, hboots⟩ := hstored.boots hopts hcurrent
  obtain ⟨x, y, hcompact, hdown, hconsists, hpacked⟩ := hboots.settles hfresh rfl hroom
  exact ⟨y, hinit.bind (hcompact.bind (hdown.bind (Computes.pure 0))), hconsists, hconsists.bears rfl hpacked⟩

/-- A run of the program without errors, in a process of its own. -/
def RunsMain (fs fs' : Fs) : Prop :=
  ∃ w listing rs rest status v, w.fs = fs ∧ Lists listing fs ∧ AllClean rs ∧
    (Model.main listing).run rs w = .returned status rest v ∧ v.fs = fs'

/-- One run. -/
theorem Bears.runsMain (h : Bears fs hist) (hfresh : NoTemps fs) (hroom : (packed hist 60).last < 2 ^ 31)
    (hs : RunsMain fs fs') :
    Consists fs' (packed hist 60) ∧ Bears fs' (Index.replay putKey [] hist) := by
  obtain ⟨w, listing, rs, rest, status, v, rfl, hlists, hrs, hrun, rfl⟩ := hs
  obtain ⟨v', hmain, hconsists, hbears⟩ := h.main hlists hfresh hroom
  obtain ⟨-, rfl⟩ := hmain.eq_of_returned hrs hrun
  exact ⟨hconsists, hbears⟩

/-- Packing what has been packed. -/
theorem packed_replay (hist : List Put) (limit : Nat) :
    packed (Index.replay putKey [] hist) limit = packed hist limit :=
  packed_congr (Index.replay_replay hist) limit

/-- Any number of runs. -/
theorem Bears.runsMain_trans (h : Bears fs hist) (hfresh : NoTemps fs) (hroom : (packed hist 60).last < 2 ^ 31)
    (hs : Relation.TransGen RunsMain fs fs') :
    Consists fs' (packed hist 60) ∧ Bears fs' (Index.replay putKey [] hist) := by
  induction hs with
  | single hs => exact h.runsMain hfresh hroom hs
  | tail _ hs ih =>
      have hafter := ih.2.runsMain ih.1.noTemps (by rwa [packed_replay]) hs
      rw [packed_replay, Index.replay_replay] at hafter
      exact hafter

/-- However often the program runs without errors, at least once: the datafiles hold the packed puts and
there are no other files, a further run exits with 0 and changes none of them, and every start answers with
the puts there were at first. -/
theorem main_settles (h : Bears fs hist) (hfresh : NoTemps fs) (hroom : (packed hist 60).last < 2 ^ 31)
    (hs : Relation.TransGen RunsMain fs w.fs) :
    Consists w.fs (packed hist 60) ∧
      (∀ listing, Lists listing w.fs →
        ∃ v, Computes (Model.main listing) w 0 v ∧ v.fs.read = w.fs.read) ∧
      ∀ opts, Lists opts.listing w.fs → ∃ v, Computes (ccaskInit opts) w (.ok ()) v ∧ GivesPuts v hist := by
  obtain ⟨hconsists, hbears⟩ := h.runsMain_trans hfresh hroom hs
  refine ⟨hconsists, fun listing hlists => ?_, fun opts hlists => ?_⟩
  · obtain ⟨v, hmain, hagain, -⟩ := hbears.main hlists hconsists.noTemps (by rwa [packed_replay])
    rw [packed_replay] at hagain
    exact ⟨v, hmain, hconsists.read_eq hagain⟩
  · obtain ⟨v, hinit, hgives⟩ := hbears.answers hlists
    refine ⟨v, hinit, fun key res => ?_⟩
    rw [hgives key res, lookup_replay]

/-- Whatever the system answers: a run that exits with -1 leaves the puts where they are. But for any number
of first puts of each datafile there is a run that exits with 0 and leaves these alone, for every later
start as well. -/
theorem main_may_lose (h : Stored w.fs l seg) (hlists : Lists listing w.fs)
    (hcurrent : ∀ id, (w.fs.read (fileName id .hint)).isSome → id ∈ l) (hfresh : NoTemps w.fs) :
    (∀ rs rest v, (Model.main listing).run rs w = .returned (-1) rest v → Bears v.fs (history l seg)) ∧
      ∀ n : Nat → Nat, (packed (history l fun i => (seg i).take (n i)) 60).last < 2 ^ 31 →
        ∃ rs rest v, (Model.main listing).run rs w = .returned 0 rest v ∧
          Consists v.fs (packed (history l fun i => (seg i).take (n i)) 60) ∧
          ∀ x opts, x.fs = v.fs → Lists opts.listing x.fs →
            ∃ y, Computes (ccaskInit opts) x (.ok ()) y ∧
              GivesPuts y (history l fun i => (seg i).take (n i)) := by
  have hopts : Lists (CcaskOptions.mk listing 10 60).listing w.fs := hlists
  refine ⟨fun rs rest v hrun => ?_, fun n hroom => ?_⟩
  · obtain ⟨r, mid, u, hinit, hrest⟩ := Prog.run_bind_eq_returned hrun
    have hbears := Bears.start ⟨l, seg, h, hcurrent, rfl⟩ hopts rs
    rw [hinit] at hbears
    cases r with
    | fail e =>
        cases hrest
        exact hbears
    | retry e =>
        cases hrest
        exact hbears
    | ok =>
        -- the program goes on, and exits with 0 if at all
        obtain ⟨_, _, _, -, hrest⟩ := Prog.run_bind_eq_returned hrest
        obtain ⟨_, _, _, -, hrest⟩ := Prog.run_bind_eq_returned hrest
        cases hrest
  · obtain ⟨u, ⟨used, hinit⟩, hboots⟩ := h.boots_partly hopts hcurrent n
    obtain ⟨x, y, hcompact, hdown, hconsists, hpacked⟩ := hboots.settles hfresh rfl hroom
    have hafter : Computes (do
        let _ ← ccaskCompactorDumpKeydir
        ccaskShutdown
        pure 0) u (0 : Int) y := hcompact.bind (hdown.bind (Computes.pure 0))
    obtain ⟨more, rest, -, hrun⟩ := hafter.exists_run
    refine ⟨used ++ more, rest, y, (Prog.run_bind_returned (hinit more)).trans hrun, hconsists,
      fun x opts hx hlists' => ?_⟩
    have hbears := hconsists.bears rfl hpacked
    rw [← hx] at hbears
    obtain ⟨z, hstart, hgives⟩ := hbears.answers hlists'
    refine ⟨z, hstart, fun key res => ?_⟩
    rw [hgives key res, lookup_replay]

end Runs

section Sample

omit [Zlib] in
theorem noTemps_writtenWorld : letI := zlib; NoTemps writtenWorld.fs := by
  let _ := zlib
  obtain ⟨seg, h, -⟩ := run_writtenWorld.reached
  exact h.noTemps

omit [Zlib] in
/-- Where nothing speaks against it there is a run. -/
theorem exists_runsMain : letI := zlib
    ∀ {fs : Fs} {hist : List Put}, Bears fs hist → NoTemps fs → (packed hist 60).last < 2 ^ 31 →
      ∃ fs', RunsMain fs fs' := by
  let _ := zlib
  intro fs hist h hfresh hroom
  have hbears : Bears fs hist := h
  obtain ⟨l, seg, hstored, -⟩ := h
  obtain ⟨listing, hlists⟩ := exists_lists hstored.disk.tidy
  obtain ⟨v, hmain, -⟩ := Bears.main (w := World.boot fs 5) hbears hlists hfresh hroom
  obtain ⟨rs, rest, hrs, hrun⟩ := hmain.exists_run
  exact ⟨v.fs, World.boot fs 5, listing, rs, rest, 0, v, rfl, hlists, hrs, hrun, rfl⟩

omit [Zlib] in
/-- Two runs over a directory with four puts in two datafiles and a hint file, of which one put is
overwritten. -/
theorem main_settles_one : letI := zlib
    ∃ fs₁ fs₂, RunsMain restartedWorld.fs fs₁ ∧ RunsMain fs₁ fs₂ ∧
      Consists fs₂ (packed [bytePut 0 97 98, bytePut 0 99 100, bytePut 0 97 101, bytePut 0 102 103] 60) := by
  let _ := zlib
  have hrun : Run restartedWorld restartedPuts := run_restartedWorld
  obtain ⟨seg, h, hhist⟩ := hrun.reached
  have hbears : Bears restartedWorld.fs restartedPuts := ⟨_, seg, h.stored, h.store.current, hhist⟩
  have hroom : (packed restartedPuts 60).last < 2 ^ 31 := by decide +kernel
  obtain ⟨fs₁, hfirst⟩ := exists_runsMain hbears h.noTemps hroom
  obtain ⟨hconsists, hafter⟩ := hbears.runsMain h.noTemps hroom hfirst
  obtain ⟨fs₂, hsecond⟩ := exists_runsMain hafter hconsists.noTemps (by rwa [packed_replay])
  exact ⟨fs₁, fs₂, hfirst, hsecond, (main_settles (w := World.boot fs₂ 0) hbears h.noTemps hroom
    (.tail (.single hfirst) hsecond)).1⟩

omit [Zlib] in
/-- A run over a directory with one put that exits with 0 and leaves an empty datafile. -/
theorem main_may_lose_one : letI := zlib
    ∃ listing rs rest v, (Model.main listing).run rs (World.boot writtenWorld.fs 5) = .returned 0 rest v ∧
      Consists v.fs (packed [] 60) := by
  let _ := zlib
  obtain ⟨l, seg, hstored, hcurrent, -⟩ := bears_writtenWorld
  obtain ⟨listing, hlists⟩ := exists_lists hstored.disk.tidy
  have hnone : history l (fun i => (seg i).take 0) = [] :=
    List.flatMap_eq_nil_iff.mpr fun _ _ => List.take_zero
  obtain ⟨rs, rest, v, hrun, hconsists, -⟩ := (@main_may_lose zlib (World.boot writtenWorld.fs 5) listing l seg
    hstored hlists hcurrent noTemps_writtenWorld).2 (fun _ => 0) (by rw [hnone]; decide)
  rw [hnone] at hconsists
  exact ⟨listing, rs, rest, v, hrun, hconsists⟩

end Sample

end Ccask.Audit
