import Ccask.Audit.AppendOnly
import Ccask.Audit.Puts

/-!
# Puts, rotations and restarts refine a map

Every step of a run keeps what ties the files and the key directory to the puts made so
far, so that `ccask_get` answers the last put of a key after any run.
-/

namespace Ccask.Audit

open Ccask.Effect Ccask.Model

/-- Options for an empty directory. -/
def emptyOptions : CcaskOptions := ⟨[['.'], ['.', '.']], 4, 100⟩

theorem lists_emptyOptions : Lists emptyOptions.listing Fs.empty :=
  ⟨by decide, fun name => by simp [emptyOptions, Fs.read, Fs.empty]⟩

/-- No temporary file lies in the directory. -/
def NoTemps (fs : Fs) : Prop := ∀ i, fs.dir (fileName i .tempData) = none

theorem NoTemps.extends {w v : World} (h : NoTemps w.fs) (hext : Extends w v) : NoTemps v.fs :=
  fun i => (hext.temps i).trans (h i)

theorem Restaged.noTemps {fs fs' : Fs} (h : Restaged fs fs') : NoTemps fs' := by
  intro i
  rw [← Fs.read_eq_none, ← Option.not_isSome_iff_eq_none]
  intro hsome
  obtain ⟨id, heq | heq⟩ := h.names _ hsome
  · simp at heq
  · simp at heq

variable [Zlib]

section Run

/-- What one caller and the threads behind it do without errors, and the puts made by it: puts,
gets, restarts, and in between the hint generators, the descriptor invalidators and the clock.
The process after a restart may be a new one. -/
inductive Step : World → List Put → World → Prop
  | put {w w' : World} {key value : Buf} {rs rest : List Reply} {res : Status} :
      key.val ≠ [] → value.val ≠ [] → 20 + key.val.length + value.val.length < 2 ^ 32 →
      16 + key.val.length + value.val.length ≤ w.maxActiveFileSize.toNat → AllClean rs →
      (ccaskPutBlocking (some key) (some value)).run rs w = .returned res rest w' →
      w'.files.length < 2 ^ 31 → Step w [⟨UInt32.ofNat w.clock, some key, some value⟩] w'
  | get {w w' : World} {key : Buf} {rs rest : List Reply} {res : GetResult} :
      AllClean rs → (ccaskGet key).run rs w = .returned res rest w' → Step w [] w'
  | restart {w w₁ w₂ w₃ : World} {opts : CcaskOptions} {rs rest rs' rest' : List Reply}
      {res : Status} :
      AllClean rs → ccaskShutdown.run rs w = .returned () rest w₁ → Restaged w₁.fs w₂.fs →
      Lists opts.listing w₂.fs → AllClean rs' →
      (ccaskInit opts).run rs' w₂ = .returned res rest' w₃ → Step w [] w₃
  | generate {w w' : World} {id : Nat} {rs rest : List Reply} :
      id ∈ w.threads → AllClean rs → (runGenerator id).run rs w = .returned () rest w' → Step w [] w'
  | invalidate {w : World} {id : Nat} : id ∈ ids w → Step w [] (datafileFdInvalidate id w)
  | tick {w : World} (now : Nat) : Step w [] { w with clock := now }

/-- Any number of steps, with the puts made by them, oldest first. -/
inductive Steps : World → List Put → World → Prop
  | refl (w : World) : Steps w [] w
  | tail {w v u : World} {hist ps : List Put} : Steps w hist v → Step v ps u → Steps w (hist ++ ps) u

/-- Runs that start with `ccask_init` on an empty directory. -/
inductive Run : World → List Put → Prop
  | start {w₀ w₁ w : World} {opts : CcaskOptions} {hist : List Put} {rs rest : List Reply}
      {res : Status} :
      (∀ name, w₀.fs.read name = none) → Lists opts.listing w₀.fs → AllClean rs →
      (ccaskInit opts).run rs w₀ = .returned res rest w₁ → Steps w₁ hist w → Run w hist

/-- What every run keeps. -/
structure Reached (w : World) (seg : Nat → List Put) : Prop extends Appends w seg where
  numbered : Numbered w
  noTemps : NoTemps w.fs

theorem Reached.of_fs {w w' : World} {seg : Nat → List Put} (h : Reached w seg) (h' : Appends w' seg)
    (hids : ids w' = ids w) (hfs : w'.fs = w.fs) : Reached w' seg :=
  ⟨h', h.numbered.transfer hids, by rw [hfs]; exact h.noTemps⟩

/-- A start on an empty directory. -/
theorem Reached.first (w : World) (hempty : ∀ name, w.fs.read name = none) (opts : CcaskOptions)
    (hlists : Lists opts.listing w.fs) : ∃ w', Computes (ccaskInit opts) w (.ok ()) w' ∧
      Reached w' (fun _ => []) ∧ ids w' = [0] := by
  obtain ⟨w', hinit, happends, hids, hread, -⟩ := Appends.first w hempty opts hlists
  have hlen := congrArg List.length hids
  rw [ids, List.length_map] at hlen
  refine ⟨w', hinit, ⟨happends, by rw [Numbered, hids, hlen]; rfl, fun i => ?_⟩, hids⟩
  rw [← Fs.read_eq_none, hread, Function.update_of_ne (by simp), hempty]

/-- One step keeps the invariant and adds its puts. -/
theorem Reached.step {w w' : World} {seg : Nat → List Put} {ps : List Put} (h : Reached w seg)
    (hs : Step w ps w') :
    ∃ seg', Reached w' seg' ∧ history (ids w') seg' = history (ids w) seg ++ ps := by
  cases hs with
  | put hkey hvalue hbound hsize hrs hrun hroom =>
      rename_i key value rs rest res
      have hgood : Good ⟨UInt32.ofNat w.clock, some key, some value⟩ := ⟨hkey, hvalue, hbound⟩
      obtain ⟨v, hput, -, hafter⟩ := h.put hgood rfl (by rw [Put.length_record]; exact hsize)
      obtain ⟨-, rfl⟩ := hput.eq_of_returned hrs hrun
      obtain ⟨seg', happends, hnum, hhist⟩ := hafter h.numbered hroom
      exact ⟨seg', ⟨happends, hnum, h.noTemps.extends ((ccaskPutBlocking_extends _ _).of_run hrun)⟩,
        hhist⟩
  | get hrs hrun =>
      rename_i key rs rest res
      obtain ⟨v, hget, ht, hm⟩ := h.serves.get key
      obtain ⟨-, rfl⟩ := hget.eq_of_returned hrs hrun
      have hids := ht.ids_eq
      have happends := h.transfer (h.touched ht hm) hids fun _ => by rw [ht.fs_eq]
      exact ⟨seg, h.of_fs happends hids ht.fs_eq, by rw [hids, List.append_nil]⟩
  | restart hrs hdown hr hlists hrs' hinit =>
      obtain ⟨v₁, hdown', hup⟩ := h.restart
      obtain ⟨-, rfl⟩ := hdown'.eq_of_returned hrs hdown
      obtain ⟨v₃, hinit', hholds, hids, hfs, hdata⟩ := hup _ _ hr hlists
      obtain ⟨-, rfl⟩ := hinit'.eq_of_returned hrs' hinit
      exact ⟨seg, ⟨h.transfer hholds hids hdata, h.numbered.transfer hids, by rw [hfs]; exact hr.noTemps⟩,
        by rw [hids, List.append_nil]⟩
  | generate hid hrs hrun =>
      rename_i id rs rest
      obtain ⟨-, rfl⟩ := (h.store.runGenerator hid).eq_of_returned hrs hrun
      have hids := ids_generated w id (recordsOf seg id)
      exact ⟨seg, ⟨h.transfer (h.generated hid) hids (h.read_generated hid), h.numbered.transfer hids,
        h.noTemps.extends ((runGenerator_extends id).of_run hrun)⟩, by rw [hids, List.append_nil]⟩
  | invalidate hid =>
      rename_i id
      have ht := datafileFdInvalidate_touched id w
      have happends := h.transfer (h.invalidate hid) ht.ids_eq fun _ => by rw [ht.fs_eq]
      exact ⟨seg, h.of_fs happends ht.ids_eq ht.fs_eq, by rw [ht.ids_eq, List.append_nil]⟩
  | tick now =>
      exact ⟨seg, h.of_fs (h.transfer (h.tick now) rfl fun _ => rfl) rfl rfl, (List.append_nil _).symm⟩

theorem Reached.steps {w w' : World} {seg : Nat → List Put} {hist : List Put} (h : Reached w seg)
    (hs : Steps w hist w') :
    ∃ seg', Reached w' seg' ∧ history (ids w') seg' = history (ids w) seg ++ hist := by
  induction hs with
  | refl => exact ⟨seg, h, (List.append_nil _).symm⟩
  | tail _ hstep ih =>
      obtain ⟨seg₁, hreached₁, hhist₁⟩ := ih
      obtain ⟨seg₂, hreached₂, hhist₂⟩ := hreached₁.step hstep
      exact ⟨seg₂, hreached₂, by rw [hhist₂, hhist₁, List.append_assoc]⟩

/-- A process may be restarted on the directory as it is. -/
theorem Reached.restaged {w : World} {seg : Nat → List Put} (h : Reached w seg) : Restaged w.fs w.fs := by
  refine ⟨fun _ => rfl, fun id c hc => ?_, fun name hname => ?_⟩
  · have hid := h.store.current id (by rw [hc]; rfl)
    obtain ⟨htail, rfl⟩ := h.store.disk.hints id hid c hc
    obtain ⟨c, hread, hscan⟩ := h.store.disk.scans id hid
    obtain ⟨f, rest, hfiles, -⟩ := h.store.mounted.active
    rw [ids_eq hfiles] at htail
    refine ⟨⟨f.fileId, ?_, ?_⟩, c, _, hread, hscan, rfl⟩
    · obtain ⟨g, hg, rfl⟩ := List.mem_map.mp htail
      exact h.store.mounted.head_gt hfiles g hg
    · refine (h.store.disk.known f.fileId).mp ?_
      rw [ids_eq hfiles]
      exact List.mem_cons_self
  · obtain ⟨id, ext, -, hext, rfl⟩ := h.store.disk.tidy name hname
    cases ext with
    | unknown => exact absurd rfl hext
    | data => exact ⟨id, .inl rfl⟩
    | hint => exact ⟨id, .inr rfl⟩
    | tempData =>
        rw [Fs.isSome_read, h.noTemps] at hname
        cases hname

theorem Run.tail {w w' : World} {hist ps : List Put} (h : Run w hist) (hs : Step w ps w') :
    Run w' (hist ++ ps) := by
  obtain ⟨hempty, hlists, hrs, hrun, hsteps⟩ := h
  exact .start hempty hlists hrs hrun (.tail hsteps hs)

/-- After every run the files and the key directory hold the puts made. -/
theorem Run.reached {w : World} {hist : List Put} (h : Run w hist) :
    ∃ seg, Reached w seg ∧ history (ids w) seg = hist := by
  obtain ⟨hempty, hlists, hrs, hrun, hsteps⟩ := h
  obtain ⟨v, hinit, hreached, hids⟩ := Reached.first _ hempty _ hlists
  obtain ⟨-, rfl⟩ := hinit.eq_of_returned hrs hrun
  obtain ⟨seg, hreached', hhist⟩ := hreached.steps hsteps
  refine ⟨seg, hreached', ?_⟩
  rw [hhist, hids]
  rfl

/-- The state answers as a map with these puts, and takes further puts and restarts. -/
structure Refines (w : World) (hist : List Put) : Prop where
  get : ∀ key : Buf, ∃ w', Computes (ccaskGet key) w (lookup hist key.val) w'
  keys : ∃ keys, Computes ccaskListKeys w (.ok keys) w ∧ keys.Nodup ∧
    ∀ k, k ∈ keys ↔ k ∈ hist.map putKey
  put : ∀ key value : Buf, key.val ≠ [] → value.val ≠ [] →
    20 + key.val.length + value.val.length < 2 ^ 32 →
    16 + key.val.length + value.val.length ≤ w.maxActiveFileSize.toNat →
    ∃ w', Computes (ccaskPutBlocking (some key) (some value)) w (.ok ()) w'
  restart : ∃ w₁, Computes ccaskShutdown w () w₁ ∧ ∀ w₂ opts, Restaged w₁.fs w₂.fs →
    Lists opts.listing w₂.fs → ∃ w₃, Computes (ccaskInit opts) w₂ (.ok ()) w₃

/-- After every run `ccask_get` gives the last put of each key, and the key iterator gives every
key once. -/
theorem run_refines {w : World} {hist : List Put} (h : Run w hist) : Refines w hist := by
  obtain ⟨seg, hholds, hhist⟩ := h.reached
  refine ⟨?_, ?_, ?_, ?_⟩
  · intro key
    obtain ⟨w', hget, -, -⟩ := hholds.serves.get key
    rw [hhist] at hget
    exact ⟨w', hget⟩
  · obtain ⟨hnodup, hmem⟩ := hholds.serves.keys
    rw [hhist] at hmem
    exact ⟨_, ccaskListKeys_computes w, hnodup, hmem⟩
  · intro key value hkey hvalue hbound hsize
    have hgood : Good ⟨UInt32.ofNat w.clock, some key, some value⟩ := ⟨hkey, hvalue, hbound⟩
    obtain ⟨w', hput, -, -⟩ := hholds.put hgood rfl (by rw [Put.length_record]; exact hsize)
    exact ⟨w', hput⟩
  · obtain ⟨w₁, hdown, hup⟩ := hholds.restart
    refine ⟨w₁, hdown, ?_⟩
    intro w₂ opts hr hlists
    obtain ⟨w₃, hinit, -⟩ := hup w₂ opts hr hlists
    exact ⟨w₃, hinit⟩

end Run

section Sample

/-- The process after a start on an empty directory. -/
def startedWorld : World :=
  { World.boot Fs.empty 0 with
    fs := (Fs.empty.create (fileName 0 .data)).1
    files := [⟨0, some 0, 0, false, true, false⟩]
    maxActiveFileSize := 100
    ringbuf := some (.init 4) }

omit [Zlib] in
theorem allClean_done {rs : List Reply} (h : ∀ r ∈ rs, ∃ n, r = .done n) : AllClean rs := by
  intro r hr
  obtain ⟨n, rfl⟩ := h r hr
  trivial

omit [Zlib] in
theorem init_startedWorld : (ccaskInit emptyOptions).run (List.replicate 9 (.done 0))
    (World.boot Fs.empty 0) = .returned (.ok ()) [] startedWorld := rfl

theorem run_startedWorld : Run startedWorld [] :=
  .start (fun _ => rfl) lists_emptyOptions
    (allClean_done fun _ hr => ⟨0, List.eq_of_mem_replicate hr⟩) init_startedWorld (.refl _)

theorem appends_startedWorld : Appends startedWorld (fun _ => []) := by
  obtain ⟨w, hinit, happends, -⟩ :=
    Appends.first (World.boot Fs.empty 0) (fun _ => rfl) emptyOptions lists_emptyOptions
  obtain ⟨-, rfl⟩ := hinit.eq_of_returned
    (allClean_done fun _ hr => ⟨0, List.eq_of_mem_replicate hr⟩) init_startedWorld
  exact happends

/-- The store with one put in it. -/
def writtenWorld : World := wrote startedWorld 0 0 (bytePut 0 97 98).record

/-- The replies of a put of one byte under a new key. -/
def putReplies : List Reply := List.replicate 4 (.done 0) ++ [.done 17, .done 0, .done 0]

theorem put_writtenWorld : (ccaskPutBlocking (bytePut 0 97 98).key (bytePut 0 97 98).value).run putReplies
    startedWorld = .returned (.ok ()) [] writtenWorld := rfl

theorem step_writtenWorld : Step startedWorld [bytePut 0 97 98] writtenWorld := by
  refine .put (by decide) (by decide) (by decide) (by decide) (allClean_done ?_) put_writtenWorld
    (show 1 < 2 ^ 31 by decide)
  simp [putReplies]

theorem run_writtenWorld : Run writtenWorld [bytePut 0 97 98] := run_startedWorld.tail step_writtenWorld

/-- Replies that let every call through, and every transfer of up to 100 bytes whole. -/
def wholeReplies : List Reply := List.replicate 40 (.done 99)

omit [Zlib] in
theorem allClean_wholeReplies : AllClean wholeReplies :=
  allClean_done fun _ hr => ⟨99, List.eq_of_mem_replicate hr⟩

/-- The state such replies lead to. -/
def after {α : Type} (m : Sys α) (w : World) : World := (m.run wholeReplies w).state

def getsThrough {α : Type} (m : Sys α) (w : World) : Bool := (m.run wholeReplies w).value.isSome

omit [Zlib] in
theorem run_after {α : Type} {m : Sys α} {w : World} (h : getsThrough m w = true) :
    ∃ a rest, m.run wholeReplies w = .returned a rest (after m w) := by
  obtain ⟨a, ha⟩ := Option.isSome_iff_exists.mp h
  exact ⟨a, Outcome.of_value ha⟩

/-- The state after a put. -/
def afterPut (p : Put) (w : World) : World :=
  letI := zlib
  after (ccaskPutBlocking p.key p.value) w

/-- The replies let a put through, and its record has room. -/
def PutsThrough (p : Put) (w : World) : Prop :=
  letI := zlib
  p.timestamp = UInt32.ofNat w.clock ∧
    16 + p.key.bytes.length + p.value.bytes.length ≤ w.maxActiveFileSize.toNat ∧
    getsThrough (ccaskPutBlocking p.key p.value) w = true ∧
    (afterPut p w).files.length < 2 ^ 31 ∧ ∀ i ∈ ids (afterPut p w), i < 2 ^ 31

instance (p : Put) (w : World) : Decidable (PutsThrough p w) :=
  inferInstanceAs (Decidable (_ ∧ _ ∧ _ ∧ _ ∧ _))

omit [Zlib] in
theorem steps_afterPut : letI := zlib
    ∀ {w₀ w : World} {hist : List Put}, Steps w₀ hist w → ∀ {p : Put}, Good p → PutsThrough p w →
      Steps w₀ (hist ++ [p]) (afterPut p w) := by
  let _ := zlib
  intro w₀ w hist h p hp hrun
  obtain ⟨hts, hsize, hthrough, hroom, -⟩ := hrun
  obtain ⟨res, rest, hput⟩ := run_after hthrough
  obtain ⟨timestamp, key, value⟩ := p
  obtain ⟨key, rfl⟩ := Option.isSome_iff_exists.mp (Ptr.isSome_of_ne hp.key_ne)
  obtain ⟨value, rfl⟩ := Option.isSome_iff_exists.mp (Ptr.isSome_of_ne hp.value_ne)
  change timestamp = _ at hts
  subst hts
  exact h.tail (.put hp.key_ne hp.value_ne hp.bound hsize allClean_wholeReplies hput hroom)

/-- Options that let two of these records into a datafile. -/
def tightOptions : CcaskOptions := ⟨[['.'], ['.', '.']], 4, 40⟩

/-- The options for a start again on the two datafiles. -/
def againOptions : CcaskOptions :=
  ⟨[['.'], ['.', '.'], fileName 0 .data, fileName 0 .hint, fileName 1 .data], 4, 40⟩

def tightWorld : World :=
  letI := zlib
  after (ccaskInit tightOptions) (World.boot Fs.empty 0)

/-- The store after three puts, the last of which has rotated. -/
def filledWorld : World := afterPut (bytePut 0 97 101)
  (afterPut (bytePut 0 99 100) (afterPut (bytePut 0 97 98) tightWorld))

/-- The same with the hint file of the first datafile. -/
def rotatedWorld : World := after (runGenerator 0) filledWorld

/-- After a restart and one more put. -/
def restartedWorld : World :=
  letI := zlib
  afterPut (bytePut 0 102 103)
    (after (ccaskInit againOptions) (World.boot (after ccaskShutdown rotatedWorld).fs 0))

/-- The puts of these. -/
def filledPuts : List Put := [bytePut 0 97 98, bytePut 0 99 100, bytePut 0 97 101]

def restartedPuts : List Put := filledPuts ++ [bytePut 0 102 103]

omit [Zlib] in
theorem run_filledWorld : letI := zlib; Run filledWorld filledPuts := by
  let _ := zlib
  obtain ⟨res, rest, hinit⟩ := run_after (m := ccaskInit tightOptions) (w := World.boot Fs.empty 0)
    (by decide +kernel)
  have hone := steps_afterPut (.refl tightWorld) (good_bytePut 0 97 98) (by decide +kernel)
  have htwo := steps_afterPut hone (good_bytePut 0 99 100) (by decide +kernel)
  have hthree := steps_afterPut htwo (good_bytePut 0 97 101) (by decide +kernel)
  exact .start (fun _ => rfl) lists_emptyOptions allClean_wholeReplies hinit hthree

omit [Zlib] in
theorem run_rotatedWorld : letI := zlib; Run rotatedWorld filledPuts := by
  let _ := zlib
  obtain ⟨_, rest, hgenerate⟩ := run_after (m := runGenerator 0) (w := filledWorld) (by decide +kernel)
  have hrun : Run filledWorld filledPuts := run_filledWorld
  exact hrun.tail (.generate (by decide +kernel) allClean_wholeReplies hgenerate)

omit [Zlib] in
/-- The two datafiles and the hint file are all there is. -/
theorem lists_rotatedWorld : letI := zlib; Lists againOptions.listing rotatedWorld.fs := by
  let _ := zlib
  have hrun : Run rotatedWorld filledPuts := run_rotatedWorld
  obtain ⟨seg, h, -⟩ := hrun.reached
  have hids : ids rotatedWorld = [1, 0] := by decide +kernel
  have hthere : ∀ name ∈ againOptions.listing.drop 2, (rotatedWorld.fs.read name).isSome := by
    decide +kernel
  refine ⟨by decide, fun name => ⟨fun hmem => ?_, ?_⟩⟩
  · simp only [againOptions, List.mem_cons] at hmem
    obtain rfl | rfl | hmem := hmem
    · exact .inl rfl
    · exact .inr (.inl rfl)
    · exact .inr (.inr (hthere name (by simpa [againOptions] using hmem)))
  · rintro (rfl | rfl | hsome)
    · decide
    · decide
    · obtain ⟨id, ext, -, hext, rfl⟩ := h.store.disk.tidy name hsome
      cases ext with
      | unknown => exact absurd rfl hext
      | tempData =>
          rw [Fs.isSome_read, h.noTemps] at hsome
          cases hsome
      | data =>
          have hid := (h.store.disk.known id).mpr hsome
          rw [hids, List.mem_cons, List.mem_singleton] at hid
          obtain rfl | rfl := hid
          · decide
          · decide
      | hint =>
          have hid := h.store.current id hsome
          obtain ⟨c, hc⟩ := Option.isSome_iff_exists.mp hsome
          have htail := (h.store.disk.hints id hid c hc).1
          rw [hids, List.tail_cons, List.mem_singleton] at htail
          subst htail
          decide

omit [Zlib] in
theorem run_restartedWorld : letI := zlib; Run restartedWorld restartedPuts := by
  let _ := zlib
  have hrun : Run rotatedWorld filledPuts := run_rotatedWorld
  obtain ⟨seg, h, -⟩ := hrun.reached
  obtain ⟨_, rest, hdown⟩ := run_after (m := ccaskShutdown) (w := rotatedWorld) (by decide +kernel)
  have hfs : (after ccaskShutdown rotatedWorld).fs = rotatedWorld.fs := by
    obtain ⟨r, hring, hidle⟩ := h.store.idle
    obtain ⟨-, heq⟩ := (ccaskShutdown_idle (by decide +kernel) hring hidle h.store.unlocked).eq_of_returned
      allClean_wholeReplies hdown
    rw [heq]
  obtain ⟨res, rest', hinit⟩ := run_after (m := ccaskInit againOptions)
    (w := World.boot (after ccaskShutdown rotatedWorld).fs 0) (by decide +kernel)
  have hrestart : Step rotatedWorld [] (after (ccaskInit againOptions)
      (World.boot (after ccaskShutdown rotatedWorld).fs 0)) := by
    refine .restart allClean_wholeReplies hdown ?_ ?_ allClean_wholeReplies hinit
    · show Restaged _ (after ccaskShutdown rotatedWorld).fs
      rw [hfs]
      exact h.restaged
    · show Lists _ (after ccaskShutdown rotatedWorld).fs
      rw [hfs]
      exact lists_rotatedWorld
  obtain ⟨hempty, hlists, hrs, hstart, hsteps⟩ := hrun.tail hrestart
  exact .start hempty hlists hrs hstart 
    (steps_afterPut hsteps (good_bytePut 0 102 103) (by decide +kernel))

/-- A run of a start on an empty directory. -/
theorem exists_run_nil : ∃ w, Run w [] ∧ Appends w (fun _ => []) ∧ ids w = [0] ∧ w.threads = [] ∧
    w.maxActiveFileSize = 100 ∧ w.clock = 0 ∧ w.ringbuf = some (.init 4) :=
  ⟨startedWorld, run_startedWorld, appends_startedWorld, rfl, rfl, rfl, rfl, rfl⟩

/-- A run of a start on an empty directory and one put. -/
theorem exists_run_one : ∃ w, Run w [bytePut 0 97 98] ∧ w.threads = [] ∧
    w.maxActiveFileSize = 100 ∧ ids w = [0] :=
  ⟨writtenWorld, run_writtenWorld, rfl, rfl, rfl⟩

end Sample

omit [Zlib] in
/-- A run with a rotation, a hint file and a restart. -/
theorem run_refines_one : letI := zlib
    ids restartedWorld = [1, 0] ∧ (restartedWorld.fs.read (fileName 0 .hint)).isSome ∧
      Refines restartedWorld [bytePut 0 97 98, bytePut 0 99 100, bytePut 0 97 101, bytePut 0 102 103] := by
  let _ := zlib
  exact ⟨by decide +kernel, by decide +kernel, @run_refines zlib _ _ run_restartedWorld⟩

end Ccask.Audit
