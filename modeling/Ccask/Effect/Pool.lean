import Ccask.Effect.Program
import Mathlib.Logic.Function.Basic
import Mathlib.Logic.Relation

/-!
# Threads that share a state

A thread is given by what it runs next: a section, which is a program that runs to its end
before another thread gets on. A run interleaves the sections of any number of threads.
What a run may not do is said by a predicate on the state before a step and the thread
that makes it.
-/

namespace Ccask.Effect

/-- The shared state, and where each of the threads stands. -/
structure Pool (W ι T : Type) where
  shared : W
  thread : ι → T

variable {W ι T : Type}

/-- A thread in local state `t` runs the section `sect t` on replies that `A` allows there; without a
section it has ended. -/
inductive Section (A : T → List Reply → Prop) (sect : T → Option (Prog W T)) : W → T → W → T → Prop
  | mk {w w' : W} {t t' : T} {m : Prog W T} {rs rest : List Reply} :
      sect t = some m → A t rs → m.run rs w = .returned t' rest w' → Section A sect w t w' t'

namespace Section

variable {A : T → List Reply → Prop} {sect : T → Option (Prog W T)} {w w' : W} {t t' : T}
  {m : Prog W T}

/-- What a section ensures for all replies that are allowed, its step comes to. -/
theorem ensures (h : Section A sect w t w' t') (hsect : sect t = some m) {B : Reply → Prop}
    (hA : ∀ rs, A t rs → ∀ r ∈ rs, B r) {Q : T → W → Prop} {C : W → Prop}
    (hm : Ensures B m w Q C) : Q t' w' := by
  obtain ⟨hs, hrs, hrun⟩ := h
  rw [hsect] at hs
  obtain rfl := Option.some.inj hs
  exact hm.returned (hA _ hrs) hrun

/-- What a section ensures whatever the replies are. -/
theorem always (h : Section A sect w t w' t') (hsect : sect t = some m) {Q : T → W → Prop}
    {C : W → Prop} (hm : Ensures (fun _ => True) m w Q C) : Q t' w' :=
  h.ensures hsect (fun _ _ _ _ => trivial) hm

/-- Without errors a section computes one step. -/
theorem computes (h : Section A sect w t w' t') (hsect : sect t = some m)
    (hA : ∀ rs, A t rs → AllClean rs) {a : T} {v : W} (hm : Computes m w a v) :
    t' = a ∧ w' = v :=
  h.ensures hsect hA hm.sound

theorem of_computes (hsect : sect t = some m) (hA : ∀ rs, AllClean rs → A t rs)
    (hm : Computes m w t' w') : Section A sect w t w' t' := by
  obtain ⟨rs, rest, hrs, hrun⟩ := hm.exists_run
  exact .mk hsect (hA rs hrs) hrun

/-- A thread that has ended makes no step. -/
theorem ne_none (h : Section A sect w t w' t') : sect t ≠ none := by
  obtain ⟨hsect, -, -⟩ := h
  rw [hsect]
  exact Option.some_ne_none _

end Section

section Sum

variable {T₁ T₂ : Type} (s₁ : T₁ → Option (Prog W T₁)) (s₂ : T₂ → Option (Prog W T₂))

/-- Threads of two kinds. -/
def sumSect : T₁ ⊕ T₂ → Option (Prog W (T₁ ⊕ T₂))
  | .inl t => (s₁ t).map fun m => m >>= fun t' => pure (.inl t')
  | .inr t => (s₂ t).map fun m => m >>= fun t' => pure (.inr t')

variable {s₁ s₂} {A : T₁ ⊕ T₂ → List Reply → Prop} {w w' : W}

theorem Section.inl_iff {t : T₁} {t' : T₁ ⊕ T₂} : Section A (sumSect s₁ s₂) w (.inl t) w' t' ↔
    ∃ u, t' = .inl u ∧ Section (fun t => A (.inl t)) s₁ w t w' u := by
  constructor
  · rintro ⟨hsect, hrs, hrun⟩
    obtain ⟨m, hm, rfl⟩ := Option.map_eq_some_iff.mp hsect
    obtain ⟨u, mid, v, hr, hrest⟩ := Prog.run_bind_eq_returned hrun
    cases hrest
    exact ⟨u, rfl, .mk hm hrs hr⟩
  · rintro ⟨u, rfl, hm, hrs, hrun⟩
    exact .mk (by rw [sumSect, hm]; rfl) hrs (Prog.run_bind_returned hrun)

theorem Section.inr_iff {t : T₂} {t' : T₁ ⊕ T₂} : Section A (sumSect s₁ s₂) w (.inr t) w' t' ↔
    ∃ u, t' = .inr u ∧ Section (fun t => A (.inr t)) s₂ w t w' u := by
  constructor
  · rintro ⟨hsect, hrs, hrun⟩
    obtain ⟨m, hm, rfl⟩ := Option.map_eq_some_iff.mp hsect
    obtain ⟨u, mid, v, hr, hrest⟩ := Prog.run_bind_eq_returned hrun
    cases hrest
    exact ⟨u, rfl, .mk hm hrs hr⟩
  · rintro ⟨u, rfl, hm, hrs, hrun⟩
    exact .mk (by rw [sumSect, hm]; rfl) hrs (Prog.run_bind_returned hrun)

end Sum

namespace Pool

variable [DecidableEq ι] {step : W → T → W → T → Prop} {ok : Pool W ι T → ι → Prop}

/-- One thread gets on. -/
def set (c : Pool W ι T) (i : ι) (w : W) (t : T) : Pool W ι T := ⟨w, Function.update c.thread i t⟩

/-- A step of one thread that the predicate allows. -/
inductive Step (step : W → T → W → T → Prop) (ok : Pool W ι T → ι → Prop) :
    Pool W ι T → Pool W ι T → Prop
  | mk {c : Pool W ι T} {w : W} {t : T} (i : ι) :
      ok c i → step c.shared (c.thread i) w t → Step step ok c (c.set i w t)

/-- Any number of steps. -/
abbrev Runs (step : W → T → W → T → Prop) (ok : Pool W ι T → ι → Prop) :
    Pool W ι T → Pool W ι T → Prop :=
  Relation.ReflTransGen (Step step ok)

@[simp] theorem shared_set (c : Pool W ι T) (i : ι) (w : W) (t : T) : (c.set i w t).shared = w := rfl

@[simp] theorem thread_set_self (c : Pool W ι T) (i : ι) (w : W) (t : T) :
    (c.set i w t).thread i = t := Function.update_self ..

theorem thread_set_of_ne (c : Pool W ι T) {i j : ι} (w : W) (t : T) (h : j ≠ i) :
    (c.set i w t).thread j = c.thread j := Function.update_of_ne h ..

theorem set_set (c : Pool W ι T) (i : ι) (w v : W) (t u : T) : (c.set i w t).set i v u = c.set i v u := by
  rw [set, set, Function.update_idem]
  rfl

/-- A run goes on with a section of one thread. -/
theorem Runs.next {A : T → List Reply → Prop} {sect : T → Option (Prog W T)} {c c' : Pool W ι T}
    {m : Prog W T} {w : W} {t : T} (h : Runs (Section A sect) ok c c') (i : ι) (rs : List Reply)
    (hok : ok c' i) (hsect : sect (c'.thread i) = some m) (hrs : A (c'.thread i) rs)
    (hrun : ∃ rest, m.run rs c'.shared = .returned t rest w) :
    Runs (Section A sect) ok c (c'.set i w t) := by
  obtain ⟨rest, hrun⟩ := hrun
  exact h.tail (.mk i hok (.mk hsect hrs hrun))

/-- What every step keeps, every run keeps. -/
theorem Runs.inv {P : Pool W ι T → Prop} {c c' : Pool W ι T}
    (hstep : ∀ c i w t, P c → ok c i → step c.shared (c.thread i) w t → P (c.set i w t))
    (h : Runs step ok c c') (hc : P c) : P c' := by
  induction h with
  | refl => exact hc
  | tail _ hs ih =>
      obtain ⟨i, hok, hs⟩ := hs
      exact hstep _ i _ _ ih hok hs

/-- A run keeps an invariant of the shared state and an assertion for every thread, when a step keeps
the invariant, establishes the assertion of its own thread and leaves those of the others. -/
theorem Runs.assertions {I : W → Prop} {A : W → T → Prop} {c c' : Pool W ι T}
    (hstep : ∀ (c : Pool W ι T) i w t, I c.shared → (∀ j, A c.shared (c.thread j)) → ok c i →
      step c.shared (c.thread i) w t → I w ∧ A w t ∧ ∀ j, j ≠ i → A w (c.thread j))
    (h : Runs step ok c c') (hI : I c.shared) (hA : ∀ i, A c.shared (c.thread i)) :
    I c'.shared ∧ ∀ i, A c'.shared (c'.thread i) := by
  apply Runs.inv (P := fun c => I c.shared ∧ ∀ i, A c.shared (c.thread i)) _ h ⟨hI, hA⟩
  intro c i w t hc hok hs
  obtain ⟨hI', hown, hother⟩ := hstep c i w t hc.1 hc.2 hok hs
  refine ⟨hI', fun j => ?_⟩
  by_cases hj : j = i
  · rw [hj, thread_set_self]
    exact hown
  · rw [thread_set_of_ne c w t hj]
    exact hother j hj

end Pool

section Solo

variable {W T A B : Type} {sect : T → Option (Prog W T)} {ends : A → T} {t : T} {rs : List Reply} {w : W}

/-- What a thread comes to that gets on alone; `ends a` is where it has ended with the result `a`. -/
inductive Solo (sect : T → Option (Prog W T)) (ends : A → T) : T → List Reply → W → Outcome W A → Prop
  | ended (a : A) (rs : List Reply) (w : W) : Solo sect ends (ends a) rs w (.returned a rs w)
  | returned {t t' : T} {m : Prog W T} {rs rest : List Reply} {w v : W} {o : Outcome W A} :
      sect t = some m → m.run rs w = .returned t' rest v → Solo sect ends t' rest v o → Solo sect ends t rs w o
  | pending {t : T} {m : Prog W T} {rs : List Reply} {w v : W} :
      sect t = some m → m.run rs w = .pending v → Solo sect ends t rs w (.pending v)

/-- A program that does what the section does, and then what the thread does from there on. -/
theorem Solo.bind {m : Prog W B} {g : B → Prog W T} {k : B → Prog W A} (hsect : sect t = some (m >>= g))
    (hk : ∀ b rest v, m.run rs w = .returned b rest v →
      ∃ t', g b = pure t' ∧ Solo sect ends t' rest v ((k b).run rest v)) :
    Solo sect ends t rs w ((m >>= k).run rs w) := by
  rw [Prog.run_bind]
  cases hm : m.run rs w with
  | pending v =>
      refine .pending hsect ?_
      rw [Prog.run_bind, hm]
  | returned b rest v =>
      obtain ⟨t', hg, halone⟩ := hk b rest v hm
      refine .returned hsect ?_ halone
      rw [Prog.run_bind, hm]
      simp only [hg]
      rfl

/-- A thread that makes the rounds of a loop in sections of their own. -/
theorem Solo.loop {S : Type} {body : S → Prog W (S ⊕ B)} (hb : ∀ s, Prog.Consumes (body s)) {f : S → T}
    {e : B → T} {g : S ⊕ B → Prog W T} {k : B → Prog W A}
    (hsect : ∀ s, sect (f s) = some (body s >>= g)) (hstays : ∀ s, g (.inl s) = pure (f s))
    (hleaves : ∀ b, g (.inr b) = pure (e b))
    (hk : ∀ b rs w, Solo sect ends (e b) rs w ((k b).run rs w)) (s : S) (rs : List Reply) (w : W) :
    Solo sect ends (f s) rs w ((Prog.loop body s >>= k).run rs w) := by
  induction hn : rs.length using Nat.strongRecOn generalizing s rs w with
  | ind n ih =>
      subst hn
      rw [Prog.loop_eq hb, bind_assoc]
      refine Solo.bind (hsect s) fun r rest v hr => ?_
      cases r with
      | inl s' => exact ⟨_, hstays s', ih rest.length (hb s rs w s' rest v hr) s' rest v rfl⟩
      | inr b =>
          refine ⟨_, hleaves b, ?_⟩
          rw [Sum.elim_inr, pure_bind]
          exact hk b rest v

end Solo

end Ccask.Effect
