import Mathlib.Data.List.Basic
import Mathlib.Order.Basic

/-!
# Programs that live on the replies of an operating system

A program is run against a finite list of replies, one for each system call it
makes. When the list is spent before the program ends, the run is `pending` and
carries the state reached so far. A pending run therefore stands both for a
program that has not returned yet and for one that dies at that call: what holds
of every pending state holds after every crash.

`Ensures` is partial correctness with a crash condition, `Computes` is total
correctness for replies without errors, `Diverges` says that no such replies
make the program return.
-/

namespace Ccask.Effect

/-- What one system call answers. A transfer that is `done n` moves at most `n + 1`
bytes; `intr` interrupts a transfer and completes any other call; `transient` and
`fail` are errors a caller may or may not want to try again. -/
inductive Reply where
  | done (n : Nat)
  | intr
  | transient
  | fail
  deriving DecidableEq, Repr

/-- The call meets no error; an interrupted transfer only has to be repeated. -/
def Reply.Clean : Reply → Prop
  | .done _ | .intr => True
  | .transient | .fail => False

instance : DecidablePred Reply.Clean := fun r => by
  cases r <;> simp only [Reply.Clean] <;> infer_instance

def Reply.completes : Reply → Bool
  | .done _ => true
  | _ => false

/-- How many replies of the list let a transfer move bytes. -/
def completed (rs : List Reply) : Nat := rs.countP Reply.completes

def AllClean (rs : List Reply) : Prop := ∀ r ∈ rs, r.Clean

inductive Outcome (W α : Type) where
  | returned (a : α) (rest : List Reply) (w : W)
  | pending (w : W)

/-- The state a run has come to. -/
def Outcome.state {W α : Type} : Outcome W α → W
  | .returned _ _ w => w
  | .pending w => w

/-- The result of a run that has returned. -/
def Outcome.value {W α : Type} : Outcome W α → Option α
  | .returned a _ _ => some a
  | .pending _ => none

theorem Outcome.of_value {W α : Type} {o : Outcome W α} {a : α} (h : o.value = some a) :
    ∃ rest, o = .returned a rest o.state := by
  cases o with
  | returned b rest w =>
      cases h
      exact ⟨rest, rfl⟩
  | pending w => cases h

theorem Outcome.of_value_eq_none {W α : Type} {o : Outcome W α} (h : o.value = none) :
    o = .pending o.state := by
  cases o with
  | returned b rest w => cases h
  | pending w => rfl

/-- A program over the state `W`. It consumes replies from the front only. -/
structure Prog (W α : Type) where
  run : List Reply → W → Outcome W α
  suffix : ∀ {rs w a rest v}, run rs w = .returned a rest v → rest <:+ rs

namespace Prog

variable {W α β σ : Type}

theorem ext_run {m n : Prog W α} (h : ∀ rs w, m.run rs w = n.run rs w) : m = n := by
  cases m
  cases n
  congr
  funext rs w
  exact h rs w

protected def pure (a : α) : Prog W α where
  run rs w := .returned a rs w
  suffix h := by cases h; exact List.suffix_rfl

protected def bind (m : Prog W α) (k : α → Prog W β) : Prog W β where
  run rs w :=
    match m.run rs w with
    | .returned a rest v => (k a).run rest v
    | .pending v => .pending v
  suffix {rs w b rest v} h := by
    cases hm : m.run rs w with
    | returned a rest' v' =>
        rw [hm] at h
        exact ((k a).suffix h).trans (m.suffix hm)
    | pending v' => rw [hm] at h; cases h

instance : Monad (Prog W) where
  pure := Prog.pure
  bind := Prog.bind

/-- One system call. -/
def call : Prog W Reply where
  run rs w :=
    match rs with
    | [] => .pending w
    | r :: rest => .returned r rest w
  suffix {rs w a rest v} h := by
    cases rs with
    | nil => cases h
    | cons r rs => cases h; exact List.suffix_cons a rest

/-- The program waits for something that never comes, or has died. -/
def block : Prog W α where
  run _ w := .pending w
  suffix h := by cases h

def state : Prog W W where
  run rs w := .returned w rs w
  suffix h := by cases h; exact List.suffix_rfl

def modify (f : W → W) : Prog W Unit where
  run rs w := .returned () rs (f w)
  suffix h := by cases h; exact List.suffix_rfl

@[simp] theorem run_pure (a : α) (rs : List Reply) (w : W) :
    (pure a : Prog W α).run rs w = .returned a rs w := rfl

theorem run_bind (m : Prog W α) (k : α → Prog W β) (rs : List Reply) (w : W) :
    (m >>= k).run rs w = match m.run rs w with
      | .returned a rest v => (k a).run rest v
      | .pending v => .pending v := rfl

theorem run_state_bind (k : W → Prog W β) (rs : List Reply) (w : W) :
    (Prog.state >>= k).run rs w = (k w).run rs w := rfl

theorem run_call_bind (k : Reply → Prog W β) (r : Reply) (rs : List Reply) (w : W) :
    (Prog.call >>= k).run (r :: rs) w = (k r).run rs w := rfl

theorem run_bind_returned {m : Prog W α} {k : α → Prog W β} {rs rest : List Reply} {w v : W} {a : α}
    (h : m.run rs w = .returned a rest v) : (m >>= k).run rs w = (k a).run rest v := by
  rw [run_bind, h]

theorem run_bind_pending {m : Prog W α} {k : α → Prog W β} {rs : List Reply} {w v : W}
    (h : m.run rs w = .pending v) : (m >>= k).run rs w = .pending v := by
  rw [run_bind, h]

/-- A composition that returned did so through its first part. -/
theorem run_bind_eq_returned {m : Prog W α} {k : α → Prog W β} {rs rest : List Reply} {w v : W} {b : β}
    (h : (m >>= k).run rs w = .returned b rest v) :
    ∃ a mid u, m.run rs w = .returned a mid u ∧ (k a).run mid u = .returned b rest v := by
  rw [run_bind] at h
  cases hm : m.run rs w with
  | returned a mid u => exact ⟨a, mid, u, rfl, by rw [hm] at h; exact h⟩
  | pending u => rw [hm] at h; cases h

instance : LawfulMonad (Prog W) := LawfulMonad.mk' _
  (fun m => ext_run fun rs w => by
    change (match m.run rs w with
      | .returned a rest v => Outcome.returned (id a) rest v
      | .pending v => .pending v) = _
    cases m.run rs w <;> rfl)
  (fun _ _ => rfl)
  (fun m k l => ext_run fun rs w => by
    simp only [run_bind]
    cases m.run rs w <;> rfl)

/-- Run `body` from one loop state to the next until it gives a result; `n` bounds the rounds. -/
def iterate (body : σ → Prog W (σ ⊕ β)) : Nat → σ → Prog W β
  | 0, _ => block
  | n + 1, s => body s >>= Sum.elim (iterate body n) pure

/-- A loop whose rounds each make a system call: it cannot make more rounds than there
are replies, so one round more than that is bound enough (`loop_eq`). -/
def loop (body : σ → Prog W (σ ⊕ β)) (s : σ) : Prog W β where
  run rs w := (iterate body (rs.length + 1) s).run rs w
  suffix h := (iterate body _ s).suffix h

/-- A program that goes round again has made a call. -/
def Consumes (m : Prog W (σ ⊕ β)) : Prop :=
  ∀ rs w s rest v, m.run rs w = .returned (.inl s) rest v → rest.length < rs.length

theorem consumes_bind (m : Prog W α) {k : α → Prog W (σ ⊕ β)} (hk : ∀ a, Consumes (k a)) :
    Consumes (m >>= k) := by
  intro rs w s rest v h
  obtain ⟨a, mid, u, hm, hr⟩ := run_bind_eq_returned h
  have hlt := hk a mid u s rest v hr
  have hle := (m.suffix hm).length_le
  omega

/-- A program that never returns without a call. -/
def Uses (m : Prog W α) : Prop :=
  ∀ rs w a rest v, m.run rs w = .returned a rest v → rest.length < rs.length

theorem uses_call (k : Reply → Prog W α) : Uses (call >>= k) := by
  intro rs w a rest v h
  cases rs with
  | nil => cases h
  | cons r rs =>
      have hle := ((k r).suffix h).length_le
      simp only [List.length_cons]
      omega

theorem consumes_call (k : Reply → Prog W (σ ⊕ β)) : Consumes (call >>= k) :=
  fun rs w s rest v hr => uses_call k rs w (.inl s) rest v hr

theorem Uses.consumes {m : Prog W (σ ⊕ β)} (h : Uses m) : Consumes m :=
  fun rs w s rest v hr => h rs w (.inl s) rest v hr

theorem consumes_inr (b : β) : Consumes (pure (.inr b) : Prog W (σ ⊕ β)) := by
  intro rs w s rest v h
  cases h

theorem uses_bind (m : Prog W α) {k : α → Prog W β} (hk : ∀ a, Uses (k a)) : Uses (m >>= k) := by
  intro rs w b rest v h
  obtain ⟨a, mid, u, hm, hr⟩ := run_bind_eq_returned h
  have hlt := hk a mid u b rest v hr
  have hle := (m.suffix hm).length_le
  omega

theorem uses_bind_left {m : Prog W α} (hm : Uses m) (k : α → Prog W β) : Uses (m >>= k) := by
  intro rs w b rest v h
  obtain ⟨a, mid, u, hr, hk⟩ := run_bind_eq_returned h
  have hlt := hm rs w a mid u hr
  have hle := ((k a).suffix hk).length_le
  omega

theorem uses_block : Uses (block : Prog W α) := by
  intro rs w a rest v h
  cases h

theorem uses_loop {body : σ → Prog W (σ ⊕ β)} (hb : ∀ s, Uses (body s)) (s : σ) :
    Uses (loop body s) :=
  fun rs w b rest v h => uses_bind_left (hb s) _ rs w b rest v h

/-- Any two bounds above the number of replies run the same. -/
theorem iterate_bound {body : σ → Prog W (σ ⊕ β)} (hb : ∀ s, Consumes (body s)) :
    ∀ (n m : Nat) (rs : List Reply) (s : σ) (w : W), rs.length < n → rs.length < m →
      (iterate body n s).run rs w = (iterate body m s).run rs w := by
  intro n
  induction n with
  | zero => intro m rs s w h _; omega
  | succ n ih =>
      intro m rs s w hn hm
      obtain ⟨m, rfl⟩ : ∃ k, m = k + 1 := ⟨m - 1, by omega⟩
      simp only [iterate, run_bind]
      cases hr : (body s).run rs w with
      | pending v => rfl
      | returned r rest v =>
          cases r with
          | inr b => rfl
          | inl s' =>
              have hlt := hb s rs w s' rest v hr
              exact ih m rest s' v (by omega) (by omega)

/-- The loop as the source has it: one round, then the loop again. -/
theorem loop_eq {body : σ → Prog W (σ ⊕ β)} (hb : ∀ s, Consumes (body s)) (s : σ) :
    loop body s = body s >>= Sum.elim (loop body) pure := by
  apply ext_run
  intro rs w
  change (iterate body (rs.length + 1) s).run rs w = _
  simp only [iterate, run_bind]
  cases hr : (body s).run rs w with
  | pending v => rfl
  | returned r rest v =>
      cases r with
      | inr b => rfl
      | inl s' =>
          have hlt := hb s rs w s' rest v hr
          exact iterate_bound hb _ _ rest s' v hlt (Nat.lt_succ_self _)

/-- What is done after the last round of a loop. -/
def finish (k : α → Prog W β) : σ ⊕ α → Prog W (σ ⊕ β)
  | .inl s => pure (.inl s)
  | .inr a => do
    let b ← k a
    pure (.inr b)

theorem finish_consumes {m : Prog W (σ ⊕ α)} (hm : Consumes m) (k : α → Prog W β) :
    Consumes (m >>= finish k) := by
  intro rs w s rest v h
  obtain ⟨r, mid, u, hr, hrest⟩ := run_bind_eq_returned h
  cases r with
  | inl t =>
      cases hrest
      exact hm rs w _ _ _ hr
  | inr a =>
      obtain ⟨b, mid', u', -, hend⟩ := run_bind_eq_returned hrest
      cases hend

/-- What follows a loop may as well be done in its last round. -/
theorem loop_bind {body : σ → Prog W (σ ⊕ α)} (hb : ∀ s, Consumes (body s)) (k : α → Prog W β) (s : σ) :
    loop body s >>= k = loop (fun s => body s >>= finish k) s := by
  apply ext_run
  intro rs
  induction hn : rs.length using Nat.strongRecOn generalizing rs s with
  | ind n ih =>
      subst hn
      intro w
      rw [loop_eq hb, loop_eq fun s => finish_consumes (hb s) k, bind_assoc, bind_assoc]
      cases hr : (body s).run rs w with
      | pending v => rw [run_bind_pending hr, run_bind_pending hr]
      | returned r rest v =>
          rw [run_bind_returned hr, run_bind_returned hr]
          cases r with
          | inl s' => exact ih rest.length (hb s rs w s' rest v hr) s' rest rfl v
          | inr a =>
              simp only [finish, Sum.elim_inr, bind_assoc, pure_bind, bind_pure]

/-- Two loops that march in step come to the same. -/
theorem loop_simulates {τ γ : Type} {body : σ → Prog W (σ ⊕ β)} {body' : τ → Prog W (τ ⊕ γ)}
    (abs : τ → σ) (out : γ → β) (hb : ∀ s, Consumes (body s)) (hb' : ∀ t, Consumes (body' t))
    (h : ∀ t, (body' t >>= fun r => pure (r.map abs out)) = body (abs t)) (t : τ) :
    (loop body' t >>= fun c => pure (out c)) = loop body (abs t) := by
  apply ext_run
  intro rs
  induction hn : rs.length using Nat.strongRecOn generalizing rs t with
  | ind n ih =>
      subst hn
      intro w
      rw [loop_eq hb', loop_eq hb, bind_assoc, ← h t, bind_assoc]
      cases hr : (body' t).run rs w with
      | pending v => rw [run_bind_pending hr, run_bind_pending hr]
      | returned r rest v =>
          rw [run_bind_returned hr, run_bind_returned hr]
          cases r with
          | inl t' => exact ih rest.length (hb' t rs w t' rest v hr) t' rest rfl v
          | inr c => rfl

end Prog

section Logic

variable {W α β σ : Type}

/-- Every run on replies that satisfy `A` either returns with `Q`, or is cut short in a
state with `C`. -/
def Ensures (A : Reply → Prop) (m : Prog W α) (w : W) (Q : α → W → Prop) (C : W → Prop) : Prop :=
  ∀ rs, (∀ r ∈ rs, A r) → match m.run rs w with
    | .returned a _ v => Q a v
    | .pending v => C v

namespace Ensures

variable {A : Reply → Prop} {m : Prog W α} {w : W} {Q Q' : α → W → Prop} {C C' : W → Prop}

theorem returned (h : Ensures A m w Q C) {rs rest : List Reply} {a : α} {v : W}
    (hrs : ∀ r ∈ rs, A r) (hr : m.run rs w = .returned a rest v) : Q a v := by
  have := h rs hrs
  rwa [hr] at this

theorem pending (h : Ensures A m w Q C) {rs : List Reply} {v : W}
    (hrs : ∀ r ∈ rs, A r) (hr : m.run rs w = .pending v) : C v := by
  have := h rs hrs
  rwa [hr] at this

theorem mono (h : Ensures A m w Q C) (hQ : ∀ a v, Q a v → Q' a v) (hC : ∀ v, C v → C' v) :
    Ensures A m w Q' C' := by
  intro rs hrs
  have := h rs hrs
  cases hr : m.run rs w with
  | returned a rest v => rw [hr] at this; exact hQ a v this
  | pending v => rw [hr] at this; exact hC v this

theorem and (h : Ensures A m w Q C) (h' : Ensures A m w Q' C') :
    Ensures A m w (fun a v => Q a v ∧ Q' a v) (fun v => C v ∧ C' v) := by
  intro rs hrs
  have hl := h rs hrs
  have hr := h' rs hrs
  cases hrun : m.run rs w with
  | returned a rest v => rw [hrun] at hl hr; exact ⟨hl, hr⟩
  | pending v => rw [hrun] at hl hr; exact ⟨hl, hr⟩

/-- Nothing is asked of the program. -/
theorem trivial : Ensures A m w (fun _ _ => True) (fun _ => True) := by
  intro rs _
  cases m.run rs w with
  | returned a rest v => exact True.intro
  | pending v => exact True.intro

theorem pure {a : α} (h : Q a w) : Ensures A (Pure.pure a : Prog W α) w Q C :=
  fun _ _ => h

theorem block (h : C w) : Ensures A (Prog.block : Prog W α) w Q C :=
  fun _ _ => h

theorem bind {k : α → Prog W β} {R : β → W → Prop} (hm : Ensures A m w Q C)
    (hk : ∀ a v, Q a v → Ensures A (k a) v R C) : Ensures A (m >>= k) w R C := by
  intro rs hrs
  cases hr : m.run rs w with
  | returned a rest v =>
      rw [Prog.run_bind_returned hr]
      exact hk a v (hm.returned hrs hr) rest fun r h => hrs r ((m.suffix hr).mem h)
  | pending v =>
      rw [Prog.run_bind_pending hr]
      exact hm.pending hrs hr

/-- What holds of a function of the result. -/
theorem of_map {f : α → β} {R : β → W → Prop}
    (h : Ensures A (m >>= fun a => Pure.pure (f a)) w R C) :
    Ensures A m w (fun a v => R (f a) v) C := by
  intro rs hrs
  have hrun := h rs hrs
  rw [Prog.run_bind] at hrun
  cases hm : m.run rs w with
  | returned a rest v => rw [hm] at hrun; exact hrun
  | pending v => rw [hm] at hrun; exact hrun

theorem call (hC : C w) : Ensures A (Prog.call : Prog W Reply) w (fun r v => A r ∧ v = w) C := by
  intro rs hrs
  cases rs with
  | nil => exact hC
  | cons r rs => exact ⟨hrs r List.mem_cons_self, rfl⟩

theorem state : Ensures A (Prog.state : Prog W W) w (fun s v => s = w ∧ v = w) C :=
  fun _ _ => ⟨rfl, rfl⟩

theorem modify {f : W → W} : Ensures A (Prog.modify f) w (fun _ v => v = f w) C :=
  fun _ _ => rfl

/-- What follows runs on the state it is handed. -/
theorem state_bind {k : W → Prog W β} {R : β → W → Prop} (hk : Ensures A (k w) w R C) :
    Ensures A (Prog.state >>= k) w R C :=
  hk

theorem modify_bind {f : W → W} {k : Unit → Prog W β} {R : β → W → Prop}
    (hk : Ensures A (k ()) (f w) R C) : Ensures A (Prog.modify f >>= k) w R C :=
  hk

/-- What follows a call deals with every reply. -/
theorem call_bind {k : Reply → Prog W β} {R : β → W → Prop} (hC : C w)
    (hk : ∀ r, A r → Ensures A (k r) w R C) : Ensures A (Prog.call >>= k) w R C := by
  refine (Ensures.call hC).bind ?_
  rintro r _ ⟨hr, rfl⟩
  exact hk r hr

/-- A loop keeps what every round keeps. -/
theorem loop {body : σ → Prog W (σ ⊕ β)} {I : σ → W → Prop} {R : β → W → Prop}
    (hbody : ∀ s v, I s v → Ensures A (body s) v (fun r u => Sum.elim (I · u) (R · u) r) C)
    (hC : ∀ s v, I s v → C v) {s : σ} (h : I s w) : Ensures A (Prog.loop body s) w R C := by
  have hiter : ∀ (n : Nat) (s : σ) (v : W), I s v → Ensures A (Prog.iterate body n s) v R C := by
    intro n
    induction n with
    | zero => intro s v hs; exact Ensures.block (hC s v hs)
    | succ n ih =>
        intro s v hs
        refine (hbody s v hs).bind ?_
        intro r u hr
        cases r with
        | inl s' => exact ih s' u hr
        | inr b => exact Ensures.pure hr
  intro rs hrs
  exact hiter (rs.length + 1) s w h rs hrs

/-- When every round that goes on has made a call, the loop is cut short only inside a round. -/
theorem loop_called {body : σ → Prog W (σ ⊕ β)} (hb : ∀ s, Prog.Consumes (body s))
    {I : σ → W → Prop} {R : β → W → Prop}
    (hbody : ∀ s v, I s v → Ensures A (body s) v (fun r u => Sum.elim (I · u) (R · u) r) C)
    {s : σ} (h : I s w) : Ensures A (Prog.loop body s) w R C := by
  intro rs
  induction hn : rs.length using Nat.strongRecOn generalizing rs s w with
  | ind n ih =>
      subst hn
      intro hrs
      rw [Prog.loop_eq hb]
      have hround := hbody s w h
      cases hr : (body s).run rs w with
      | pending v =>
          rw [Prog.run_bind_pending hr]
          exact hround.pending hrs hr
      | returned r rest v =>
          rw [Prog.run_bind_returned hr]
          have hv := hround.returned hrs hr
          cases r with
          | inr b => exact hv
          | inl s' =>
              have hlt := hb s rs w s' rest v hr
              exact ih rest.length hlt hv rest rfl fun r hr' => hrs r (((body s).suffix hr).mem hr')

end Ensures

/-- The program returns once `N` of the clean replies complete, and uses up no more of them. -/
def Terminates (m : Prog W α) (w : W) (N : Nat) : Prop :=
  ∀ rs, AllClean rs → N ≤ completed rs →
    ∃ a rest v, m.run rs w = .returned a rest v ∧ completed rs ≤ completed rest + N

theorem AllClean.rest {rs rest : List Reply} (h : AllClean rs) (hs : rest <:+ rs) : AllClean rest :=
  fun r hr => h r (hs.mem hr)

theorem completed_cons_le (r : Reply) (rs : List Reply) : completed (r :: rs) ≤ completed rs + 1 := by
  simp only [completed, List.countP_cons]
  split <;> omega

@[simp] theorem completed_done (n : Nat) (rs : List Reply) :
    completed (.done n :: rs) = completed rs + 1 := by
  simp [completed, List.countP_cons, Reply.completes]

@[simp] theorem completed_intr (rs : List Reply) : completed (.intr :: rs) = completed rs := by
  simp [completed, Reply.completes]

@[simp] theorem completed_transient (rs : List Reply) :
    completed (.transient :: rs) = completed rs := by
  simp [completed, Reply.completes]

@[simp] theorem completed_fail (rs : List Reply) : completed (.fail :: rs) = completed rs := by
  simp [completed, Reply.completes]

/-- A loop ends when its rounds pay for the completed replies they use with a measure. -/
theorem loop_ends {A : Reply → Prop} {body : σ → Prog W (σ ⊕ β)} (hb : ∀ s, Prog.Consumes (body s))
    {I : σ → W → Prop} {f : σ → Nat}
    (h : ∀ s w, I s w → ∀ rs, (∀ r ∈ rs, A r) → f s ≤ completed rs →
      ∃ r rest v, (body s).run rs w = .returned r rest v ∧
        match r with
        | .inl s' => I s' v ∧ completed rs + f s' ≤ completed rest + f s
        | .inr _ => completed rs ≤ completed rest + f s)
    {s : σ} {w : W} (hs : I s w) : ∀ rs, (∀ r ∈ rs, A r) → f s ≤ completed rs →
      ∃ b rest v, (Prog.loop body s).run rs w = .returned b rest v ∧
        completed rs ≤ completed rest + f s := by
  intro rs
  induction hn : rs.length using Nat.strongRecOn generalizing rs s w with
  | ind n ih =>
      subst hn
      intro hrs hf
      obtain ⟨r, mid, u, hr, hround⟩ := h s w hs rs hrs hf
      rw [Prog.loop_eq hb, Prog.run_bind_returned hr]
      cases r with
      | inr b => exact ⟨b, mid, u, rfl, hround⟩
      | inl s' =>
          obtain ⟨hI, hc⟩ := hround
          have hlt := hb s rs w s' mid u hr
          obtain ⟨b, rest, v, hr', hc'⟩ := ih mid.length hlt hI mid rfl
            (fun r h => hrs r (((body s).suffix hr).mem h)) (by omega)
          exact ⟨b, rest, v, hr', by omega⟩

namespace Terminates

theorem bind {m : Prog W α} {w : W} {N M : Nat} {k : α → Prog W β} (hm : Terminates m w N)
    (hk : ∀ rs a rest v, AllClean rs → m.run rs w = .returned a rest v → Terminates (k a) v M) :
    Terminates (m >>= k) w (N + M) := by
  intro rs hrs hn
  obtain ⟨a, mid, u, hr, hc⟩ := hm rs hrs (by omega)
  obtain ⟨b, rest, v, hr', hc'⟩ :=
    hk rs a mid u hrs hr mid (hrs.rest (m.suffix hr)) (by omega)
  exact ⟨b, rest, v, by rw [Prog.run_bind_returned hr, hr'], by omega⟩

/-- A program that ends when only its result is changed afterwards. -/
theorem of_map {m : Prog W α} {w : W} {N : Nat} {f : α → β}
    (h : Terminates (m >>= fun a => pure (f a)) w N) : Terminates m w N := by
  intro rs hrs hn
  obtain ⟨b, rest, v, hr, hc⟩ := h rs hrs hn
  obtain ⟨a, mid, u, hm, hrest⟩ := Prog.run_bind_eq_returned hr
  cases hrest
  exact ⟨a, rest, v, hm, hc⟩

end Terminates

/-- The program returns once `N` of the replies complete, whatever errors there are among them. -/
def Returns (m : Prog W α) (w : W) (N : Nat) : Prop :=
  ∀ rs, N ≤ completed rs →
    ∃ a rest v, m.run rs w = .returned a rest v ∧ completed rs ≤ completed rest + N

namespace Returns

variable {m : Prog W α} {w : W} {N M : Nat}

theorem terminates (h : Returns m w N) : Terminates m w N := fun rs _ hn => h rs hn

theorem mono (h : Returns m w N) (hle : N ≤ M) : Returns m w M := by
  intro rs hn
  obtain ⟨a, rest, v, hr, hc⟩ := h rs (by omega)
  exact ⟨a, rest, v, hr, by omega⟩

theorem pure (a : α) : Returns (Pure.pure a : Prog W α) w N :=
  fun rs _ => ⟨a, rs, w, rfl, by omega⟩

theorem bind {k : α → Prog W β} (hm : Returns m w N)
    (hk : ∀ rs a rest v, m.run rs w = .returned a rest v → Returns (k a) v M) :
    Returns (m >>= k) w (N + M) := by
  intro rs hn
  obtain ⟨a, mid, u, hr, hc⟩ := hm rs (by omega)
  obtain ⟨b, rest, v, hr', hc'⟩ := hk rs a mid u hr mid (by omega)
  exact ⟨b, rest, v, by rw [Prog.run_bind_returned hr, hr'], by omega⟩

theorem state_bind {k : W → Prog W β} (hk : Returns (k w) w N) : Returns (Prog.state >>= k) w N :=
  hk

theorem modify_bind {f : W → W} {k : Unit → Prog W β} (hk : Returns (k ()) (f w) N) :
    Returns (Prog.modify f >>= k) w N :=
  hk

/-- What follows a call deals with every reply. -/
theorem call_bind {k : Reply → Prog W β} (hk : ∀ r, Returns (k r) w N) :
    Returns (Prog.call >>= k) w (N + 1) := by
  intro rs hn
  cases rs with
  | nil => simp [completed] at hn
  | cons r rs =>
      have hle := completed_cons_le r rs
      obtain ⟨a, rest, v, hr, hc⟩ := hk r rs (by omega)
      exact ⟨a, rest, v, hr, by omega⟩

/-- The rule for loops. -/
theorem loop {body : σ → Prog W (σ ⊕ β)} (hb : ∀ s, Prog.Consumes (body s)) {I : σ → W → Prop}
    {f : σ → Nat} (h : ∀ s w, I s w → ∀ rs, f s ≤ completed rs →
      ∃ r rest v, (body s).run rs w = .returned r rest v ∧
        match r with
        | .inl s' => I s' v ∧ completed rs + f s' ≤ completed rest + f s
        | .inr _ => completed rs ≤ completed rest + f s)
    {s : σ} {w : W} (hs : I s w) : Returns (Prog.loop body s) w (f s) :=
  fun rs => loop_ends hb (A := fun _ => True) (fun s w hI rs _ => h s w hI rs) hs rs fun _ _ => trivial

end Returns

/-- Without errors the program returns `a` in state `w'`: it can return nothing else, and it
does return once enough replies complete. -/
structure Computes (m : Prog W α) (w : W) (a : α) (w' : W) : Prop where
  sound : Ensures Reply.Clean m w (fun b v => b = a ∧ v = w') (fun _ => True)
  total : ∃ N, Terminates m w N

/-- As many replies as are asked for, each complete. -/
theorem exists_completed (N : Nat) : ∃ rs, AllClean rs ∧ N ≤ completed rs := by
  refine ⟨List.replicate N (.done 0), ?_, by simp [completed, List.countP_replicate, Reply.completes]⟩
  intro r hr
  rw [List.eq_of_mem_replicate hr]
  trivial

namespace Computes

variable {m : Prog W α} {w w' : W} {a : α}

theorem eq_of_returned (h : Computes m w a w') {rs rest : List Reply} {b : α} {v : W}
    (hrs : AllClean rs) (hr : m.run rs w = .returned b rest v) : b = a ∧ v = w' :=
  h.sound.returned hrs hr

/-- The run that total correctness promises. -/
theorem exists_run (h : Computes m w a w') :
    ∃ rs rest, AllClean rs ∧ m.run rs w = .returned a rest w' := by
  obtain ⟨N, hN⟩ := h.total
  obtain ⟨rs, hrs, hn⟩ := exists_completed N
  obtain ⟨b, rest, v, hr, -⟩ := hN rs hrs hn
  obtain ⟨rfl, rfl⟩ := h.eq_of_returned hrs hr
  exact ⟨rs, rest, hrs, hr⟩

theorem unique {b : α} {v : W} (h : Computes m w a w') (h' : Computes m w b v) : b = a ∧ v = w' := by
  obtain ⟨rs, rest, hrs, hr⟩ := h'.exists_run
  exact h.eq_of_returned hrs hr

theorem pure (a : α) : Computes (Pure.pure a : Prog W α) w a w :=
  ⟨.pure ⟨rfl, rfl⟩, 0, fun rs _ _ => ⟨a, rs, w, rfl, by omega⟩⟩

theorem bind {k : α → Prog W β} {b : β} {w'' : W} (hm : Computes m w a w')
    (hk : Computes (k a) w' b w'') : Computes (m >>= k) w b w'' := by
  constructor
  · refine hm.sound.bind ?_
    rintro _ _ ⟨rfl, rfl⟩
    exact hk.sound
  · obtain ⟨N, hN⟩ := hm.total
    obtain ⟨M, hM⟩ := hk.total
    refine ⟨N + M, hN.bind ?_⟩
    intro rs b rest v hrs hr
    obtain ⟨rfl, rfl⟩ := hm.eq_of_returned hrs hr
    exact hM

theorem state : Computes (Prog.state : Prog W W) w w w :=
  ⟨Ensures.state, 0, fun rs _ _ => ⟨w, rs, w, rfl, by omega⟩⟩

theorem modify (f : W → W) : Computes (Prog.modify f) w () (f w) :=
  ⟨fun _ _ => ⟨rfl, rfl⟩, 0, fun rs _ _ => ⟨(), rs, f w, rfl, by omega⟩⟩

theorem state_bind {k : W → Prog W β} {b : β} (hk : Computes (k w) w b w') :
    Computes (Prog.state >>= k) w b w' :=
  state.bind hk

theorem modify_bind {f : W → W} {k : Unit → Prog W β} {b : β} (hk : Computes (k ()) (f w) b w') :
    Computes (Prog.modify f >>= k) w b w' :=
  (modify f).bind hk

/-- A call whose clean replies all continue in the same way. -/
theorem call {k : Reply → Prog W β} {n : Prog W β} {b : β} (hk : ∀ r, r.Clean → k r = n)
    (hn : Computes n w b w') : Computes (Prog.call >>= k) w b w' := by
  constructor
  · refine (Ensures.call trivial).bind ?_
    rintro r _ ⟨hr, rfl⟩
    rw [hk r hr]
    exact hn.sound
  · obtain ⟨N, hN⟩ := hn.total
    refine ⟨N + 1, fun rs hrs hc => ?_⟩
    cases rs with
    | nil => simp [completed] at hc
    | cons r rs =>
        have hle := completed_cons_le r rs
        obtain ⟨a, rest, v, hr, hc'⟩ := hN rs (hrs.rest (List.suffix_cons r rs)) (by omega)
        refine ⟨a, rest, v, ?_, by omega⟩
        change (k r).run rs w = _
        rw [hk r (hrs r List.mem_cons_self), hr]

/-- One round of a loop that goes on. -/
theorem loop_next {body : σ → Prog W (σ ⊕ β)} (hb : ∀ s, Prog.Consumes (body s)) {s s' : σ} {b : β}
    {v : W} (hs : Computes (body s) w (.inl s') v) (hl : Computes (Prog.loop body s') v b w') :
    Computes (Prog.loop body s) w b w' := by
  rw [Prog.loop_eq hb]
  exact hs.bind hl

/-- The last round of a loop. -/
theorem loop_stop {body : σ → Prog W (σ ⊕ β)} (hb : ∀ s, Prog.Consumes (body s)) {s : σ} {b : β}
    (hs : Computes (body s) w (.inr b) w') : Computes (Prog.loop body s) w b w' := by
  rw [Prog.loop_eq hb]
  exact hs.bind (pure b)

end Computes

/-- No list of clean replies makes the program return. -/
def Diverges (m : Prog W α) (w : W) : Prop :=
  Ensures Reply.Clean m w (fun _ _ => False) (fun _ => True)

theorem Diverges.bind_left {m : Prog W α} {w : W} (h : Diverges m w) (k : α → Prog W β) :
    Diverges (m >>= k) w :=
  Ensures.bind h (fun _ _ hf => hf.elim)

theorem Diverges.bind_right {m : Prog W α} {w w' : W} {a : α} (hm : Computes m w a w')
    {k : α → Prog W β} (hk : Diverges (k a) w') : Diverges (m >>= k) w := by
  refine hm.sound.bind ?_
  rintro _ _ ⟨rfl, rfl⟩
  exact hk

end Logic

section Moves

variable {W α β σ : Type} {R : W → W → Prop}

/-- Whatever the replies, the program only goes to states that are related to the one it starts
in, also when it is cut short. -/
def Moves (R : W → W → Prop) (m : Prog W α) : Prop :=
  ∀ w, Ensures (fun _ => True) m w (fun _ v => R w v) (R w)

namespace Moves

theorem ensures {m : Prog W α} {w : W} (h : Moves R m) :
    Ensures (fun _ => True) m w (fun _ v => R w v) (R w) :=
  h w

theorem of_run {m : Prog W α} (h : Moves R m) {rs rest : List Reply} {w v : W} {a : α}
    (hr : m.run rs w = .returned a rest v) : R w v :=
  (h w).returned (fun _ _ => trivial) hr

theorem mono {R' : W → W → Prop} {m : Prog W α} (h : Moves R m) (hR : ∀ w v, R w v → R' w v) :
    Moves R' m :=
  fun w => (h w).mono (fun _ v => hR w v) (hR w)

/-- What a program that changes nothing leaves. -/
theorem same {m : Prog W α} (h : Moves Eq m) (w : W) :
    Ensures (fun _ => True) m w (fun _ v => v = w) (fun v => v = w) :=
  (h w).mono (fun _ _ h => h.symm) fun _ h => h.symm

theorem modify {f : W → W} (hf : ∀ w, R w (f w)) : Moves R (Prog.modify f) := fun w _ _ => hf w

/-- What follows may look at the state it starts in. -/
theorem state {k : W → Prog W β}
    (hk : ∀ w, Ensures (fun _ => True) (k w) w (fun _ v => R w v) (R w)) :
    Moves R (Prog.state >>= k) := by
  intro w
  refine Ensures.state.bind ?_
  rintro _ _ ⟨rfl, rfl⟩
  exact hk _

theorem bind [IsTrans W R] {m : Prog W α} {k : α → Prog W β} (hm : Moves R m)
    (hk : ∀ a, Moves R (k a)) : Moves R (m >>= k) := by
  intro w
  refine (hm w).bind ?_
  intro a v hv
  exact (hk a v).mono (fun _ _ h => trans_of R hv h) (fun _ h => trans_of R hv h)

theorem pure [Std.Refl R] (a : α) : Moves R (Pure.pure a : Prog W α) :=
  fun w => Ensures.pure (refl_of R w)

theorem block [Std.Refl R] : Moves R (Prog.block : Prog W α) := fun w => Ensures.block (refl_of R w)

variable [Std.Refl R] [IsTrans W R]

theorem call {k : Reply → Prog W β} (hk : ∀ r, Moves R (k r)) : Moves R (Prog.call >>= k) := by
  refine Moves.bind ?_ hk
  intro w rs _
  cases rs with
  | nil => exact refl_of R w
  | cons r rs => exact refl_of R w

theorem loop {body : σ → Prog W (σ ⊕ β)} (hb : ∀ s, Moves R (body s)) (s : σ) :
    Moves R (Prog.loop body s) := by
  intro w
  refine Ensures.loop (I := fun _ v => R w v) ?_ (fun _ _ h => h) (refl_of R w)
  intro s v hv
  refine (hb s v).mono (fun r u hu => ?_) (fun _ h => trans_of R hv h)
  cases r with
  | inl s' => exact trans_of R hv hu
  | inr b => exact trans_of R hv hu

end Moves

end Moves

end Ccask.Effect
