import Ccask.Effect.Program

/-!
# What the replies tell of a program

For many programs the replies alone decide whether they succeed, and which replies they leave.
A telling says so without the program: it reads a list of replies from the front. `Tells`
connects the two, on every list of replies.
-/

namespace Ccask.Effect

/-- Whether a program succeeds on these replies, and the replies it leaves; `none` when it does not
return. -/
abbrev Telling := List Reply → Option (Bool × List Reply)

namespace Telling

/-- No call is made. -/
def ends (ok : Bool) : Telling := fun rs => some (ok, rs)

/-- It never returns. -/
def never : Telling := fun _ => none

/-- `t`, and what is told of its success or of its failure. -/
def branch (t s f : Telling) : Telling := fun rs =>
  match t rs with
  | some (true, rest) => s rest
  | some (false, rest) => f rest
  | none => none

/-- `t`, and after its success `s`. -/
def andThen (t s : Telling) : Telling := t.branch s (ends false)

/-- A call that must come through. -/
def once : Telling
  | [] => none
  | .done _ :: rs | .intr :: rs => some (true, rs)
  | .transient :: rs | .fail :: rs => some (false, rs)

/-- A call that may fail. -/
def any : Telling
  | [] => none
  | _ :: rs => some (true, rs)

/-- Up to `n` tries of a call, as long as it fails for a time only. -/
def tries : Nat → Telling
  | 0, rs => some (false, rs)
  | _ + 1, [] => none
  | n + 1, .transient :: rs => tries n rs
  | _ + 1, .fail :: rs => some (false, rs)
  | _ + 1, .done _ :: rs | _ + 1, .intr :: rs => some (true, rs)

/-- A transfer of `n` bytes, in as many calls as that takes. -/
def transfer : Nat → Telling
  | 0, rs => some (true, rs)
  | _ + 1, [] => none
  | n + 1, .done k :: rs => transfer (n - k) rs
  | n + 1, .intr :: rs => transfer (n + 1) rs
  | _ + 1, .transient :: rs | _ + 1, .fail :: rs => some (false, rs)

/-- The same `n` times. -/
def times : Nat → Telling → Telling
  | 0, _ => ends true
  | n + 1, t => t.andThen (times n t)

section Rules

variable {t s f : Telling} {rs rest mid : List Reply} {ok : Bool}

/-- Nothing follows. -/
theorem branch_ends (t : Telling) : t.branch (ends true) (ends false) = t := by
  funext rs
  unfold branch
  rcases t rs with _ | ⟨ok, rest⟩
  · rfl
  · cases ok <;> rfl

theorem andThen_ends (t : Telling) : t.andThen (ends true) = t :=
  branch_ends t

end Rules

end Telling

section Tells

variable {W α β σ : Type} {t s f : Telling} {ok : α → Bool} {ok' : β → Bool} {m : Prog W α} {w : W}

/-- The replies tell of the program: whether it succeeds, in the sense of `ok`, and what it leaves. -/
def Tells (t : Telling) (ok : α → Bool) (m : Prog W α) (w : W) : Prop :=
  ∀ rs, match m.run rs w with
    | .returned a rest _ => t rs = some (ok a, rest)
    | .pending _ => t rs = none

namespace Tells

theorem of_returned (h : Tells t ok m w) {rs rest : List Reply} {a : α} {v : W}
    (hr : m.run rs w = .returned a rest v) : t rs = some (ok a, rest) := by
  have hrun := h rs
  rwa [hr] at hrun

theorem of_pending (h : Tells t ok m w) {rs : List Reply} {v : W} (hr : m.run rs w = .pending v) :
    t rs = none := by
  have hrun := h rs
  rwa [hr] at hrun

theorem pure {a : α} {b : Bool} (h : ok a = b) : Tells (.ends b) ok (Pure.pure a : Prog W α) w := by
  intro rs
  subst h
  rfl

theorem block : Tells .never ok (Prog.block : Prog W α) w := fun _ => rfl

/-- A program and what follows it. Of the results and states in between only `Q` is known. -/
theorem bind {k : α → Prog W β} {Q : α → W → Prop} {C : W → Prop} (hm : Tells t ok m w)
    (hQ : Ensures (fun _ => True) m w Q C)
    (hs : ∀ a v, Q a v → ok a = true → Tells s ok' (k a) v)
    (hf : ∀ a v, Q a v → ok a = false → Tells f ok' (k a) v) :
    Tells (t.branch s f) ok' (m >>= k) w := by
  intro rs
  rw [Prog.run_bind, Telling.branch]
  cases hr : m.run rs w with
  | pending v =>
      rw [hm.of_pending hr]
  | returned a rest v =>
      have hq := hQ.returned (fun _ _ => trivial) hr
      rw [hm.of_returned hr]
      cases hok : ok a with
      | true => exact hs a v hq hok rest
      | false => exact hf a v hq hok rest

/-- The same where a failure is handed on. -/
theorem andThen {k : α → Prog W β} {Q : α → W → Prop} {C : W → Prop} (hm : Tells t ok m w)
    (hQ : Ensures (fun _ => True) m w Q C)
    (hs : ∀ a v, Q a v → ok a = true → Tells s ok' (k a) v)
    (hf : ∀ a, ok a = false → ∃ b, ok' b = false ∧ k a = Pure.pure b) :
    Tells (t.andThen s) ok' (m >>= k) w := by
  refine hm.bind hQ hs fun a v _ ha => ?_
  obtain ⟨b, hb, heq⟩ := hf a ha
  rw [heq]
  exact .pure hb

theorem state_bind {k : W → Prog W β} (hk : Tells t ok' (k w) w) :
    Tells t ok' (Prog.state >>= k) w :=
  hk

theorem modify_bind {g : W → W} {k : Unit → Prog W β} (hk : Tells t ok' (k ()) (g w)) :
    Tells t ok' (Prog.modify g >>= k) w :=
  hk

theorem call_once {k : Reply → Prog W β} (hs : ∀ r, r.Clean → Tells s ok' (k r) w)
    (hf : ∀ r, ¬ r.Clean → Tells f ok' (k r) w) :
    Tells (Telling.once.branch s f) ok' (Prog.call >>= k) w := by
  intro rs
  cases rs with
  | nil => rfl
  | cons r rs =>
      cases r with
      | done n => exact hs (.done n) trivial rs
      | intr => exact hs .intr trivial rs
      | transient => exact hf .transient (fun h => h) rs
      | fail => exact hf .fail (fun h => h) rs

theorem call_any {k : Reply → Prog W β} (hs : ∀ r, Tells s ok' (k r) w) :
    Tells (Telling.any.andThen s) ok' (Prog.call >>= k) w := by
  intro rs
  cases rs with
  | nil => rfl
  | cons r rs => exact hs r rs

/-- How one round of a loop transfers some of the `left s` bytes that are left. -/
structure Round (left : σ → Nat) (ok : β → Bool) (I : σ → W → Prop) (body : σ → Prog W (σ ⊕ β)) :
    Prop where
  through : ∀ s v, I s v → left s = 0 → ∃ b, ok b = true ∧ body s = Pure.pure (.inr b)
  call : ∀ s v, I s v → left s ≠ 0 → ∃ k, body s = Prog.call >>= k ∧ k .intr = Pure.pure (.inl s) ∧
    (∀ n rest, ∃ s' u, (k (.done n)).run rest v = .returned (.inl s') rest u ∧ I s' u ∧
      left s' = left s - (n + 1)) ∧
    ∀ r, ¬ r.Clean → ∃ b, ok b = false ∧ k r = Pure.pure (.inr b)

/-- A loop of such rounds. -/
theorem transfer {left : σ → Nat} {I : σ → W → Prop} {body : σ → Prog W (σ ⊕ β)}
    (hb : ∀ s, Prog.Consumes (body s)) (h : Round left ok' I body) {s : σ} (hs : I s w) :
    Tells (.transfer (left s)) ok' (Prog.loop body s) w := by
  intro rs
  induction rs generalizing s w with
  | nil =>
      rw [Prog.loop_eq hb]
      by_cases hleft : left s = 0
      · obtain ⟨b, hok, heq⟩ := h.through s w hs hleft
        rw [heq, hleft]
        simp [Telling.transfer, hok]
      · obtain ⟨k, heq, -⟩ := h.call s w hs hleft
        obtain ⟨n, hn⟩ := Nat.exists_eq_succ_of_ne_zero hleft
        rw [heq, hn, bind_assoc]
        rfl
  | cons r rs ih =>
      rw [Prog.loop_eq hb]
      by_cases hleft : left s = 0
      · obtain ⟨b, hok, heq⟩ := h.through s w hs hleft
        rw [heq, hleft]
        simp [Telling.transfer, hok]
      · obtain ⟨k, heq, hintr, hdone, hfail⟩ := h.call s w hs hleft
        obtain ⟨n, hn⟩ := Nat.exists_eq_succ_of_ne_zero hleft
        rw [heq, bind_assoc, Prog.run_call_bind, hn]
        cases r with
        | done j =>
            obtain ⟨s', u, hrun, hs', hleft'⟩ := hdone j rs
            rw [Prog.run_bind_returned hrun]
            have hrest := ih hs'
            rw [hleft', hn, Nat.succ_sub_succ] at hrest
            exact hrest
        | intr =>
            rw [hintr]
            have hrest := ih hs
            rw [hn] at hrest
            exact hrest
        | transient =>
            obtain ⟨b, hok, hk⟩ := hfail .transient fun h => h
            rw [hk]
            simp [Telling.transfer, hok]
        | fail =>
            obtain ⟨b, hok, hk⟩ := hfail .fail fun h => h
            rw [hk]
            simp [Telling.transfer, hok]

end Tells

end Tells

end Ccask.Effect
