import Ccask.Effect.Program

/-!
# Programs that march in step

Two programs over different states are run on the same replies. One simulates the other when both
return, or are cut short, at the same reply, with results and states that are related.
-/

namespace Ccask.Effect

namespace Prog

variable {V W α : Type}

/-- A program over a part of the state. -/
def zoom (part : V → W) (put : W → V → V) (m : Prog W α) : Prog V α where
  run rs v :=
    match m.run rs (part v) with
    | .returned a rest w => .returned a rest (put w v)
    | .pending w => .pending (put w v)
  suffix {rs v a rest u} h := by
    cases hm : m.run rs (part v) with
    | returned b mid w =>
        rw [hm] at h
        cases h
        exact m.suffix hm
    | pending w => rw [hm] at h; cases h

theorem zoom_returned {part : V → W} {put : W → V → V} {m : Prog W α} {rs rest : List Reply} {v v' : V} {a : α}
    (h : (m.zoom part put).run rs v = .returned a rest v') :
    ∃ w, m.run rs (part v) = .returned a rest w ∧ v' = put w v := by
  unfold zoom at h
  dsimp only at h
  cases hm : m.run rs (part v) with
  | returned b mid w => rw [hm] at h; cases h; exact ⟨w, rfl, rfl⟩
  | pending w => rw [hm] at h; cases h

end Prog

/-- What a program ensures of its part, and the rest stays as it is. -/
theorem Ensures.zoom {V W α : Type} {A : Reply → Prop} {part : V → W} {put : W → V → V} {m : Prog W α} {v : V}
    {Q : α → W → Prop} {C : W → Prop} (h : Ensures A m (part v) Q C) :
    Ensures A (m.zoom part put) v (fun a v' => ∃ w, Q a w ∧ v' = put w v)
      (fun v' => ∃ w, C w ∧ v' = put w v) := by
  intro rs hrs
  have hm := h rs hrs
  unfold Prog.zoom
  dsimp only
  cases hrun : m.run rs (part v) with
  | returned a rest w => rw [hrun] at hm; exact ⟨w, hm, rfl⟩
  | pending w => rw [hrun] at hm; exact ⟨w, hm, rfl⟩

section Simulation

variable {V W α β γ δ : Type}

/-- Two runs end at the same reply and in related states, or neither of them has returned. -/
def Matches (R : α → β → V → W → Prop) : Outcome V α → Outcome W β → Prop
  | .returned a rest v, .returned b rest' w => rest = rest' ∧ R a b v w
  | .pending _, .pending _ => True
  | _, _ => False

/-- From these states the two programs march in step. -/
def Simulates (m : Prog V α) (v : V) (n : Prog W β) (w : W) (R : α → β → V → W → Prop) : Prop :=
  ∀ rs, Matches R (m.run rs v) (n.run rs w)

namespace Simulates

variable {m : Prog V α} {n : Prog W β} {v v' : V} {w : W} {R R' : α → β → V → W → Prop}

/-- A run of the one that has returned is one of the other. -/
theorem returned (h : Simulates m v n w R) {rs rest : List Reply} {a : α}
    (hr : m.run rs v = .returned a rest v') : ∃ b w', n.run rs w = .returned b rest w' ∧ R a b v' w' := by
  have hrs := h rs
  rw [hr] at hrs
  cases hn : n.run rs w with
  | returned b rest' w' =>
      rw [hn] at hrs
      obtain ⟨rfl, hR⟩ := hrs
      exact ⟨b, w', rfl, hR⟩
  | pending w' => rw [hn] at hrs; exact hrs.elim

theorem mono (h : Simulates m v n w R) (hR : ∀ a b v w, R a b v w → R' a b v w) :
    Simulates m v n w R' := by
  intro rs
  have hrs := h rs
  cases hm : m.run rs v <;> cases hn : n.run rs w <;> rw [hm, hn] at hrs
  · exact ⟨hrs.1, hR _ _ _ _ hrs.2⟩
  · exact hrs.elim
  · exact hrs.elim
  · trivial

theorem pure {a : α} {b : β} (h : R a b v w) : Simulates (Pure.pure a) v (Pure.pure b) w R :=
  fun _ => ⟨rfl, h⟩

theorem block : Simulates (Prog.block : Prog V α) v (Prog.block : Prog W β) w R := fun _ => trivial

theorem bind {k : α → Prog V γ} {l : β → Prog W δ} {S : γ → δ → V → W → Prop}
    (h : Simulates m v n w R) (hk : ∀ a b v' w', R a b v' w' → Simulates (k a) v' (l b) w' S) :
    Simulates (m >>= k) v (n >>= l) w S := by
  intro rs
  have hrs := h rs
  rw [Prog.run_bind, Prog.run_bind]
  cases hm : m.run rs v <;> cases hn : n.run rs w <;> rw [hm, hn] at hrs
  · obtain ⟨rfl, hR⟩ := hrs
    exact hk _ _ _ _ hR _
  · exact hrs.elim
  · exact hrs.elim
  · trivial

theorem state_bind {k : V → Prog V γ} {l : W → Prog W δ} {S : γ → δ → V → W → Prop}
    (h : Simulates (k v) v (l w) w S) : Simulates (Prog.state >>= k) v (Prog.state >>= l) w S := h

/-- The first program looks at its state alone. -/
theorem state_left {k : V → Prog V γ} {l : Prog W δ} {S : γ → δ → V → W → Prop}
    (h : Simulates (k v) v l w S) : Simulates (Prog.state >>= k) v l w S := h

theorem state_right {k : Prog V γ} {l : W → Prog W δ} {S : γ → δ → V → W → Prop}
    (h : Simulates k v (l w) w S) : Simulates k v (Prog.state >>= l) w S := h

theorem modify_right {f : W → W} {k : Prog V γ} {l : Unit → Prog W δ} {S : γ → δ → V → W → Prop}
    (h : Simulates k v (l ()) (f w) S) : Simulates k v (Prog.modify f >>= l) w S := h

theorem call_bind {k : Reply → Prog V γ} {l : Reply → Prog W δ} {S : γ → δ → V → W → Prop}
    (h : ∀ r, Simulates (k r) v (l r) w S) : Simulates (Prog.call >>= k) v (Prog.call >>= l) w S := by
  intro rs
  cases rs with
  | nil => trivial
  | cons r rs => exact h r rs

/-- What the second program ensures holds where the two have returned. -/
theorem ensures {Q : β → W → Prop} {C : W → Prop} (h : Simulates m v n w R)
    (hn : Ensures (fun _ => True) n w Q C) :
    Simulates m v n w fun a b v w => R a b v w ∧ Q b w := by
  intro rs
  have hrs := h rs
  cases hm : m.run rs v <;> cases hrun : n.run rs w <;> rw [hm, hrun] at hrs
  · exact ⟨hrs.1, hrs.2, hn.returned (fun _ _ => trivial) hrun⟩
  · exact hrs.elim
  · exact hrs.elim
  · trivial

/-- A program over a part of the state goes through the same states of that part. -/
theorem zoom {part : V → W} {put : W → V → V} {m : Prog W α} {S : α → α → V → W → Prop}
    (h : ∀ rs a rest u, m.run rs (part v) = .returned a rest u → S a a (put u v) u) :
    Simulates (m.zoom part put) v m (part v) S := by
  intro rs
  unfold Prog.zoom
  dsimp only
  cases hm : m.run rs (part v) with
  | returned a rest u => exact ⟨rfl, h rs a rest u hm⟩
  | pending u => trivial

end Simulates

end Simulation

end Ccask.Effect
