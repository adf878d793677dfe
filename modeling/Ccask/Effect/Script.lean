import Ccask.Effect.Program

/-!
# Programs that work through a script

A script is a list of actions on the state. A program that makes a system call for each of them and
is cut short has done as many of them as calls were answered, so the states after a crash are those
between two actions.
-/

namespace Ccask.Effect

variable {W α β σ : Type} (act : σ → W → W)

/-- The state after some actions. -/
def play (l : List σ) (w : W) : W := l.foldl (fun w op => act op w) w

/-- Without errors every reply goes to the next action of the script, and the program returns `a`
behind the last one. -/
structure Scripted (m : Prog W α) (w : W) (l : List σ) (a : α) : Prop where
  whole : ∀ rs, AllClean rs → l.length ≤ rs.length →
    m.run rs w = .returned a (rs.drop l.length) (play act l w)
  cut : ∀ rs, AllClean rs → rs.length < l.length →
    m.run rs w = .pending (play act (l.take rs.length) w)

variable {act}

@[simp] theorem play_nil (w : W) : play act [] w = w := rfl

@[simp] theorem play_cons (op : σ) (l : List σ) (w : W) :
    play act (op :: l) w = play act l (act op w) := rfl

theorem play_append (l l' : List σ) (w : W) :
    play act (l ++ l') w = play act l' (play act l w) := List.foldl_append

theorem completed_le_length (rs : List Reply) : completed rs ≤ rs.length := List.countP_le_length

theorem completed_drop (n : Nat) (rs : List Reply) : completed rs ≤ completed (rs.drop n) + n := by
  induction n generalizing rs with
  | zero => exact Nat.le_refl _
  | succ n ih =>
      cases rs with
      | nil => exact Nat.zero_le _
      | cons r rs =>
          have hr := completed_cons_le r rs
          have hrs := ih rs
          rw [List.drop_succ_cons]
          omega

namespace Scripted

variable {m : Prog W α} {w : W} {l : List σ} {a : α}

/-- The state a run has reached, wherever it has come to. -/
theorem state (h : Scripted act m w l a) {rs : List Reply} (hrs : AllClean rs) :
    (m.run rs w).state = play act (l.take rs.length) w := by
  obtain hlt | hle := Nat.lt_or_ge rs.length l.length
  · rw [h.cut rs hrs hlt]
    rfl
  · rw [h.whole rs hrs hle, List.take_of_length_le hle]
    rfl

theorem sound (h : Scripted act m w l a) : Ensures Reply.Clean m w
    (fun b v => b = a ∧ v = play act l w) (fun v => ∃ pre, pre <+: l ∧ v = play act pre w) := by
  intro rs hrs
  obtain hlt | hle := Nat.lt_or_ge rs.length l.length
  · rw [h.cut rs hrs hlt]
    exact ⟨_, List.take_prefix _ l, rfl⟩
  · rw [h.whole rs hrs hle]
    exact ⟨rfl, rfl⟩

theorem computes (h : Scripted act m w l a) : Computes m w a (play act l w) := by
  refine ⟨h.sound.mono (fun _ _ hv => hv) fun _ _ => trivial, l.length, fun rs hrs hn => ?_⟩
  have hle := completed_le_length rs
  exact ⟨a, _, _, h.whole rs hrs (by omega), completed_drop _ _⟩

theorem pure (a : α) : Scripted act (Pure.pure a : Prog W α) w [] a :=
  ⟨fun _ _ _ => rfl, fun _ _ h => absurd h (Nat.not_lt_zero _)⟩

theorem bind {k : α → Prog W β} {l' : List σ} {b : β} (hm : Scripted act m w l a)
    (hk : Scripted act (k a) (play act l w) l' b) :
    Scripted act (m >>= k) w (l ++ l') b := by
  constructor
  · intro rs hrs hlen
    rw [List.length_append] at hlen
    have hrest : l'.length ≤ (rs.drop l.length).length := by
      rw [List.length_drop]
      omega
    rw [Prog.run_bind_returned (hm.whole rs hrs (by omega)),
      hk.whole _ (hrs.rest (List.drop_suffix _ _)) hrest, List.drop_drop, play_append,
      List.length_append]
  · intro rs hrs hlen
    rw [List.length_append] at hlen
    obtain hlt | hle := Nat.lt_or_ge rs.length l.length
    · rw [Prog.run_bind_pending (hm.cut rs hrs hlt), List.take_append_of_le_length (Nat.le_of_lt hlt)]
    · have hrest : (rs.drop l.length).length < l'.length := by
        rw [List.length_drop]
        omega
      rw [Prog.run_bind_returned (hm.whole rs hrs hle),
        hk.cut _ (hrs.rest (List.drop_suffix _ _)) hrest, List.length_drop, ← play_append,
        List.take_append, List.take_of_length_le hle]

/-- What follows does nothing more. -/
theorem bind_done {k : α → Prog W β} {b : β} (hm : Scripted act m w l a)
    (hk : Scripted act (k a) (play act l w) [] b) : Scripted act (m >>= k) w l b := by
  have h := hm.bind hk
  rwa [List.append_nil] at h

theorem state_bind {k : W → Prog W β} {b : β} (hk : Scripted act (k w) w l b) :
    Scripted act (Prog.state >>= k) w l b :=
  ⟨hk.whole, hk.cut⟩

/-- A call, after each clean reply to which the action is done. -/
theorem action {k : Reply → Prog W β} {op : σ} {b : β}
    (hk : ∀ r rs, r.Clean → (k r).run rs w = .returned b rs (act op w)) :
    Scripted act (Prog.call >>= k) w [op] b := by
  constructor
  · intro rs hrs hlen
    cases rs with
    | nil => exact absurd hlen (Nat.not_succ_le_zero _)
    | cons r rs => exact hk r rs (hrs r List.mem_cons_self)
  · intro rs hrs hlen
    cases rs with
    | nil => rfl
    | cons r rs => exact absurd hlen (by simp)

end Scripted

end Ccask.Effect
