import Ccask.Effect.Scan

/-!
# Programs that some replies bring to a result

A program is online when it does not look beyond the replies it uses. What one choice of replies makes such
a program do can be put in front of any other replies, so that choices compose along the program: `Can`
follows a program as `Computes` does, with a reply of one's own choice at each call.
-/

namespace Ccask.Effect

variable {W α β σ : Type}

/-- The program does not look beyond the replies it uses. -/
def Online (m : Prog W α) : Prop :=
  ∀ rs w a rest v, m.run rs w = .returned a rest v →
    ∃ used, rs = used ++ rest ∧ ∀ more, m.run (used ++ more) w = .returned a more v

namespace Online

theorem pure (a : α) : Online (Pure.pure a : Prog W α) := by
  intro rs w b rest v h
  cases h
  exact ⟨[], rfl, fun _ => rfl⟩

theorem block : Online (Prog.block : Prog W α) := by
  intro rs w a rest v h
  cases h

theorem state : Online (Prog.state : Prog W W) := by
  intro rs w a rest v h
  cases h
  exact ⟨[], rfl, fun _ => rfl⟩

theorem modify (f : W → W) : Online (Prog.modify f) := by
  intro rs w a rest v h
  cases h
  exact ⟨[], rfl, fun _ => rfl⟩

theorem call : Online (Prog.call : Prog W Reply) := by
  intro rs w a rest v h
  cases rs with
  | nil => cases h
  | cons r rs =>
      cases h
      exact ⟨[a], rfl, fun _ => rfl⟩

theorem bind {m : Prog W α} {k : α → Prog W β} (hm : Online m) (hk : ∀ a, Online (k a)) :
    Online (m >>= k) := by
  intro rs w b rest v h
  obtain ⟨a, mid, u, hrun, hrest⟩ := Prog.run_bind_eq_returned h
  obtain ⟨used, rfl, hused⟩ := hm rs w a mid u hrun
  obtain ⟨used', rfl, hused'⟩ := hk a mid u b rest v hrest
  refine ⟨used ++ used', (List.append_assoc used used' rest).symm, fun more => ?_⟩
  rw [List.append_assoc, Prog.run_bind_returned (hused _)]
  exact hused' more

theorem call_bind {k : Reply → Prog W β} (hk : ∀ r, Online (k r)) : Online (Prog.call >>= k) :=
  call.bind hk

theorem state_bind {k : W → Prog W β} (hk : ∀ w, Online (k w)) : Online (Prog.state >>= k) :=
  state.bind hk

theorem modify_bind {f : W → W} {k : Unit → Prog W β} (hk : Online (k ())) :
    Online (Prog.modify f >>= k) :=
  (modify f).bind fun _ => hk

/-- The number of rounds that a loop is given does not show. -/
theorem loop {body : σ → Prog W (σ ⊕ β)} (hb : ∀ s, Prog.Consumes (body s))
    (hbody : ∀ s, Online (body s)) (s : σ) : Online (Prog.loop body s) := by
  intro rs
  induction hn : rs.length using Nat.strongRecOn generalizing rs s with
  | ind n ih =>
      subst hn
      intro w b rest v h
      rw [Prog.loop_eq hb] at h ⊢
      obtain ⟨r, mid, u, hround, hrest⟩ := Prog.run_bind_eq_returned h
      obtain ⟨used, hrs, hused⟩ := hbody s rs w r mid u hround
      cases r with
      | inr c =>
          cases hrest
          refine ⟨used, hrs, fun more => ?_⟩
          rw [Prog.run_bind_returned (hused more)]
          rfl
      | inl s' =>
          have hlt := hb s rs w s' mid u hround
          obtain ⟨used', rfl, hused'⟩ := ih mid.length hlt s' mid rfl u b rest v hrest
          refine ⟨used ++ used', by rw [hrs, List.append_assoc], fun more => ?_⟩
          rw [List.append_assoc, Prog.run_bind_returned (hused _)]
          exact hused' more

end Online

/-- Some replies make the program return `a` in the state `v`, whatever replies follow them. -/
def Can (m : Prog W α) (w : W) (a : α) (v : W) : Prop :=
  ∃ used, ∀ more, m.run (used ++ more) w = .returned a more v

namespace Can

variable {m : Prog W α} {w v u : W} {a : α} {b : β}

theorem run (h : Can m w a v) : ∃ rs, m.run rs w = .returned a [] v := by
  obtain ⟨used, hused⟩ := h
  have hrun := hused []
  rw [List.append_nil] at hrun
  exact ⟨used, hrun⟩

theorem pure (a : α) : Can (Pure.pure a : Prog W α) w a w := ⟨[], fun _ => rfl⟩

theorem bind {k : α → Prog W β} (hm : Can m w a v) (hk : Can (k a) v b u) : Can (m >>= k) w b u := by
  obtain ⟨used, hused⟩ := hm
  obtain ⟨used', hused'⟩ := hk
  refine ⟨used ++ used', fun more => ?_⟩
  rw [List.append_assoc, Prog.run_bind_returned (hused _)]
  exact hused' more

theorem state_bind {k : W → Prog W β} (hk : Can (k w) w b v) : Can (Prog.state >>= k) w b v := hk

theorem modify_bind {f : W → W} {k : Unit → Prog W β} (hk : Can (k ()) (f w) b v) :
    Can (Prog.modify f >>= k) w b v := hk

/-- The reply to a call may be chosen. -/
theorem call_bind {k : Reply → Prog W β} (r : Reply) (hk : Can (k r) w b v) :
    Can (Prog.call >>= k) w b v := by
  obtain ⟨used, hused⟩ := hk
  exact ⟨r :: used, hused⟩

theorem loop_next {body : σ → Prog W (σ ⊕ β)} (hb : ∀ s, Prog.Consumes (body s)) {s s' : σ}
    (hround : Can (body s) w (.inl s') v) (hrest : Can (Prog.loop body s') v b u) :
    Can (Prog.loop body s) w b u := by
  rw [Prog.loop_eq hb]
  exact hround.bind hrest

theorem loop_stop {body : σ → Prog W (σ ⊕ β)} (hb : ∀ s, Prog.Consumes (body s)) {s : σ}
    (hround : Can (body s) w (.inr b) v) : Can (Prog.loop body s) w b v := by
  rw [Prog.loop_eq hb]
  exact hround.bind (Can.pure b)

end Can

/-- What a program comes to without errors is one of the things it can come to. -/
theorem Computes.can {m : Prog W α} {w v : W} {a : α} (h : Computes m w a v) (hm : Online m) :
    Can m w a v := by
  obtain ⟨rs, rest, -, hrun⟩ := h.exists_run
  obtain ⟨used, -, hused⟩ := hm rs w a rest v hrun
  exact ⟨used, hused⟩

section Prefixes

variable {body : σ → Prog W (σ ⊕ β)} {next : Nat → Option (α × Nat)} {s : Nat → σ}
  {f : W → α × Nat → W} {I : W → Prop} {off : Nat} {l m : List (α × Nat)} {w : W}

/-- A loop that handles the item it finds, or gives up, handles a prefix of the items there are. -/
theorem Ensures.loop_prefix {A : Reply → Prop} {Q : β → Prop}
    (hbody : ∀ off v, I v → Ensures A (body (s off)) v (fun r u =>
      (∃ a off', r = .inl (s off') ∧ next off = some (a, off') ∧ u = f v (a, off) ∧ I u) ∨
        ∃ b, r = .inr b ∧ Q b ∧ u = v) (fun u => u = v))
    (h : Scan next off l) (hw : I w) :
    Ensures A (Prog.loop body (s off)) w
      (fun b u => Q b ∧ I u ∧ ∃ m, m <+: l ∧ u = m.foldl f w)
      (fun u => I u ∧ ∃ m, m <+: l ∧ u = m.foldl f w) := by
  refine Ensures.loop (I := fun t u => ∃ done off' todo, t = s off' ∧ l = done ++ todo ∧
    Scan next off' todo ∧ I u ∧ u = done.foldl f w) ?_ ?_ ⟨[], off, l, rfl, rfl, h, hw, rfl⟩
  · rintro _ v ⟨done, off', todo, rfl, rfl, hscan, hv, rfl⟩
    refine (hbody off' _ hv).mono ?_ ?_
    · rintro r u (⟨a, off'', rfl, hnext, rfl, hu⟩ | ⟨b, rfl, hb, rfl⟩)
      · cases hscan with
        | stop hn =>
            rw [hn] at hnext
            cases hnext
        | step hs hrest =>
            rw [hs] at hnext
            cases hnext
            refine ⟨done ++ [(a, off')], off'', _, rfl, ?_, hrest, hu, ?_⟩
            · rw [List.append_assoc, List.singleton_append]
            · rw [List.foldl_append, List.foldl_cons, List.foldl_nil]
      · exact ⟨hb, hv, done, List.prefix_append done todo, rfl⟩
    · rintro u rfl
      exact ⟨hv, done, List.prefix_append done todo, rfl⟩
  · rintro _ v ⟨done, off', todo, rfl, rfl, -, hv, rfl⟩
    exact ⟨hv, done, List.prefix_append done todo, rfl⟩

/-- A loop that can give up anywhere can handle any prefix of them. -/
theorem Can.loop_prefix (hb : ∀ s, Prog.Consumes (body s)) {b : β}
    (hstep : ∀ off off' a v, I v → next off = some (a, off') →
      Can (body (s off)) v (.inl (s off')) (f v (a, off)) ∧ I (f v (a, off)))
    (hstop : ∀ off v, I v → Can (body (s off)) v (.inr b) v)
    (h : Scan next off l) (hm : m <+: l) (hw : I w) :
    Can (Prog.loop body (s off)) w b (m.foldl f w) := by
  induction h generalizing w m with
  | stop hn =>
      rw [List.prefix_nil.mp hm]
      exact Can.loop_stop hb (hstop _ w hw)
  | step hs _ ih =>
      cases m with
      | nil => exact Can.loop_stop hb (hstop _ w hw)
      | cons p m =>
          obtain ⟨rfl, hrest⟩ := List.cons_prefix_cons.mp hm
          obtain ⟨hround, hI⟩ := hstep _ _ _ w hw hs
          exact Can.loop_next hb hround (ih hrest hI)

end Prefixes

end Ccask.Effect
