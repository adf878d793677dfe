import Ccask.Effect.Program

/-!
# Sequences of items laid out one after another

A reader finds the item at an offset, and where the next one starts, or finds nothing
there. `Scan` is what reading on until nothing is found gives.
-/

namespace Ccask.Effect

variable {α γ W β σ : Type}

/-- Reading from an offset on gives these items, each with its offset, and then stops. -/
inductive Scan (next : Nat → Option (α × Nat)) : Nat → List (α × Nat) → Prop
  | stop {off : Nat} : next off = none → Scan next off []
  | step {off off' : Nat} {a : α} {l : List (α × Nat)} :
      next off = some (a, off') → Scan next off' l → Scan next off ((a, off) :: l)

theorem Scan.unique {next : Nat → Option (α × Nat)} {off : Nat} {l l' : List (α × Nat)}
    (h : Scan next off l) (h' : Scan next off l') : l = l' := by
  induction h generalizing l' with
  | stop hn =>
      cases h' with
      | stop => rfl
      | step hs => rw [hn] at hs; cases hs
  | step hs _ ih =>
      cases h' with
      | stop hn => rw [hs] at hn; cases hn
      | step hs' hl =>
          rw [hs] at hs'
          cases hs'
          rw [ih hl]

/-- Reading from an offset on comes to this item. -/
inductive Yields (next : Nat → Option (α × Nat)) : Nat → α × Nat → Prop
  | here {off off' : Nat} {a : α} : next off = some (a, off') → Yields next off (a, off)
  | later {off off' : Nat} {a : α} {p : α × Nat} :
      next off = some (a, off') → Yields next off' p → Yields next off p

/-- An item is found at its own offset. -/
theorem Yields.found {next : Nat → Option (α × Nat)} {off : Nat} {p : α × Nat}
    (h : Yields next off p) : ∃ off', next p.2 = some (p.1, off') := by
  induction h with
  | here hn => exact ⟨_, hn⟩
  | later _ _ ih => exact ih

theorem Scan.mem_iff {next : Nat → Option (α × Nat)} {off : Nat} {l : List (α × Nat)}
    (h : Scan next off l) (p : α × Nat) : p ∈ l ↔ Yields next off p := by
  induction h with
  | stop hn =>
      constructor
      · simp
      · intro hy
        cases hy with
        | here hn' => cases hn.symm.trans hn'
        | later hn' => cases hn.symm.trans hn'
  | step hn _ ih =>
      rw [List.mem_cons, ih]
      constructor
      · rintro (rfl | hy)
        · exact .here hn
        · exact .later hn hy
      · intro hy
        cases hy with
        | here hn' =>
            cases hn.symm.trans hn'
            exact .inl rfl
        | later hn' hy =>
            cases hn.symm.trans hn'
            exact .inr hy

/-- Reading that gets on at every item, and not beyond a bound, stops. -/
theorem exists_scan_of_lt {next : Nat → Option (α × Nat)} {b : Nat} (off : Nat)
    (h : ∀ a i j, Yields next off (a, i) → next i = some (a, j) → i < j ∧ j ≤ b) :
    ∃ l, Scan next off l := by
  induction hn : b - off using Nat.strongRecOn generalizing off with
  | ind n ih =>
      cases hr : next off with
      | none => exact ⟨[], .stop hr⟩
      | some p =>
          obtain ⟨a, off'⟩ := p
          obtain ⟨hlt, hle⟩ := h a off off' (.here hr) hr
          obtain ⟨l, hl⟩ := ih (b - off') (by omega) off'
            (fun b i j hy hj => h b i j (.later hr hy) hj) rfl
          exact ⟨(a, off) :: l, .step hr hl⟩

section Layout

variable (bytes : α → List γ)

def layout (l : List α) : List γ := l.flatMap bytes

/-- The items with the offsets they have in a layout that starts at `off`. -/
def locate : Nat → List α → List (α × Nat)
  | _, [] => []
  | off, a :: l => (a, off) :: locate (off + (bytes a).length) l

variable {bytes}

@[simp] theorem layout_nil : layout bytes [] = [] := rfl

@[simp] theorem layout_cons (a : α) (l : List α) :
    layout bytes (a :: l) = bytes a ++ layout bytes l := by simp [layout]

@[simp] theorem layout_append (l l' : List α) :
    layout bytes (l ++ l') = layout bytes l ++ layout bytes l' := by simp [layout]

@[simp] theorem locate_nil (off : Nat) : locate bytes off [] = [] := rfl

@[simp] theorem locate_cons (off : Nat) (a : α) (l : List α) :
    locate bytes off (a :: l) = (a, off) :: locate bytes (off + (bytes a).length) l := rfl

theorem locate_append (off : Nat) (l l' : List α) : locate bytes off (l ++ l') =
    locate bytes off l ++ locate bytes (off + (layout bytes l).length) l' := by
  induction l generalizing off with
  | nil => rfl
  | cons a l ih =>
      simp only [List.cons_append, locate_cons, ih, layout_cons, List.length_append, Nat.add_assoc]

theorem take_locate (off n : Nat) (l : List α) :
    (locate bytes off l).take n = locate bytes off (l.take n) := by
  induction l generalizing off n with
  | nil => simp
  | cons a l ih =>
      cases n with
      | zero => rfl
      | succ n => rw [locate_cons, List.take_succ_cons, List.take_succ_cons, locate_cons, ih]

@[simp] theorem map_fst_locate (off : Nat) (l : List α) : (locate bytes off l).map Prod.fst = l := by
  induction l generalizing off with
  | nil => rfl
  | cons a l ih => simp [ih]

@[simp] theorem length_locate (off : Nat) (l : List α) : (locate bytes off l).length = l.length := by
  rw [← List.length_map Prod.fst, map_fst_locate]

/-- A located item stands at its offset. -/
theorem mem_locate {off : Nat} {l : List α} {p : α × Nat} (h : p ∈ locate bytes off l) :
    ∃ pre post, l = pre ++ p.1 :: post ∧ p.2 = off + (layout bytes pre).length := by
  induction l generalizing off with
  | nil => cases h
  | cons a l ih =>
      rcases List.mem_cons.mp h with rfl | h
      · exact ⟨[], l, rfl, rfl⟩
      · obtain ⟨pre, post, hl, hp⟩ := ih h
        refine ⟨a :: pre, post, by rw [hl]; rfl, ?_⟩
        rw [hp, layout_cons, List.length_append]
        omega

theorem le_of_mem_locate {off : Nat} {l : List α} {p : α × Nat} (h : p ∈ locate bytes off l) :
    off ≤ p.2 := by
  obtain ⟨pre, post, -, hp⟩ := mem_locate h
  omega

/-- Items that have bytes are located in ascending order. -/
theorem locate_sorted {off : Nat} {l : List α} (hl : ∀ a ∈ l, bytes a ≠ []) :
    (locate bytes off l).Pairwise fun p q => p.2 < q.2 := by
  induction l generalizing off with
  | nil => exact List.Pairwise.nil
  | cons a l ih =>
      rw [locate_cons, List.pairwise_cons]
      refine ⟨fun q hq => ?_, ih fun b hb => hl b (List.mem_cons_of_mem _ hb)⟩
      have hle := le_of_mem_locate hq
      have hpos := List.length_pos_of_ne_nil (hl a List.mem_cons_self)
      show off < q.2
      omega

theorem locate_map {δ : Type} (g : δ → α) (off : Nat) (l : List δ) :
    locate bytes off (l.map g) = (locate (fun d => bytes (g d)) off l).map (Prod.map g id) := by
  induction l generalizing off with
  | nil => rfl
  | cons d l ih => simp [ih]

/-- A layout cut short: the items that are whole, and a part of the next one. -/
theorem take_layout (bytes : α → List γ) {l : List α} {n : Nat} (off : Nat) (hn : n ≤ (layout bytes l).length) :
    ∃ l₁ l₂ p, l = l₁ ++ l₂ ∧ (layout bytes l).take n = layout bytes l₁ ++ p ∧
      (locate bytes off l).filter (fun q => q.2 + (bytes q.1).length ≤ off + n) =
        locate bytes off l₁ ∧
      (p = [] ∨ ∃ a ∈ l₂, p <+: bytes a ∧ p ≠ bytes a) := by
  induction l generalizing off n with
  | nil =>
      have h0 : n = 0 := by simpa using hn
      exact ⟨[], [], [], rfl, by simp [h0], rfl, .inl rfl⟩
  | cons a l ih =>
      rw [layout_cons, List.length_append] at hn
      rcases Nat.lt_or_ge n (bytes a).length with hlt | hge
      · refine ⟨[], a :: l, (bytes a).take n, rfl, ?_, ?_, .inr ⟨a, List.mem_cons_self,
          List.take_prefix _ _, ?_⟩⟩
        · rw [layout_cons, List.take_append_of_le_length (Nat.le_of_lt hlt)]
          rfl
        · apply List.filter_eq_nil_iff.mpr
          intro q hq
          rcases List.mem_cons.mp hq with rfl | hq
          · simp only [decide_eq_true_eq]
            omega
          · have hle := le_of_mem_locate hq
            simp only [decide_eq_true_eq]
            omega
        · intro h
          have hlen := congrArg List.length h
          rw [List.length_take] at hlen
          omega
      · obtain ⟨l₁, l₂, p, hl, htake, hfilter, hp⟩ :=
          ih (n := n - (bytes a).length) (off + (bytes a).length) (by omega)
        refine ⟨a :: l₁, l₂, p, by rw [hl]; rfl, ?_, ?_, hp⟩
        · rw [layout_cons, List.take_append, List.take_of_length_le hge, htake, layout_cons,
            List.append_assoc]
        · have hend : off + (bytes a).length + (n - (bytes a).length) = off + n := by omega
          rw [hend] at hfilter
          rw [locate_cons, List.filter_cons_of_pos (by simp only [decide_eq_true_eq]; omega),
            hfilter, locate_cons]

/-- A reader that finds an item before anything finds the items of a layout, and goes on
behind it. -/
theorem scan_layout (next : List γ → Nat → Option (α × Nat)) {P : α → Prop}
    (hnext : ∀ pre a post, P a →
      next (pre ++ bytes a ++ post) pre.length = some (a, pre.length + (bytes a).length))
    {l : List α} (hl : ∀ a ∈ l, P a) (pre post : List γ) {m : List (α × Nat)}
    (hm : Scan (next (pre ++ layout bytes l ++ post)) (pre.length + (layout bytes l).length) m) :
    Scan (next (pre ++ layout bytes l ++ post)) pre.length (locate bytes pre.length l ++ m) := by
  induction l generalizing pre with
  | nil => simpa using hm
  | cons a l ih =>
      have hsplit : pre ++ layout bytes (a :: l) ++ post =
          pre ++ bytes a ++ layout bytes l ++ post := by simp
      have hend : pre.length + (layout bytes (a :: l)).length =
          (pre ++ bytes a).length + (layout bytes l).length := by
        simp only [layout_cons, List.length_append, Nat.add_assoc]
      rw [hsplit, hend] at hm
      have hrest := ih (fun b hb => hl b (List.mem_cons_of_mem _ hb)) (pre ++ bytes a) hm
      rw [hsplit]
      refine .step (a := a) (?_ : _ = some (a, pre.length + (bytes a).length)) ?_
      · rw [List.append_assoc (pre ++ bytes a)]
        exact hnext pre a _ (hl a List.mem_cons_self)
      · rwa [List.length_append] at hrest

/-- What the same reader finds behind a layout. -/
theorem Scan.behind_layout {next : List γ → Nat → Option (α × Nat)} {P : α → Prop}
    (hnext : ∀ pre a post, P a →
      next (pre ++ bytes a ++ post) pre.length = some (a, pre.length + (bytes a).length))
    {l : List α} (hl : ∀ a ∈ l, P a) (pre post : List γ) {m : List (α × Nat)}
    (hm : Scan (next (pre ++ layout bytes l ++ post)) pre.length m) :
    ∃ m', m = locate bytes pre.length l ++ m' ∧
      Scan (next (pre ++ layout bytes l ++ post)) (pre.length + (layout bytes l).length) m' := by
  induction l generalizing pre m with
  | nil => exact ⟨m, rfl, hm⟩
  | cons a l ih =>
      have hsplit : pre ++ layout bytes (a :: l) ++ post =
          pre ++ bytes a ++ layout bytes l ++ post := by simp
      have hend : pre.length + (layout bytes (a :: l)).length =
          (pre ++ bytes a).length + (layout bytes l).length := by
        simp only [layout_cons, List.length_append, Nat.add_assoc]
      rw [hsplit] at hm
      rw [hsplit, hend]
      have hfirst : next (pre ++ bytes a ++ layout bytes l ++ post) pre.length =
          some (a, (pre ++ bytes a).length) := by
        rw [List.append_assoc (pre ++ bytes a), List.length_append]
        exact hnext pre a _ (hl a List.mem_cons_self)
      cases hm with
      | stop hn =>
          rw [hfirst] at hn
          cases hn
      | step hn hrest =>
          rw [hfirst] at hn
          obtain ⟨rfl, rfl⟩ := Prod.mk.inj (Option.some.inj hn)
          obtain ⟨m', rfl, hm'⟩ :=
            ih (fun b hb => hl b (List.mem_cons_of_mem _ hb)) (pre ++ bytes a) hrest
          refine ⟨m', ?_, hm'⟩
          rw [locate_cons, List.length_append, List.cons_append]

end Layout

section Tiling

variable (size : α → Nat) (n : Nat)

/-- Items one behind the other from an offset on, each of them in front of `n`. -/
inductive Tiles : Nat → List (α × Nat) → Prop
  | nil {off : Nat} : Tiles off []
  | cons {off : Nat} {a : α} {l : List (α × Nat)} :
      off + size a ≤ n → Tiles (off + size a) l → Tiles off ((a, off) :: l)

variable {size : α → Nat} {n : Nat} {off : Nat}

theorem Tiles.of_prefix {l l' : List (α × Nat)} (h : Tiles size n off l) (hl : l' <+: l) :
    Tiles size n off l' := by
  induction h generalizing l' with
  | nil =>
      rw [List.prefix_nil.mp hl]
      exact .nil
  | cons hle _ ih =>
      rcases List.prefix_cons_iff.mp hl with rfl | ⟨t, rfl, ht⟩
      · exact .nil
      · exact .cons hle (ih ht)

theorem Tiles.start_eq {a : α} {i : Nat} {l : List (α × Nat)} (h : Tiles size n off ((a, i) :: l)) :
    i = off := by
  cases h
  rfl

/-- Every item of a tiling lies in front of `n`. -/
theorem Tiles.le_of_mem {l : List (α × Nat)} (h : Tiles size n off l) {p : α × Nat} (hp : p ∈ l) :
    p.2 + size p.1 ≤ n := by
  induction h with
  | nil => cases hp
  | cons hle _ ih =>
      rcases List.mem_cons.mp hp with rfl | hp
      · exact hle
      · exact ih hp

/-- Behind the items of a layout a tiling goes on where the layout ends. -/
theorem Tiles.behind_locate {bytes : α → List γ} {l : List α} {m : List (α × Nat)}
    (hsize : ∀ a ∈ l, size a = (bytes a).length)
    (h : Tiles size n off (locate bytes off l ++ m)) :
    Tiles size n (off + (layout bytes l).length) m := by
  induction l generalizing off with
  | nil => exact h
  | cons a l ih =>
      cases h with
      | cons hle hrest =>
          rw [hsize a List.mem_cons_self] at hrest
          have hm := ih (fun b hb => hsize b (List.mem_cons_of_mem _ hb)) hrest
          rwa [layout_cons, List.length_append, ← Nat.add_assoc]

end Tiling

/-- A loop that handles one item in a round handles all of them. -/
theorem Computes.loop_scan {body : σ → Prog W (σ ⊕ β)} (hb : ∀ s, Prog.Consumes (body s))
    {next : Nat → Option (α × Nat)} {s : Nat → σ} {f : W → α × Nat → W} {I : W → Prop}
    {P : α × Nat → Prop} {b : β}
    (hstep : ∀ off off' a v, I v → P (a, off) → next off = some (a, off') →
      Computes (body (s off)) v (.inl (s off')) (f v (a, off)) ∧ I (f v (a, off)))
    (hstop : ∀ off v, I v → next off = none → Computes (body (s off)) v (.inr b) v)
    {off : Nat} {l : List (α × Nat)} (h : Scan next off l) (hP : ∀ p ∈ l, P p) {w : W} (hw : I w) :
    Computes (Prog.loop body (s off)) w b (l.foldl f w) := by
  induction h generalizing w with
  | stop hn => exact Computes.loop_stop hb (hstop _ w hw hn)
  | step hs _ ih =>
      obtain ⟨hbody, hI⟩ := hstep _ _ _ w hw (hP _ List.mem_cons_self) hs
      exact Computes.loop_next hb hbody (ih (fun p hp => hP p (List.mem_cons_of_mem _ hp)) hI)

end Ccask.Effect
