import Ccask.Index.Linked

/-!
# Many lists in one memory

The cells of a collection are spread over doubly linked lists. The value of a cell says which list it is
in; in which order the cells of a list stand does not matter.
-/

namespace Ccask.Index

variable {α : Type} {mem mem' : Memory α} {home : α → Nat} {heads : Nat → Option Nat}
  {l l' c : List (Nat × α)}

theorem Segment.cell {before after : Option Nat} (h : Segment mem before l after) {x : Nat × α}
    (hx : x ∈ l) : ∃ next previous, mem x.1 = some ⟨x.2, next, previous⟩ := by
  obtain ⟨l₁, l₂, rfl⟩ := List.append_of_mem hx
  exact ⟨_, _, (segment_append.mp h).2.1⟩

theorem Segment.isSome {before after : Option Nat} (h : Segment mem before l after) {a : Nat}
    (ha : a ∈ l.map Prod.fst) : (mem a).isSome := by
  obtain ⟨x, hx, rfl⟩ := List.mem_map.mp ha
  obtain ⟨next, previous, hcell⟩ := h.cell hx
  rw [hcell]
  rfl

/-- The pointers of a cell are null or lead to cells. -/
theorem Segment.neighbours {x : Nat × α} {l₁ l₂ : List (Nat × α)}
    (h : Segment mem none (l₁ ++ x :: l₂) none) :
    (∀ a, first l₂ none = some a → (mem a).isSome) ∧ ∀ a, last none l₁ = some a → (mem a).isSome := by
  obtain ⟨h₁, -, h₂⟩ := segment_append.mp h
  exact ⟨fun a ha => h₂.isSome (mem_of_first ha), fun a ha => h₁.isSome (mem_of_last ha)⟩

/-- The cells of `l`, each in the list of its home. -/
structure Chained (mem : Memory α) (home : α → Nat) (heads : Nat → Option Nat) (l : List (Nat × α)) :
    Prop where
  nodup : (l.map Prod.fst).Nodup
  chain : ∀ i, ∃ c, Segment mem none c none ∧ heads i = first c none ∧
    c.Perm (l.filter fun x => home x.2 = i)

/-- A cell of a chain is one of the collection, and at home there. -/
theorem mem_chain {i : Nat} (hc : c.Perm (l.filter fun x => home x.2 = i)) {x : Nat × α} :
    x ∈ c ↔ x ∈ l ∧ home x.2 = i := by
  rw [hc.mem_iff, List.mem_filter, decide_eq_true_eq]

theorem addr_of_mem_chain {i : Nat} (hc : c.Perm (l.filter fun x => home x.2 = i)) {a : Nat}
    (ha : a ∈ c.map Prod.fst) : ∃ x ∈ l, x.1 = a ∧ home x.2 = i := by
  obtain ⟨x, hx, rfl⟩ := List.mem_map.mp ha
  obtain ⟨hl, hi⟩ := (mem_chain hc).mp hx
  exact ⟨x, hl, rfl, hi⟩

theorem nodup_chain {i : Nat} (hc : c.Perm (l.filter fun x => home x.2 = i))
    (hl : (l.map Prod.fst).Nodup) : (c.map Prod.fst).Nodup :=
  (hc.map Prod.fst).nodup_iff.mpr (hl.sublist (List.filter_sublist.map _))

/-- Different lists have no cell in common. -/
theorem disjoint_chains {i j : Nat} {d : List (Nat × α)} (hl : (l.map Prod.fst).Nodup)
    (hc : c.Perm (l.filter fun x => home x.2 = i)) (hd : d.Perm (l.filter fun x => home x.2 = j))
    (hij : i ≠ j) {a : Nat} (ha : a ∈ c.map Prod.fst) : a ∉ d.map Prod.fst := by
  intro ha'
  obtain ⟨x, hx, rfl, rfl⟩ := addr_of_mem_chain hc ha
  obtain ⟨y, hy, hxy, rfl⟩ := addr_of_mem_chain hd ha'
  exact hij (by rw [List.inj_on_of_nodup_map hl hx hy hxy.symm])

namespace Chained

theorem nil (mem : Memory α) (home : α → Nat) : Chained mem home (fun _ => none) [] :=
  ⟨List.nodup_nil, fun _ => ⟨[], trivial, rfl, List.Perm.refl _⟩⟩

theorem perm (h : Chained mem home heads l) (hl : l.Perm l') : Chained mem home heads l' := by
  refine ⟨(hl.map Prod.fst).nodup_iff.mp h.nodup, fun i => ?_⟩
  obtain ⟨c, hseg, hfirst, hc⟩ := h.chain i
  exact ⟨c, hseg, hfirst, hc.trans (hl.filter _)⟩

/-- What is stored elsewhere leaves them. -/
theorem congr (h : Chained mem home heads l) (hmem : ∀ x ∈ l, mem' x.1 = mem x.1) :
    Chained mem' home heads l := by
  refine ⟨h.nodup, fun i => ?_⟩
  obtain ⟨c, hseg, hfirst, hc⟩ := h.chain i
  exact ⟨c, hseg.congr fun x hx => hmem x ((mem_chain hc).mp hx).1, hfirst, hc⟩

/-- Every cell stands in memory. -/
theorem cell (h : Chained mem home heads l) {x : Nat × α} (hx : x ∈ l) :
    ∃ next previous, mem x.1 = some ⟨x.2, next, previous⟩ := by
  obtain ⟨c, hseg, -, hc⟩ := h.chain (home x.2)
  exact hseg.cell ((mem_chain hc).mpr ⟨hx, rfl⟩)

theorem neighbours (h : Chained mem home heads l) {x : Nat × α} (hx : x ∈ l) :
    ∃ next previous, mem x.1 = some ⟨x.2, next, previous⟩ ∧
      (∀ a, next = some a → (mem a).isSome) ∧ ∀ a, previous = some a → (mem a).isSome := by
  obtain ⟨c, hseg, -, hc⟩ := h.chain (home x.2)
  obtain ⟨l₁, l₂, rfl⟩ := List.append_of_mem ((mem_chain hc).mpr ⟨hx, rfl⟩)
  exact ⟨_, _, (segment_append.mp hseg).2.1, hseg.neighbours⟩

/-- A new cell goes to the front of its list. -/
theorem push (h : Chained mem home heads l) {a : Nat} (ha : a ∉ l.map Prod.fst) (v : α) :
    Chained (setPrevious (Function.update mem a (some ⟨v, heads (home v), none⟩)) (heads (home v))
      (some a)) home (Function.update heads (home v) (some a)) ((a, v) :: l) := by
  obtain ⟨c, hseg, hfirst, hc⟩ := h.chain (home v)
  have hout : ∀ {i : Nat} {d : List (Nat × α)}, d.Perm (l.filter fun x => home x.2 = i) →
      a ∉ d.map Prod.fst := by
    intro i d hd hmem
    obtain ⟨x, hx, rfl, -⟩ := addr_of_mem_chain hd hmem
    exact ha (List.mem_map_of_mem hx)
  refine ⟨List.nodup_cons.mpr ⟨ha, h.nodup⟩, fun i => ?_⟩
  by_cases hi : i = home v
  · refine ⟨(a, v) :: c, ?_, by rw [hi, Function.update_self]; rfl, ?_⟩
    · rw [hfirst]
      have hseg' : Segment mem none ([] ++ c) none := hseg
      exact hseg'.insert (nodup_chain hc h.nodup) (hout hc)
    · rw [List.filter_cons_of_pos (by simp [hi]), hi]
      exact hc.cons _
  · obtain ⟨d, hseg', hfirst', hd⟩ := h.chain i
    refine ⟨d, ?_, by rw [Function.update_of_ne hi]; exact hfirst', ?_⟩
    · refine (hseg'.update (hout hd) _).setPrevious_frame ?_ _
      intro b hb
      rw [hfirst] at hb
      exact disjoint_chains h.nodup hc hd (Ne.symm hi) (mem_of_first hb)
    · rw [List.filter_cons_of_neg (by simpa using Ne.symm hi)]
      exact hd

/-- A cell is taken out of its list. -/
theorem remove {x : Nat × α} {next previous : Option Nat} (h : Chained mem home heads l)
    (hl : l.Perm (x :: l')) (hx : mem x.1 = some ⟨x.2, next, previous⟩) :
    Chained (setPrevious (setNext mem previous next) next previous) home
      (if heads (home x.2) = some x.1 then Function.update heads (home x.2) next else heads) l' := by
  have hnodup := h.nodup
  have hmem : x ∈ l := hl.mem_iff.mpr List.mem_cons_self
  have hnodup' : ((x :: l').map Prod.fst).Nodup := (hl.map Prod.fst).nodup_iff.mp hnodup
  obtain ⟨c, hseg, hfirst, hc⟩ := h.chain (home x.2)
  obtain ⟨l₁, l₂, rfl⟩ := List.append_of_mem ((mem_chain hc).mpr ⟨hmem, rfl⟩)
  have hcell := (segment_append.mp hseg).2.1
  rw [hx] at hcell
  obtain ⟨-, rfl, rfl⟩ := (Cell.mk.injEq ..).mp (Option.some.inj hcell)
  have hcnodup := nodup_chain hc hnodup
  refine ⟨(List.nodup_cons.mp hnodup').2, fun i => ?_⟩
  by_cases hi : i = home x.2
  · refine ⟨l₁ ++ l₂, hseg.remove hcnodup, ?_, ?_⟩
    · rw [hi, hfirst]
      cases l₁ with
      | nil =>
          rw [List.nil_append, first_cons, if_pos rfl, Function.update_self]
          rfl
      | cons y l₁ =>
          have hne : y.1 ≠ x.1 := by
            intro heq
            rw [List.cons_append, List.map_cons, List.nodup_cons] at hcnodup
            refine hcnodup.1 ?_
            rw [heq]
            exact List.mem_map_of_mem (List.mem_append_right _ List.mem_cons_self)
          rw [if_neg (by simpa using hne), hfirst]
          rfl
    · have hfilter := hc.trans (hl.filter fun y => home y.2 = home x.2)
      rw [List.filter_cons_of_pos (by simp)] at hfilter
      rw [hi]
      exact (List.perm_middle.symm.trans hfilter).cons_inv
  · obtain ⟨d, hseg', hfirst', hd⟩ := h.chain i
    have hframe : ∀ a ∈ (l₁ ++ x :: l₂).map Prod.fst, a ∉ d.map Prod.fst :=
      fun a ha => disjoint_chains hnodup hc hd (Ne.symm hi) ha
    rw [List.map_append, List.map_cons] at hframe
    refine ⟨d, ?_, ?_, ?_⟩
    · refine (hseg'.setNext_frame ?_ _).setPrevious_frame ?_ _
      · intro a ha
        exact hframe a (List.mem_append_left _ (mem_of_last ha))
      · intro a ha
        exact hframe a (List.mem_append_right _ (List.mem_cons_of_mem _ (mem_of_first ha)))
    · split
      · rw [Function.update_of_ne hi]
        exact hfirst'
      · exact hfirst'
    · have hfilter := hd.trans (hl.filter fun y => home y.2 = i)
      rwa [List.filter_cons_of_neg (by simpa using Ne.symm hi)] at hfilter

end Chained

end Ccask.Index
