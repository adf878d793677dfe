import Mathlib.Data.List.Induction
import Mathlib.Data.List.Nodup
import Mathlib.Data.List.Perm.Subperm
import Mathlib.Logic.Function.Basic

/-!
# Doubly linked lists

Cells in a memory point to the next and to the previous one. A `Segment` is a stretch of cells with the
pointers that lead out of it at both ends; a list is a segment between two null pointers.
-/

namespace Ccask.Index

variable {α : Type}

structure Cell (α : Type) where
  value : α
  next : Option Nat
  previous : Option Nat

abbrev Memory (α : Type) := Nat → Option (Cell α)

/-- The pointer to the first cell, or to what stands behind an empty stretch. -/
def first (l : List (Nat × α)) (after : Option Nat) : Option Nat :=
  match l with
  | [] => after
  | x :: _ => some x.1

/-- The pointer to the last cell, or to what stands before an empty stretch. -/
def last (before : Option Nat) : List (Nat × α) → Option Nat
  | [] => before
  | x :: l => last (some x.1) l

/-- The cells of `l` stand in memory, each linked to its neighbours. -/
def Segment (mem : Memory α) : Option Nat → List (Nat × α) → Option Nat → Prop
  | _, [], _ => True
  | before, x :: l, after => mem x.1 = some ⟨x.2, first l after, before⟩ ∧ Segment mem (some x.1) l after

variable {mem mem' : Memory α} {l l₁ l₂ : List (Nat × α)} {before after : Option Nat}

@[simp] theorem first_nil (after : Option Nat) : first ([] : List (Nat × α)) after = after := rfl

@[simp] theorem first_cons (x : Nat × α) (l : List (Nat × α)) (after : Option Nat) :
    first (x :: l) after = some x.1 := rfl

@[simp] theorem last_nil (before : Option Nat) : last before ([] : List (Nat × α)) = before := rfl

@[simp] theorem last_cons (before : Option Nat) (x : Nat × α) (l : List (Nat × α)) :
    last before (x :: l) = last (some x.1) l := rfl

theorem first_append (l₁ l₂ : List (Nat × α)) (after : Option Nat) :
    first (l₁ ++ l₂) after = first l₁ (first l₂ after) := by
  cases l₁ with
  | nil => rfl
  | cons x l₁ => rfl

theorem last_append (before : Option Nat) (l₁ l₂ : List (Nat × α)) :
    last before (l₁ ++ l₂) = last (last before l₁) l₂ := by
  induction l₁ generalizing before with
  | nil => rfl
  | cons x l₁ ih => exact ih (some x.1)

theorem segment_append : Segment mem before (l₁ ++ l₂) after ↔
    Segment mem before l₁ (first l₂ after) ∧ Segment mem (last before l₁) l₂ after := by
  induction l₁ generalizing before with
  | nil => exact ⟨fun h => ⟨trivial, h⟩, fun h => h.2⟩
  | cons x l₁ ih =>
      simp only [List.cons_append, Segment, ih, first_append, last_cons, and_assoc]

/-- A segment only depends on its own cells. -/
theorem Segment.congr (h : Segment mem before l after) (hmem : ∀ x ∈ l, mem' x.1 = mem x.1) :
    Segment mem' before l after := by
  induction l generalizing before with
  | nil => trivial
  | cons x l ih =>
      obtain ⟨hx, hl⟩ := h
      exact ⟨by rw [hmem x List.mem_cons_self, hx],
        ih hl fun y hy => hmem y (List.mem_cons_of_mem _ hy)⟩

/-- What is stored elsewhere leaves it. -/
theorem Segment.update (h : Segment mem before l after) {a : Nat} (ha : a ∉ l.map Prod.fst)
    (c : Option (Cell α)) : Segment (Function.update mem a c) before l after := by
  refine h.congr fun x hx => Function.update_of_ne ?_ _ _
  rintro rfl
  exact ha (List.mem_map_of_mem hx)

/-- Store the pointer of a cell to the next one; through a null pointer nothing is stored. -/
def setNext (mem : Memory α) (p next : Option Nat) : Memory α :=
  match p with
  | none => mem
  | some a => Function.update mem a ((mem a).map fun c => { c with next })

def setPrevious (mem : Memory α) (p previous : Option Nat) : Memory α :=
  match p with
  | none => mem
  | some a => Function.update mem a ((mem a).map fun c => { c with previous })

theorem Segment.setNext_frame (h : Segment mem before l after) {p : Option Nat}
    (hp : ∀ a, p = some a → a ∉ l.map Prod.fst) (q : Option Nat) :
    Segment (setNext mem p q) before l after := by
  cases p with
  | none => exact h
  | some a => exact h.update (hp a rfl) _

theorem Segment.setPrevious_frame (h : Segment mem before l after) {p : Option Nat}
    (hp : ∀ a, p = some a → a ∉ l.map Prod.fst) (q : Option Nat) :
    Segment (setPrevious mem p q) before l after := by
  cases p with
  | none => exact h
  | some a => exact h.update (hp a rfl) _

theorem setNext_of_ne {p : Option Nat} {a : Nat} (h : p ≠ some a) (q : Option Nat) :
    setNext mem p q a = mem a := by
  cases p with
  | none => rfl
  | some b => exact Function.update_of_ne (fun hab => h (congrArg some hab.symm)) _ _

theorem setPrevious_of_ne {p : Option Nat} {a : Nat} (h : p ≠ some a) (q : Option Nat) :
    setPrevious mem p q a = mem a := by
  cases p with
  | none => rfl
  | some b => exact Function.update_of_ne (fun hab => h (congrArg some hab.symm)) _ _

theorem mem_of_last {a : Nat} (h : last none l = some a) : a ∈ l.map Prod.fst := by
  induction l using List.reverseRecOn with
  | nil => cases h
  | append_singleton l x =>
      rw [last_append, last_cons, last_nil] at h
      rw [List.map_append]
      exact List.mem_append_right _ (List.mem_singleton.mpr (Option.some.inj h).symm)

theorem mem_of_first {a : Nat} (h : first l none = some a) : a ∈ l.map Prod.fst := by
  cases l with
  | nil => cases h
  | cons x l =>
      rw [List.map_cons, ← Option.some.inj h]
      exact List.mem_cons_self

/-- The last cell is linked to something else. -/
theorem Segment.setNext (h : Segment mem before l after) (hnodup : (l.map Prod.fst).Nodup)
    (after' : Option Nat) : Segment (setNext mem (last none l) after') before l after' := by
  induction l using List.reverseRecOn with
  | nil => trivial
  | append_singleton l x =>
      obtain ⟨hl, hx, -⟩ := segment_append.mp h
      rw [List.map_append, List.nodup_append] at hnodup
      have hnot : x.1 ∉ l.map Prod.fst := fun hmem =>
        hnodup.2.2 _ hmem _ (List.mem_singleton.mpr rfl) rfl
      rw [last_append, last_cons, last_nil]
      refine segment_append.mpr ⟨hl.setNext_frame (fun a ha => Option.some.inj ha ▸ hnot) _, ?_, trivial⟩
      rw [Index.setNext, hx]
      exact Function.update_self ..

/-- The first cell is linked to something else. -/
theorem Segment.setPrevious (h : Segment mem before l after) (hnodup : (l.map Prod.fst).Nodup)
    (before' : Option Nat) : Segment (setPrevious mem (first l none) before') before' l after := by
  cases l with
  | nil => trivial
  | cons x l =>
      obtain ⟨hx, hl⟩ := h
      have hnot : x.1 ∉ l.map Prod.fst := (List.nodup_cons.mp hnodup).1
      refine ⟨?_, hl.setPrevious_frame (fun a ha => Option.some.inj ha ▸ hnot) _⟩
      rw [first_cons, Index.setPrevious, hx]
      exact Function.update_self ..

/-- What stands in memory behind a pointer is determined. -/
theorem Segment.unique {before' : Option Nat} (h : Segment mem before l₁ none)
    (h' : Segment mem before' l₂ none) (hfirst : first l₁ none = first l₂ none) : l₁ = l₂ := by
  induction l₁ generalizing before before' l₂ with
  | nil =>
      cases l₂ with
      | nil => rfl
      | cons y l₂ => cases hfirst
  | cons x l₁ ih =>
      cases l₂ with
      | nil => cases hfirst
      | cons y l₂ =>
          obtain ⟨hx, h₁⟩ := h
          obtain ⟨hy, h₂⟩ := h'
          have haddr : x.1 = y.1 := Option.some.inj hfirst
          rw [haddr, hy] at hx
          obtain ⟨hvalue, hnext, -⟩ := (Cell.mk.injEq ..).mp (Option.some.inj hx)
          rw [ih h₁ h₂ hnext.symm, Prod.ext haddr hvalue.symm]

section Change

variable {a : Nat} {v : α}

/-- A cell is put between two stretches. -/
theorem Segment.insert (h : Segment mem none (l₁ ++ l₂) none) (hnodup : ((l₁ ++ l₂).map Prod.fst).Nodup)
    (ha : a ∉ (l₁ ++ l₂).map Prod.fst) :
    Segment (Index.setPrevious (Index.setNext
        (Function.update mem a (some ⟨v, first l₂ none, last none l₁⟩)) (last none l₁) (some a))
        (first l₂ none) (some a)) none (l₁ ++ (a, v) :: l₂) none := by
  obtain ⟨h₁, h₂⟩ := segment_append.mp h
  rw [List.map_append, List.mem_append, not_or] at ha
  rw [List.map_append, List.nodup_append] at hnodup
  obtain ⟨hnodup₁, hnodup₂, hdisj⟩ := hnodup
  refine segment_append.mpr ⟨?_, ?_, ?_⟩
  · refine (((h₁.update ha.1 _).setNext hnodup₁ (some a)).setPrevious_frame ?_ _)
    intro b hb hmem
    exact hdisj b hmem b (mem_of_first hb) rfl
  · rw [setPrevious_of_ne (fun hfirst => ha.2 (mem_of_first hfirst)),
      setNext_of_ne (fun hlast => ha.1 (mem_of_last hlast))]
    exact Function.update_self ..
  · refine ((h₂.update ha.2 _).setNext_frame ?_ _).setPrevious hnodup₂ _
    intro b hb hmem
    exact hdisj b (mem_of_last hb) b hmem rfl

/-- A cell is taken out from between two stretches. -/
theorem Segment.remove {x : Nat × α} (h : Segment mem none (l₁ ++ x :: l₂) none)
    (hnodup : ((l₁ ++ x :: l₂).map Prod.fst).Nodup) :
    Segment (Index.setPrevious (Index.setNext mem (last none l₁) (first l₂ none)) (first l₂ none)
      (last none l₁)) none (l₁ ++ l₂) none := by
  obtain ⟨h₁, -, h₂⟩ := segment_append.mp h
  rw [List.map_append, List.map_cons, List.nodup_append, List.nodup_cons] at hnodup
  obtain ⟨hnodup₁, ⟨-, hnodup₂⟩, hdisj⟩ := hnodup
  refine segment_append.mpr ⟨?_, ?_⟩
  · refine (h₁.setNext hnodup₁ _).setPrevious_frame ?_ _
    intro b hb hmem
    exact hdisj b hmem b (List.mem_cons_of_mem _ (mem_of_first hb)) rfl
  · refine (h₂.setNext_frame ?_ _).setPrevious hnodup₂ _
    intro b hb hmem
    exact hdisj b (mem_of_last hb) b (List.mem_cons_of_mem _ hmem) rfl

/-- A cell gets another value. -/
theorem Segment.setValue (h : Segment mem before (l₁ ++ (a, v) :: l₂) after)
    (hnodup : ((l₁ ++ (a, v) :: l₂).map Prod.fst).Nodup) (v' : α) :
    Segment (Function.update mem a ((mem a).map fun c => { c with value := v' })) before
      (l₁ ++ (a, v') :: l₂) after := by
  obtain ⟨h₁, ha, h₂⟩ := segment_append.mp h
  rw [List.map_append, List.map_cons, List.nodup_append, List.nodup_cons] at hnodup
  obtain ⟨-, ⟨hnot, -⟩, hdisj⟩ := hnodup
  refine segment_append.mpr ⟨h₁.update (fun hmem => hdisj a hmem a List.mem_cons_self rfl) _, ?_,
    h₂.update hnot _⟩
  rw [ha]
  exact Function.update_self ..

end Change

/-- Go from cell to cell. -/
def follow (link : Cell α → Option Nat) (mem : Memory α) : Nat → Option Nat → List Nat
  | 0, _ | _ + 1, none => []
  | n + 1, some a =>
    match mem a with
    | none => []
    | some c => a :: follow link mem n (link c)

@[simp] theorem follow_none (link : Cell α → Option Nat) (mem : Memory α) (n : Nat) :
    follow link mem n none = [] := by
  cases n with
  | zero => rfl
  | succ n => rfl

/-- Forwards the cells come one after another, and then the list ends. -/
theorem Segment.follow_next (h : Segment mem before l none) {n : Nat} (hn : l.length ≤ n) :
    follow Cell.next mem n (first l none) = l.map Prod.fst := by
  induction l generalizing before n with
  | nil => exact follow_none _ _ _
  | cons x l ih =>
      obtain ⟨n, rfl⟩ : ∃ k, n = k + 1 := ⟨n - 1, by simp at hn; omega⟩
      obtain ⟨hx, hl⟩ := h
      rw [first_cons, follow, hx]
      exact congrArg (x.1 :: ·) (ih hl (by simpa using hn))

/-- Backwards they come in the reverse order. -/
theorem Segment.follow_previous (h : Segment mem none l after) {n : Nat} (hn : l.length ≤ n) :
    follow Cell.previous mem n (last none l) = (l.map Prod.fst).reverse := by
  induction l using List.reverseRecOn generalizing after n with
  | nil => exact follow_none _ _ _
  | append_singleton l x ih =>
      obtain ⟨n, rfl⟩ : ∃ k, n = k + 1 := ⟨n - 1, by simp at hn; omega⟩
      obtain ⟨hl, hx, -⟩ := segment_append.mp h
      rw [last_append, last_cons, last_nil, follow, hx, List.map_append, List.reverse_append]
      exact congrArg (x.1 :: ·) (ih hl (by simpa using hn))

end Ccask.Index
