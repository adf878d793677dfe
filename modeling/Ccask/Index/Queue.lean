import Mathlib.Data.List.Basic

/-!
# A bounded queue

First in, first out, with at most `bound` elements. A push is taken while there is room, and a pop that
finds nothing fails once the queue has been closed; before that it has to wait.
-/

namespace Ccask.Index

/-- The elements, oldest first. -/
structure Queue (α : Type) where
  items : List α
  closed : Bool

namespace Queue

variable {α : Type} {bound : Nat} {q q' q'' : Queue α} {a : α}

inductive Event (α : Type) where
  | push (a : α) (taken : Bool)
  | pop (res : Option α)
  | count (n : Nat)
  | close

/-- What may happen to it. -/
inductive Step (bound : Nat) : Queue α → Event α → Queue α → Prop
  | push {q : Queue α} {a : α} : q.items.length < bound →
      Step bound q (.push a true) { q with items := q.items ++ [a] }
  | full {q : Queue α} {a : α} : ¬ q.items.length < bound → Step bound q (.push a false) q
  | pop {a : α} {l : List α} {closed : Bool} : Step bound ⟨a :: l, closed⟩ (.pop (some a)) ⟨l, closed⟩
  | ended : Step bound ⟨[], true⟩ (.pop none) ⟨[], true⟩
  | count {q : Queue α} : Step bound q (.count q.items.length) q
  | close {q : Queue α} : Step bound q .close { q with closed := true }

inductive Run (bound : Nat) (q : Queue α) : List (Event α) → Queue α → Prop
  | refl : Run bound q [] q
  | tail {es : List (Event α)} {e : Event α} {q' q'' : Queue α} :
      Run bound q es q' → Step bound q' e q'' → Run bound q (es ++ [e]) q''

/-- The elements that have been taken, in their order. -/
def pushed (es : List (Event α)) : List α :=
  es.filterMap fun
    | .push a true => some a
    | _ => none

/-- The elements that have been handed out. -/
def popped (es : List (Event α)) : List α :=
  es.filterMap fun
    | .pop res => res
    | _ => none

/-- Nothing is taken any more after the queue has been closed. -/
def Settled (es : List (Event α)) : Prop :=
  es.Pairwise fun e e' => e = .close → ∀ a, e' ≠ .push a true

variable {es : List (Event α)} {e : Event α}

theorem pushed_concat : pushed (es ++ [e]) = pushed es ++ pushed [e] := List.filterMap_append

theorem popped_concat : popped (es ++ [e]) = popped es ++ popped [e] := List.filterMap_append

theorem Step.conserves (h : Step bound q e q') : q.items ++ pushed [e] = popped [e] ++ q'.items := by
  cases h with
  | push _ => rfl
  | full _ => exact List.append_nil _
  | pop => exact List.append_nil _
  | ended => rfl
  | count => exact List.append_nil _
  | close => exact List.append_nil _

/-- What has been taken has been handed out, in the same order, or is still there. -/
theorem Run.conserves (h : Run bound q es q') : q.items ++ pushed es = popped es ++ q'.items := by
  induction h with
  | refl => exact List.append_nil _
  | tail _ hs ih => rw [pushed_concat, popped_concat, ← List.append_assoc, ih, List.append_assoc, hs.conserves,
      List.append_assoc]

/-- A queue that is closed has been closed by someone. -/
theorem Run.closed (h : Run bound q es q') (hq : q.closed = false) (hq' : q'.closed = true) :
    Event.close ∈ es := by
  induction h with
  | refl =>
      rw [hq] at hq'
      cases hq'
  | tail _ hs ih =>
      rw [List.mem_append]
      cases hs with
      | push _ => exact .inl (ih hq')
      | full _ => exact .inl (ih hq')
      | pop => exact .inl (ih hq')
      | ended => exact .inl (ih rfl)
      | count => exact .inl (ih hq')
      | close => exact .inr (List.mem_singleton.mpr rfl)

/-- After a pop has failed, the queue is empty and closed, unless something is taken after it has been
closed. -/
theorem Run.after_end (h : Run bound q es q') (hq : q.closed = false) (hsettled : Settled es)
    (hend : .pop none ∈ es) : q'.items = [] ∧ q'.closed = true := by
  induction h with
  | refl => cases hend
  | @tail es e q' q'' hrun hs ih =>
      obtain ⟨hes, -, hlast⟩ := List.pairwise_append.mp hsettled
      obtain hend | hend := List.mem_append.mp hend
      · obtain ⟨hempty, hclosed⟩ := ih hes hend
        have hclose := hrun.closed hq hclosed
        cases hs with
        | push _ => exact absurd rfl (hlast _ hclose _ (List.mem_singleton.mpr rfl) rfl _)
        | full _ => exact ⟨hempty, hclosed⟩
        | pop => cases hempty
        | ended => exact ⟨rfl, rfl⟩
        | count => exact ⟨hempty, hclosed⟩
        | close => exact ⟨hempty, rfl⟩
      · rw [← List.mem_singleton.mp hend] at hs
        cases hs
        exact ⟨rfl, rfl⟩

/-- Then everything that has been taken has been handed out. -/
theorem Run.drained (h : Run bound ⟨[], false⟩ es q) (hsettled : Settled es) (hend : .pop none ∈ es) :
    popped es = pushed es := by
  have hconserves := h.conserves
  rw [(h.after_end rfl hsettled hend).1, List.append_nil] at hconserves
  exact hconserves.symm

end Queue

end Ccask.Index
