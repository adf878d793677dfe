import Ccask.Effect.Scan
import Mathlib.Logic.Function.Basic

/-!
# Packing items into numbered bins

Items go into the last bin as long as they fit there, else into a new one. The order of
the items is kept.
-/

namespace Ccask.Index

open Ccask.Effect

variable {α γ : Type}

/-- The bins `0` to `last`. -/
structure Bins (α : Type) where
  last : Nat
  bin : Nat → List α

namespace Bins

variable (bytes : α → List γ) (limit : Nat)

/-- Put an item into the last bin, or into a new one when it does not fit. -/
def add (b : Bins α) (a : α) : Bins α :=
  if limit < (layout bytes (b.bin b.last)).length + (bytes a).length then
    ⟨b.last + 1, Function.update b.bin (b.last + 1) [a]⟩
  else ⟨b.last, Function.update b.bin b.last (b.bin b.last ++ [a])⟩

/-- One empty bin. -/
def init : Bins α := ⟨0, fun _ => []⟩

def addAll (b : Bins α) (l : List α) : Bins α := l.foldl (add bytes limit) b

/-- What is in the bins, in their order. -/
def items (b : Bins α) : List α := (List.range (b.last + 1)).flatMap b.bin

variable {bytes limit} {b : Bins α} {a : α} {l : List α}

theorem flatMap_update (f : Nat → List α) (n : Nat) (l : List α) :
    (List.range n).flatMap (Function.update f n l) = (List.range n).flatMap f := by
  apply List.flatMap_congr
  intro i hi
  rw [Function.update_of_ne (Nat.ne_of_lt (List.mem_range.mp hi))]

theorem items_add (b : Bins α) (a : α) : (b.add bytes limit a).items = b.items ++ [a] := by
  rw [add]
  split
  · simp only [items]
    rw [List.range_succ, List.flatMap_append, flatMap_update]
    simp
  · simp only [items]
    rw [List.range_succ, List.flatMap_append, List.flatMap_append, flatMap_update]
    simp

@[simp] theorem items_init : (init : Bins α).items = [] := rfl

/-- Nothing is lost, and the order is kept. -/
theorem items_addAll (b : Bins α) (l : List α) :
    (b.addAll bytes limit l).items = b.items ++ l := by
  induction l generalizing b with
  | nil => exact (List.append_nil _).symm
  | cons a l ih =>
      rw [addAll, List.foldl_cons]
      change ((b.add bytes limit a).addAll bytes limit l).items = _
      rw [ih, items_add, List.append_assoc]
      rfl

theorem length_le_layout (hbytes : ∀ a, bytes a ≠ []) (l : List α) :
    l.length ≤ (layout bytes l).length := by
  induction l with
  | nil => exact Nat.le_refl _
  | cons a l ih =>
      have hpos := List.length_pos_iff.mpr (hbytes a)
      rw [layout_cons, List.length_append, List.length_cons]
      omega

/-- There are no more items than the bins have bytes. -/
theorem length_items {B : Nat} (hbytes : ∀ a, bytes a ≠ [])
    (h : ∀ i ≤ b.last, (layout bytes (b.bin i)).length ≤ B) : b.items.length ≤ (b.last + 1) * B := by
  have hupto : ∀ n ≤ b.last + 1, ((List.range n).flatMap b.bin).length ≤ n * B := by
    intro n
    induction n with
    | zero => exact fun _ => Nat.zero_le _
    | succ n ih =>
        intro hn
        have hbin := Nat.le_trans (length_le_layout hbytes (b.bin n)) (h n (by omega))
        rw [List.range_succ, List.flatMap_append, List.length_append, List.flatMap_singleton,
          Nat.succ_mul]
        exact Nat.add_le_add (ih (by omega)) hbin
  exact hupto _ (Nat.le_refl _)

/-- Every bin is within the limit, or holds one item. -/
def Fits (bytes : α → List γ) (limit : Nat) (b : Bins α) : Prop :=
  ∀ i ≤ b.last, (layout bytes (b.bin i)).length ≤ limit ∨ ∃ a, b.bin i = [a]

theorem Fits.init : Fits bytes limit (init : Bins α) := fun _ _ => .inl (Nat.zero_le _)

theorem Fits.add (h : Fits bytes limit b) (a : α) : Fits bytes limit (b.add bytes limit a) := by
  intro i hi
  rw [Bins.add] at hi ⊢
  split
  · rename_i hlt
    rw [if_pos hlt] at hi
    by_cases heq : i = b.last + 1
    · exact .inr ⟨a, by simp only [heq, Function.update_self]⟩
    · simp only [Function.update_of_ne heq]
      exact h i (by simp only at hi; omega)
  · rename_i hle
    rw [if_neg hle] at hi
    by_cases heq : i = b.last
    · left
      simp only [heq, Function.update_self, layout_append, List.length_append, layout_cons, layout_nil,
        List.append_nil]
      omega
    · simp only [Function.update_of_ne heq]
      exact h i hi

theorem Fits.addAll (h : Fits bytes limit b) (l : List α) : Fits bytes limit (b.addAll bytes limit l) := by
  induction l generalizing b with
  | nil => exact h
  | cons a l ih => exact ih (h.add a)

/-- Bin `n`, with one more item, is the last one now. -/
def push (b : Bins α) (n : Nat) (a : α) : Bins α := ⟨n, Function.update b.bin n (b.bin n ++ [a])⟩

variable (bytes limit) in
/-- As `add`, but the next bin may hold something already. -/
def addOnto (b : Bins α) (a : α) : Bins α :=
  if limit < (layout bytes (b.bin b.last)).length + (bytes a).length then b.push (b.last + 1) a
  else b.push b.last a

variable (bytes limit) in
def addAllOnto (b : Bins α) (l : List α) : Bins α := l.foldl (addOnto bytes limit) b

/-- How full the last bin is. -/
def fill (bytes : α → List γ) (b : Bins α) : Nat := (layout bytes (b.bin b.last)).length

@[simp] theorem last_push (b : Bins α) (n : Nat) (a : α) : (b.push n a).last = n := rfl

theorem fill_push (n : Nat) : (b.push n a).fill bytes =
    (layout bytes (b.bin n)).length + (bytes a).length := by
  simp [fill, push]

theorem bin_push_self (n : Nat) : (b.push n a).bin n = b.bin n ++ [a] :=
  Function.update_self _ _ _

theorem bin_push_of_ne {n i : Nat} (h : i ≠ n) : (b.push n a).bin i = b.bin i :=
  Function.update_of_ne h _ _

variable (bytes limit) in
theorem addOnto_cases (b : Bins α) (a : α) : ∃ n, b.last ≤ n ∧ n ≤ b.last + 1 ∧
    b.addOnto bytes limit a = b.push n a ∧
    (b.fill bytes + (bytes a).length ≤ limit ∧ n = b.last ∨
      limit < b.fill bytes + (bytes a).length ∧ n = b.last + 1) := by
  rw [addOnto]
  split
  · exact ⟨b.last + 1, by omega, by omega, rfl, .inr ⟨by assumption, rfl⟩⟩
  · exact ⟨b.last, by omega, by omega, rfl, .inl ⟨Nat.le_of_not_lt (by assumption), rfl⟩⟩

theorem add_eq_addOnto (h : ∀ i, b.last < i → b.bin i = []) (a : α) :
    b.add bytes limit a = b.addOnto bytes limit a := by
  rw [add, addOnto, push, push, h _ (Nat.lt_succ_self _), List.nil_append]

/-- What lies behind the last bin stays as it is. -/
theorem bin_addOnto {i : Nat} (hi : (b.addOnto bytes limit a).last < i) :
    (b.addOnto bytes limit a).bin i = b.bin i := by
  obtain ⟨n, -, -, heq, -⟩ := addOnto_cases bytes limit b a
  rw [heq] at hi ⊢
  exact bin_push_of_ne (Nat.ne_of_gt hi)

theorem addAll_eq_addAllOnto (h : ∀ i, b.last < i → b.bin i = []) (l : List α) :
    b.addAll bytes limit l = b.addAllOnto bytes limit l := by
  induction l generalizing b with
  | nil => rfl
  | cons a l ih =>
      rw [addAll, addAllOnto, List.foldl_cons, List.foldl_cons, add_eq_addOnto h]
      apply ih
      intro i hi
      obtain ⟨n, hn, -, heq, -⟩ := addOnto_cases bytes limit b a
      rw [bin_addOnto hi]
      apply h
      rw [heq, last_push] at hi
      omega

variable (bytes limit) in
theorem last_le_addAllOnto (b : Bins α) (l : List α) :
    b.last ≤ (b.addAllOnto bytes limit l).last := by
  induction l generalizing b with
  | nil => exact Nat.le_refl _
  | cons a l ih =>
      obtain ⟨n, hn, -, heq, -⟩ := addOnto_cases bytes limit b a
      have hrest := ih (b.addOnto bytes limit a)
      rw [heq, last_push] at hrest
      rw [addAllOnto, List.foldl_cons, heq]
      exact Nat.le_trans hn hrest

theorem bin_addAllOnto_of_lt {i : Nat} (hi : (b.addAllOnto bytes limit l).last < i) :
    (b.addAllOnto bytes limit l).bin i = b.bin i := by
  induction l generalizing b with
  | nil => rfl
  | cons a l ih =>
      rw [addAllOnto, List.foldl_cons] at hi ⊢
      have hlast := last_le_addAllOnto bytes limit (b.addOnto bytes limit a) l
      exact (ih hi).trans (bin_addOnto (Nat.lt_of_le_of_lt hlast hi))

variable (bytes limit) in
/-- A bin holds what it held at the start and, behind it, items that were put into the bins. -/
theorem bin_addAllOnto (b : Bins α) (l : List α) (i : Nat) :
    ∃ added, (b.addAllOnto bytes limit l).bin i = b.bin i ++ added ∧ ∀ a ∈ added, a ∈ l := by
  induction l generalizing b with
  | nil => exact ⟨[], (List.append_nil _).symm, fun a ha => ha⟩
  | cons a l ih =>
      obtain ⟨n, -, -, heq, -⟩ := addOnto_cases bytes limit b a
      obtain ⟨added, hbin, hadded⟩ := ih (b.addOnto bytes limit a)
      rw [addAllOnto, List.foldl_cons]
      change ∃ added, ((b.addOnto bytes limit a).addAllOnto bytes limit l).bin i = _ ∧ _
      have hall : ∀ c ∈ added, c ∈ a :: l := fun c hc => List.mem_cons_of_mem _ (hadded c hc)
      by_cases hi : i = n
      · refine ⟨a :: added, ?_, List.forall_mem_cons.mpr ⟨List.mem_cons_self, hall⟩⟩
        rw [hbin, heq, hi, bin_push_self, List.append_assoc]
        rfl
      · refine ⟨added, ?_, hall⟩
        rw [hbin, heq, bin_push_of_ne hi]

/-- No bin gets longer than `B` when the limit is no more than that, and the bins that are still to
come have room for one item. -/
theorem length_addAllOnto {B : Nat} (hlimit : limit ≤ B)
    (hold : ∀ i ≤ b.last, (layout bytes (b.bin i)).length ≤ B)
    (hnext : ∀ i, b.last < i → ∀ a ∈ l, (layout bytes (b.bin i)).length + (bytes a).length ≤ B) :
    ∀ i ≤ (b.addAllOnto bytes limit l).last,
      (layout bytes ((b.addAllOnto bytes limit l).bin i)).length ≤ B := by
  induction l generalizing b with
  | nil => exact hold
  | cons a l ih =>
      obtain ⟨n, hn, hn', heq, hplace⟩ := addOnto_cases bytes limit b a
      have hpush : (layout bytes ((b.push n a).bin n)).length =
          (layout bytes (b.bin n)).length + (bytes a).length := fill_push n
      rw [addAllOnto, List.foldl_cons, heq]
      refine ih (fun i hi => ?_) fun i hi c hc => ?_
      · rw [last_push] at hi
        by_cases hin : i = n
        · rw [hin, hpush]
          obtain ⟨hfits, rfl⟩ | ⟨-, rfl⟩ := hplace
          · exact Nat.le_trans hfits hlimit
          · exact hnext _ (Nat.lt_succ_self _) a List.mem_cons_self
        · rw [bin_push_of_ne hin]
          exact hold i (by omega)
      · rw [last_push] at hi
        rw [bin_push_of_ne (Nat.ne_of_gt hi)]
        exact hnext i (by omega) c (List.mem_cons_of_mem _ hc)

/-- The bins `c` are at the same place as `b` or one bin further; bin `i` is the only one that was
not empty at the start. -/
def Ahead (bytes : α → List γ) (i : Nat) (b c : Bins α) : Prop :=
  (c.last = b.last ∧ b.fill bytes ≤ c.fill bytes ∧ (b.last < i → b.fill bytes = c.fill bytes)) ∨
    (c.last = b.last + 1 ∧ i ≤ b.last ∧ c.fill bytes ≤ b.fill bytes)

theorem Ahead.addOnto {i : Nat} {c : Bins α} (h : Ahead bytes i b c)
    (hb : ∀ j, b.last < j → b.bin j = []) (hc : ∀ j, c.last < j → j ≠ i → c.bin j = []) (a : α) :
    Ahead bytes i (b.addOnto bytes limit a) (c.addOnto bytes limit a) := by
  obtain ⟨n, -, -, heqb, hn⟩ := addOnto_cases bytes limit b a
  obtain ⟨m, -, -, heqc, hm⟩ := addOnto_cases bytes limit c a
  have hnew : (layout bytes (b.bin (b.last + 1))).length = 0 := by
    rw [hb _ (Nat.lt_succ_self _)]
    rfl
  have hlate : c.last + 1 ≠ i → (layout bytes (c.bin (c.last + 1))).length = 0 := by
    intro hne
    rw [hc _ (Nat.lt_succ_self _) hne]
    rfl
  have hfillb : b.fill bytes = (layout bytes (b.bin b.last)).length := rfl
  have hfillc : c.fill bytes = (layout bytes (c.bin c.last)).length := rfl
  rw [heqb, heqc, Ahead, fill_push, fill_push, last_push, last_push]
  obtain ⟨hlast, hle, heq⟩ | ⟨hlast, hi, hle⟩ := h
  · obtain ⟨hfits, rfl⟩ | ⟨hfull, rfl⟩ := hn
    · obtain ⟨hfits', rfl⟩ | ⟨hfull', rfl⟩ := hm
      · omega
      · omega
    · obtain ⟨hfits', rfl⟩ | ⟨hfull', rfl⟩ := hm
      · omega
      · omega
  · have hzero := hlate (by omega)
    obtain ⟨hfits, rfl⟩ | ⟨hfull, rfl⟩ := hn
    · obtain ⟨hfits', rfl⟩ | ⟨hfull', rfl⟩ := hm
      · omega
      · omega
    · obtain ⟨hfits', rfl⟩ | ⟨hfull', rfl⟩ := hm
      · omega
      · omega

theorem Ahead.addAllOnto {i : Nat} {c : Bins α} (h : Ahead bytes i b c)
    (hb : ∀ j, b.last < j → b.bin j = []) (hc : ∀ j, c.last < j → j ≠ i → c.bin j = []) (l : List α) :
    Ahead bytes i (b.addAllOnto bytes limit l) (c.addAllOnto bytes limit l) := by
  induction l generalizing b c with
  | nil => exact h
  | cons a l ih =>
      have hlast : ∀ d : Bins α, d.last ≤ (d.addOnto bytes limit a).last :=
        fun d => last_le_addAllOnto bytes limit d [a]
      refine ih (h.addOnto hb hc a) (fun j hj => ?_) fun j hj hne => ?_
      · rw [bin_addOnto hj]
        exact hb j (Nat.lt_of_le_of_lt (hlast b) hj)
      · rw [bin_addOnto hj]
        exact hc j (Nat.lt_of_le_of_lt (hlast c) hj) hne

theorem Ahead.last_le {i : Nat} {c : Bins α} (h : Ahead bytes i b c) :
    b.last ≤ c.last ∧ c.last ≤ b.last + 1 := by
  obtain ⟨hlast, -⟩ | ⟨hlast, -⟩ := h
  · omega
  · omega

end Bins

end Ccask.Index
