import Mathlib.Data.List.Basic

/-!
# A queue in a ring

The places from the tail up to the head, around the end of the buffer, hold a queue. One place
stays free, so that a full ring is not taken for an empty one.
-/

namespace Ccask.Index

variable {α : Type} {buf q : List α} {cap head tail : Nat} {a : α}

/-- A place that is less than two rounds away. -/
theorem mod_round {x : Nat} (h : x < 2 * cap) : x % cap = if x < cap then x else x - cap := by
  split
  · exact Nat.mod_eq_of_lt ‹_›
  · rw [Nat.mod_eq_sub_mod (by omega), Nat.mod_eq_of_lt (by omega)]

/-- The buffer holds the queue, oldest first. -/
structure Ring (buf : List α) (cap head tail : Nat) (q : List α) : Prop where
  length : buf.length = cap
  tail_lt : tail < cap
  room : q.length < cap
  head_eq : head = (tail + q.length) % cap
  contents : ∀ i, i < q.length → buf[(tail + i) % cap]? = q[i]?

namespace Ring

theorem init (h : 0 < cap) (a : α) : Ring (List.replicate cap a) cap 0 0 [] :=
  ⟨List.length_replicate, h, h, (Nat.zero_mod cap).symm, fun i hi => absurd hi (Nat.not_lt_zero i)⟩

theorem head_lt (h : Ring buf cap head tail q) : head < cap := by
  rw [h.head_eq]
  exact Nat.mod_lt _ (Nat.zero_lt_of_lt h.tail_lt)

/-- The buffer holds no other queue. -/
theorem unique (h : Ring buf cap head tail q) {q' : List α} (h' : Ring buf cap head tail q') :
    q = q' := by
  have hlen : q.length = q'.length := by
    have htail := h.tail_lt
    have hroom := h.room
    have hroom' := h'.room
    have heq := h.head_eq.symm.trans h'.head_eq
    rw [mod_round (by omega), mod_round (by omega)] at heq
    split at heq
    · split at heq
      · omega
      · omega
    · split at heq
      · omega
      · omega
  refine List.ext_getElem? fun i => ?_
  rcases Nat.lt_or_ge i q.length with hi | hi
  · rw [← h.contents i hi, ← h'.contents i (hlen ▸ hi)]
  · rw [List.getElem?_eq_none hi, List.getElem?_eq_none (hlen ▸ hi)]

theorem empty_iff (h : Ring buf cap head tail q) : tail = head ↔ q = [] := by
  have htail := h.tail_lt
  have hroom := h.room
  rw [h.head_eq, mod_round (by omega), ← List.length_eq_zero_iff]
  split
  · omega
  · omega

theorem full_iff (h : Ring buf cap head tail q) : (head + 1) % cap = tail ↔ q.length + 1 = cap := by
  have htail := h.tail_lt
  have hroom := h.room
  rw [h.head_eq, Nat.mod_add_mod, mod_round (by omega)]
  split
  · omega
  · omega

/-- The length of the queue, read off the two ends. -/
theorem length_eq (h : Ring buf cap head tail q) :
    (if tail ≤ head then head - tail else cap - (tail - head)) = q.length := by
  have htail := h.tail_lt
  have hroom := h.room
  rw [h.head_eq, mod_round (by omega)]
  by_cases hround : tail + q.length < cap
  · rw [if_pos hround, if_pos (by omega)]
    omega
  · rw [if_neg hround, if_neg (by omega)]
    omega

/-- A new element goes to the head when the ring is not full. -/
theorem push (h : Ring buf cap head tail q) (hfull : (head + 1) % cap ≠ tail) (a : α) :
    Ring (buf.set head a) cap ((head + 1) % cap) tail (q ++ [a]) := by
  have htail := h.tail_lt
  have hroom := h.room
  have hlen : q.length + 1 ≠ cap := fun heq => hfull (h.full_iff.mpr heq)
  refine ⟨by rw [List.length_set, h.length], htail, ?_, ?_, fun i hi => ?_⟩
  · rw [List.length_append, List.length_singleton]
    omega
  · rw [h.head_eq, Nat.mod_add_mod, List.length_append, List.length_singleton, Nat.add_assoc]
  · rw [List.length_append, List.length_singleton] at hi
    by_cases hlast : i = q.length
    · rw [hlast, ← h.head_eq, List.getElem?_set_self (by rw [h.length]; exact h.head_lt),
        List.getElem?_concat_length]
    · -- the places of the queue are apart from the head
      have hne : head ≠ (tail + i) % cap := by
        rw [h.head_eq, mod_round (by omega), mod_round (by omega)]
        split
        · split
          · omega
          · omega
        · split
          · omega
          · omega
      rw [List.getElem?_set_ne hne, List.getElem?_append_left (by omega)]
      exact h.contents i (by omega)

/-- The oldest element lies at the tail. -/
theorem pop (h : Ring buf cap head tail (a :: q)) :
    buf[tail]? = some a ∧ Ring buf cap head ((tail + 1) % cap) q := by
  have htail := h.tail_lt
  have hroom := h.room
  rw [List.length_cons] at hroom
  refine ⟨?_, h.length, Nat.mod_lt _ (by omega), by omega, ?_, fun i hi => ?_⟩
  · have hfirst := h.contents 0 (by rw [List.length_cons]; omega)
    rw [Nat.add_zero, Nat.mod_eq_of_lt htail] at hfirst
    exact hfirst
  · rw [h.head_eq, List.length_cons, Nat.mod_add_mod]
    congr 1
    omega
  · have hnext := h.contents (i + 1) (by rw [List.length_cons]; omega)
    rw [List.getElem?_cons_succ] at hnext
    rw [Nat.mod_add_mod, ← hnext]
    congr 2
    omega

end Ring

end Ccask.Index
