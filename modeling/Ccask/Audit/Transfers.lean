import Ccask.Model.Vectored

/-!
# What the short-transfer loops do

Each loop has one postcondition for arbitrary replies. It says which bytes have moved when
the loop returns and in every state before, and from it follow the results for replies
without errors. Everything turns on the length of the last segment.
-/

namespace Ccask.Audit

open Ccask.Effect Ccask.Model

/-- The loop steps over the last segment only with a byte in hand. -/
def LastNonempty (iov : List Iovec) : Prop := ∃ v, iov.getLast? = some v ∧ 0 < v.iovLen

instance (iov : List Iovec) : Decidable (LastNonempty iov) :=
  match h : iov.getLast? with
  | none => isFalse (by rintro ⟨v, hv, -⟩; rw [h] at hv; cases hv)
  | some v => decidable_of_iff (0 < v.iovLen)
      ⟨fun hv => ⟨v, h, hv⟩, by rintro ⟨u, hu, hpos⟩; rw [h] at hu; cases hu; exact hpos⟩

section Segments

variable {iov : List Iovec} {v : Iovec} {moved : Nat}

@[simp] theorem wanted_nil : wanted [] = 0 := rfl

@[simp] theorem wanted_cons : wanted (v :: iov) = v.iovLen + wanted iov := by simp [wanted]

@[simp] theorem gather_nil : gather [] = [] := rfl

@[simp] theorem gather_cons : gather (v :: iov) = v.window ++ gather iov := by simp [gather]

theorem lastNonempty_nil : ¬ LastNonempty [] := by
  rintro ⟨v, hv, -⟩
  cases hv

@[simp] theorem lastNonempty_singleton : LastNonempty [v] ↔ 0 < v.iovLen := by
  simp [LastNonempty]

@[simp] theorem lastNonempty_cons_cons {u : Iovec} :
    LastNonempty (v :: u :: iov) ↔ LastNonempty (u :: iov) := by
  simp [LastNonempty]

theorem LastNonempty.wanted_pos (h : LastNonempty iov) : 0 < wanted iov := by
  induction iov with
  | nil => exact absurd h lastNonempty_nil
  | cons v iov ih =>
      cases iov with
      | nil => simpa using h
      | cons u iov =>
          have := ih (lastNonempty_cons_cons.mp h)
          simp only [wanted_cons] at this ⊢
          omega

theorem advance_zero : advance 0 iov = ([], iov) := by
  cases iov <;> simp [advance]

theorem advance_cut (h0 : 0 < moved) (h : moved < v.iovLen) : advance moved (v :: iov) =
    ([], { v with iovBase := v.iovBase + moved, iovLen := v.iovLen - moved } :: iov) := by
  simp [advance, Nat.ne_of_gt h0, h]

theorem advance_over (h0 : 0 < moved) (h : v.iovLen ≤ moved) : advance moved (v :: iov) =
    (v :: (advance (moved - v.iovLen) iov).1, (advance (moved - v.iovLen) iov).2) := by
  simp [advance, Nat.ne_of_gt h0, Nat.not_lt.mpr h]

theorem advance_wanted (h : moved ≤ wanted iov) :
    wanted (advance moved iov).2 + moved = wanted iov := by
  induction iov generalizing moved with
  | nil => simpa [advance] using h
  | cons v iov ih =>
      rw [wanted_cons] at h
      rcases Nat.eq_zero_or_pos moved with rfl | h0
      · rw [advance_zero, Nat.add_zero]
      · rcases Nat.lt_or_ge moved v.iovLen with hlt | hge
        · simp only [advance_cut h0 hlt, wanted_cons]
          omega
        · have hrest : moved - v.iovLen ≤ wanted iov := by omega
          simp only [advance_over h0 hge, wanted_cons]
          have := ih hrest
          omega

/-- None is left only when a byte went into the last segment. -/
theorem advance_done (h : moved ≤ wanted iov) (hne : iov ≠ []) (hd : (advance moved iov).2 = []) :
    LastNonempty iov := by
  induction iov generalizing moved with
  | nil => exact absurd rfl hne
  | cons v iov ih =>
      rw [wanted_cons] at h
      rcases Nat.eq_zero_or_pos moved with rfl | h0
      · rw [advance_zero] at hd
        exact absurd hd hne
      · rcases Nat.lt_or_ge moved v.iovLen with hlt | hge
        · rw [advance_cut h0 hlt] at hd
          exact absurd hd (by simp)
        · rw [advance_over h0 hge] at hd
          cases iov with
          | nil => rw [wanted_nil] at h; rw [lastNonempty_singleton]; omega
          | cons u iov => exact lastNonempty_cons_cons.mpr (ih (by omega) (by simp) hd)

/-- While segments are left, the last one is as empty as it was. -/
theorem advance_last (h : moved ≤ wanted iov) (hd : (advance moved iov).2 ≠ []) :
    LastNonempty (advance moved iov).2 ↔ LastNonempty iov := by
  induction iov generalizing moved with
  | nil => exact absurd rfl hd
  | cons v iov ih =>
      rw [wanted_cons] at h
      rcases Nat.eq_zero_or_pos moved with rfl | h0
      · rw [advance_zero]
      · rcases Nat.lt_or_ge moved v.iovLen with hlt | hge
        · rw [advance_cut h0 hlt]
          cases iov with
          | nil => simp only [lastNonempty_singleton]; omega
          | cons u iov => simp only [lastNonempty_cons_cons]
        · rw [advance_over h0 hge] at hd ⊢
          cases iov with
          | nil => exact absurd rfl hd
          | cons u iov => rw [lastNonempty_cons_cons, ih (by omega) hd]

theorem window_length (h : v.Fits) : v.window.length = v.iovLen := by
  simp only [Iovec.Fits] at h
  simp only [Iovec.window, List.length_take, List.length_drop]
  omega

theorem gather_length (h : ∀ v ∈ iov, v.Fits) : (gather iov).length = wanted iov := by
  induction iov with
  | nil => rfl
  | cons v iov ih =>
      rw [gather_cons, wanted_cons, List.length_append, window_length (h v List.mem_cons_self),
        ih fun u hu => h u (List.mem_cons_of_mem _ hu)]

theorem advance_fits (h : ∀ v ∈ iov, v.Fits) : ∀ v ∈ (advance moved iov).2, v.Fits := by
  induction iov generalizing moved with
  | nil => simp [advance]
  | cons v iov ih =>
      have htail : ∀ u ∈ iov, u.Fits := fun u hu => h u (List.mem_cons_of_mem _ hu)
      rcases Nat.eq_zero_or_pos moved with rfl | h0
      · rwa [advance_zero]
      · rcases Nat.lt_or_ge moved v.iovLen with hlt | hge
        · rw [advance_cut h0 hlt]
          intro u hu
          rcases List.mem_cons.mp hu with rfl | hu
          · have := h v List.mem_cons_self
            simp only [Iovec.Fits] at this ⊢
            omega
          · exact htail u hu
        · rw [advance_over h0 hge]
          exact ih htail

theorem gather_advance (h : ∀ v ∈ iov, v.Fits) :
    gather (advance moved iov).2 = (gather iov).drop moved := by
  induction iov generalizing moved with
  | nil => simp [advance]
  | cons v iov ih =>
      have hv : v.Fits := h v List.mem_cons_self
      have hw := window_length hv
      rcases Nat.eq_zero_or_pos moved with rfl | h0
      · rw [advance_zero, List.drop_zero]
      · rcases Nat.lt_or_ge moved v.iovLen with hlt | hge
        · rw [advance_cut h0 hlt, gather_cons, gather_cons,
            List.drop_append_of_le_length (by omega)]
          congr 1
          simp only [Iovec.window, List.drop_take, List.drop_drop]
        · have hdrop : v.window.drop moved = [] := List.drop_eq_nil_of_le (by omega)
          simp only [advance_over h0 hge, gather_cons, List.drop_append, hw, hdrop, List.nil_append]
          exact ih fun u hu => h u (List.mem_cons_of_mem _ hu)

end Segments

section Loop

variable (sys : VecCall) (onZero : Option Errno) (onError : Errno) (I : Cursor → World → Prop)
  {R : Res (List Iovec) → World → Prop} {c : Cursor} {w : World}

theorem transferRound_consumes (c : Cursor) :
    Prog.Consumes (transferRound sys onZero onError c) := by
  unfold transferRound
  split
  · exact Prog.consumes_inr _
  · exact Prog.consumes_call _

/-- The invariant rule of the outer loop. -/
theorem transfer_ensures {A : Reply → Prop} {C : World → Prop}
    (hstop : ∀ c v, I c v → c.rest = [] → R (.ok c.past) v)
    (herr : ∀ c v a, I c v → c.rest ≠ [] → A a → ¬ a.Clean → R (.fail (some onError)) v)
    (hstep : ∀ c v n, I c v → c.rest ≠ [] →
      if (sys c.total c.rest n v).1.length = 0 ∧ onZero.isSome then
        R (.fail onZero) (sys c.total c.rest n v).2.2
      else I (c.next (sys c.total c.rest n v).1.length (sys c.total c.rest n v).2.1)
        (sys c.total c.rest n v).2.2)
    (hC : ∀ c v, I c v → c.rest ≠ [] → C v) (h : I c w) :
    Ensures A (Prog.loop (transferRound sys onZero onError) c) w R C := by
  refine Ensures.loop_called (transferRound_consumes sys onZero onError) (I := I) ?_ h
  intro c v hc
  unfold transferRound
  split
  · exact Ensures.pure (hstop c v hc ‹_›)
  · have hrest : c.rest ≠ [] := by rw [‹c.rest = _›]; simp
    refine (Ensures.call (hC c v hc hrest)).bind ?_
    rintro r _ ⟨hA, rfl⟩
    cases r with
    | intr => exact Ensures.pure hc
    | transient => exact Ensures.pure (herr c _ _ hc hrest hA id)
    | fail => exact Ensures.pure (herr c _ _ hc hrest hA id)
    | done n =>
        have hnext := hstep c _ n hc hrest
        refine Ensures.state.bind ?_
        rintro _ _ ⟨rfl, rfl⟩
        refine Ensures.modify.bind ?_
        rintro _ _ rfl
        split
        · rw [if_pos ‹_›] at hnext
          exact Ensures.pure hnext
        · rw [if_neg ‹_›] at hnext
          exact Ensures.pure hnext

/-- The outer loop ends, whatever the replies, when every call on segments that are left moves a byte,
or is taken for the end of the file. -/
theorem transfer_returns
    (hstep : ∀ c v n, I c v → c.rest ≠ [] →
      ((sys c.total c.rest n v).1.length = 0 ∧ onZero.isSome) ∨
      (I (c.next (sys c.total c.rest n v).1.length (sys c.total c.rest n v).2.1)
        (sys c.total c.rest n v).2.2 ∧
       wanted (advance (sys c.total c.rest n v).1.length (sys c.total c.rest n v).2.1).2 <
        wanted c.rest))
    (h : I c w) :
    Returns (Prog.loop (transferRound sys onZero onError) c) w (wanted c.rest + 1) := by
  refine Returns.loop (transferRound_consumes sys onZero onError) (I := I) (f := fun c => wanted c.rest + 1) ?_ h
  intro c v hc rs hn
  unfold transferRound
  split
  · exact ⟨_, rs, v, rfl, by simp⟩
  · have hrest : c.rest ≠ [] := by rw [‹c.rest = _›]; simp
    cases rs with
    | nil => simp [completed] at hn
    | cons r rs =>
        cases r with
        | intr => exact ⟨.inl c, rs, v, rfl, hc, by simp⟩
        | transient => exact ⟨.inr (.fail (some onError)), rs, v, rfl, by simp⟩
        | fail => exact ⟨.inr (.fail (some onError)), rs, v, rfl, by simp⟩
        | done n =>
            have hrun : (Prog.call >>= transferReply sys onZero onError c).run (.done n :: rs) v =
                (if (sys c.total c.rest n v).1.length = 0 ∧ onZero.isSome then
                  pure (.inr (.fail onZero))
                else pure (.inl (c.next (sys c.total c.rest n v).1.length
                  (sys c.total c.rest n v).2.1)) : Sys (Cursor ⊕ Res (List Iovec))).run rs
                  (sys c.total c.rest n v).2.2 := rfl
            rw [hrun]
            by_cases hz : (sys c.total c.rest n v).1.length = 0 ∧ onZero.isSome
            · rw [if_pos hz]
              exact ⟨_, rs, _, rfl, by simp only [completed_done]; omega⟩
            · rw [if_neg hz]
              obtain ⟨hI, hlt⟩ := (hstep c v n hc hrest).resolve_left hz
              exact ⟨_, rs, _, rfl, hI, by simp only [completed_done, Cursor.next]; omega⟩

end Loop

section Write

variable {ino : Ino} {w : World} {iov : List Iovec}

@[simp] theorem append_append (a b : Bytes) : (w.append ino a).append ino b = w.append ino (a ++ b) := by
  simp only [World.append, Fs.append_append]

theorem append_nil : w.append ino [] = w := by
  simp only [World.append, Fs.append_nil]

/-- A call that writes the front of the segments behind what has been written before. -/
def Stores (sys : VecCall) (store : Bytes → World) : Prop :=
  ∀ p iov n, sys p.length iov n (store p) =
    ((gather iov).take (n + 1), iov, store (p ++ (gather iov).take (n + 1)))

theorem writevCall_stores (ino : Ino) (w : World) : Stores (writevCall ino) (w.append ino) := by
  intro p iov n
  rw [writevCall, append_append]

theorem pwrite_nil (w : World) (offset : Nat) : w.pwrite ino offset [] = w := by
  rw [World.pwrite, Fs.pwrite, if_pos rfl]

theorem overwrite_overwrite (d : Bytes) (offset : Nat) (a b : Bytes) :
    overwrite (overwrite d offset a) (offset + a.length) b = overwrite d offset (a ++ b) := by
  have hlen : (d.take offset ++ List.replicate (offset - d.length) 0 ++ a).length =
      offset + a.length := by
    rw [List.length_append, List.length_append, List.length_take, List.length_replicate]
    omega
  have hpad : offset + a.length - (d.take offset ++ List.replicate (offset - d.length) 0 ++ a ++
      d.drop (offset + a.length)).length = 0 := by
    rw [List.length_append, hlen]
    omega
  rw [overwrite, overwrite, overwrite, hpad, List.replicate_zero, List.append_nil,
    List.take_left' hlen, ← List.drop_drop, List.drop_left' hlen, List.drop_drop, List.length_append,
    Nat.add_assoc, List.append_assoc _ a b]

/-- A write behind a write. -/
theorem pwrite_pwrite (w : World) (offset : Nat) (a b : Bytes) :
    (w.pwrite ino offset a).pwrite ino (offset + a.length) b = w.pwrite ino offset (a ++ b) := by
  by_cases ha : a = []
  · rw [ha, pwrite_nil, List.length_nil, Nat.add_zero, List.nil_append]
  · by_cases hb : b = []
    · rw [hb, pwrite_nil, List.append_nil]
    · have hab : a ++ b ≠ [] := by simp [ha]
      simp only [World.pwrite, Fs.pwrite, if_neg ha, if_neg hb, if_neg hab, Function.update_self,
        Function.update_idem, overwrite_overwrite]

theorem pwritevCall_stores (ino : Ino) (offset : Nat) (w : World) :
    Stores (pwritevCall ino offset) (w.pwrite ino offset) := by
  intro p iov n
  rw [pwritevCall, pwrite_pwrite]

/-- Between two calls: what has been written is what the segments have lost. -/
structure Written (store : Bytes → World) (iov : List Iovec) (c : Cursor) (v : World) : Prop where
  fits : ∀ u ∈ c.rest, u.Fits
  split : ∃ p, v = store p ∧ p.length = c.total ∧ p ++ gather c.rest = gather iov
  last : c.rest ≠ [] → (LastNonempty c.rest ↔ LastNonempty iov)
  done : c.rest = [] → LastNonempty iov

namespace Written

variable {sys : VecCall} {store : Bytes → World} {c : Cursor} {v : World}

theorem start (hfits : ∀ v ∈ iov, v.Fits) (hne : iov ≠ []) :
    Written store iov ⟨0, [], iov⟩ (store []) :=
  ⟨hfits, ⟨[], rfl, rfl, rfl⟩, fun _ => Iff.rfl, fun h => absurd h hne⟩

theorem isPrefix (h : Written store iov c v) (hne : c.rest ≠ []) :
    ∃ p, (p <+: gather iov ∧ (LastNonempty iov → p ≠ gather iov)) ∧ v = store p := by
  obtain ⟨p, hv, -, hp⟩ := h.split
  refine ⟨p, ⟨⟨_, hp⟩, fun hlast heq => ?_⟩, hv⟩
  have hpos := ((h.last hne).mpr hlast).wanted_pos
  have hlen := congrArg List.length hp
  rw [List.length_append, gather_length h.fits, heq] at hlen
  omega

theorem moved_le (h : Written store iov c v) (n : Nat) :
    ((gather c.rest).take (n + 1)).length ≤ wanted c.rest := by
  rw [List.length_take, gather_length h.fits]
  exact Nat.min_le_right _ _

/-- What one call comes to. -/
theorem sys_eq (h : Written store iov c v) (hsys : Stores sys store) (n : Nat) :
    ∃ p, v = store p ∧ p.length = c.total ∧ p ++ gather c.rest = gather iov ∧
      sys c.total c.rest n v = ((gather c.rest).take (n + 1), c.rest,
        store (p ++ (gather c.rest).take (n + 1))) := by
  obtain ⟨p, hv, hlen, hp⟩ := h.split
  refine ⟨p, hv, hlen, hp, ?_⟩
  rw [hv, ← hlen, hsys]

theorem step (h : Written store iov c v) (hsys : Stores sys store) (hne : c.rest ≠ []) (n : Nat) :
    Written store iov (c.next (sys c.total c.rest n v).1.length (sys c.total c.rest n v).2.1)
      (sys c.total c.rest n v).2.2 := by
  obtain ⟨p, hv, hlen, hp, heq⟩ := h.sys_eq hsys n
  have hle := h.moved_le n
  rw [heq]
  refine ⟨advance_fits h.fits, ⟨p ++ (gather c.rest).take (n + 1), rfl, ?_, ?_⟩,
    fun hr => (advance_last hle hr).trans (h.last hne),
    fun hr => (h.last hne).mp (advance_done hle hne hr)⟩
  · simp only [Cursor.next, List.length_append, hlen]
  · have hdrop : (gather c.rest).drop ((gather c.rest).take (n + 1)).length =
        (gather c.rest).drop (n + 1) := by
      rw [List.length_take]
      rcases Nat.le_total (n + 1) (gather c.rest).length with hn | hn
      · rw [Nat.min_eq_left hn]
      · rw [Nat.min_eq_right hn, List.drop_length, List.drop_eq_nil_of_le hn]
    change p ++ _ ++ gather (advance _ c.rest).2 = _
    rw [gather_advance h.fits, hdrop, List.append_assoc, List.take_append_drop, hp]

/-- A call that is not the last moves a byte, if the last segment has one. -/
theorem shrinks (h : Written store iov c v) (hsys : Stores sys store) (hlast : LastNonempty iov)
    (hne : c.rest ≠ []) (n : Nat) :
    wanted (advance (sys c.total c.rest n v).1.length (sys c.total c.rest n v).2.1).2 <
      wanted c.rest := by
  obtain ⟨p, -, -, -, heq⟩ := h.sys_eq hsys n
  rw [heq]
  have hpos := ((h.last hne).mpr hlast).wanted_pos
  have hadv := advance_wanted (h.moved_le n)
  have hmoved : 0 < ((gather c.rest).take (n + 1)).length := by
    rw [List.length_take, gather_length h.fits]
    omega
  change wanted (advance ((gather c.rest).take (n + 1)).length c.rest).2 < _
  omega

end Written

section Calls

variable {sys : VecCall} {store : Bytes → World}

/-- What the loop over such calls has done when it returns, and before. With a byte in the last segment
it has not done everything before it returns. -/
theorem writes_ensures (A : Reply → Prop) (hsys : Stores sys store) (hfits : ∀ v ∈ iov, v.Fits)
    (hne : iov ≠ []) :
    Ensures A (Prog.loop (transferRound sys none .writeFailed) ⟨0, [], iov⟩) (store [])
      (fun r v => (∃ l, r = .ok l ∧ LastNonempty iov ∧ v = store (gather iov)) ∨
        (r = .fail (some .writeFailed) ∧ (∃ a, A a ∧ ¬ a.Clean) ∧
          ∃ p, (p <+: gather iov ∧ (LastNonempty iov → p ≠ gather iov)) ∧ v = store p))
      (fun v => ∃ p, (p <+: gather iov ∧ (LastNonempty iov → p ≠ gather iov)) ∧ v = store p) := by
  apply transfer_ensures sys none .writeFailed (Written store iov)
  · intro c v hc hr
    obtain ⟨p, hv, -, hp⟩ := hc.split
    rw [hr, gather_nil, List.append_nil] at hp
    exact .inl ⟨_, rfl, hc.done hr, hp ▸ hv⟩
  · intro c v a hc hr ha hn
    exact .inr ⟨rfl, ⟨a, ha, hn⟩, hc.isPrefix hr⟩
  · intro c v n hc hr
    rw [if_neg (by simp)]
    exact hc.step hsys hr n
  · intro c v hc hr
    exact hc.isPrefix hr
  · exact Written.start hfits hne

theorem writes_returns (hsys : Stores sys store) (hfits : ∀ v ∈ iov, v.Fits)
    (hlast : LastNonempty iov) :
    Returns (Prog.loop (transferRound sys none .writeFailed) ⟨0, [], iov⟩) (store [])
      (wanted iov + 1) := by
  have hne : iov ≠ [] := by rintro rfl; exact lastNonempty_nil hlast
  refine transfer_returns sys none .writeFailed (Written store iov) ?_ (Written.start hfits hne)
  intro c v n hc hr
  exact .inr ⟨hc.step hsys hr n, hc.shrinks hsys hlast hr n⟩

theorem writes_terminates (hsys : Stores sys store) (hfits : ∀ v ∈ iov, v.Fits)
    (hlast : LastNonempty iov) :
    Terminates (Prog.loop (transferRound sys none .writeFailed) ⟨0, [], iov⟩) (store [])
      (wanted iov + 1) :=
  (writes_returns hsys hfits hlast).terminates

end Calls

/-- What `safe_writev` has done when it returns, and before. -/
theorem safeWritev_ensures (A : Reply → Prop) (hfits : ∀ v ∈ iov, v.Fits) (hne : iov ≠ []) :
    Ensures A (safeWritev (some ino) iov) w
      (fun r v => (r = .ok () ∧ LastNonempty iov ∧ v = w.append ino (gather iov)) ∨
        (r = .fail (some .writeFailed) ∧ (∃ a, A a ∧ ¬ a.Clean) ∧
          ∃ p, (p <+: gather iov ∧ (LastNonempty iov → p ≠ gather iov)) ∧ v = w.append ino p))
      (fun v => ∃ p, (p <+: gather iov ∧ (LastNonempty iov → p ≠ gather iov)) ∧
        v = w.append ino p) := by
  have hloop := writes_ensures A (writevCall_stores ino w) hfits hne
  rw [append_nil] at hloop
  obtain ⟨v₀, iov', rfl⟩ := List.exists_cons_of_ne_nil hne
  refine hloop.bind ?_
  rintro r v (⟨l, rfl, hlast, hv⟩ | ⟨rfl, hA, hp⟩)
  · exact Ensures.pure (.inl ⟨rfl, hlast, hv⟩)
  · exact Ensures.pure (.inr ⟨rfl, hA, hp⟩)

/-- Errors do not keep it from returning. -/
theorem safeWritev_returns (hfits : ∀ v ∈ iov, v.Fits) (hlast : LastNonempty iov) :
    Returns (safeWritev (some ino) iov) w (wanted iov + 1) := by
  have hne : iov ≠ [] := by rintro rfl; exact lastNonempty_nil hlast
  have hloop := writes_returns (writevCall_stores ino w) hfits hlast
  rw [append_nil] at hloop
  obtain ⟨v₀, iov', rfl⟩ := List.exists_cons_of_ne_nil hne
  refine hloop.bind (M := 0) ?_
  intro rs r rest v _
  cases r <;> exact Returns.pure _

/-- Without errors, and with a byte in the last segment, everything is written. -/
theorem safeWritev_computes (hfits : ∀ v ∈ iov, v.Fits) (hlast : LastNonempty iov) :
    Computes (safeWritev (some ino) iov) w (.ok ()) (w.append ino (gather iov)) := by
  have hne : iov ≠ [] := by rintro rfl; exact lastNonempty_nil hlast
  constructor
  · refine (safeWritev_ensures Reply.Clean hfits hne).mono ?_ fun _ _ => trivial
    rintro r v (⟨rfl, -, rfl⟩ | ⟨-, ⟨a, ha, hn⟩, -⟩)
    · exact ⟨rfl, rfl⟩
    · exact absurd ha hn
  · exact ⟨_, (safeWritev_returns hfits hlast).terminates⟩

/-- Without a byte in the last segment the loop asks for a transfer of no bytes for ever. -/
theorem safeWritev_diverges (hfits : ∀ v ∈ iov, v.Fits) (hne : iov ≠ []) (hlast : ¬ LastNonempty iov) :
    Diverges (safeWritev (some ino) iov) w := by
  refine (safeWritev_ensures Reply.Clean hfits hne).mono ?_ fun _ _ => trivial
  rintro r v (⟨-, h, -⟩ | ⟨-, ⟨a, ha, hn⟩, -⟩)
  · exact hlast h
  · exact hn ha

end Write

section Read

variable {ino : Ino} {offset : Nat} {w : World} {iov : List Iovec}

/-- What the loop has stored so far: the segments it is through with, and the front of the next. -/
def stored (past rest : List Iovec) : Bytes :=
  past.flatMap Iovec.buf ++ (rest.head?.map fun v => v.buf.take v.iovBase).getD []

@[simp] theorem fill_iovBase (v : Iovec) (data : Bytes) : (v.fill data).iovBase = v.iovBase := rfl

@[simp] theorem fill_iovLen (v : Iovec) (data : Bytes) : (v.fill data).iovLen = v.iovLen := rfl

theorem scatter_wanted (data : Bytes) (iov : List Iovec) : wanted (scatter data iov) = wanted iov := by
  induction iov generalizing data with
  | nil => rfl
  | cons v iov ih => simp only [scatter, wanted_cons, fill_iovLen, ih]

theorem scatter_length (data : Bytes) (iov : List Iovec) :
    (scatter data iov).length = iov.length := by
  induction iov generalizing data with
  | nil => rfl
  | cons v iov ih => rw [scatter, List.length_cons, ih, List.length_cons]

theorem scatter_ne_nil {data : Bytes} (h : iov ≠ []) : scatter data iov ≠ [] := by
  obtain ⟨v, iov, rfl⟩ := List.exists_cons_of_ne_nil h
  simp [scatter]

theorem scatter_last (data : Bytes) (iov : List Iovec) :
    LastNonempty (scatter data iov) ↔ LastNonempty iov := by
  induction iov generalizing data with
  | nil => rfl
  | cons v iov ih =>
      cases iov with
      | nil => simp only [scatter, lastNonempty_singleton, fill_iovLen]
      | cons u iov =>
          have := ih (data.drop v.iovLen)
          simp only [scatter, lastNonempty_cons_cons] at this ⊢
          exact this

theorem fill_length {v : Iovec} (hv : v.Fits) (data : Bytes) :
    (v.fill (data.take v.iovLen)).buf.length = v.buf.length := by
  simp only [Iovec.Fits] at hv
  simp only [Iovec.fill, List.length_append, List.length_take, List.length_drop]
  omega

theorem scatter_fits (data : Bytes) (h : ∀ v ∈ iov, v.Fits) : ∀ v ∈ scatter data iov, v.Fits := by
  induction iov generalizing data with
  | nil => simp [scatter]
  | cons v iov ih =>
      intro u hu
      rcases List.mem_cons.mp hu with rfl | hu
      · have hv := h v List.mem_cons_self
        simp only [Iovec.Fits] at hv
        rw [Iovec.Fits, fill_length hv data, fill_iovBase, fill_iovLen, hv]
      · exact ih _ (fun u hu => h u (List.mem_cons_of_mem _ hu)) u hu

theorem scatter_lengths (data : Bytes) (h : ∀ v ∈ iov, v.Fits) :
    (scatter data iov).map (·.buf.length) = iov.map (·.buf.length) := by
  induction iov generalizing data with
  | nil => rfl
  | cons v iov ih =>
      simp only [scatter, List.map_cons, fill_length (h v List.mem_cons_self)]
      rw [ih _ fun u hu => h u (List.mem_cons_of_mem _ hu)]

theorem advance_lengths (moved : Nat) (iov : List Iovec) :
    ((advance moved iov).1 ++ (advance moved iov).2).map (·.buf.length) =
      iov.map (·.buf.length) := by
  induction iov generalizing moved with
  | nil => rfl
  | cons v iov ih =>
      rcases Nat.eq_zero_or_pos moved with rfl | h0
      · rw [advance_zero, List.nil_append]
      · rcases Nat.lt_or_ge moved v.iovLen with hlt | hge
        · rw [advance_cut h0 hlt]
          rfl
        · rw [advance_over h0 hge]
          simp only [List.cons_append, List.map_cons, ih]

/-- Only the segment the loop is in has been begun. -/
def TailFresh (iov : List Iovec) : Prop := ∀ v ∈ iov.tail, v.iovBase = 0

theorem scatter_fresh {data : Bytes} (h : ∀ v ∈ iov, v.iovBase = 0) :
    ∀ v ∈ scatter data iov, v.iovBase = 0 := by
  induction iov generalizing data with
  | nil => simp [scatter]
  | cons v iov ih =>
      intro u hu
      rcases List.mem_cons.mp hu with rfl | hu
      · exact h v List.mem_cons_self
      · exact ih (fun u hu => h u (List.mem_cons_of_mem _ hu)) u hu

theorem advance_fresh {moved : Nat} (h : TailFresh iov) : TailFresh (advance moved iov).2 := by
  induction iov generalizing moved with
  | nil => exact h
  | cons v iov ih =>
      rcases Nat.eq_zero_or_pos moved with rfl | h0
      · rwa [advance_zero]
      · rcases Nat.lt_or_ge moved v.iovLen with hlt | hge
        · rw [advance_cut h0 hlt]
          exact h
        · rw [advance_over h0 hge]
          exact ih fun u hu => h u (List.mem_of_mem_tail hu)

/-- The bytes of one call land behind those of the calls before. -/
theorem stored_advance {data : Bytes} (hfits : ∀ v ∈ iov, v.Fits) (hfresh : TailFresh iov)
    (hle : data.length ≤ wanted iov) :
    stored (advance data.length (scatter data iov)).1 (advance data.length (scatter data iov)).2 =
      stored [] iov ++ data := by
  induction iov generalizing data with
  | nil =>
      have : data = [] := by simpa using hle
      simp [this, scatter, advance, stored]
  | cons v iov ih =>
      have hv := hfits v List.mem_cons_self
      simp only [Iovec.Fits] at hv
      have hbase : (v.buf.take v.iovBase).length = v.iovBase := by
        rw [List.length_take]; omega
      rcases Nat.eq_zero_or_pos data.length with h0 | h0
      · have hd := List.eq_nil_of_length_eq_zero h0
        subst hd
        simp only [List.length_nil, advance_zero, scatter, List.take_nil, List.append_nil, stored,
          List.flatMap_nil, List.head?_cons, Option.map_some, Iovec.fill, Nat.add_zero,
          List.take_append_drop]
      · rcases Nat.lt_or_ge data.length v.iovLen with hlt | hge
        · have htake : data.take v.iovLen = data := List.take_of_length_le (by omega)
          have hcut : data.length < (v.fill (data.take v.iovLen)).iovLen := hlt
          have hfront : (v.buf.take v.iovBase ++ data).length = v.iovBase + data.length := by
            rw [List.length_append, hbase]
          rw [scatter, advance_cut h0 hcut]
          simp only [stored, List.flatMap_nil, List.nil_append, List.head?_cons, Option.map_some,
            Option.getD_some, htake, Iovec.fill]
          exact List.take_left' hfront
        · have hlen : (data.take v.iovLen).length = v.iovLen := by rw [List.length_take]; omega
          have hdrop : (data.drop v.iovLen).length = data.length - v.iovLen := List.length_drop
          have hover : (v.fill (data.take v.iovLen)).iovLen ≤ data.length := hge
          have hfresh' : ∀ u ∈ iov, u.iovBase = 0 := hfresh
          have hhead : stored [] iov = [] := by
            cases iov with
            | nil => rfl
            | cons u iov => simp [stored, hfresh' u List.mem_cons_self]
          rw [wanted_cons] at hle
          have hrest := @ih (data.drop v.iovLen)
            (fun u hu => hfits u (List.mem_cons_of_mem _ hu))
            (fun u hu => hfresh' u (List.mem_of_mem_tail hu)) (by omega)
          rw [hhead, hdrop, List.nil_append] at hrest
          have hfull : (v.fill (data.take v.iovLen)).buf = v.buf.take v.iovBase ++ data.take v.iovLen := by
            rw [Iovec.fill, hlen, hv, List.drop_length, List.append_nil]
          rw [scatter, advance_over h0 hover, fill_iovLen]
          simp only [stored, List.flatMap_cons, List.append_assoc, hfull] at hrest ⊢
          rw [hrest, List.take_append_drop]
          simp

/-- Between two calls of `safe_preadv`: the segments hold the bytes from `offset` on. -/
structure Filled (ino : Ino) (offset : Nat) (w : World) (iov : List Iovec) (c : Cursor) (v : World) :
    Prop where
  same : v = w
  fits : ∀ u ∈ c.rest, u.Fits
  fresh : TailFresh c.rest
  lengths : (c.past ++ c.rest).map (·.buf.length) = iov.map (·.buf.length)
  bytes : stored c.past c.rest = ((w.fs.data ino).drop offset).take c.total
  length : (stored c.past c.rest).length = c.total
  count : c.total + wanted c.rest = wanted iov
  last : c.rest ≠ [] → (LastNonempty c.rest ↔ LastNonempty iov)
  done : c.rest = [] → LastNonempty iov

theorem stored_append (past fin rest : List Iovec) :
    stored (past ++ fin) rest = past.flatMap Iovec.buf ++ stored fin rest := by
  simp [stored]

namespace Filled

variable {c : Cursor} {v : World}

theorem start (hfits : ∀ v ∈ iov, v.Fits) (hfresh : ∀ v ∈ iov, v.iovBase = 0) (hne : iov ≠ []) :
    Filled ino offset w iov ⟨0, [], iov⟩ w := by
  have hstored : stored [] iov = [] := by
    obtain ⟨u, iov, rfl⟩ := List.exists_cons_of_ne_nil hne
    simp [stored, hfresh u List.mem_cons_self]
  exact ⟨rfl, hfits, fun u hu => hfresh u (List.mem_of_mem_tail hu), rfl, by simp [hstored],
    by simp [hstored], by simp, fun _ => Iff.rfl, fun h => absurd h hne⟩

/-- The call has nothing to give only at the end of the file or to segments without bytes. -/
theorem eof (h : Filled ino offset w iov c v) (hne : c.rest ≠ []) {n : Nat}
    (hz : (preadvCall ino offset c.total c.rest n v).1.length = 0) :
    ¬ (LastNonempty iov ∧ offset + wanted iov ≤ (w.fs.data ino).length) := by
  rintro ⟨hlast, hlen⟩
  have hpos := ((h.last hne).mpr hlast).wanted_pos
  have hcount := h.count
  rw [h.same] at hz
  simp only [preadvCall, Fs.pread, List.length_take, List.length_drop] at hz
  omega

theorem step (h : Filled ino offset w iov c v) (hne : c.rest ≠ []) (n : Nat) :
    Filled ino offset w iov
      (c.next (preadvCall ino offset c.total c.rest n v).1.length
        (preadvCall ino offset c.total c.rest n v).2.1) v := by
  have hsame := h.same
  subst hsame
  simp only [preadvCall, Fs.pread]
  generalize hdata : ((v.fs.data ino).drop (offset + c.total)).take (min (wanted c.rest) (n + 1)) = data
  have hle : data.length ≤ wanted c.rest := by
    rw [← hdata, List.length_take]; omega
  have hle' : data.length ≤ wanted (scatter data c.rest) := by rw [scatter_wanted]; exact hle
  have hwanted := advance_wanted hle'
  rw [scatter_wanted] at hwanted
  have hstored : stored (c.past ++ (advance data.length (scatter data c.rest)).1)
      (advance data.length (scatter data c.rest)).2 = stored c.past c.rest ++ data := by
    rw [stored_append, stored_advance h.fits h.fresh hle]
    simp [stored]
  have hprefix : data <+: (v.fs.data ino).drop (offset + c.total) := hdata ▸ List.take_prefix _ _
  have hbytes : stored c.past c.rest ++ data =
      ((v.fs.data ino).drop offset).take (c.total + data.length) := by
    rw [h.bytes, List.take_add, List.drop_drop, ← List.prefix_iff_eq_take.mp hprefix]
  have hne' : scatter data c.rest ≠ [] := scatter_ne_nil hne
  have hfresh : TailFresh (scatter data c.rest) := by
    obtain ⟨u, rest, hu⟩ := List.exists_cons_of_ne_nil hne
    have htail := h.fresh
    rw [hu] at htail ⊢
    exact scatter_fresh htail
  constructor
  case same => rfl
  case fits => exact advance_fits (scatter_fits data h.fits)
  case fresh => exact advance_fresh hfresh
  case lengths =>
    simp only [Cursor.next]
    rw [← h.lengths, List.append_assoc, List.map_append, advance_lengths,
      scatter_lengths data h.fits, List.map_append]
  case bytes => exact hstored.trans hbytes
  case length =>
    simp only [Cursor.next]
    rw [hstored, List.length_append, h.length]
  case count =>
    have hcount := h.count
    simp only [Cursor.next]
    omega
  case last =>
    intro hr
    exact (advance_last hle' hr).trans ((scatter_last data c.rest).trans (h.last hne))
  case done =>
    intro hr
    exact (h.last hne).mp ((scatter_last data c.rest).mp (advance_done hle' hne' hr))

/-- The loop is through: every segment is full. -/
theorem finish (h : Filled ino offset w iov c v) (hr : c.rest = []) :
    LastNonempty iov ∧ offset + wanted iov ≤ (w.fs.data ino).length ∧
      (c.past.map Iovec.buf).flatten = ((w.fs.data ino).drop offset).take (wanted iov) ∧
      (c.past.map Iovec.buf).map List.length = iov.map (·.buf.length) := by
  have hlast := h.done hr
  have hpos := hlast.wanted_pos
  have hcount := h.count
  have hbytes := h.bytes
  have hlength := h.length
  have hlengths := h.lengths
  rw [hr, wanted_nil, Nat.add_zero] at hcount
  rw [hr, hcount] at hbytes
  rw [hr, hcount, hbytes, List.length_take, List.length_drop] at hlength
  rw [hr, List.append_nil] at hlengths
  refine ⟨hlast, by omega, ?_, ?_⟩
  · rw [← hbytes]
    simp [stored, List.flatMap]
  · rw [List.map_map]
    exact hlengths

end Filled

/-- What the loop over the reads gives; it changes nothing. -/
theorem reads_ensures (A : Reply → Prop) (hfits : ∀ v ∈ iov, v.Fits)
    (hfresh : ∀ v ∈ iov, v.iovBase = 0) (hne : iov ≠ []) :
    Ensures A (Prog.loop (transferRound (preadvCall ino offset) (some .unexpectedEof) .readFailed)
        ⟨0, [], iov⟩) w
      (fun r v => v = w ∧
        ((∃ l, r = .ok l ∧ LastNonempty iov ∧ offset + wanted iov ≤ (w.fs.data ino).length ∧
          (l.map Iovec.buf).flatten = ((w.fs.data ino).drop offset).take (wanted iov) ∧
          (l.map Iovec.buf).map List.length = iov.map (·.buf.length)) ∨
        (r = .fail (some .unexpectedEof) ∧
          ¬ (LastNonempty iov ∧ offset + wanted iov ≤ (w.fs.data ino).length)) ∨
        (r = .fail (some .readFailed) ∧ ∃ a, A a ∧ ¬ a.Clean)))
      (fun v => v = w) := by
  apply transfer_ensures (preadvCall ino offset) (some .unexpectedEof) .readFailed
    (Filled ino offset w iov)
  · intro c v hc hr
    exact ⟨hc.same, .inl ⟨_, rfl, hc.finish hr⟩⟩
  · intro c v a hc _ ha hn
    exact ⟨hc.same, .inr (.inr ⟨rfl, a, ha, hn⟩)⟩
  · intro c v n hc hr
    split
    · exact ⟨hc.same, .inr (.inl ⟨rfl, hc.eof hr (‹_ ∧ _›).1⟩)⟩
    · exact hc.step hr n
  · intro c v hc _
    exact hc.same
  · exact Filled.start hfits hfresh hne

/-- The reads end, whatever the replies. -/
theorem reads_returns (hfits : ∀ v ∈ iov, v.Fits) (hfresh : ∀ v ∈ iov, v.iovBase = 0)
    (hne : iov ≠ []) : Returns (Prog.loop (transferRound (preadvCall ino offset)
      (some .unexpectedEof) .readFailed) ⟨0, [], iov⟩) w (wanted iov + 1) := by
  refine transfer_returns (preadvCall ino offset) (some .unexpectedEof) .readFailed
    (Filled ino offset w iov) ?_ (Filled.start hfits hfresh hne)
  intro c v n hc hr
  by_cases hz : (preadvCall ino offset c.total c.rest n v).1.length = 0
  · exact .inl ⟨hz, rfl⟩
  · refine .inr ⟨hc.step hr n, ?_⟩
    have hle : (preadvCall ino offset c.total c.rest n v).1.length ≤
        wanted (preadvCall ino offset c.total c.rest n v).2.1 := by
      simp only [preadvCall, Fs.pread, scatter_wanted, List.length_take]
      omega
    have hadv := advance_wanted hle
    have hw : wanted (preadvCall ino offset c.total c.rest n v).2.1 = wanted c.rest :=
      scatter_wanted _ _
    omega

/-- What `safe_preadv` answers; it changes nothing. -/
theorem safePreadv_ensures (A : Reply → Prop) (hfits : ∀ v ∈ iov, v.Fits)
    (hfresh : ∀ v ∈ iov, v.iovBase = 0) (hne : iov ≠ []) :
    Ensures A (safePreadv (some ino) iov offset) w
      (fun r v => v = w ∧
        ((∃ bufs, r = .ok bufs ∧ LastNonempty iov ∧ offset + wanted iov ≤ (w.fs.data ino).length ∧
          bufs.flatten = ((w.fs.data ino).drop offset).take (wanted iov) ∧
          bufs.map List.length = iov.map (·.buf.length)) ∨
        (r = .fail (some .unexpectedEof) ∧
          ¬ (LastNonempty iov ∧ offset + wanted iov ≤ (w.fs.data ino).length)) ∨
        (r = .fail (some .readFailed) ∧ ∃ a, A a ∧ ¬ a.Clean)))
      (fun v => v = w) := by
  have hloop : Ensures A (Prog.loop (transferRound (preadvCall ino offset) _ _) _) w _ _ :=
    reads_ensures A hfits hfresh hne
  obtain ⟨v₀, iov', rfl⟩ := List.exists_cons_of_ne_nil hne
  refine hloop.bind ?_
  rintro r v ⟨hv, ⟨l, rfl, hl⟩ | ⟨rfl, hl⟩ | ⟨rfl, hl⟩⟩
  · exact Ensures.pure ⟨hv, .inl ⟨_, rfl, hl⟩⟩
  · exact Ensures.pure ⟨hv, .inr (.inl ⟨rfl, hl⟩)⟩
  · exact Ensures.pure ⟨hv, .inr (.inr ⟨rfl, hl⟩)⟩

theorem safePreadv_returns (hfits : ∀ v ∈ iov, v.Fits) (hfresh : ∀ v ∈ iov, v.iovBase = 0)
    (hne : iov ≠ []) : Returns (safePreadv (some ino) iov offset) w (wanted iov + 1) := by
  have hloop : Returns (Prog.loop (transferRound (preadvCall ino offset) _ _) _) w _ :=
    reads_returns hfits hfresh hne
  obtain ⟨v₀, iov', rfl⟩ := List.exists_cons_of_ne_nil hne
  refine hloop.bind (M := 0) ?_
  intro rs r rest v _
  cases r <;> exact Returns.pure _

theorem safePreadv_terminates (hfits : ∀ v ∈ iov, v.Fits) (hfresh : ∀ v ∈ iov, v.iovBase = 0)
    (hne : iov ≠ []) : ∃ N, Terminates (safePreadv (some ino) iov offset) w N :=
  ⟨_, (safePreadv_returns hfits hfresh hne).terminates⟩

/-- Cut bytes into consecutive pieces of the given lengths. -/
def chunks : List Nat → Bytes → List Bytes
  | [], _ => []
  | n :: ns, b => b.take n :: chunks ns (b.drop n)

theorem chunks_flatten (bufs : List Bytes) : chunks (bufs.map List.length) bufs.flatten = bufs := by
  induction bufs with
  | nil => rfl
  | cons b bufs ih =>
      simp only [List.map_cons, List.flatten_cons, chunks, List.take_left, List.drop_left, ih]

/-- Without errors the read succeeds when the bytes are there and the last segment asks for one. -/
theorem safePreadv_computes (hfits : ∀ v ∈ iov, v.Fits) (hfresh : ∀ v ∈ iov, v.iovBase = 0)
    (hlast : LastNonempty iov) (hlen : offset + wanted iov ≤ (w.fs.data ino).length) :
    Computes (safePreadv (some ino) iov offset) w
      (.ok (chunks (iov.map (·.buf.length)) (((w.fs.data ino).drop offset).take (wanted iov)))) w := by
  have hne : iov ≠ [] := by rintro rfl; exact lastNonempty_nil hlast
  refine ⟨(safePreadv_ensures Reply.Clean hfits hfresh hne).mono ?_ fun _ _ => trivial,
    safePreadv_terminates hfits hfresh hne⟩
  rintro r v ⟨rfl, ⟨bufs, rfl, -, -, hb, hl⟩ | ⟨-, hn⟩ | ⟨-, a, ha, hn⟩⟩
  · rw [← hb, ← hl, chunks_flatten]
    exact ⟨rfl, rfl⟩
  · exact absurd ⟨hlast, hlen⟩ hn
  · exact absurd ha hn

/-- Otherwise it reports the end of the file. -/
theorem safePreadv_eof (hfits : ∀ v ∈ iov, v.Fits) (hfresh : ∀ v ∈ iov, v.iovBase = 0)
    (hne : iov ≠ []) (h : ¬ (LastNonempty iov ∧ offset + wanted iov ≤ (w.fs.data ino).length)) :
    Computes (safePreadv (some ino) iov offset) w (.fail (some .unexpectedEof)) w := by
  refine ⟨(safePreadv_ensures Reply.Clean hfits hfresh hne).mono ?_ fun _ _ => trivial,
    safePreadv_terminates hfits hfresh hne⟩
  rintro r v ⟨rfl, ⟨bufs, rfl, hlast, hlen, -, -⟩ | ⟨rfl, -⟩ | ⟨-, a, ha, hn⟩⟩
  · exact absurd ⟨hlast, hlen⟩ h
  · exact ⟨rfl, rfl⟩
  · exact absurd ha hn

/-- What `safe_pread` answers; it changes nothing. -/
theorem safePread_ensures (A : Reply → Prop) {len : Nat} :
    Ensures A (safePread (some ino) len offset) w
      (fun r v => v = w ∧
        ((r = .ok (((w.fs.data ino).drop offset).take len) ∧
          (0 < len → offset + len ≤ (w.fs.data ino).length)) ∨
        (r = .fail (some .unexpectedEof) ∧ (w.fs.data ino).length < offset + len) ∨
        (r = .fail (some .readFailed) ∧ ∃ a, A a ∧ ¬ a.Clean)))
      (fun v => v = w) := by
  unfold safePread
  refine Ensures.loop (I := fun got v => v = w ∧ got.length ≤ len ∧
    got <+: (w.fs.data ino).drop offset) ?_ (fun _ _ h => h.1) ⟨rfl, by simp, List.nil_prefix⟩
  rintro got v ⟨rfl, hle, hpre⟩
  unfold preadRound
  have hgot := hpre.length_le
  rw [List.length_drop] at hgot
  split
  · have heq : got.length = len := by omega
    refine Ensures.pure ⟨rfl, .inl ⟨?_, by omega⟩⟩
    rw [← heq, ← List.prefix_iff_eq_take.mp hpre]
  · refine (Ensures.call (C := fun u => u = v) rfl).bind ?_
    rintro r _ ⟨hA, rfl⟩
    cases r with
    | intr => exact Ensures.pure ⟨rfl, hle, hpre⟩
    | transient => exact Ensures.pure ⟨rfl, .inr (.inr ⟨rfl, _, hA, id⟩)⟩
    | fail => exact Ensures.pure ⟨rfl, .inr (.inr ⟨rfl, _, hA, id⟩)⟩
    | done n =>
        refine Ensures.state.bind ?_
        rintro _ u ⟨rfl, rfl⟩
        have hlen : (u.fs.pread ino (min (len - got.length) (n + 1)) (offset + got.length)).length ≤
            len - got.length := by
          simp only [Fs.pread, List.length_take]
          omega
        split
        · rename_i hz
          have := congrArg List.length hz
          simp only [Fs.pread, List.length_take, List.length_drop, List.length_nil] at this
          exact Ensures.pure ⟨rfl, .inr (.inl ⟨rfl, by omega⟩)⟩
        · refine Ensures.pure ⟨rfl, by rw [List.length_append]; omega, ?_⟩
          obtain ⟨t, ht⟩ := hpre
          have hrest : t = (u.fs.data ino).drop (offset + got.length) := by
            rw [← List.drop_drop, ← ht, List.drop_left]
          rw [← ht, Fs.pread, hrest]
          exact (List.prefix_append_right_inj got).mpr (List.take_prefix _ _)

theorem preadRound_consumes (len : Nat) (got : Bytes) :
    Prog.Consumes (preadRound ino len offset got) := by
  unfold preadRound
  split
  · exact Prog.consumes_inr _
  · exact Prog.consumes_call _

theorem safePread_returns {len : Nat} :
    Returns (safePread (some ino) len offset) w (len + 1) := by
  unfold safePread
  refine Returns.loop (preadRound_consumes len) (I := fun _ _ => True)
    (f := fun got : Bytes => len - got.length + 1) ?_ trivial
  intro got v _ rs hn
  unfold preadRound
  split
  · exact ⟨_, rs, v, rfl, by simp⟩
  · cases rs with
    | nil => simp [completed] at hn
    | cons r rs =>
        cases r with
        | intr => exact ⟨.inl got, rs, v, rfl, trivial, by simp⟩
        | transient => exact ⟨.inr (.fail (some .readFailed)), rs, v, rfl, by simp⟩
        | fail => exact ⟨.inr (.fail (some .readFailed)), rs, v, rfl, by simp⟩
        | done n =>
            generalize hdata :
              v.fs.pread ino (min (len - got.length) (n + 1)) (offset + got.length) = data
            have hrun : (Prog.call >>= preadReply ino len offset got).run (.done n :: rs) v =
                (if data = [] then pure (.inr (.fail (some .unexpectedEof)))
                else pure (.inl (got ++ data)) : Sys (Bytes ⊕ Res Bytes)).run rs v := by
              rw [← hdata]
              rfl
            rw [hrun]
            by_cases hz : data = []
            · rw [if_pos hz]
              exact ⟨_, rs, v, rfl, by simp only [completed_done]; omega⟩
            · rw [if_neg hz]
              have hpos := List.length_pos_iff.mpr hz
              exact ⟨_, rs, v, rfl, trivial, by
                simp only [completed_done, List.length_append]; omega⟩

theorem safePread_computes {len : Nat} (hlen : offset + len ≤ (w.fs.data ino).length) :
    Computes (safePread (some ino) len offset) w (.ok (((w.fs.data ino).drop offset).take len)) w := by
  refine ⟨(safePread_ensures Reply.Clean).mono ?_ fun _ _ => trivial, _, safePread_returns.terminates⟩
  rintro r v ⟨rfl, ⟨rfl, -⟩ | ⟨-, hlt⟩ | ⟨-, a, ha, hn⟩⟩
  · exact ⟨rfl, rfl⟩
  · omega
  · exact absurd ha hn

theorem safePread_eof {len : Nat} (hpos : 0 < len) (hlen : (w.fs.data ino).length < offset + len) :
    Computes (safePread (some ino) len offset) w (.fail (some .unexpectedEof)) w := by
  refine ⟨(safePread_ensures Reply.Clean).mono ?_ fun _ _ => trivial, _, safePread_returns.terminates⟩
  rintro r v ⟨rfl, ⟨-, h⟩ | ⟨rfl, -⟩ | ⟨-, a, ha, hn⟩⟩
  · have := h hpos
    omega
  · exact ⟨rfl, rfl⟩
  · exact absurd ha hn

end Read

end Ccask.Audit
