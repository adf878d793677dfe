import Ccask.Audit.AppendOnly
import Ccask.Effect.Telling

/-!
# Calls whose replies tell everything

Whether an allocation, an `open`, an `unlink` or a transfer succeeds is told by the replies, once it
is known that the bytes to be read are there and that the last segment has a byte.
-/

namespace Ccask.Audit

open Ccask.Effect Ccask.Model

variable {w : World}

/-- A call whose failure is handed on. -/
theorem handedOn {α β : Type} {t s : Telling} {ok : β → Bool} {m : Sys (Res α)} {k : Res α → Sys β}
    {Q : Res α → World → Prop} {C : World → Prop} (hm : Tells t Res.isOk m w)
    (hQ : Ensures (fun _ => True) m w Q C) (hs : ∀ a v, Q (.ok a) v → Tells s ok (k (.ok a)) v)
    (hfail : ∀ e, ∃ b, ok b = false ∧ k (.fail e) = pure b)
    (hretry : ∀ e, ∃ b, ok b = false ∧ k (.retry e) = pure b) :
    Tells (t.andThen s) ok (m >>= k) w := by
  refine hm.andThen hQ (fun r v hr hok => ?_) fun r hok => ?_
  · cases r with
    | ok a => exact hs a v hr
    | fail e => cases hok
    | retry e => cases hok
  · cases r with
    | ok a => cases hok
    | fail e => exact hfail e
    | retry e => exact hretry e

section Tries

/-- A program of one call, which gives `res` and leaves `w'` when no error is answered. -/
structure OneCall {α : Type} (expr : Sys (Res α)) (w : World) (res : Res α) (w' : World) : Prop where
  nil : expr.run [] w = .pending w
  fail : ∃ e, ∀ rest, expr.run (.fail :: rest) w = .returned (.fail e) rest w
  transient : ∃ e, ∀ rest, expr.run (.transient :: rest) w = .returned (.retry e) rest w
  clean : ∀ r rest, r.Clean → expr.run (r :: rest) w = .returned res rest w'
  once : ∀ e, res ≠ .retry e

variable {α : Type} {expr : Sys (Res α)} {w' : World} {res : Res α}

/-- What comes of all tries is told by the replies. -/
theorem OneCall.attempt (h : OneCall expr w res w') (n : Nat) (rs : List Reply) :
    match Telling.tries n rs with
    | none => (attempt n expr).run rs w = .pending w
    | some (false, rest) => ∃ r, Res.isOk r = false ∧ (attempt n expr).run rs w = .returned r rest w
    | some (true, rest) => (attempt n expr).run rs w = .returned res rest w' := by
  induction n generalizing rs with
  | zero => exact ⟨.retry none, rfl, rfl⟩
  | succ n ih =>
      have hclean : ∀ r rest, r.Clean →
          (Model.attempt (n + 1) expr).run (r :: rest) w = .returned res rest w' := by
        intro r rest hr
        rw [Model.attempt, Prog.run_bind_returned (h.clean r rest hr)]
        cases res with
        | retry e => exact absurd rfl (h.once e)
        | ok a => rfl
        | fail e => rfl
      cases rs with
      | nil => exact Prog.run_bind_pending h.nil
      | cons r rs =>
          cases r with
          | done k => exact hclean _ _ trivial
          | intr => exact hclean _ _ trivial
          | fail =>
              obtain ⟨e, he⟩ := h.fail
              exact ⟨.fail e, rfl, Prog.run_bind_returned (he rs)⟩
          | transient =>
              obtain ⟨e, he⟩ := h.transient
              have hrun : (Model.attempt (n + 1) expr).run (.transient :: rs) w =
                  (if n = 0 then pure (.retry e) else Model.attempt n expr : Sys (Res α)).run rs w :=
                Prog.run_bind_returned (he rs)
              rw [hrun]
              cases n with
              | zero => exact ⟨.retry e, rfl, rfl⟩
              | succ n => exact ih rs

theorem OneCall.tells (h : OneCall expr w res w') (hok : res.isOk = true) (n : Nat) :
    Tells (.tries n) Res.isOk (Model.attempt n expr) w := by
  intro rs
  have hrun := h.attempt n rs
  rcases htold : Telling.tries n rs with _ | ⟨ok, rest⟩
  · rw [htold] at hrun
    rw [show (Model.attempt n expr).run rs w = .pending w from hrun]
  · rw [htold] at hrun
    cases ok with
    | false =>
        obtain ⟨r, hr, hrun⟩ := hrun
        rw [hrun, ← hr]
    | true =>
        rw [show (Model.attempt n expr).run rs w = .returned res rest w' from hrun, ← hok]

/-- What tries of one call give and leave. -/
theorem OneCall.ensures (h : OneCall expr w res w') (n : Nat) :
    Ensures (fun _ => True) (Model.attempt n expr) w
      (fun r v => (r.isOk = false ∧ v = w) ∨ (r = res ∧ v = w')) (fun v => v = w) := by
  intro rs _
  have hrun := h.attempt n rs
  rcases htold : Telling.tries n rs with _ | ⟨ok, rest⟩
  · rw [htold] at hrun
    rw [show (Model.attempt n expr).run rs w = .pending w from hrun]
  · rw [htold] at hrun
    cases ok with
    | false =>
        obtain ⟨r, hr, hrun⟩ := hrun
        rw [hrun]
        exact .inl ⟨hr, rfl⟩
    | true =>
        rw [show (Model.attempt n expr).run rs w = .returned res rest w' from hrun]
        exact .inr ⟨rfl, rfl⟩

/-- A program that never asks for another try is tried once. -/
theorem attempt_tells {t : Telling} {n : Nat} {C : World → Prop} (h : Tells t Res.isOk expr w)
    (hretry : Ensures (fun _ => True) expr w (fun r _ => ∀ e, r ≠ .retry e) C) :
    Tells t Res.isOk (Model.attempt (n + 1) expr) w := by
  rw [← Telling.andThen_ends t]
  refine h.bind hretry ?_ ?_
  · intro r v hr hok
    cases r with
    | ok a => exact .pure rfl
    | fail e => cases hok
    | retry e => exact absurd rfl (hr e)
  · intro r v hr hok
    cases r with
    | ok a => cases hok
    | fail e => exact .pure rfl
    | retry e => exact absurd rfl (hr e)

theorem openCreate_oneCall (name : Name) (w : World) : OneCall (openCreate name) w
    (.ok (w.fs.create name).2) { w with fs := (w.fs.create name).1 } := by
  refine ⟨rfl, ⟨_, fun _ => rfl⟩, ⟨_, fun _ => rfl⟩, ?_, by simp⟩
  intro r rest hr
  cases r with
  | done k => rfl
  | intr => rfl
  | transient => exact False.elim hr
  | fail => exact False.elim hr

theorem ccaskFilesGetDatafileFd_oneCall {id : Nat} {ino : Ino}
    (h : w.fs.dir (fileName id .data) = some ino) :
    OneCall (ccaskFilesGetDatafileFd id) w (.ok ino) w := by
  have hrun : ∀ rest, (ccaskFilesGetDatafileFd id).run (.intr :: rest) w = .returned (.ok ino) rest w := by
    intro rest
    simp only [ccaskFilesGetDatafileFd, Prog.run_call_bind, Prog.run_state_bind, h]
    rfl
  refine ⟨rfl, ⟨_, fun _ => rfl⟩, ⟨_, fun _ => rfl⟩, ?_, by simp⟩
  intro r rest hr
  cases r with
  | done k => exact hrun rest
  | intr => exact hrun rest
  | transient => exact False.elim hr
  | fail => exact False.elim hr

end Tries

section Allocations

theorem malloc_tells : Tells .once id malloc w := by
  have hcall : Tells (Telling.once.branch (.ends true) (.ends false)) id malloc w := by
    refine Tells.call_once (fun r hr => ?_) fun r hr => ?_
    · cases r with
      | done n => exact .pure rfl
      | intr => exact .pure rfl
      | transient => exact False.elim hr
      | fail => exact False.elim hr
    · cases r with
      | done n => exact absurd trivial hr
      | intr => exact absurd trivial hr
      | transient => exact .pure rfl
      | fail => exact .pure rfl
  rwa [Telling.branch_ends] at hcall

/-- What follows an allocation. -/
theorem malloc_bind {β : Type} {s f : Telling} {ok : β → Bool} {k : Bool → Sys β}
    (hs : Tells s ok (k true) w) (hf : Tells f ok (k false) w) :
    Tells (Telling.once.branch s f) ok (malloc >>= k) w := by
  refine malloc_tells.bind (Moves.same malloc_moves w) ?_ ?_
  · intro b v hv hb
    subst v
    cases hb
    exact hs
  · intro b v hv hb
    subst v
    cases hb
    exact hf

theorem mallocAll_tells (n : Nat) : Tells (.times n .once) Res.isOk (mallocAll n) w := by
  induction n with
  | zero => exact .pure rfl
  | succ n ih =>
      exact malloc_bind ih (.pure rfl)

theorem lseekEnd_tells (ino : Ino) : Tells .once Option.isSome (lseekEnd (some ino)) w := by
  have hcall : Tells (Telling.once.branch (.ends true) (.ends false)) Option.isSome
      (lseekEnd (some ino)) w := by
    refine Tells.call_once (fun r hr => ?_) fun r hr => ?_
    · cases r with
      | done n => exact .state_bind (.pure rfl)
      | intr => exact .state_bind (.pure rfl)
      | transient => exact False.elim hr
      | fail => exact False.elim hr
    · cases r with
      | done n => exact absurd trivial hr
      | intr => exact absurd trivial hr
      | transient => exact .pure rfl
      | fail => exact .pure rfl
  rwa [Telling.branch_ends] at hcall

/-- What follows a seek that may fail. -/
theorem lseekEnd_any {β : Type} {s : Telling} {ok : β → Bool} {ino : Ino} {k : Option Nat → Sys β}
    (hs : ∀ size, Tells s ok (k size) w) :
    Tells (Telling.any.andThen s) ok (lseekEnd (some ino) >>= k) w := by
  rw [lseekEnd, bind_assoc]
  refine Tells.call_any fun r => ?_
  cases r with
  | done n => exact .state_bind (hs _)
  | intr => exact .state_bind (hs _)
  | transient => exact hs none
  | fail => exact hs none

theorem lseekEnd_ensures (ino : Ino) :
    Ensures (fun _ => True) (lseekEnd (some ino)) w
      (fun size v => v = w ∧ ∀ n, size = some n → n = (w.fs.data ino).length) (fun v => v = w) := by
  refine Ensures.call_bind rfl fun r _ => ?_
  cases r with
  | done n => exact Ensures.state_bind (Ensures.pure ⟨rfl, fun n hn => (Option.some.inj hn).symm⟩)
  | intr => exact Ensures.state_bind (Ensures.pure ⟨rfl, fun n hn => (Option.some.inj hn).symm⟩)
  | transient => exact Ensures.pure ⟨rfl, by simp⟩
  | fail => exact Ensures.pure ⟨rfl, by simp⟩

end Allocations

section Transfers

variable {ino : Ino} {offset : Nat} {iov : List Iovec}

/-- A round of the outer loop transfers what the call does, when every call moves as much as it may. -/
theorem transferRound_round {sys : VecCall} {onZero : Option Errno} {onError : Errno}
    {I : Cursor → World → Prop} (hrest : ∀ c v, I c v → c.rest ≠ [] → wanted c.rest ≠ 0)
    (hstep : ∀ c v n, I c v → c.rest ≠ [] →
      ¬ ((sys c.total c.rest n v).1.length = 0 ∧ onZero.isSome) ∧
      I (c.next (sys c.total c.rest n v).1.length (sys c.total c.rest n v).2.1)
        (sys c.total c.rest n v).2.2 ∧
      wanted (advance (sys c.total c.rest n v).1.length (sys c.total c.rest n v).2.1).2 =
        wanted c.rest - (n + 1)) :
    Tells.Round (fun c : Cursor => wanted c.rest) Res.isOk I (transferRound sys onZero onError) := by
  constructor
  · intro c v hc hzero
    have hnil : c.rest = [] := by
      by_contra hne
      exact hrest c v hc hne hzero
    exact ⟨.ok c.past, rfl, by rw [transferRound, hnil]⟩
  · intro c v hc hleft
    have hne : c.rest ≠ [] := by
      intro hnil
      rw [hnil] at hleft
      exact hleft rfl
    obtain ⟨u, iov, hcons⟩ := List.exists_cons_of_ne_nil hne
    refine ⟨transferReply sys onZero onError c, by rw [transferRound, hcons], rfl, ?_, ?_⟩
    · intro n rest
      obtain ⟨hmoved, hI, hwanted⟩ := hstep c v n hc hne
      refine ⟨_, _, ?_, hI, hwanted⟩
      simp only [transferReply, Prog.run_state_bind]
      show (if _ then _ else _ : Sys _).run rest _ = _
      rw [if_neg hmoved]
      rfl
    · intro r hr
      cases r with
      | done n => exact absurd trivial hr
      | intr => exact absurd trivial hr
      | transient => exact ⟨_, rfl, rfl⟩
      | fail => exact ⟨_, rfl, rfl⟩

theorem safeWritev_tells (hfits : ∀ v ∈ iov, v.Fits) (hlast : LastNonempty iov) :
    Tells (.transfer (wanted iov)) Res.isOk (safeWritev (some ino) iov) w := by
  have hne : iov ≠ [] := by
    rintro rfl
    exact lastNonempty_nil hlast
  have hsys := writevCall_stores ino w
  have hround : Tells.Round (fun c : Cursor => wanted c.rest) Res.isOk (Written (w.append ino) iov)
      (transferRound (writevCall ino) none .writeFailed) := by
    refine transferRound_round (fun c v hc hr => ?_) fun c v n hc hr => ⟨by simp, hc.step hsys hr n, ?_⟩
    · exact Nat.ne_of_gt ((hc.last hr).mpr hlast).wanted_pos
    · obtain ⟨p, -, -, -, heq⟩ := hc.sys_eq hsys n
      have hadv := advance_wanted (hc.moved_le n)
      have hmoved : ((gather c.rest).take (n + 1)).length = min (n + 1) (wanted c.rest) := by
        rw [List.length_take, gather_length hc.fits]
      rw [heq]
      simp only
      omega
  have hloop := Tells.transfer (w := w.append ino []) (transferRound_consumes _ _ _) hround
    (Written.start hfits hne)
  rw [append_nil] at hloop
  obtain ⟨v₀, iov', rfl⟩ := List.exists_cons_of_ne_nil hne
  rw [← Telling.andThen_ends (.transfer _)]
  exact handedOn hloop Ensures.trivial (fun _ _ _ => .pure rfl) (fun _ => ⟨_, rfl, rfl⟩)
    fun _ => ⟨_, rfl, rfl⟩

theorem safePreadv_tells (hfits : ∀ v ∈ iov, v.Fits) (hfresh : ∀ v ∈ iov, v.iovBase = 0)
    (hlast : LastNonempty iov) (hlen : offset + wanted iov ≤ (w.fs.data ino).length) :
    Tells (.transfer (wanted iov)) Res.isOk (safePreadv (some ino) iov offset) w := by
  have hne : iov ≠ [] := by
    rintro rfl
    exact lastNonempty_nil hlast
  have hround : Tells.Round (fun c : Cursor => wanted c.rest) Res.isOk (Filled ino offset w iov)
      (transferRound (preadvCall ino offset) (some .unexpectedEof) .readFailed) := by
    refine transferRound_round (fun c v hc hr => ?_) fun c v n hc hr => ⟨?_, hc.step hr n, ?_⟩
    · exact Nat.ne_of_gt ((hc.last hr).mpr hlast).wanted_pos
    · rintro ⟨hz, -⟩
      exact hc.eof hr hz ⟨hlast, hlen⟩
    · have hcount := hc.count
      have hmoved : (preadvCall ino offset c.total c.rest n v).1.length =
          min (wanted c.rest) (n + 1) := by
        rw [hc.same]
        simp only [preadvCall, Fs.pread, List.length_take, List.length_drop]
        omega
      have hadv : wanted (advance (preadvCall ino offset c.total c.rest n v).1.length
          (scatter (preadvCall ino offset c.total c.rest n v).1 c.rest)).2 + _ = wanted (scatter _ c.rest) :=
        advance_wanted (by rw [scatter_wanted, hmoved]; omega)
      rw [scatter_wanted] at hadv
      show wanted (advance _ (scatter (preadvCall ino offset c.total c.rest n v).1 c.rest)).2 = _
      omega
  have hloop := Tells.transfer (transferRound_consumes _ _ _) hround (Filled.start hfits hfresh hne)
  obtain ⟨v₀, iov', rfl⟩ := List.exists_cons_of_ne_nil hne
  rw [← Telling.andThen_ends (.transfer _)]
  exact handedOn hloop Ensures.trivial (fun _ _ _ => .pure rfl) (fun _ => ⟨_, rfl, rfl⟩)
    fun _ => ⟨_, rfl, rfl⟩

theorem safePread_tells {len : Nat} (hlen : offset + len ≤ (w.fs.data ino).length) :
    Tells (.transfer len) Res.isOk (safePread (some ino) len offset) w := by
  have hround : Tells.Round (fun got : Bytes => len - got.length) Res.isOk (fun _ v => v = w)
      (preadRound ino len offset) := by
    constructor
    · intro got v _ hleft
      exact ⟨.ok got, rfl, if_pos (by omega)⟩
    · rintro got v rfl hleft
      refine ⟨preadReply ino len offset got, if_neg (by omega), rfl, ?_, ?_⟩
      · intro n rest
        have hmoved : (v.fs.pread ino (min (len - got.length) (n + 1)) (offset + got.length)).length =
            min (len - got.length) (n + 1) := by
          simp only [Fs.pread, List.length_take, List.length_drop]
          omega
        have hne : v.fs.pread ino (min (len - got.length) (n + 1)) (offset + got.length) ≠ [] := by
          intro hnil
          rw [hnil, List.length_nil] at hmoved
          omega
        refine ⟨got ++ v.fs.pread ino (min (len - got.length) (n + 1)) (offset + got.length), v, ?_, rfl, ?_⟩
        · simp only [preadReply, Prog.run_state_bind]
          rw [if_neg hne]
          rfl
        · rw [List.length_append, hmoved]
          omega
      · intro r hr
        cases r with
        | done n => exact absurd trivial hr
        | intr => exact absurd trivial hr
        | transient => exact ⟨_, rfl, rfl⟩
        | fail => exact ⟨_, rfl, rfl⟩
  have hloop := Tells.transfer (s := ([] : Bytes)) (w := w) (preadRound_consumes len) hround rfl
  rwa [List.length_nil, Nat.sub_zero] at hloop

end Transfers

end Ccask.Audit
