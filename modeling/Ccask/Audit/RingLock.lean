import Ccask.Audit.RingQueue

/-!
# The mutex of the ring buffer

Every exit of the calls on the ring buffer gives the mutex back, but for the one of a push whose record
gets no memory.
-/

namespace Ccask.Audit

open Ccask.Effect Ccask.Model

section Replies

variable {w v : World} {rs rest : List Reply}

theorem malloc_run {b : Bool} (h : malloc.run rs w = .returned b rest v) :
    ∃ r, rs = r :: rest ∧ v = w ∧ (b = true ↔ r.Clean) := by
  cases rs with
  | nil => cases h
  | cons r rs =>
      cases r with
      | done n =>
          cases h
          exact ⟨_, rfl, rfl, iff_of_true rfl trivial⟩
      | intr =>
          cases h
          exact ⟨_, rfl, rfl, iff_of_true rfl trivial⟩
      | transient =>
          cases h
          exact ⟨_, rfl, rfl, iff_of_false Bool.false_ne_true id⟩
      | fail =>
          cases h
          exact ⟨_, rfl, rfl, iff_of_false Bool.false_ne_true id⟩

/-- Some buffers are there exactly when no request for one of them has been refused. -/
theorem mallocAll_run (n : Nat) {res : Status} (h : (mallocAll n).run rs w = .returned res rest v) :
    ∃ used, rs = used ++ rest ∧ v = w ∧
      (res = .ok () ∧ AllClean used ∨ (∃ e, res = .fail e) ∧ ¬ AllClean used) := by
  induction n generalizing rs with
  | zero =>
      cases h
      exact ⟨[], rfl, rfl, .inl ⟨rfl, nofun⟩⟩
  | succ n ih =>
      obtain ⟨b, mid, u, hmalloc, h⟩ := Prog.run_bind_eq_returned h
      obtain ⟨r, rfl, rfl, hr⟩ := malloc_run hmalloc
      cases b with
      | true =>
          obtain ⟨used, rfl, rfl, hused⟩ := ih h
          have hclean := hr.mp rfl
          refine ⟨r :: used, rfl, rfl, hused.imp (fun ⟨hres, hall⟩ => ⟨hres, ?_⟩) fun ⟨hres, hall⟩ => ⟨hres, ?_⟩⟩
          · exact List.forall_mem_cons.mpr ⟨hclean, hall⟩
          · exact fun hcons => hall (List.forall_mem_cons.mp hcons).2
      | false =>
          cases h
          refine ⟨[r], rfl, rfl, .inr ⟨⟨_, rfl⟩, fun hall => ?_⟩⟩
          exact Bool.false_ne_true (hr.mpr (hall r List.mem_cons_self))

theorem allocateDatafileRecord_run {keySize valueSize : UInt32} {res : Res DatafileRecord}
    (h : (ccaskAllocateDatafileRecord keySize valueSize).run rs w = .returned res rest v) :
    ∃ used, rs = used ++ rest ∧ v = w ∧
      ((∃ record, res = .ok record) ∧ AllClean used ∨ (∃ e, res = .fail e) ∧ ¬ AllClean used) := by
  obtain ⟨res', mid, u, hall, h⟩ := Prog.run_bind_eq_returned h
  obtain ⟨used, rfl, rfl, ⟨rfl, hclean⟩ | ⟨⟨e, rfl⟩, hbad⟩⟩ := mallocAll_run 3 hall
  · cases h
    exact ⟨used, rfl, rfl, .inl ⟨⟨_, rfl⟩, hclean⟩⟩
  · cases h
    exact ⟨used, rfl, rfl, .inr ⟨⟨_, rfl⟩, hbad⟩⟩

/-- So is a record. -/
theorem createDatafileRecord_run [Zlib] {timestamp : UInt32} {key value : Ptr} {res : Res DatafileRecord}
    (h : (ccaskCreateDatafileRecord timestamp key value).run rs w = .returned res rest v) :
    ∃ used, rs = used ++ rest ∧ v = w ∧
      ((∃ record, res = .ok record) ∧ AllClean used ∨ (∃ e, res = .fail e) ∧ ¬ AllClean used) := by
  unfold ccaskCreateDatafileRecord at h
  split at h
  · cases h
  · obtain ⟨res', mid, u, halloc, hrest⟩ := Prog.run_bind_eq_returned h
    obtain ⟨used, rfl, rfl, ⟨⟨record, rfl⟩, hclean⟩ | ⟨⟨e, rfl⟩, hbad⟩⟩ := allocateDatafileRecord_run halloc
    · cases hrest
      exact ⟨used, rfl, rfl, .inl ⟨⟨_, rfl⟩, hclean⟩⟩
    · cases hrest
      exact ⟨used, rfl, rfl, .inr ⟨⟨_, rfl⟩, hbad⟩⟩

end Replies

section Work

variable [Zlib] {w v : World} {rs rest : List Reply} {cap : Nat} {how : Worked}

/-- What the work under the mutex comes to. -/
structure WorkDone (op : RingOp) (rs : List Reply) (w v : World) (cap : Nat) (how : Worked) : Prop where
  queued : ∃ q, Queued v cap q
  leaves : AllClean rs ↔ ∀ answer, how ≠ .leave answer
  unchanged : ∀ timestamp key value, op = .push timestamp key value → ∀ res,
    how = .unlock (.push res) ∨ how = .leave (.push res) → res ≠ .ok () → v = w

omit [Zlib] in
/-- Work that asks for no memory and gives the mutex back. -/
theorem WorkDone.plain {op : RingOp} (hop : ∀ timestamp key value, op ≠ .push timestamp key value)
    (hqueued : ∃ q, Queued v cap q) (hhow : ∀ answer, how ≠ .leave answer) (hrs : rs ++ rest = rest) :
    WorkDone op rs w v cap how := by
  obtain rfl : rs = [] := List.append_left_eq_self.mp hrs
  exact ⟨hqueued, iff_of_true nofun hhow, fun timestamp key value heq => absurd heq (hop _ _ _)⟩

theorem work_done (op : RingOp) {q : Index.Queue DatafileRecord} (h : Queued w cap q)
    (hrun : op.work.run (rs ++ rest) w = .returned how rest v) : WorkDone op rs w v cap how := by
  have hqueued := h
  obtain ⟨r, hr, hcap, hdown, hhead, htail, hring⟩ := h
  cases op with
  | push timestamp key value =>
      rw [RingOp.work, Prog.run_state_bind, hr] at hrun
      simp only at hrun
      split at hrun
      · obtain ⟨rfl, hrs, rfl⟩ := Outcome.returned.inj hrun
        obtain rfl : rs = [] := List.append_left_eq_self.mp hrs
        exact ⟨⟨q, hqueued⟩, iff_of_true nofun nofun, fun _ _ _ _ _ _ _ => rfl⟩
      · rename_i hfull
        obtain ⟨res, mid, u, hcreate, hrest⟩ := Prog.run_bind_eq_returned hrun
        obtain ⟨used, hused, rfl, ⟨⟨record, rfl⟩, hclean⟩ | ⟨⟨e, rfl⟩, hbad⟩⟩ := createDatafileRecord_run hcreate
        · cases hrest
          obtain rfl := List.append_cancel_right hused
          have hpush := hring.push (hcap ▸ hfull) record
          rw [← hcap] at hpush
          refine ⟨⟨{ q with items := q.items ++ [record] }, .of_ring rfl hcap hdown ?_⟩,
            iff_of_true hclean nofun, ?_⟩
          · rw [← hcap]
            exact hpush
          · rintro _ _ _ _ res (hres | hres) hne
            · cases hres
              exact absurd rfl hne
            · cases hres
        · cases hrest
          obtain rfl := List.append_cancel_right hused
          exact ⟨⟨q, hqueued⟩, iff_of_false hbad fun h => h _ rfl, fun _ _ _ _ _ _ _ => rfl⟩
  | pop =>
      rw [RingOp.work, Prog.run_state_bind, hr] at hrun
      simp only at hrun
      have hop : ∀ timestamp key value, RingOp.pop ≠ .push timestamp key value := nofun
      split at hrun
      · split at hrun
        · obtain ⟨rfl, hrs, rfl⟩ := Outcome.returned.inj hrun
          exact .plain hop ⟨q, hqueued⟩ nofun hrs
        · obtain ⟨rfl, hrs, rfl⟩ := Outcome.returned.inj hrun
          exact .plain hop ⟨q, hqueued⟩ nofun hrs
      · rename_i hne
        obtain ⟨items, closed⟩ := q
        cases items with
        | nil => exact absurd (hring.empty_iff.mpr rfl) hne
        | cons a l =>
            obtain ⟨hfirst, hpop⟩ := hring.pop
            rw [hfirst] at hrun
            obtain ⟨rfl, hrs, rfl⟩ := Outcome.returned.inj hrun
            rw [← hcap] at hpop
            refine .plain hop ⟨⟨l, closed⟩, .of_ring rfl hcap hdown ?_⟩ nofun hrs
            rw [← hcap]
            exact hpop
  | count =>
      obtain ⟨n, mid, u, hcount, hrest⟩ := Prog.run_bind_eq_returned hrun
      obtain ⟨rfl, rfl, rfl⟩ := Outcome.returned.inj hrest
      rw [ccaskWriterRingbufCount, Prog.run_state_bind, hr] at hcount
      simp only at hcount
      split at hcount
      · obtain ⟨-, hrs, rfl⟩ := Outcome.returned.inj hcount
        exact .plain nofun ⟨q, hqueued⟩ nofun hrs
      · obtain ⟨-, hrs, rfl⟩ := Outcome.returned.inj hcount
        exact .plain nofun ⟨q, hqueued⟩ nofun hrs
  | startShutdown =>
      obtain ⟨u, mid, u', hstart, hrest⟩ := Prog.run_bind_eq_returned hrun
      obtain ⟨rfl, rfl, rfl⟩ := Outcome.returned.inj hrest
      rw [ccaskWriterRingbufStartShutdown, Prog.run_state_bind, hr] at hstart
      obtain ⟨-, hrs, rfl⟩ := Outcome.returned.inj hstart
      exact .plain nofun ⟨{ q with closed := true }, .of_ring rfl hcap rfl hring⟩ nofun hrs

/-- The work can be done. -/
theorem work_computes (op : RingOp) {q : Index.Queue DatafileRecord} (h : Queued w cap q) :
    ∃ how v, Computes op.work w how v := by
  have hqueued := h
  obtain ⟨r, hr, -, -, -, -, hring⟩ := h
  cases op with
  | push timestamp key value =>
      by_cases hfull : (r.head + 1) % r.capacity = r.tail
      · refine ⟨.unlock (.push (.retry (some .ringbufferFull))), w, Computes.state_bind ?_⟩
        rw [hr]
        simp only [if_pos hfull]
        exact Computes.pure _
      · refine ⟨.unlock (.push (.ok ())), pushed w r (mkRecord timestamp key value), Computes.state_bind ?_⟩
        rw [hr]
        simp only [if_neg hfull]
        exact (ccaskCreateDatafileRecord_computes _ _ _).bind (Computes.modify_bind (Computes.pure _))
  | pop =>
      by_cases hempty : r.tail = r.head
      · refine ⟨if r.shutdown then .unlock (.pop (.fail none)) else .wait, w, Computes.state_bind ?_⟩
        rw [hr]
        simp only [if_pos hempty]
        split
        · exact Computes.pure _
        · exact Computes.pure _
      · obtain ⟨items, closed⟩ := q
        cases items with
        | nil => exact absurd (hring.empty_iff.mpr rfl) hempty
        | cons a l =>
            refine ⟨.unlock (.pop (.ok a)), { w with ringbuf := some { r with
              tail := (r.tail + 1) % r.capacity } }, Computes.state_bind ?_⟩
            rw [hr]
            simp only [if_neg hempty, hring.pop.1]
            exact Computes.modify_bind (Computes.pure _)
  | count => exact ⟨_, w, hqueued.count.bind (Computes.pure _)⟩
  | startShutdown =>
      obtain ⟨v, hstart, -⟩ := hqueued.startShutdown
      exact ⟨_, v, hstart.bind (Computes.pure _)⟩

/-- The calls that are one section do the work and return what it answers. -/
theorem ccaskWriterRingbufPush_work (timestamp : UInt32) (key value : Ptr) :
    ccaskWriterRingbufPush timestamp key value = (do
      match ← (RingOp.push timestamp key value).work with
      | .unlock (.push res) | .leave (.push res) => pure res
      | _ => Prog.block) := by
  simp only [ccaskWriterRingbufPush, RingOp.work, bind_assoc]
  congr 1
  funext w
  cases w.ringbuf with
  | none => rfl
  | some r =>
      simp only
      split
      · rfl
      · simp only [bind_assoc]
        congr 1
        funext res
        cases res <;> rfl

theorem ccaskWriterRingbufPop_work :
    ccaskWriterRingbufPop = (do
      match ← RingOp.pop.work with
      | .unlock (.pop res) => pure res
      | _ => Prog.block) := by
  simp only [ccaskWriterRingbufPop, RingOp.work, bind_assoc]
  congr 1
  funext w
  cases w.ringbuf with
  | none => rfl
  | some r =>
      simp only
      split
      · split <;> rfl
      · cases r.buf[r.tail]? <;> rfl

end Work

section Runs

variable [Zlib] {ι : Type} [DecidableEq ι] {c c' c₀ : Locking ι} {cap : Nat} {i : ι} {rs : List Reply}
  {steps : List (Locking ι × List Reply × Locking ι)}

/-- The thread is between the lock and the unlock of the mutex. -/
def Inside : RingCall → Prop
  | .working _ | .unlocking _ => True
  | _ => False

/-- The mutex is held only by a thread that is inside. -/
def HeldInside (c : Locking ι) : Prop := ∀ i, c.mutex = some i → Inside (c.thread i)

/-- The steps of the owner of the mutex, to whom memory is granted. -/
def OwnerStep (c c' : Locking ι) : Prop :=
  ∃ i rs, c.mutex = some i ∧ AllClean rs ∧ Locking.Step i c rs c'

/-- Every thread that asks for the mutex can have it, once its owner has gone on. -/
def CanLock (c : Locking ι) : Prop :=
  ∀ j, (∃ op, c.thread j = .locking op) ∨ c.thread j = .waiting →
    ∃ c₁ c₂, Relation.ReflTransGen OwnerStep c c₁ ∧ Locking.Step j c₁ [] c₂ ∧ c₂.mutex = some j

/-- What the step from `c` to `c'` may not do. -/
structure MutexKept (c c' : Locking ι) : Prop where
  held : HeldInside c'
  free : CanLock c'
  unchanged : ∀ i timestamp key value res, c.thread i = .working (.push timestamp key value) →
    c'.thread i = .unlocking (.push res) ∨ c'.thread i = .outside (some (.push res)) → res ≠ .ok () →
    c'.shared = c.shared

/-- The ring buffer holds a queue, and who is inside has the mutex. -/
structure RingInv (c : Locking ι) (cap : Nat) : Prop where
  queued : ∃ q, Queued c.shared cap q
  owns : ∀ i, Inside (c.thread i) → c.mutex = some i

omit [Zlib] in
theorem inside_update {t : RingCall} {j : ι} (h : Inside (Function.update c.thread i t j)) :
    j = i ∧ Inside t ∨ j ≠ i ∧ Inside (c.thread j) := by
  by_cases hij : j = i
  · rw [hij, Function.update_self] at h
    exact .inl ⟨hij, h⟩
  · rw [Function.update_of_ne hij] at h
    exact .inr ⟨hij, h⟩

omit [Zlib] [DecidableEq ι] in
theorem RingInv.owner (h : RingInv c cap) (hi : Inside (c.thread i)) {j : ι} (hj : Inside (c.thread j)) :
    j = i :=
  Option.some.inj ((h.owns j hj).symm.trans (h.owns i hi))

/-- A step keeps the invariant. -/
theorem RingInv.step (h : RingInv c cap) (hs : Locking.Step i c rs c') : RingInv c' cap := by
  cases hs with
  | call op hi =>
      refine ⟨h.queued, fun j hj => ?_⟩
      obtain ⟨-, hj⟩ | ⟨-, hj⟩ := inside_update hj
      · exact hj.elim
      · exact h.owns j hj
  | lock hi hnone =>
      refine ⟨h.queued, fun j hj => ?_⟩
      obtain ⟨rfl, -⟩ | ⟨-, hj⟩ := inside_update hj
      · rfl
      · cases hnone.symm.trans (h.owns j hj)
  | @work op rs rest how w hi hrun =>
      obtain ⟨q, hq⟩ := h.queued
      have hdone := work_done op hq hrun
      have hin : Inside (c.thread i) := by rw [hi]; trivial
      cases how with
      | unlock answer =>
          refine ⟨hdone.queued, fun j hj => ?_⟩
          obtain ⟨rfl, -⟩ | ⟨-, hj⟩ := inside_update hj
          · exact h.owns j hin
          · exact h.owns j hj
      | leave answer =>
          refine ⟨hdone.queued, fun j hj => ?_⟩
          obtain ⟨-, hj⟩ | ⟨-, hj⟩ := inside_update hj
          · exact hj.elim
          · exact h.owns j hj
      | wait =>
          refine ⟨hdone.queued, fun j hj => ?_⟩
          obtain ⟨-, hj⟩ | ⟨hne, hj⟩ := inside_update hj
          · exact hj.elim
          · exact absurd (h.owner hin hj) hne
  | wake hi hnone =>
      refine ⟨h.queued, fun j hj => ?_⟩
      obtain ⟨rfl, -⟩ | ⟨-, hj⟩ := inside_update hj
      · rfl
      · cases hnone.symm.trans (h.owns j hj)
  | unlock hi =>
      have hin : Inside (c.thread i) := by rw [hi]; trivial
      refine ⟨h.queued, fun j hj => ?_⟩
      obtain ⟨-, hj⟩ | ⟨hne, hj⟩ := inside_update hj
      · exact hj.elim
      · exact absurd (h.owner hin hj) hne

/-- A step that is refused no memory leaves the mutex with a thread inside. -/
theorem RingInv.held_step (h : RingInv c cap) (hheld : HeldInside c) (hs : Locking.Step i c rs c')
    (hrs : AllClean rs) : HeldInside c' := by
  have hkeeps : ∀ {t : RingCall}, ¬ Inside (c.thread i) → ∀ j, c.mutex = some j →
      Inside (Function.update c.thread i t j) := by
    intro t hout j hj
    have hin := hheld j hj
    have hne : j ≠ i := fun heq => hout (by rwa [heq] at hin)
    rw [Function.update_of_ne hne]
    exact hin
  cases hs with
  | call op hi =>
      exact hkeeps (by rw [hi]; exact id)
  | lock hi hnone =>
      intro j hj
      rw [← Option.some.inj hj]
      show Inside (Function.update c.thread i _ i)
      rw [Function.update_self]
      trivial
  | @work op rs rest how w hi hrun =>
      obtain ⟨q, hq⟩ := h.queued
      have hdone := work_done op hq hrun
      have howner := h.owns i (by rw [hi]; trivial)
      cases how with
      | unlock answer =>
          intro j hj
          rw [← Option.some.inj (howner.symm.trans hj)]
          show Inside (Function.update c.thread i _ i)
          rw [Function.update_self]
          trivial
      | leave answer => exact absurd rfl (hdone.leaves.mp hrs answer)
      | wait => exact nofun
  | wake hi hnone =>
      intro j hj
      rw [← Option.some.inj hj]
      show Inside (Function.update c.thread i _ i)
      rw [Function.update_self]
      trivial
  | unlock hi => exact nofun

/-- A push that is refused memory for its record returns with the mutex. -/
theorem RingInv.not_held (h : RingInv c cap) (hs : Locking.Step i c rs c') (hrs : ¬ AllClean rs) :
    ¬ HeldInside c' := by
  cases hs with
  | call op hi => exact absurd nofun hrs
  | lock hi hnone => exact absurd nofun hrs
  | @work op rs rest how w hi hrun =>
      obtain ⟨q, hq⟩ := h.queued
      have hdone := work_done op hq hrun
      have howner := h.owns i (by rw [hi]; trivial)
      cases how with
      | unlock answer => exact absurd (hdone.leaves.mpr nofun) hrs
      | leave answer =>
          intro hheld
          have hin : Inside (Function.update c.thread i (.outside (some answer)) i) := hheld i howner
          rw [Function.update_self] at hin
          exact hin
      | wait => exact absurd (hdone.leaves.mpr nofun) hrs
  | wake hi hnone => exact absurd nofun hrs
  | unlock hi => exact absurd nofun hrs

omit [Zlib] in
theorem update_ne {t : RingCall} {j : ι} {P : RingCall → Prop} (hi : ¬ P (c.thread i)) (hj : P (c.thread j)) :
    P (Function.update c.thread i t j) := by
  have hne : j ≠ i := fun heq => hi (by rwa [heq] at hj)
  rw [Function.update_of_ne hne]
  exact hj

/-- The thread wants the mutex. -/
def Wants (t : RingCall) : Prop := (∃ op, t = .locking op) ∨ t = .waiting

omit [Zlib] in
theorem Inside.not_wants {t : RingCall} (h : Inside t) : ¬ Wants t := by
  rintro (⟨op, rfl⟩ | rfl)
  · exact h
  · exact h

/-- A free mutex can be had at once. -/
theorem wants_lock {j : ι} (hj : Wants (c.thread j)) (hnone : c.mutex = none) :
    ∃ c', Locking.Step j c [] c' ∧ c'.mutex = some j := by
  obtain ⟨op, hop⟩ | hwait := hj
  · exact ⟨_, .lock hop hnone, rfl⟩
  · exact ⟨_, .wake hwait hnone, rfl⟩

/-- A thread inside gives the mutex back on its own. -/
theorem RingInv.canLock (h : RingInv c cap) (hheld : HeldInside c) : CanLock c := by
  intro j hj
  have hj : Wants (c.thread j) := hj
  have hunlock : ∀ {c₁ : Locking ι} {i : ι} {answer : RingAnswer}, c₁.mutex = some i →
      c₁.thread i = .unlocking answer → Wants (c₁.thread j) →
      ∃ c₂ c₃, OwnerStep c₁ c₂ ∧ Locking.Step j c₂ [] c₃ ∧ c₃.mutex = some j := by
    intro c₁ i answer hmutex hi hj
    have hwants := update_ne (c := c₁) (t := .outside (some answer)) (P := Wants)
      (by rw [hi]; exact (show Inside (.unlocking answer) from trivial).not_wants) hj
    obtain ⟨c₃, hlock, howner⟩ := wants_lock
      (c := ⟨c₁.shared, none, Function.update c₁.thread i (.outside (some answer))⟩) hwants rfl
    exact ⟨_, c₃, ⟨i, [], hmutex, nofun, .unlock hi⟩, hlock, howner⟩
  cases hmutex : c.mutex with
  | none =>
      obtain ⟨c', hlock, howner⟩ := wants_lock hj hmutex
      exact ⟨c, c', .refl, hlock, howner⟩
  | some i =>
      have hin := hheld i hmutex
      cases hi : c.thread i with
      | outside last => rw [hi] at hin; exact hin.elim
      | locking op => rw [hi] at hin; exact hin.elim
      | waiting => rw [hi] at hin; exact hin.elim
      | unlocking answer =>
          obtain ⟨c₂, c₃, hstep, hlock⟩ := hunlock hmutex hi hj
          exact ⟨c₂, c₃, .single hstep, hlock⟩
      | working op =>
          obtain ⟨q, hq⟩ := h.queued
          obtain ⟨how, v, hwork⟩ := work_computes op hq
          obtain ⟨all, rest, hall, hrun⟩ := hwork.exists_run
          obtain ⟨used, rfl⟩ := op.work.suffix hrun
          have hused : AllClean used := fun r hr => hall r (List.mem_append_left _ hr)
          have hstep : Locking.Step i c used _ := .work hi hrun
          have hnot : ¬ Wants (c.thread i) := by
            rw [hi]
            exact (show Inside (.working op) from trivial).not_wants
          have hwants : ∀ {t : RingCall}, Wants (Function.update c.thread i t j) := update_ne hnot hj
          cases how with
          | leave answer => exact absurd rfl ((work_done op hq hrun).leaves.mp hused answer)
          | wait =>
              obtain ⟨c₃, hlock, howner⟩ := wants_lock
                (c := ⟨v, none, Function.update c.thread i .waiting⟩) hwants rfl
              exact ⟨_, c₃, .single ⟨i, used, hmutex, hused, hstep⟩, hlock, howner⟩
          | unlock answer =>
              have hrest : ∃ c₂ c₃, OwnerStep (Locking.after i c v (.unlock answer)) c₂ ∧ _ :=
                hunlock hmutex (Function.update_self i _ _) hwants
              obtain ⟨c₂, c₃, hunlocked, hlock⟩ := hrest
              exact ⟨c₂, c₃, .tail (.single ⟨i, used, hmutex, hused, hstep⟩) hunlocked, hlock⟩

/-- A push that does not succeed changes nothing. -/
theorem RingInv.push_unchanged (h : RingInv c cap) (hs : Locking.Step i c rs c') {j : ι} {timestamp : UInt32}
    {key value : Ptr} {res : Status} (hj : c.thread j = .working (.push timestamp key value))
    (hj' : c'.thread j = .unlocking (.push res) ∨ c'.thread j = .outside (some (.push res)))
    (hres : res ≠ .ok ()) : c'.shared = c.shared := by
  cases hs with
  | call op hi => rfl
  | lock hi hnone => rfl
  | @work op rs rest how w hi hrun =>
      obtain ⟨q, hq⟩ := h.queued
      have hdone := work_done op hq hrun
      have hsame : j = i := by
        by_contra hne
        have hout : (Locking.after i c w how).thread j = c.thread j := by
          cases how with
          | unlock answer => exact Function.update_of_ne hne _ _
          | leave answer => exact Function.update_of_ne hne _ _
          | wait => exact Function.update_of_ne hne _ _
        rw [hout, hj] at hj'
        exact hj'.elim nofun nofun
      subst hsame
      rw [hi] at hj
      have hop : op = .push timestamp key value := by cases hj; rfl
      cases how with
      | unlock answer =>
          refine hdone.unchanged _ _ _ hop res (.inl ?_) hres
          obtain hj' | hj' := hj'
          · rw [show (Locking.after j c w (.unlock answer)).thread j = .unlocking answer from
              Function.update_self j _ _] at hj'
            cases hj'
            rfl
          · rw [show (Locking.after j c w (.unlock answer)).thread j = .unlocking answer from
              Function.update_self j _ _] at hj'
            cases hj'
      | leave answer =>
          refine hdone.unchanged _ _ _ hop res (.inr ?_) hres
          obtain hj' | hj' := hj'
          · rw [show (Locking.after j c w (.leave answer)).thread j = .outside (some answer) from
              Function.update_self j _ _] at hj'
            cases hj'
          · rw [show (Locking.after j c w (.leave answer)).thread j = .outside (some answer) from
              Function.update_self j _ _] at hj'
            cases hj'
            rfl
      | wait =>
          rw [show (Locking.after j c w .wait).thread j = .waiting from Function.update_self j _ _] at hj'
          exact hj'.elim nofun nofun
  | wake hi hnone => rfl
  | unlock hi => rfl

/-- A ring buffer just initialised, and no thread near it. -/
structure LockStarts (c : Locking ι) (cap : Nat) : Prop where
  pos : 0 < cap
  ring : c.shared.ringbuf = some (.init cap)
  mutex : c.mutex = none
  outside : ∀ i, ∃ last, c.thread i = .outside last

omit [Zlib] [DecidableEq ι] in
theorem LockStarts.inv (h : LockStarts c cap) : RingInv c cap := by
  refine ⟨⟨⟨[], false⟩, .of_ring h.ring rfl rfl (Index.Ring.init h.pos _)⟩, fun i hi => ?_⟩
  obtain ⟨last, hlast⟩ := h.outside i
  rw [hlast] at hi
  exact hi.elim

/-- Every step of a run starts in a state with the invariant. -/
theorem LockStarts.run (h : LockStarts c₀ cap) (hrun : Locking.Run c₀ steps c) :
    RingInv c cap ∧ ∀ s ∈ steps, RingInv s.1 cap ∧ ∃ i, Locking.Step i s.1 s.2.1 s.2.2 := by
  induction hrun with
  | refl => exact ⟨h.inv, nofun⟩
  | tail i _ hs ih =>
      obtain ⟨hinv, hall⟩ := ih
      refine ⟨hinv.step hs, fun s hmem => ?_⟩
      obtain hmem | hmem := List.mem_append.mp hmem
      · exact hall s hmem
      · rw [List.mem_singleton.mp hmem]
        exact ⟨hinv, i, hs⟩

/-- As long as no memory is refused, the mutex is held only by a thread inside. -/
theorem LockStarts.held (h : LockStarts c₀ cap) (hrun : Locking.Run c₀ steps c)
    (hclean : ∀ s ∈ steps, AllClean s.2.1) : HeldInside c ∧ ∀ s ∈ steps, HeldInside s.2.2 := by
  induction hrun with
  | refl =>
      refine ⟨fun i hi => ?_, nofun⟩
      rw [h.mutex] at hi
      cases hi
  | tail i hrun hs ih =>
      obtain ⟨hheld, hall⟩ := ih fun s hmem => hclean s (List.mem_append_left _ hmem)
      have hheld' := (h.run hrun).1.held_step hheld hs (hclean _ (List.mem_append_right _ List.mem_cons_self))
      refine ⟨hheld', fun s hmem => ?_⟩
      obtain hmem | hmem := List.mem_append.mp hmem
      · exact hall s hmem
      · rw [List.mem_singleton.mp hmem]
        exact hheld'

/-- In a run of pushes, pops, counts and announcements, by any number of threads, the mutex of the ring
buffer is held only by threads inside, everyone who wants it can have it, and a push that does not succeed
changes nothing, exactly when no push is refused memory for its record. -/
theorem mutex_kept_iff (h : LockStarts c₀ cap) (hrun : Locking.Run c₀ steps c) :
    (∀ s ∈ steps, MutexKept s.1 s.2.2) ↔ ∀ s ∈ steps, AllClean s.2.1 := by
  constructor
  · intro hkept s hmem
    obtain ⟨hinv, i, hs⟩ := (h.run hrun).2 s hmem
    by_contra hbad
    exact hinv.not_held hs hbad (hkept s hmem).held
  · intro hclean s hmem
    obtain ⟨hinv, i, hs⟩ := (h.run hrun).2 s hmem
    have hheld := (h.held hrun hclean).2 s hmem
    exact ⟨hheld, (hinv.step hs).canLock hheld, fun _ _ _ _ _ hj hj' hres => hinv.push_unchanged hs hj hj' hres⟩

end Runs

section Sample

/-- A ring buffer for one record, and two threads. -/
def twoThreads : Locking Bool :=
  ⟨{ World.boot Fs.empty 0 with ringbuf := some (.init 2) }, none, fun _ => .outside none⟩

theorem lockStarts_twoThreads : LockStarts twoThreads 2 := ⟨by decide, rfl, rfl, fun _ => ⟨none, rfl⟩⟩

/-- A thread makes its call and has the mutex. -/
theorem locked_run [Zlib] (op : RingOp) : ∃ steps, Locking.Run twoThreads steps
      ⟨twoThreads.shared, some true, Function.update (Function.update twoThreads.thread true (.locking op)) true
        (.working op)⟩ ∧ ∀ s ∈ steps, AllClean s.2.1 := by
  refine ⟨_, (Locking.Run.tail true .refl (.call op rfl)).tail true (.lock rfl rfl), fun s hs => ?_⟩
  obtain rfl | hs := List.mem_cons.mp hs
  · exact nofun
  · rw [List.mem_singleton.mp hs]
    exact nofun

theorem mutex_kept_iff_one : letI := zlib
    ∃ (c : Locking Bool) (steps : List (Locking Bool × List Reply × Locking Bool)),
      Locking.Run twoThreads steps c ∧ c.thread true = .outside (some (.push (.ok ()))) ∧
      ∀ s ∈ steps, MutexKept s.1 s.2.2 := by
  let _ := zlib
  obtain ⟨steps, hrun, hclean⟩ := locked_run (.push 0 (bytePut 0 97 98).key (bytePut 0 97 98).value)
  have hfull : ((Ringbuf.init 2).head + 1) % (Ringbuf.init 2).capacity ≠ (Ringbuf.init 2).tail := by decide
  have hwork : Computes (RingOp.push 0 (bytePut 0 97 98).key (bytePut 0 97 98).value).work twoThreads.shared
      (.unlock (.push (.ok ()))) (pushed twoThreads.shared (.init 2) (bytePut 0 97 98).record) := by
    refine Computes.state_bind ?_
    show Computes (if ((Ringbuf.init 2).head + 1) % (Ringbuf.init 2).capacity = (Ringbuf.init 2).tail then _
      else _) _ _ _
    rw [if_neg hfull]
    exact (ccaskCreateDatafileRecord_computes _ _ _).bind (Computes.modify_bind (Computes.pure _))
  obtain ⟨all, rest, hall, hworked⟩ := hwork.exists_run
  obtain ⟨used, rfl⟩ := Prog.suffix _ hworked
  have hrun := hrun.tail true (.work rfl hworked)
  have hrun := hrun.tail true (.unlock rfl)
  refine ⟨_, _, hrun, rfl, (mutex_kept_iff lockStarts_twoThreads hrun).mpr fun s hs => ?_⟩
  obtain hs | hs := List.mem_append.mp hs
  · obtain hs | hs := List.mem_append.mp hs
    · exact hclean s hs
    · rw [List.mem_singleton.mp hs]
      exact fun r hr => hall r (List.mem_append_left _ hr)
  · rw [List.mem_singleton.mp hs]
    exact nofun

/-- A push that gets no memory returns with the mutex, and the next thread never has it. -/
theorem not_mutex_kept : letI := zlib
    ∃ (c : Locking Bool) (steps : List (Locking Bool × List Reply × Locking Bool)),
      LockStarts twoThreads 2 ∧ Locking.Run twoThreads steps c ∧
      c.thread true = .outside (some (.push (.fail (some .noMemory)))) ∧ c.mutex = some true ∧
      ¬ HeldInside c := by
  let _ := zlib
  obtain ⟨steps, hrun, -⟩ := locked_run (.push 0 (bytePut 0 97 98).key (bytePut 0 97 98).value)
  have hworked : (RingOp.push 0 (bytePut 0 97 98).key (bytePut 0 97 98).value).work.run ([.fail] ++ [])
      twoThreads.shared = .returned (.leave (.push (.fail (some .noMemory)))) [] twoThreads.shared := rfl
  exact ⟨_, _, lockStarts_twoThreads, hrun.tail true (.work rfl hworked), rfl, rfl, fun hheld => hheld true rfl⟩

end Sample

end Ccask.Audit
