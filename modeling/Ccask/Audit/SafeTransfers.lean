import Ccask.Audit.Transfers
import Ccask.Model.LocalIov

/-!
# What the vectored functions do to the array of the caller

The loops over an index into a copy of the array march in step with those over the
segments that are left.
-/

namespace Ccask.Audit

open Ccask.Effect Ccask.Model

section Frames

/-- Where the loop over the segments that are left stands. -/
def cursor (f : VecFrame) : Cursor :=
  ⟨f.total, f.localIov.take f.currentIovIdx, f.localIov.drop f.currentIovIdx⟩

/-- What that loop returns: the segments when all of them are done. -/
def outcome : Status × VecFrame → Res (List Iovec)
  | (.ok (), f) => .ok f.localIov
  | (.fail e, _) => .fail e
  | (.retry e, _) => .retry e

/-- The entries without the buffers they point into. -/
def entriesOf (iov : List Iovec) : List (Nat × Nat) := iov.map fun v => (v.iovBase, v.iovLen)

/-- Every entry of the caller is as it was, and points into the buffer that its copy points into. -/
structure Shares (iov : List Iovec) (f : VecFrame) : Prop where
  entries : entriesOf f.iov = entriesOf iov
  bufs : f.iov.map Iovec.buf = f.localIov.map Iovec.buf

variable {f : VecFrame} {moved : Nat} {iov stored rest : List Iovec}

/-- The inner loop steps over the segments as `advance` does. -/
theorem cursor_stepOver (f : VecFrame) (moved : Nat) : cursor (f.stepOver moved) =
    ⟨f.total, (cursor f).past ++ (advance moved (cursor f).rest).1,
      (advance moved (cursor f).rest).2⟩ := by
  fun_induction VecFrame.stepOver f moved with
  | case1 f moved h v hlt cut =>
      have hdrop : f.localIov.drop f.currentIovIdx = v :: f.localIov.drop (f.currentIovIdx + 1) :=
        List.drop_eq_getElem_cons h.1
      simp only [cursor, hdrop, advance_cut h.2 hlt, List.append_nil]
      rw [List.take_set_of_le (Nat.le_refl _), List.drop_set, if_neg (Nat.lt_irrefl _), Nat.sub_self,
        hdrop, List.set_cons_zero]
  | case2 f moved h v hge ih =>
      have hdrop : f.localIov.drop f.currentIovIdx = v :: f.localIov.drop (f.currentIovIdx + 1) :=
        List.drop_eq_getElem_cons h.1
      have htake : f.localIov.take (f.currentIovIdx + 1) =
          f.localIov.take f.currentIovIdx ++ [v] := List.take_succ_eq_append_getElem h.1
      rw [ih]
      simp only [cursor, hdrop, htake, advance_over h.2 (Nat.not_lt.mp hge), List.append_assoc,
        List.singleton_append]
  | case3 f moved h =>
      obtain hend | hzero : f.localIov.length ≤ f.currentIovIdx ∨ moved = 0 := by omega
      · simp only [cursor, List.drop_eq_nil_of_le hend, advance, List.append_nil]
      · simp only [cursor, hzero, advance_zero, List.append_nil]

/-- The cursor after a call. -/
theorem cursor_next (h : f.currentIovIdx ≤ f.localIov.length) (rest : List Iovec) (moved : Nat) :
    cursor (({ f.store rest with total := f.total + moved } : VecFrame).stepOver moved) =
      (cursor f).next moved rest := by
  have htake : (f.localIov.take f.currentIovIdx).length = f.currentIovIdx := List.length_take_of_le h
  rw [cursor_stepOver]
  simp only [cursor, VecFrame.store, Cursor.next, List.take_left' htake, List.drop_left' htake]

theorem iov_stepOver (f : VecFrame) (moved : Nat) : (f.stepOver moved).iov = f.iov := by
  fun_induction VecFrame.stepOver f moved with
  | case1 => rfl
  | case2 f moved h v hge ih => exact ih
  | case3 => rfl

/-- It leaves the buffers alone. -/
theorem bufs_stepOver (f : VecFrame) (moved : Nat) :
    (f.stepOver moved).localIov.map Iovec.buf = f.localIov.map Iovec.buf := by
  fun_induction VecFrame.stepOver f moved with
  | case1 f moved h v hlt cut =>
      have hlen : f.currentIovIdx < (f.localIov.map Iovec.buf).length := by
        rw [List.length_map]
        exact h.1
      have hbuf : cut.buf = (f.localIov.map Iovec.buf)[f.currentIovIdx] :=
        (List.getElem_map Iovec.buf).symm
      rw [List.map_set, hbuf]
      exact List.set_getElem_self _
  | case2 f moved h v hge ih => exact ih
  | case3 => rfl

theorem entries_share (h : iov.length = stored.length) :
    entriesOf (VecFrame.share iov stored) = entriesOf iov := by
  induction iov generalizing stored with
  | nil => rfl
  | cons v iov ih =>
      cases stored with
      | nil => cases h
      | cons u stored =>
          have htail := ih (Nat.succ.inj h)
          simp only [entriesOf, VecFrame.share, List.zipWith_cons_cons, List.map_cons] at htail ⊢
          rw [htail]

theorem bufs_share (h : iov.length = stored.length) :
    (VecFrame.share iov stored).map Iovec.buf = stored.map Iovec.buf := by
  induction iov generalizing stored with
  | nil =>
      obtain rfl := List.eq_nil_of_length_eq_zero h.symm
      rfl
  | cons v iov ih =>
      cases stored with
      | nil => cases h
      | cons u stored =>
          have htail := ih (Nat.succ.inj h)
          simp only [VecFrame.share, List.zipWith_cons_cons, List.map_cons] at htail ⊢
          rw [htail]

theorem Shares.start (iov : List Iovec) : Shares iov (.start iov) := ⟨rfl, rfl⟩

theorem Shares.length (h : Shares iov f) : f.iov.length = f.localIov.length := by
  have hlen := congrArg List.length h.bufs
  rwa [List.length_map, List.length_map] at hlen

theorem Shares.store (h : Shares iov f)
    (hrest : rest.length = (f.localIov.drop f.currentIovIdx).length) : Shares iov (f.store rest) := by
  have hlen : f.iov.length = (f.localIov.take f.currentIovIdx ++ rest).length := by
    rw [h.length, List.length_append, hrest, ← List.length_append, List.take_append_drop]
  exact ⟨(entries_share hlen).trans h.entries, bufs_share hlen⟩

theorem Shares.stepOver (h : Shares iov f) (total moved : Nat) :
    Shares iov (({ f with total := total } : VecFrame).stepOver moved) := by
  refine ⟨?_, ?_⟩
  · rw [iov_stepOver]
    exact h.entries
  · rw [iov_stepOver, bufs_stepOver]
    exact h.bufs

/-- An array that has kept its entries and its buffers is as it was. -/
theorem eq_of_entries {iov' : List Iovec} (he : entriesOf iov' = entriesOf iov)
    (hb : iov'.map Iovec.buf = iov.map Iovec.buf) : iov' = iov := by
  induction iov generalizing iov' with
  | nil => exact List.map_eq_nil_iff.mp hb
  | cons v iov ih =>
      cases iov' with
      | nil => cases hb
      | cons u iov' =>
          simp only [entriesOf, List.map_cons, List.cons.injEq, Prod.mk.injEq] at he hb ih
          rw [ih he.2 hb.2]
          congr 1
          cases u
          cases v
          simp only at he hb
          rw [he.1.1, he.1.2, hb.1]

end Frames

section Loop

variable {sys : VecCall} {onZero : Option Errno} {onError : Errno} {iov : List Iovec}
  {ino : Ino} {w : World}

theorem vecRound_consumes (sys : VecCall) (onZero : Option Errno) (onError : Errno) (f : VecFrame) :
    Prog.Consumes (vecRound sys onZero onError f) := by
  unfold vecRound
  split
  · exact Prog.consumes_call _
  · exact Prog.consumes_inr _

/-- A round over the index is a round over the segments that are left. -/
theorem vecRound_simulates (f : VecFrame) :
    (vecRound sys onZero onError f >>= fun r => pure (r.map cursor outcome)) =
      transferRound sys onZero onError (cursor f) := by
  unfold vecRound transferRound
  split
  · rename_i hlt
    have hdrop : (cursor f).rest ≠ [] := by
      rw [cursor, ne_eq, List.drop_eq_nil_iff]
      omega
    split
    · exact absurd ‹_› hdrop
    · rw [bind_assoc]
      congr 1
      funext r
      cases r with
      | intr => rfl
      | transient => rfl
      | fail => rfl
      | done n =>
          simp only [vecReply, transferReply, bind_assoc]
          congr 1
          funext w
          have hnext := cursor_next (Nat.le_of_lt hlt)
          have hsys : sys (cursor f).total (cursor f).rest n w =
              sys f.total (f.localIov.drop f.currentIovIdx) n w := rfl
          rw [hsys]
          generalize sys f.total (f.localIov.drop f.currentIovIdx) n w = out
          congr 1
          funext _
          by_cases hz : out.1.length = 0 ∧ onZero.isSome
          · rw [if_pos hz, if_pos hz]
            rfl
          · rw [if_neg hz, if_neg hz, pure_bind, Sum.map_inl, hnext]
  · rename_i hle
    have hdrop : (cursor f).rest = [] := List.drop_eq_nil_of_le (Nat.not_lt.mp hle)
    have hpast : (cursor f).past = f.localIov := List.take_of_length_le (Nat.not_lt.mp hle)
    split
    · rw [hpast]
      rfl
    · rename_i heq
      rw [hdrop] at heq
      cases heq

theorem vecLoop_simulates (iov : List Iovec) :
    (Prog.loop (vecRound sys onZero onError) (.start iov) >>= fun p => pure (outcome p)) =
      Prog.loop (transferRound sys onZero onError) ⟨0, [], iov⟩ :=
  Prog.loop_simulates cursor outcome (transferRound_consumes sys onZero onError)
    (vecRound_consumes sys onZero onError) vecRound_simulates (.start iov)

/-- What every store and every inner loop keeps holds of the frame at the end. -/
theorem vecLoop_ensures {A : Reply → Prop} {I : VecFrame → Prop} (hI : I (.start iov))
    (hstore : ∀ f n v, I f → I (f.store (sys f.total (f.localIov.drop f.currentIovIdx) n v).2.1))
    (hstep : ∀ (f : VecFrame) total moved, I f →
      I (({ f with total := total } : VecFrame).stepOver moved)) :
    Ensures A (Prog.loop (vecRound sys onZero onError) (.start iov)) w (fun p _ => I p.2)
      (fun _ => True) := by
  refine Ensures.loop (I := fun f _ => I f) ?_ (fun _ _ _ => trivial) hI
  intro f v hf
  unfold vecRound
  split
  · refine Ensures.call_bind trivial fun r _ => ?_
    cases r with
    | intr => exact Ensures.pure hf
    | transient => exact Ensures.pure hf
    | fail => exact Ensures.pure hf
    | done n =>
        refine Ensures.state_bind ?_
        have hstored := hstore f n v hf
        refine Ensures.modify_bind ?_
        split
        · exact Ensures.pure hstored
        · exact Ensures.pure (hstep _ _ _ hstored)
  · exact Ensures.pure hf

/-- What the loop over the segments ensures, the function does. -/
theorem safeVec_ensures (call : Ino → VecCall) {A : Reply → Prop}
    {R : Res (List Iovec) → World → Prop} {C : World → Prop} (hne : iov ≠ [])
    (hlen : ∀ total l n v, (call ino total l n v).2.1.length = l.length)
    (hR : Ensures A (Prog.loop (transferRound (call ino) onZero onError) ⟨0, [], iov⟩) w R C) :
    Ensures A (safeVec call onZero onError (some ino) iov) w
      (fun p v => ∃ f : VecFrame, p.2 = f.iov ∧ Shares iov f ∧ R (outcome (p.1, f)) v) C := by
  have hshares : Ensures A (Prog.loop (vecRound (call ino) onZero onError) (.start iov)) w
      (fun p _ => Shares iov p.2) (fun _ => True) :=
    vecLoop_ensures (.start iov) (fun f n v hf => hf.store (hlen _ _ _ _))
      fun f total moved hf => hf.stepOver total moved
  have hloop : Ensures A (Prog.loop (vecRound (call ino) onZero onError) (.start iov)) w
      (fun p v => R (outcome p) v) C := by
    rw [← vecLoop_simulates] at hR
    exact hR.of_map
  obtain ⟨v₀, iov', rfl⟩ := List.exists_cons_of_ne_nil hne
  refine ((hshares.and hloop).mono (fun _ _ h => h) fun _ h => h.2).bind ?_
  rintro ⟨res, f⟩ v ⟨hf, hr⟩
  exact Ensures.pure ⟨f, rfl, hf, hr⟩

/-- The status a call comes to. -/
def status (m : Sys (Status × List Iovec)) : Sys Status := do
  let (res, _) ← m
  pure res

/-- Calls that store nothing leave the buffers of the caller. -/
theorem safeVec_bufs (call : Ino → VecCall) {A : Reply → Prop} (hne : iov ≠ [])
    (hkeeps : ∀ total l n v, (call ino total l n v).2.1 = l) :
    Ensures A (safeVec call onZero onError (some ino) iov) w
      (fun p _ => p.2.map Iovec.buf = iov.map Iovec.buf) (fun _ => True) := by
  have hloop : Ensures A (Prog.loop (vecRound (call ino) onZero onError) (.start iov)) w
      (fun p _ => Shares iov p.2 ∧ p.2.localIov.map Iovec.buf = iov.map Iovec.buf)
      (fun _ => True) := by
    refine vecLoop_ensures (I := fun f => Shares iov f ∧ f.localIov.map Iovec.buf = iov.map Iovec.buf)
      ⟨.start iov, rfl⟩ ?_ ?_
    · rintro f n v ⟨hf, hb⟩
      rw [hkeeps]
      refine ⟨hf.store rfl, ?_⟩
      change (f.localIov.take f.currentIovIdx ++ f.localIov.drop f.currentIovIdx).map Iovec.buf = _
      rw [List.take_append_drop]
      exact hb
    · rintro f total moved ⟨hf, hb⟩
      refine ⟨hf.stepOver total moved, ?_⟩
      rw [bufs_stepOver]
      exact hb
  obtain ⟨v₀, iov', rfl⟩ := List.exists_cons_of_ne_nil hne
  refine hloop.bind ?_
  rintro ⟨res, f⟩ v ⟨hf, hb⟩
  exact Ensures.pure (hf.bufs.trans hb)

theorem safeVec_terminates (call : Ino → VecCall) {N : Nat} (hne : iov ≠ [])
    (h : Terminates (Prog.loop (transferRound (call ino) onZero onError) ⟨0, [], iov⟩) w N) :
    ∃ M, Terminates (safeVec call onZero onError (some ino) iov) w M := by
  rw [← vecLoop_simulates] at h
  obtain ⟨v₀, iov', rfl⟩ := List.exists_cons_of_ne_nil hne
  refine ⟨_, h.of_map.bind (M := 0) ?_⟩
  rintro rs ⟨res, f⟩ rest v _ _ rs' _ _
  exact ⟨_, rs', v, rfl, by omega⟩

end Loop

section Segments

variable {bufs : List Bytes}

/-- The array for some buffers. -/
abbrev iovOf (bufs : List Bytes) : List Iovec := bufs.map Iovec.of

theorem iovOf_fits : ∀ v ∈ iovOf bufs, v.Fits := by
  intro v hv
  obtain ⟨b, -, rfl⟩ := List.mem_map.mp hv
  exact Nat.zero_add _

theorem iovOf_fresh : ∀ v ∈ iovOf bufs, v.iovBase = 0 := by
  intro v hv
  obtain ⟨b, -, rfl⟩ := List.mem_map.mp hv
  rfl

theorem window_of (b : Bytes) : (Iovec.of b).window = b := by
  simp only [Iovec.window, Iovec.of, List.drop_zero, List.take_length]

theorem gather_iovOf : gather (iovOf bufs) = bufs.flatten := by
  induction bufs with
  | nil => rfl
  | cons b bufs ih => rw [iovOf, List.map_cons, gather_cons, ih, window_of, List.flatten_cons]

theorem wanted_iovOf : wanted (iovOf bufs) = bufs.flatten.length := by
  rw [← gather_length iovOf_fits, gather_iovOf]

theorem lengths_iovOf : (iovOf bufs).map (·.buf.length) = bufs.map List.length := by
  rw [iovOf, List.map_map]
  rfl

/-- The last segment asks for a byte. -/
def LastAsks (bufs : List Bytes) : Prop := ∃ b, bufs.getLast? = some b ∧ b ≠ []

theorem lastNonempty_iovOf : LastNonempty (iovOf bufs) ↔ LastAsks bufs := by
  rw [LastNonempty, iovOf, List.getLast?_map]
  constructor
  · rintro ⟨v, hv, hpos⟩
    obtain ⟨b, hb, rfl⟩ := Option.map_eq_some_iff.mp hv
    exact ⟨b, hb, List.length_pos_iff.mp hpos⟩
  · rintro ⟨b, hb, hne⟩
    exact ⟨.of b, by rw [hb]; rfl, List.length_pos_iff.mpr hne⟩

end Segments

section Writes

variable (call : Ino → VecCall) {store : Bytes → World} {ino : Ino} {bufs : List Bytes}

/-- What a writing function comes to, whatever the replies are. -/
theorem safeVec_writes (A : Reply → Prop) (hne : bufs ≠ []) (hsys : Stores (call ino) store)
    (hkeeps : ∀ total l n v, (call ino total l n v).2.1 = l) :
    Ensures A (safeVec call none .writeFailed (some ino) (iovOf bufs)) (store [])
      (fun p v => p.2 = iovOf bufs ∧
        ((p.1 = .ok () ∧ LastNonempty (iovOf bufs) ∧ v = store bufs.flatten) ∨
        (p.1 = .fail (some .writeFailed) ∧ (∃ a, A a ∧ ¬ a.Clean) ∧
          ∃ q, q <+: bufs.flatten ∧ v = store q)))
      (fun _ => True) := by
  have hne' : iovOf bufs ≠ [] := by simpa using hne
  have hloop := safeVec_ensures call hne' (fun _ _ _ _ => congrArg List.length (hkeeps ..))
    (writes_ensures A hsys iovOf_fits hne')
  refine (hloop.and (safeVec_bufs call hne' hkeeps)).mono ?_ fun _ _ => trivial
  rintro ⟨res, iov'⟩ v ⟨⟨f, rfl, hf, hr⟩, hb⟩
  refine ⟨eq_of_entries hf.entries hb, ?_⟩
  rw [gather_iovOf] at hr
  obtain ⟨l, hres, hlast, hv⟩ | ⟨hres, hA, q, ⟨hq, -⟩, hv⟩ := hr
  · cases res with
    | ok _ => exact .inl ⟨rfl, hlast, hv⟩
    | fail e => cases hres
    | retry e => cases hres
  · cases res with
    | ok _ => cases hres
    | fail e =>
        cases hres
        exact .inr ⟨rfl, hA, q, hq, hv⟩
    | retry e => cases hres

/-- It ends with everything written exactly when the last segment asks for a byte. -/
theorem safeVec_writes_iff (hne : bufs ≠ []) (hsys : Stores (call ino) store)
    (hkeeps : ∀ total l n v, (call ino total l n v).2.1 = l) :
    Computes (safeVec call none .writeFailed (some ino) (iovOf bufs)) (store [])
      (.ok (), iovOf bufs) (store bufs.flatten) ↔ LastAsks bufs := by
  have hne' : iovOf bufs ≠ [] := by simpa using hne
  have hens := safeVec_writes call Reply.Clean hne hsys hkeeps
  rw [← lastNonempty_iovOf]
  constructor
  · intro h
    obtain ⟨rs, rest, hrs, hrun⟩ := h.exists_run
    obtain ⟨-, ⟨-, hlast, -⟩ | ⟨-, ⟨a, ha, hn⟩, -⟩⟩ := hens.returned hrs hrun
    · exact hlast
    · exact absurd ha hn
  · intro hlast
    refine ⟨hens.mono ?_ fun _ _ => trivial,
      safeVec_terminates call hne' (writes_terminates hsys iovOf_fits hlast)⟩
    rintro ⟨res, iov'⟩ v ⟨rfl, ⟨hres, -, rfl⟩ | ⟨-, ⟨a, ha, hn⟩, -⟩⟩
    · simp only at hres
      rw [hres]
      exact ⟨rfl, rfl⟩
    · exact absurd ha hn

/-- Otherwise no replies make it return. -/
theorem safeVec_writes_diverges (hne : bufs ≠ []) (hsys : Stores (call ino) store)
    (hkeeps : ∀ total l n v, (call ino total l n v).2.1 = l)
    (hlast : ¬ LastNonempty (iovOf bufs)) :
    Diverges (safeVec call none .writeFailed (some ino) (iovOf bufs)) (store []) := by
  refine (safeVec_writes call Reply.Clean hne hsys hkeeps).mono ?_ fun _ _ => trivial
  rintro p v ⟨-, ⟨-, h, -⟩ | ⟨-, ⟨a, ha, hn⟩, -⟩⟩
  · exact hlast h
  · exact hn ha

/-- `safe_writev` and `safe_pwritev` end with CCASK_OK and every byte written exactly when the last
segment asks for a byte. -/
theorem writes_end_iff (w : World) (ino : Ino) (offset : Nat) (hne : bufs ≠ []) :
    (Computes (Iov.safeWritev (some ino) (iovOf bufs)) w (.ok (), iovOf bufs)
        (w.append ino bufs.flatten) ↔ LastAsks bufs) ∧
    (Computes (Iov.safePwritev (some ino) (iovOf bufs) offset) w (.ok (), iovOf bufs)
        (w.pwrite ino offset bufs.flatten) ↔ LastAsks bufs) := by
  have happend := safeVec_writes_iff writevCall hne (writevCall_stores ino w)
    fun _ _ _ _ => rfl
  have hwrite := safeVec_writes_iff (fun ino => pwritevCall ino offset) hne
    (pwritevCall_stores ino offset w) fun _ _ _ _ => rfl
  rw [append_nil] at happend
  rw [pwrite_nil] at hwrite
  exact ⟨happend, hwrite⟩

theorem writes_end_one :
    let bufs : List Bytes := [[], [97]]
    let w := World.boot Fs.empty 0
    (Computes (Iov.safeWritev (some 0) (iovOf bufs)) w (.ok (), iovOf bufs)
        (w.append 0 bufs.flatten) ↔ LastAsks bufs) ∧
    (Computes (Iov.safePwritev (some 0) (iovOf bufs) 3) w (.ok (), iovOf bufs)
        (w.pwrite 0 3 bufs.flatten) ↔ LastAsks bufs) :=
  writes_end_iff (.boot Fs.empty 0) 0 3 (List.cons_ne_nil [] [[97]])

/-- A header, a key and an empty value, as a delete has them, keep the call going for ever. -/
theorem write_of_delete_diverges :
    Diverges (Iov.safeWritev (some 0) (iovOf [[0, 0], [97], []])) (.boot Fs.empty 0) ∧
    Diverges (Iov.safePwritev (some 0) (iovOf [[0, 0], [97], []]) 0) (.boot Fs.empty 0) := by
  have hlast : ¬ LastNonempty (iovOf [[0, 0], [97], []]) := by decide
  have happend := safeVec_writes_diverges writevCall (by simp)
    (writevCall_stores 0 (.boot Fs.empty 0)) (fun _ _ _ _ => rfl) hlast
  have hwrite := safeVec_writes_diverges (fun ino => pwritevCall ino 0) (by simp)
    (pwritevCall_stores 0 0 (.boot Fs.empty 0)) (fun _ _ _ _ => rfl) hlast
  rw [append_nil] at happend
  rw [pwrite_nil] at hwrite
  exact ⟨happend, hwrite⟩

end Writes

section Reads

variable {ino : Ino} {start : Nat} {w : World} {bufs : List Bytes}

/-- What a reading function comes to, whatever the replies are. -/
theorem safeVec_reads (A : Reply → Prop) (hne : bufs ≠ []) :
    Ensures A (safeVec (fun ino => preadvCall ino start) (some .unexpectedEof) .readFailed (some ino)
        (iovOf bufs)) w
      (fun p v => entriesOf p.2 = entriesOf (iovOf bufs) ∧ v = w ∧
        ((p.1 = .ok () ∧ LastNonempty (iovOf bufs) ∧
          start + bufs.flatten.length ≤ (w.fs.data ino).length ∧
          (p.2.map Iovec.buf).flatten = ((w.fs.data ino).drop start).take bufs.flatten.length ∧
          p.2.map (·.buf.length) = bufs.map List.length) ∨
        (p.1 = .fail (some .unexpectedEof) ∧ ¬ (LastNonempty (iovOf bufs) ∧
          start + bufs.flatten.length ≤ (w.fs.data ino).length)) ∨
        (p.1 = .fail (some .readFailed) ∧ ∃ a, A a ∧ ¬ a.Clean)))
      (fun _ => True) := by
  have hne' : iovOf bufs ≠ [] := by simpa using hne
  have hlen : ∀ total l n v, (preadvCall ino start total l n v).2.1.length = l.length := by
    intro total l n v
    simp only [preadvCall]
    exact scatter_length _ l
  have hloop := safeVec_ensures (fun ino => preadvCall ino start) hne' hlen
    (reads_ensures (w := w) A iovOf_fits iovOf_fresh hne')
  refine hloop.mono ?_ fun _ _ => trivial
  rintro ⟨res, iov'⟩ v ⟨f, rfl, hf, hv, hr⟩
  refine ⟨hf.entries, hv, ?_⟩
  rw [wanted_iovOf, lengths_iovOf] at hr
  obtain ⟨l, hres, hlast, hroom, hflat, hlens⟩ | ⟨hres, hn⟩ | ⟨hres, hA⟩ := hr
  · cases res with
    | ok _ =>
        cases hres
        rw [← hf.bufs] at hflat hlens
        rw [List.map_map] at hlens
        exact .inl ⟨rfl, hlast, hroom, hflat, hlens⟩
    | fail e => cases hres
    | retry e => cases hres
  · cases res with
    | ok _ => cases hres
    | fail e =>
        cases hres
        exact .inr (.inl ⟨rfl, hn⟩)
    | retry e => cases hres
  · cases res with
    | ok _ => cases hres
    | fail e =>
        cases hres
        exact .inr (.inr ⟨rfl, hA⟩)
    | retry e => cases hres

/-- The call returns CCASK_OK when the bytes are there, else CCASK_ERR_UNEXPECTED_EOF, however short the
reads are. -/
structure ReadsIf (there : Prop) (m : Sys (Status × List Iovec)) (w : World) : Prop where
  ok : there → Computes (status m) w (.ok ()) w
  eof : ¬ there → Computes (status m) w (.fail (some .unexpectedEof)) w

/-- The function answers by the bytes that are there and by the last segment. -/
theorem status_safeVec (w : World) (ino : Ino) (start : Nat) (hne : bufs ≠ []) :
    Computes (status (safeVec (fun ino => preadvCall ino start) (some .unexpectedEof) .readFailed
      (some ino) (iovOf bufs))) w (if LastNonempty (iovOf bufs) ∧
        start + bufs.flatten.length ≤ (w.fs.data ino).length then .ok ()
      else .fail (some .unexpectedEof)) w := by
  have hne' : iovOf bufs ≠ [] := by simpa using hne
  constructor
  · refine (safeVec_reads Reply.Clean hne).bind ?_
    rintro ⟨res, iov'⟩ v ⟨-, rfl, ⟨hres, hlast, hroom, -, -⟩ | ⟨hres, hn⟩ | ⟨-, a, ha, hn⟩⟩
    · rw [if_pos ⟨hlast, hroom⟩]
      exact Ensures.pure ⟨hres, rfl⟩
    · rw [if_neg hn]
      exact Ensures.pure ⟨hres, rfl⟩
    · exact absurd ha hn
  · obtain ⟨N, hN⟩ := safeVec_terminates (fun ino => preadvCall ino start) hne'
      (reads_returns iovOf_fits iovOf_fresh hne').terminates
    refine ⟨_, hN.bind (M := 0) ?_⟩
    rintro rs ⟨res, iov'⟩ rest v _ _ rs' _ _
    exact ⟨_, rs', v, rfl, by omega⟩

theorem safeVec_readsIf_iff (hne : bufs ≠ []) :
    ReadsIf (start + bufs.flatten.length ≤ (w.fs.data ino).length)
      (safeVec (fun ino => preadvCall ino start) (some .unexpectedEof) .readFailed (some ino)
        (iovOf bufs)) w ↔
      LastAsks bufs ∨ (w.fs.data ino).length < start + bufs.flatten.length := by
  have hstatus := status_safeVec w ino start hne
  rw [← lastNonempty_iovOf]
  constructor
  · intro h
    by_cases hroom : start + bufs.flatten.length ≤ (w.fs.data ino).length
    · by_cases hlast : LastNonempty (iovOf bufs)
      · exact .inl hlast
      · rw [if_neg fun hc => hlast hc.1] at hstatus
        cases (hstatus.unique (h.ok hroom)).1
    · exact .inr (Nat.not_le.mp hroom)
  · intro h
    constructor
    · intro hroom
      rwa [if_pos ⟨h.resolve_right (Nat.not_lt.mpr hroom), hroom⟩] at hstatus
    · intro hroom
      rwa [if_neg fun hc => hroom hc.2] at hstatus

/-- `safe_preadv` and `safe_readv` tell whether the bytes are there exactly when the last segment asks
for a byte, or when they are not there. -/
theorem reads_succeed_iff (w : World) (ino : Ino) (start : Nat) (hne : bufs ≠ []) :
    (ReadsIf (start + bufs.flatten.length ≤ (w.fs.data ino).length)
        (Iov.safePreadv (some ino) (iovOf bufs) start) w ↔
      LastAsks bufs ∨ (w.fs.data ino).length < start + bufs.flatten.length) ∧
    (ReadsIf (start + bufs.flatten.length ≤ (w.fs.data ino).length)
        (Iov.safeReadv (some ino) (iovOf bufs) start) w ↔
      LastAsks bufs ∨ (w.fs.data ino).length < start + bufs.flatten.length) :=
  ⟨safeVec_readsIf_iff hne, safeVec_readsIf_iff hne⟩

/-- A file of three bytes: a read of the last two, one segment for each, succeeds, and a read of two
bytes from the last one on fails. -/
theorem reads_succeed_one :
    let bufs : List Bytes := [[0], [0]]
    let w := (World.boot Fs.empty 0).append 0 [97, 98, 99]
    (ReadsIf (1 + bufs.flatten.length ≤ (w.fs.data 0).length) (Iov.safePreadv (some 0) (iovOf bufs) 1) w ∧
      Computes (status (Iov.safePreadv (some 0) (iovOf bufs) 1)) w (.ok ()) w) ∧
    (ReadsIf (2 + bufs.flatten.length ≤ (w.fs.data 0).length) (Iov.safeReadv (some 0) (iovOf bufs) 2) w ∧
      ¬ 2 + bufs.flatten.length ≤ (w.fs.data 0).length) := by
  intro bufs w
  have hne : bufs ≠ [] := List.cons_ne_nil [0] [[0]]
  have hlast : LastAsks bufs := lastNonempty_iovOf.mp (by decide)
  have hread := (reads_succeed_iff w 0 1 hne).1.mpr (.inl hlast)
  have hshort := (reads_succeed_iff w 0 2 hne).2.mpr (.inl hlast)
  exact ⟨⟨hread, hread.ok (by decide)⟩, hshort, by decide⟩

/-- The file holds the one byte that is asked for, and the read into a segment for it and an empty one
fails. -/
theorem read_of_empty_value_fails :
    0 + [[(0 : UInt8)], []].flatten.length ≤
      (((World.boot Fs.empty 0).append 0 [97]).fs.data 0).length ∧
    Computes (status (Iov.safePreadv (some 0) (iovOf [[0], []]) 0)) ((World.boot Fs.empty 0).append 0 [97])
      (.fail (some .unexpectedEof)) ((World.boot Fs.empty 0).append 0 [97]) ∧
    Computes (status (Iov.safeReadv (some 0) (iovOf [[0], []]) 0)) ((World.boot Fs.empty 0).append 0 [97])
      (.fail (some .unexpectedEof)) ((World.boot Fs.empty 0).append 0 [97]) := by
  have hlast : ¬ LastNonempty (iovOf [[0], []]) := by decide
  have hne : [[(0 : UInt8)], []] ≠ [] := by decide
  have hstatus := status_safeVec ((World.boot Fs.empty 0).append 0 [97]) 0 0 hne
  rw [if_neg fun h => hlast h.1] at hstatus
  exact ⟨by decide, hstatus, hstatus⟩

end Reads

section Exact

variable {ino : Ino} {bufs : List Bytes} {w : World}

/-- What a writing function may leave: with CCASK_OK all bytes of the segments, in order, else a front
of them; and the array of the caller as it was. -/
structure WritesFront (store : Bytes → World) (bufs : List Bytes) (p : Status × List Iovec)
    (v : World) : Prop where
  whole : p.1 = .ok () → v = store bufs.flatten
  front : p.1 ≠ .ok () → ∃ q, q <+: bufs.flatten ∧ v = store q
  array : p.2 = iovOf bufs

/-- What a reading function may leave: with CCASK_OK full segments with the bytes from `start` on; and
the entries of the caller as they were. -/
structure ReadsFull (w : World) (ino : Ino) (start : Nat) (bufs : List Bytes)
    (p : Status × List Iovec) (v : World) : Prop where
  same : v = w
  there : p.1 = .ok () → start + bufs.flatten.length ≤ (w.fs.data ino).length
  whole : p.1 = .ok () →
    (p.2.map Iovec.buf).flatten = ((w.fs.data ino).drop start).take bufs.flatten.length
  full : p.1 = .ok () → p.2.map (·.buf.length) = bufs.map List.length
  array : entriesOf p.2 = entriesOf (iovOf bufs)

theorem safeVec_writesFront (call : Ino → VecCall) (bufs : List Bytes) {store : Bytes → World}
    (hsys : Stores (call ino) store) (hkeeps : ∀ total l n v, (call ino total l n v).2.1 = l) :
    Ensures (fun _ => True) (safeVec call none .writeFailed (some ino) (iovOf bufs)) (store [])
      (WritesFront store bufs) (fun _ => True) := by
  by_cases hne : bufs = []
  · subst hne
    exact Ensures.pure ⟨by simp, fun _ => ⟨[], List.nil_prefix, rfl⟩, rfl⟩
  · refine (safeVec_writes call _ hne hsys hkeeps).mono ?_ fun _ _ => trivial
    rintro p v ⟨harray, ⟨hres, -, hv⟩ | ⟨hres, -, q, hq, hv⟩⟩
    · exact ⟨fun _ => hv, fun hno => absurd hres hno, harray⟩
    · refine ⟨fun hok => ?_, fun _ => ⟨q, hq, hv⟩, harray⟩
      rw [hres] at hok
      cases hok

theorem safeVec_readsFull {start : Nat} : Ensures (fun _ => True)
    (safeVec (fun ino => preadvCall ino start) (some .unexpectedEof) .readFailed (some ino) (iovOf bufs)) w
      (ReadsFull w ino start bufs) (fun _ => True) := by
  by_cases hne : bufs = []
  · subst hne
    exact Ensures.pure ⟨rfl, by simp, by simp, by simp, rfl⟩
  · refine (safeVec_reads _ hne).mono ?_ fun _ _ => trivial
    rintro p v ⟨harray, hv, ⟨hres, -, hroom, hflat, hlens⟩ | ⟨hres, -⟩ | ⟨hres, -⟩⟩
    · exact ⟨hv, fun _ => hroom, fun _ => hflat, fun _ => hlens, harray⟩
    · have hno : p.1 ≠ .ok () := by simp [hres]
      exact ⟨hv, fun h => absurd h hno, fun h => absurd h hno, fun h => absurd h hno, harray⟩
    · have hno : p.1 ≠ .ok () := by simp [hres]
      exact ⟨hv, fun h => absurd h hno, fun h => absurd h hno, fun h => absurd h hno, harray⟩

/-- Whatever the replies are, no byte is lost or moved twice, and the array of the caller stays. -/
theorem transfers_exact (w : World) (ino : Ino) (bufs : List Bytes) (start : Nat) :
    Ensures (fun _ => True) (Iov.safeWritev (some ino) (iovOf bufs)) w
      (WritesFront (w.append ino) bufs) (fun _ => True) ∧
    Ensures (fun _ => True) (Iov.safePwritev (some ino) (iovOf bufs) start) w
      (WritesFront (w.pwrite ino start) bufs) (fun _ => True) ∧
    Ensures (fun _ => True) (Iov.safeReadv (some ino) (iovOf bufs) start) w
      (ReadsFull w ino start bufs) (fun _ => True) ∧
    Ensures (fun _ => True) (Iov.safePreadv (some ino) (iovOf bufs) start) w
      (ReadsFull w ino start bufs) (fun _ => True) := by
  have happend := safeVec_writesFront writevCall bufs (writevCall_stores ino w) fun _ _ _ _ => rfl
  have hwrite := safeVec_writesFront (fun ino => pwritevCall ino start) bufs
    (pwritevCall_stores ino start w) fun _ _ _ _ => rfl
  rw [append_nil] at happend
  rw [pwrite_nil] at hwrite
  exact ⟨happend, hwrite, safeVec_readsFull, safeVec_readsFull⟩

end Exact

end Ccask.Audit
