import Ccask.Audit.AppendOnly
import Ccask.Audit.HintFiles
import Ccask.Audit.Lookup
import Ccask.Effect.Pool
import Ccask.Model.Sections

/-!
# Upserts that run at the same time

The lookup of an upsert and the insertion that depends on it are sections of their own, so
that two threads can both find a key absent and both insert it.
-/

namespace Ccask.Audit

open Ccask.Effect Ccask.Model

/-- After a malloc the state is the same. -/
theorem malloc_congr {α : Type} {k k' : Bool → Sys α} {w : World}
    (h : ∀ b rs, (k b).run rs w = (k' b).run rs w) (rs : List Reply) :
    (malloc >>= k).run rs w = (malloc >>= k').run rs w := by
  rw [Prog.run_bind, Prog.run_bind]
  cases hr : malloc.run rs w with
  | pending v => rfl
  | returned b rest v =>
      obtain rfl : w = v := (malloc_moves (R := Eq)).of_run hr
      exact h b rest

/-- One after the other the two sections are `ccask_keydir_upsert`. -/
theorem ccaskKeydirUpsert_sections (record : KeydirRecord) :
    ccaskKeydirUpsert record = (do
      let entry ← upsertLookup record.key
      upsertStore record entry) := by
  apply Prog.ext_run
  intro rs w
  have hput := Index.put_eq_find (f := fun entry : KeydirRecord => { record with key := entry.key })
    (a := record) (fun b (hb : b.key = record.key) => by rw [hb]) w.hashTable
  simp only [upsertLookup, upsertStore, bind_assoc, pure_bind]
  rw [ccaskKeydirUpsert, Prog.run_state_bind, Prog.run_state_bind, Prog.run_state_bind]
  split
  · rfl
  · cases hi : w.hashTable.findIdx? fun entry => entry.key = record.key with
    | none =>
        rw [hi] at hput
        have hfind : ccaskKeydirFind record.key w = none := by
          rw [ccaskKeydirFind, Index.get, List.find?_eq_none]
          intro e he
          simpa using List.findIdx?_eq_none_iff.mp hi e he
        rw [hfind]
        apply malloc_congr
        intro b rs
        cases b with
        | false => rfl
        | true =>
            apply malloc_congr
            intro b rs
            cases b with
            | false => rfl
            | true =>
                show Outcome.returned _ _ { w with hashTable := _ } =
                  .returned _ _ { w with hashTable := _ }
                rw [hput]
    | some i =>
        rw [hi] at hput
        obtain ⟨e, hfind⟩ : ∃ e, ccaskKeydirFind record.key w = some e := by
          rw [← Option.isSome_iff_exists, ccaskKeydirFind, Index.get, List.find?_isSome]
          obtain ⟨hlt, hkey, -⟩ := List.findIdx?_eq_some_iff_getElem.mp hi
          exact ⟨_, List.getElem_mem hlt, hkey⟩
        rw [hfind]
        show Outcome.returned _ _ { w with hashTable := _ } = .returned _ _ { w with hashTable := _ }
        rw [hput]

section Race

variable {w : World} {ι : Type} [DecidableEq ι]

/-- The keys of the key directory, in the order in which they were inserted. -/
def keys (w : World) : List Bytes := w.hashTable.map KeydirRecord.key

theorem upsertLookup_ensures (key : Bytes) : Ensures (fun _ => True) (upsertLookup key) w
    (fun entry v => v = w ∧ match entry with
      | some i => (keys w)[i]? = some key
      | none => key ∉ keys w) (fun v => v = w) := by
  refine Ensures.state_bind (Ensures.pure ⟨rfl, ?_⟩)
  cases hi : w.hashTable.findIdx? fun entry => entry.key = key with
  | none =>
      intro hmem
      obtain ⟨e, he, hkey⟩ := List.mem_map.mp hmem
      simpa [hkey] using List.findIdx?_eq_none_iff.mp hi e he
  | some i =>
      obtain ⟨hlt, hkey, -⟩ := List.findIdx?_eq_some_iff_getElem.mp hi
      show (w.hashTable.map KeydirRecord.key)[i]? = some key
      rw [List.getElem?_map, List.getElem?_eq_getElem hlt, Option.map_some]
      simpa using hkey

/-- A store changes no key, and adds its own when it found none. -/
theorem upsertStore_ensures (record : KeydirRecord) (entry : Option Nat) :
    Ensures (fun _ => True) (upsertStore record entry) w
      (fun _ v => keys v = keys w ∨ (entry = none ∧ keys v = keys w ++ [record.key]))
      (fun _ => True) := by
  refine Ensures.state_bind ?_
  split
  · exact Ensures.block trivial
  · cases entry with
    | some i =>
        refine Ensures.modify_bind (Ensures.pure (.inl ?_))
        apply List.ext_getElem?
        intro j
        rw [keys, keys, List.getElem?_map, List.getElem?_map, List.getElem?_modify]
        cases w.hashTable[j]? with
        | none => rfl
        | some e =>
            show some (KeydirRecord.key (if i = j then { record with key := e.key } else e)) = some e.key
            split <;> rfl
    | none =>
        refine malloc_ensures trivial fun b => ?_
        cases b with
        | false => exact Ensures.pure (.inl rfl)
        | true =>
            refine malloc_ensures trivial fun b => ?_
            cases b with
            | false => exact Ensures.pure (.inl rfl)
            | true => exact Ensures.modify_bind (Ensures.pure (.inr ⟨rfl, by simp [keys]⟩))

/-- What a thread in the middle of an upsert relies on: the entry it found is there with its key, or
the key is still absent. -/
def Relies (w : World) : UpsertCall → Prop
  | .store record (some i) => (keys w)[i]? = some record.key
  | .store record none => record.key ∉ keys w
  | .lookup _ | .done _ => True

/-- When a thread inserts a key, no other one is about to insert the same. -/
def Alone (c : Pool World ι UpsertCall) (i : ι) : Prop :=
  ∀ record, c.thread i = .store record none →
    ∀ j, j ≠ i → ∀ record', c.thread j = .store record' none → record'.key ≠ record.key

/-- As long as no two threads are about to insert the same key, the key directory has every key once,
and so have the iterations over it. -/
theorem keys_once {c c' : Pool World ι UpsertCall} (hkeys : (keys c.shared).Nodup)
    (hstart : ∀ i, ∃ record, c.thread i = .lookup record)
    (hrun : Pool.Runs (Section (fun _ _ => True) UpsertCall.sect) Alone c c') :
    (keys c'.shared).Nodup ∧ ∀ entries v, Computes ccaskKeydirRecordIter c'.shared entries v →
      (entries.map KeydirRecord.key).Nodup := by
  have hkept : (keys c'.shared).Nodup ∧ ∀ i, Relies c'.shared (c'.thread i) := by
    apply Pool.Runs.assertions (I := fun w => (keys w).Nodup) (A := Relies) _ hrun hkeys
    · intro i
      obtain ⟨record, hi⟩ := hstart i
      rw [hi]
      trivial
    · intro c i w t hnodup hrelies halone hs
      cases hi : c.thread i with
      | done res => exact absurd (by rw [hi]; rfl) hs.ne_none
      | lookup record =>
          rw [hi] at hs
          obtain ⟨rfl, entry, rfl, hentry⟩ := hs.always rfl
            (((upsertLookup_ensures record.key).mono (fun _ _ h => h) fun _ _ => trivial).bind
              fun entry v hv => Ensures.pure (Q := fun t v => v = c.shared ∧ ∃ entry,
              t = UpsertCall.store record entry ∧ match entry with
                | some i => (keys c.shared)[i]? = some record.key
                | none => record.key ∉ keys c.shared) ⟨hv.1, entry, rfl, hv.2⟩)
          refine ⟨hnodup, ?_, fun j _ => hrelies j⟩
          cases entry with
          | some k => exact hentry
          | none => exact hentry
      | store record entry =>
          have hown := hrelies i
          rw [hi] at hown hs
          obtain ⟨⟨res, rfl⟩, hsame | ⟨rfl, hadded⟩⟩ := hs.always rfl
            ((upsertStore_ensures record entry).bind fun res v hv =>
              Ensures.pure (Q := fun t v => (∃ res, t = UpsertCall.done res) ∧
                (keys v = keys c.shared ∨ (entry = none ∧ keys v = keys c.shared ++ [record.key])))
                ⟨⟨res, rfl⟩, hv⟩)
          · refine ⟨by rw [hsame]; exact hnodup, trivial, fun j _ => ?_⟩
            have hj := hrelies j
            unfold Relies at hj ⊢
            rw [hsame]
            exact hj
          · refine ⟨?_, trivial, fun j hj => ?_⟩
            · have habsent : record.key ∉ keys c.shared := hown
              rw [hadded]
              exact hnodup.append (List.nodup_singleton _) (by simpa using habsent)
            · have hother := hrelies j
              unfold Relies at hother ⊢
              rw [hadded]
              cases ht : c.thread j with
              | lookup r => trivial
              | done res => trivial
              | store r e =>
                  rw [ht] at hother
                  cases e with
                  | some k =>
                      obtain ⟨hlt, -⟩ := List.getElem?_eq_some_iff.mp hother
                      show (keys c.shared ++ [record.key])[k]? = some r.key
                      rw [List.getElem?_append_left hlt]
                      exact hother
                  | none =>
                      have hne := halone record hi j hj r ht
                      simp only [List.mem_append, List.mem_singleton, not_or] at hother ⊢
                      exact ⟨hother, hne⟩
  refine ⟨hkept.1, fun entries v hiter => ?_⟩
  have hsound : Computes ccaskKeydirRecordIter c'.shared c'.shared.hashTable
      { c'.shared with readLocks := c'.shared.readLocks + 1 } :=
    Computes.modify_bind (Computes.state_bind (Computes.pure _))
  obtain ⟨rfl, -⟩ := hsound.unique hiter
  exact hkept.1

end Race

section Sample

/-- Two threads that upsert the key `a`, over an empty key directory. -/
def bothInsert : Pool World Bool UpsertCall where
  shared := .boot Fs.empty 0
  thread b := .lookup ⟨[97], 0, if b then 0 else 18, 1, 0⟩

/-- The second thread looks the key up after the first one has inserted it, and replaces the entry. -/
theorem keys_once_one : ∃ c', Pool.Runs (Section (fun _ _ => True) UpsertCall.sect) Alone bothInsert c' ∧
    (∀ i, c'.thread i = .done (.ok ())) ∧ c'.shared.hashTable = [⟨[97], 0, 18, 1, 0⟩] ∧
    (keys c'.shared).Nodup ∧ ∀ entries v, Computes ccaskKeydirRecordIter c'.shared entries v →
      (entries.map KeydirRecord.key).Nodup := by
  have hrun : Pool.Runs (Section (fun _ _ => True) UpsertCall.sect) Alone bothInsert
      ((((bothInsert.set true bothInsert.shared (.store ⟨[97], 0, 0, 1, 0⟩ none)).set true
        { bothInsert.shared with hashTable := [⟨[97], 0, 0, 1, 0⟩] } (.done (.ok ()))).set false
        { bothInsert.shared with hashTable := [⟨[97], 0, 0, 1, 0⟩] }
        (.store ⟨[97], 0, 18, 1, 0⟩ (some 0))).set false
        { bothInsert.shared with hashTable := [⟨[97], 0, 18, 1, 0⟩] } (.done (.ok ()))) := by
    refine (((Pool.Runs.next .refl true [] ?_ rfl trivial ⟨_, rfl⟩).next true [.done 0, .done 0] ?_ rfl
      trivial ⟨_, rfl⟩).next false [] ?_ rfl trivial ⟨_, rfl⟩).next false [] ?_ rfl trivial ⟨_, rfl⟩
    · intro record h
      cases h
    · intro record _ j hj record' h
      cases j with
      | true => exact absurd rfl hj
      | false => cases h
    · intro record h
      cases h
    · intro record h
      cases h
  refine ⟨_, hrun, fun i => ?_, rfl, keys_once (by decide) (fun i => ⟨_, rfl⟩) hrun⟩
  cases i with
  | true => rfl
  | false => rfl

/-- Both of them find the key absent, and both insert it. -/
theorem not_keys_once_two : ∃ c', Pool.Runs (Section (fun _ _ => True) UpsertCall.sect)
      (fun _ _ => True) bothInsert c' ∧
    (keys bothInsert.shared).Nodup ∧ (∀ i, ∃ record, bothInsert.thread i = .lookup record) ∧
    ¬ (keys c'.shared).Nodup ∧ ∃ entries v, Computes ccaskKeydirRecordIter c'.shared entries v ∧
      ¬ (entries.map KeydirRecord.key).Nodup := by
  have hrun : Pool.Runs (Section (fun _ _ => True) UpsertCall.sect) (fun _ _ => True) bothInsert
      ((((bothInsert.set true bothInsert.shared (.store ⟨[97], 0, 0, 1, 0⟩ none)).set false
        bothInsert.shared (.store ⟨[97], 0, 18, 1, 0⟩ none)).set true
        { bothInsert.shared with hashTable := [⟨[97], 0, 0, 1, 0⟩] } (.done (.ok ()))).set false
        { bothInsert.shared with hashTable := [⟨[97], 0, 0, 1, 0⟩, ⟨[97], 0, 18, 1, 0⟩] }
        (.done (.ok ()))) := by
    exact (((Pool.Runs.next .refl true [] trivial rfl trivial ⟨_, rfl⟩).next false [] trivial rfl trivial
      ⟨_, rfl⟩).next true [.done 0, .done 0] trivial rfl trivial ⟨_, rfl⟩).next false
      [.done 0, .done 0] trivial rfl trivial ⟨_, rfl⟩
  refine ⟨_, hrun, by decide, fun i => ⟨_, rfl⟩, by decide, _, _,
    Computes.modify_bind (Computes.state_bind (Computes.pure _)), by decide⟩

end Sample

end Ccask.Audit
