import Mathlib.Data.List.Induction
import Mathlib.Data.List.Nodup

/-!
# An index that keeps the last write of every key

Entries carry their key. Writing an entry replaces the one with its key in place, or
appends it, so the order is that of the first writes.
-/

namespace Ccask.Index

variable {α κ : Type} [DecidableEq κ] (key : α → κ)

/-- Write one entry. -/
def put (a : α) : List α → List α
  | [] => [a]
  | b :: l => if key b = key a then a :: l else b :: put a l

/-- The entry of a key. -/
def get (k : κ) (l : List α) : Option α := l.find? fun a => key a = k

/-- Write entries one after another. -/
def replay (l : List α) (log : List α) : List α := log.foldl (fun l a => put key a l) l

/-- The last entry of a key in a log. -/
def latest (k : κ) (log : List α) : Option α := get key k log.reverse

variable {key}

@[simp] theorem get_nil (k : κ) : get key k [] = none := rfl

theorem get_cons (k : κ) (a : α) (l : List α) :
    get key k (a :: l) = if key a = k then some a else get key k l := by
  simp only [get, List.find?_cons]
  split <;> simp_all

theorem key_of_get {k : κ} {l : List α} {a : α} (h : get key k l = some a) : key a = k := by
  simpa using List.find?_some h

theorem mem_of_get {k : κ} {l : List α} {a : α} (h : get key k l = some a) : a ∈ l :=
  List.mem_of_find?_eq_some h

theorem get_eq_none {k : κ} {l : List α} : get key k l = none ↔ k ∉ l.map key := by
  simp [get, List.find?_eq_none]

theorem get_put (k : κ) (a : α) (l : List α) :
    get key k (put key a l) = if key a = k then some a else get key k l := by
  induction l with
  | nil => simp [put, get_cons]
  | cons b l ih =>
      simp only [put]
      by_cases hb : key b = key a
      · simp only [hb, if_true, get_cons]
        split <;> simp_all
      · simp only [hb, if_false, get_cons, ih]
        split <;> split <;> simp_all

theorem map_key_put (a : α) (l : List α) :
    (put key a l).map key = if key a ∈ l.map key then l.map key else l.map key ++ [key a] := by
  induction l with
  | nil => simp [put]
  | cons b l ih =>
      simp only [put]
      by_cases hb : key b = key a
      · simp [hb]
      · have hb' : key a ≠ key b := fun h => hb h.symm
        simp only [hb, if_false, List.map_cons, ih, List.mem_cons, hb', false_or]
        split <;> simp

theorem mem_put {a b : α} {l : List α} (h : b ∈ put key a l) : b = a ∨ b ∈ l := by
  induction l with
  | nil => exact .inl (List.mem_singleton.mp h)
  | cons c l ih =>
      simp only [put] at h
      split at h
      · rcases List.mem_cons.mp h with rfl | h
        · exact .inl rfl
        · exact .inr (List.mem_cons_of_mem _ h)
      · rcases List.mem_cons.mp h with rfl | h
        · exact .inr List.mem_cons_self
        · rcases ih h with rfl | h
          · exact .inl rfl
          · exact .inr (List.mem_cons_of_mem _ h)

theorem nodup_put {a : α} {l : List α} (h : (l.map key).Nodup) : ((put key a l).map key).Nodup := by
  rw [map_key_put]
  split
  · exact h
  · rename_i hn
    exact List.Nodup.append h (List.nodup_singleton _) (by simpa using hn)

@[simp] theorem replay_nil (l : List α) : replay key l [] = l := rfl

theorem replay_cons (l : List α) (a : α) (log : List α) :
    replay key l (a :: log) = replay key (put key a l) log := rfl

theorem replay_append (l log log' : List α) :
    replay key l (log ++ log') = replay key (replay key l log) log' := List.foldl_append

theorem replay_concat (l log : List α) (a : α) :
    replay key l (log ++ [a]) = put key a (replay key l log) := by
  rw [replay_append]
  rfl

theorem nodup_replay {l log : List α} (h : (l.map key).Nodup) :
    ((replay key l log).map key).Nodup := by
  induction log generalizing l with
  | nil => exact h
  | cons a log ih => exact ih (nodup_put h)

@[simp] theorem latest_nil (k : κ) : latest key k [] = none := rfl

theorem latest_concat (k : κ) (log : List α) (a : α) :
    latest key k (log ++ [a]) = if key a = k then some a else latest key k log := by
  simp [latest, get_cons]

theorem latest_append (k : κ) (log log' : List α) :
    latest key k (log ++ log') = (latest key k log').or (latest key k log) := by
  simp [latest, get, List.find?_append]

theorem latest_eq_none {k : κ} {log : List α} : latest key k log = none ↔ k ∉ log.map key := by
  simp [latest, get_eq_none]

/-- An entry that is put in front of later ones is the last of its key when none of those has it. -/
theorem latest_insert {a : α} {later : List α} (h : key a ∉ later.map key) (k : κ) (log : List α) :
    latest key k (log ++ a :: later) = if key a = k then some a else latest key k (log ++ later) := by
  have hsplit : log ++ a :: later = (log ++ [a]) ++ later := by simp
  rw [hsplit, latest_append, latest_concat, latest_append]
  split
  · rename_i hk
    rw [← hk, latest_eq_none.mpr h, Option.none_or]
  · rfl

/-- What the index holds after a log is the last entry of each key. -/
theorem get_replay (k : κ) (l log : List α) :
    get key k (replay key l log) = (latest key k log).or (get key k l) := by
  induction log using List.reverseRecOn with
  | nil => rfl
  | append_singleton log a ih =>
      rw [replay_concat, get_put, latest_concat, ih]
      split <;> simp

theorem get_replay_nil (k : κ) (log : List α) :
    get key k (replay key [] log) = latest key k log := by
  rw [get_replay, get_nil, Option.or_none]

/-- The keys of the index are those that were ever written. -/
theorem mem_keys_replay {k : κ} {log : List α} :
    k ∈ (replay key [] log).map key ↔ k ∈ log.map key := by
  rw [← not_iff_not, ← get_eq_none, ← latest_eq_none, get_replay_nil]

theorem mem_of_mem_replay {a : α} {log : List α} (h : a ∈ replay key [] log) : a ∈ log := by
  induction log using List.reverseRecOn with
  | nil => exact h
  | append_singleton log b ih =>
      rw [replay_concat] at h
      rcases mem_put h with rfl | h
      · simp
      · exact List.mem_append_left _ (ih h)

/-- An entry of a duplicate-free index is the one found under its key. -/
theorem get_of_mem {l : List α} (hl : (l.map key).Nodup) {a : α} (ha : a ∈ l) :
    get key (key a) l = some a := by
  induction l with
  | nil => cases ha
  | cons b l ih =>
      rw [List.map_cons, List.nodup_cons] at hl
      rw [get_cons]
      rcases List.mem_cons.mp ha with rfl | ha
      · simp
      · have hne : key b ≠ key a := by
          intro h
          exact hl.1 (h ▸ List.mem_map_of_mem ha)
        rw [if_neg hne]
        exact ih hl.2 ha

/-- In a list without duplicate keys the first and the last entry of a key are the same. -/
theorem latest_of_nodup {l : List α} (hl : (l.map key).Nodup) (k : κ) : latest key k l = get key k l := by
  cases hk : get key k l with
  | none =>
      rw [get_eq_none] at hk
      exact latest_eq_none.mpr hk
  | some a =>
      rw [← key_of_get hk]
      refine get_of_mem (l := l.reverse) ?_ (List.mem_reverse.mpr (mem_of_get hk))
      rw [List.map_reverse]
      exact List.nodup_reverse.mpr hl

/-- The entries of the index are the last entries of the log. -/
theorem mem_replay {a : α} {log : List α} : a ∈ replay key [] log ↔ latest key (key a) log = some a := by
  rw [← get_replay_nil]
  refine ⟨get_of_mem (nodup_replay (l := []) List.nodup_nil), mem_of_get⟩

/-- In a log that is in order the last entry of a key is the greatest one. -/
theorem latest_of_greatest {R : α → α → Prop} (hasymm : ∀ a b, R a b → ¬ R b a) {log : List α}
    (hlog : log.Pairwise R) {k : κ} {a : α} (ha : a ∈ log) (hk : key a = k)
    (hmax : ∀ b ∈ log, key b = k → b = a ∨ R b a) : latest key k log = some a := by
  induction log using List.reverseRecOn with
  | nil => cases ha
  | append_singleton log b ih =>
      obtain ⟨hlog, -, hlast⟩ := List.pairwise_append.mp hlog
      rw [latest_concat]
      by_cases hb : key b = k
      · rw [if_pos hb]
        obtain rfl | hlt := hmax b (by simp) hb
        · rfl
        · obtain hin | hin := List.mem_append.mp ha
          · exact absurd hlt (hasymm _ _ (hlast a hin b (List.mem_singleton_self b)))
          · rw [List.mem_singleton.mp hin]
      · rw [if_neg hb]
        obtain hin | hin := List.mem_append.mp ha
        · exact ih hlog hin fun c hc => hmax c (List.mem_append_left _ hc)
        · exact absurd (by rw [← List.mem_singleton.mp hin]; exact hk) hb

/-- No entry of the key comes after the last one. -/
theorem latest_greatest {R : α → α → Prop} {log : List α} (hlog : log.Pairwise R) {a b : α}
    (ha : a ∈ log) (hb : latest key (key a) log = some b) : a = b ∨ R a b := by
  induction log using List.reverseRecOn with
  | nil => cases ha
  | append_singleton log c ih =>
      obtain ⟨hlog, -, hlast⟩ := List.pairwise_append.mp hlog
      rw [latest_concat] at hb
      obtain hin | hin := List.mem_append.mp ha
      · split at hb
        · cases hb
          exact .inr (hlast a hin _ (List.mem_singleton_self _))
        · exact ih hlog hin hb
      · obtain rfl := List.mem_singleton.mp hin
        rw [if_pos rfl] at hb
        exact .inl (Option.some.inj hb)

theorem put_of_not_mem {a : α} {l : List α} (h : key a ∉ l.map key) : put key a l = l ++ [a] := by
  induction l with
  | nil => rfl
  | cons b l ih =>
      rw [List.map_cons, List.mem_cons, not_or] at h
      rw [put, if_neg (Ne.symm h.1), ih h.2, List.cons_append]

/-- The entry with the key is replaced where it stands. -/
theorem put_append {a b : α} (hb : key b = key a) {l₁ : List α} (h : key a ∉ l₁.map key) (l₂ : List α) :
    put key a (l₁ ++ b :: l₂) = l₁ ++ a :: l₂ := by
  induction l₁ with
  | nil =>
      rw [List.nil_append, put, if_pos hb]
      rfl
  | cons c l₁ ih =>
      rw [List.map_cons, List.mem_cons, not_or] at h
      rw [List.cons_append, put, if_neg (Ne.symm h.1), ih h.2, List.cons_append]

/-- Writing an entry in two parts: finding the entry with its key, and changing or adding it. -/
theorem put_eq_find {f : α → α} {a : α} (hf : ∀ b, key b = key a → f b = a) (l : List α) :
    put key a l = match l.findIdx? fun b => key b = key a with
      | some i => l.modify i f
      | none => l ++ [a] := by
  induction l with
  | nil => rfl
  | cons b l ih =>
      rw [put, List.findIdx?_cons]
      by_cases hb : key b = key a
      · simp only [hb, if_true, decide_true, List.modify_zero_cons, hf b hb]
      · simp only [hb, if_false, decide_false, Bool.false_eq_true]
        rw [ih]
        cases l.findIdx? fun b => key b = key a with
        | none => rfl
        | some i => rfl

/-- The place of a key leads to its entry. -/
theorem getElem?_of_findIdx? {k : κ} {l : List α} {i : Nat}
    (h : (l.findIdx? fun b => key b = k) = some i) : l[i]? = get key k l := by
  rw [get, List.find?_eq_bind_findIdx?_getElem?, h]
  rfl

theorem findIdx?_eq_none {k : κ} {l : List α} :
    (l.findIdx? fun b => key b = k) = none ↔ get key k l = none := by
  rw [get, List.findIdx?_eq_none_iff, List.find?_eq_none]
  simp

/-- The entry of a key keeps its place. -/
theorem findIdx?_put {k : κ} (a : α) {l : List α} {i : Nat}
    (h : (l.findIdx? fun b => key b = k) = some i) :
    ((put key a l).findIdx? fun b => key b = k) = some i := by
  induction l generalizing i with
  | nil => cases h
  | cons b l ih =>
      rw [List.findIdx?_cons] at h
      rw [put]
      split
      · rename_i hb
        rw [List.findIdx?_cons, ← hb]
        exact h
      · rw [List.findIdx?_cons]
        by_cases hk : key b = k
        · simp only [hk, decide_true, if_true] at h ⊢
          exact h
        · simp only [hk, decide_false, Bool.false_eq_true, if_false] at h ⊢
          obtain ⟨j, hj, rfl⟩ := Option.map_eq_some_iff.mp h
          rw [ih hj]
          rfl

theorem replay_of_nodup {l log : List α} (h : ((l ++ log).map key).Nodup) :
    replay key l log = l ++ log := by
  induction log generalizing l with
  | nil => exact (List.append_nil l).symm
  | cons a log ih =>
      rw [← List.singleton_append, ← List.append_assoc] at h
      have hnot : key a ∉ l.map key := by
        rw [List.map_append, List.map_append] at h
        intro hin
        exact (List.nodup_append'.mp (List.nodup_append'.mp h).1).2.2 hin (by simp)
      rw [replay_cons, put_of_not_mem hnot, ih h, List.append_assoc, List.singleton_append]

/-- An index written again is the same index. -/
theorem replay_replay (log : List α) : replay key [] (replay key [] log) = replay key [] log :=
  replay_of_nodup (l := []) (nodup_replay (l := []) List.nodup_nil)

section Map

variable {β : Type} {key' : β → κ} {g : α → β}

/-- A map that keeps the keys keeps what is found. -/
theorem get_map (hg : ∀ a, key' (g a) = key a) (k : κ) (l : List α) :
    get key' k (l.map g) = (get key k l).map g := by
  induction l with
  | nil => rfl
  | cons a l ih =>
      rw [List.map_cons, get_cons, get_cons, hg, ih]
      split
      · rfl
      · rfl

theorem put_map (hg : ∀ a, key' (g a) = key a) (a : α) (l : List α) :
    put key' (g a) (l.map g) = (put key a l).map g := by
  induction l with
  | nil => rfl
  | cons b l ih =>
      simp only [List.map_cons, put, hg]
      split
      · rfl
      · rw [ih, List.map_cons]

/-- Writing mapped entries gives the mapped index. -/
theorem replay_map (hg : ∀ a, key' (g a) = key a) (l log : List α) :
    replay key' (l.map g) (log.map g) = (replay key l log).map g := by
  induction log generalizing l with
  | nil => rfl
  | cons a log ih => rw [List.map_cons, replay_cons, replay_cons, put_map hg, ih]

theorem latest_map (hg : ∀ a, key' (g a) = key a) (k : κ) (log : List α) :
    latest key' k (log.map g) = (latest key k log).map g := by
  rw [latest, ← List.map_reverse, get_map hg]
  rfl

end Map

end Ccask.Index
