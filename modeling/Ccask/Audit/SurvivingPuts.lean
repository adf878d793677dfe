import Ccask.Audit.SettledPuts

/-!
# Puts beside a compaction

A put that appends and enters its record before the dump is packed, and one that appends its record after the walk
over the old files may find a file that stays. In between a record goes into a file that is unlinked.
-/

namespace Ccask.Audit

open Ccask.Effect Ccask.Model Ccask.Index

section Order

variable {ι : Type}

/-- The section with which a put takes effect: it enters the record that the dump is to read, or appends a record
that the dump has not read. -/
def takesEffect : CompactCall → PutCall → Bool
  | .dumping, .upsert _ _ _ => true
  | .dumping, _ => false
  | _, .append _ => true
  | _, _ => false

/-- The put that takes effect in this turn. -/
def effectIn (c : CompactingPuts ι) : Option ι → List ι
  | none => []
  | some i => if takesEffect c.compactor (c.put i) then [i] else []

section Turns

variable {c : CompactingPuts ι} {i : ι} {r : DatafileRecord} {id pos : Nat}

theorem effectIn_append_dumping (hd : c.compactor = .dumping) (hi : c.put i = .append r) :
    effectIn c (some i) = [] := by
  rw [effectIn, hd, hi]
  rfl

theorem effectIn_append_dumped (hd : c.compactor ≠ .dumping) (hi : c.put i = .append r) :
    effectIn c (some i) = [i] := by
  rw [effectIn, hi]
  cases hc : c.compactor with
  | dumping => exact absurd hc hd
  | _ => rfl

theorem effectIn_upsert_dumping (hd : c.compactor = .dumping) (hi : c.put i = .upsert r id pos) :
    effectIn c (some i) = [i] := by
  rw [effectIn, hd, hi]
  rfl

theorem effectIn_upsert_dumped (hd : c.compactor ≠ .dumping) (hi : c.put i = .upsert r id pos) :
    effectIn c (some i) = [] := by
  rw [effectIn, hi]
  cases hc : c.compactor with
  | dumping => exact absurd hc hd
  | _ => rfl

end Turns

variable [DecidableEq ι]

/-- A run, and the puts in the order in which they take effect in it. -/
inductive RunInOrder (ok : CompactingPuts ι → Option ι → List Reply → Prop) (c₀ : CompactingPuts ι) :
    List ι → CompactingPuts ι → Prop
  | start : RunInOrder ok c₀ [] c₀
  | next {c c' : CompactingPuts ι} {turn : Option ι} {es : List ι} :
      RunInOrder ok c₀ es c → c.Step ok turn c' → RunInOrder ok c₀ (es ++ effectIn c turn) c'

theorem RunInOrder.trans {ok : CompactingPuts ι → Option ι → List Reply → Prop} {c₀ c c' : CompactingPuts ι}
    {es es' : List ι} (h : RunInOrder ok c₀ es c) (h' : RunInOrder ok c es' c') : RunInOrder ok c₀ (es ++ es') c' := by
  induction h' with
  | start => rwa [List.append_nil]
  | next _ hs ih =>
      rw [← List.append_assoc]
      exact ih.next hs

theorem RunInOrder.head {ok : CompactingPuts ι → Option ι → List Reply → Prop} {c c₁ c' : CompactingPuts ι}
    {turn : Option ι} {es : List ι} (hs : c.Step ok turn c₁) (h : RunInOrder ok c₁ es c') :
    RunInOrder ok c (effectIn c turn ++ es) c' :=
  (RunInOrder.start.next hs).trans h

theorem RunInOrder.mono {ok ok' : CompactingPuts ι → Option ι → List Reply → Prop} {c₀ c : CompactingPuts ι}
    {es : List ι} (hok : ∀ c turn rs, ok c turn rs → ok' c turn rs) (h : RunInOrder ok c₀ es c) :
    RunInOrder ok' c₀ es c := by
  induction h with
  | start => exact .start
  | next _ hs ih =>
      refine ih.next ?_
      cases hs with
      | compact hc hsect hrun => exact .compact (hok _ _ _ hc) hsect hrun
      | put i hc hsect hrun => exact .put i (hok _ _ _ hc) hsect hrun

end Order

variable [Zlib]

section Condition

variable {ι : Type}

/-- When an append does no harm: before the dump as long as there is an id for another file, never while the old
files are unlinked, and after that where its record stays. -/
def Appendable (w : World) (r : DatafileRecord) : CompactCall → Prop
  | .dumping => Room w
  | .deleting none n res => Stays w (.deleting none n res) r
  | .renamingTemps i n => Stays w (.renamingTemps i n) r
  | .done res => Stays w (.done res) r
  | _ => False

omit [Zlib] in
theorem Appendable.stays {w : World} {r : DatafileRecord} {t : CompactCall} (h : Appendable w r t)
    (ht : t ≠ .dumping) : Walked t ∧ Stays w t r := by
  cases t with
  | dumping => exact absurd rfl ht
  | deleting cur n res =>
      cases cur with
      | none => exact ⟨trivial, h⟩
      | some k => exact h.elim
  | renamingTemps i n => exact ⟨trivial, h⟩
  | done res => exact ⟨trivial, h⟩
  | cancelling n => exact h.elim
  | closing n => exact h.elim
  | testing k n res => exact h.elim
  | deletingHint k n res => exact h.elim
  | advancing k n res => exact h.elim

/-- Every temporary file gets its new name, appends do no harm, and the calls of a put meet no error. -/
def AppendsStay (c : CompactingPuts ι) : Option ι → List Reply → Prop
  | none, rs => ∀ i n, c.compactor = .renamingTemps i n → i ≤ n →
      ∃ rest, Telling.tries 5 rs = some (true, rest)
  | some i, rs => AllClean rs ∧ ∀ r, c.put i = .append r → Appendable c.shared r c.compactor

/-- The steps that lose no put: besides, no record is on its way to the key directory when that is dumped. -/
def KeepsPuts (c : CompactingPuts ι) (turn : Option ι) (rs : List Reply) : Prop :=
  AppendsStay c turn rs ∧
    (turn = none → c.compactor = .dumping → ∀ i r id pos, c.put i ≠ .upsert r id pos)

end Condition

section Invariant

variable {ι : Type} {w₀ : World} {puts : ι → Put} {c : CompactingPuts ι} {es : List ι} {all : List Put}

/-- Before the dump: the datafiles hold the records that were appended, and the key directory leads to those that
were entered, in the order in which that was done. -/
structure Gathered (puts : ι → Put) (c : CompactingPuts ι) (all : List Put) : Prop where
  noTemps : NoTemps c.shared.fs
  entered : ∃ seg xs, Filed c.shared seg ∧
    c.shared.hashTable = (replay (fun x : Nat × Put × Nat => putKey x.2.1) [] xs).map logEntry ∧
    (∀ x ∈ xs, x ∈ log (ids c.shared) seg) ∧ xs.map (fun x => x.2.1) = all ∧
    ∀ i r id pos, c.put i = .upsert r id pos → (id, puts i, pos) ∈ log (ids c.shared) seg

/-- The puts that have taken effect are in the key directory before the dump and in the directory that the
compaction leads to after it. -/
structure Keeping (w₀ : World) (puts : ι → Put) (c : CompactingPuts ι) (all : List Put) : Prop where
  records : ∀ i r, (c.put i = .append r ∨ ∃ id pos, c.put i = .upsert r id pos) → r = (puts i).record
  threshold : c.shared.maxActiveFileSize = w₀.maxActiveFileSize
  before : c.compactor = .dumping → Gathered puts c all
  after : c.compactor ≠ .dumping → ∃ l seg, Settled c.shared c.compactor l seg ∧
    ∀ k, latest putKey k (history l seg) = latest putKey k all

/-- How far the puts have come. -/
structure Counted (c : CompactingPuts ι) (es : List ι) : Prop where
  nodup : es.Nodup
  waiting : ∀ i r, c.put i = .append r → i ∉ es
  entering : ∀ i r id pos, c.put i = .upsert r id pos → (i ∈ es ↔ c.compactor ≠ .dumping)
  returned : ∀ i res, c.put i = .done res → res = .ok () ∧ i ∈ es

end Invariant

section Start

variable {ι : Type} {w : World} {puts : ι → Put} {seg : Nat → List Put}

theorem Keeping.start (h : Reached w seg) :
    Keeping w puts (.start w fun i => (puts i).record) (history (ids w) seg) := by
  refine ⟨fun i r hi => ?_, rfl, fun _ => ⟨h.noTemps, seg, log (ids w) seg, ⟨w.hashTable, h.toAppends⟩,
    h.serves.table_live, fun _ hx => hx, map_log_put _ _, by simp [CompactingPuts.start]⟩,
    fun hd => absurd rfl hd⟩
  obtain hi | ⟨id, pos, hi⟩ := hi
  · cases hi
    rfl
  · cases hi

omit [Zlib] in
theorem Counted.start (record : ι → DatafileRecord) : Counted (.start w record) [] :=
  ⟨List.nodup_nil, fun _ _ _ => List.not_mem_nil, by simp [CompactingPuts.start], by simp [CompactingPuts.start]⟩

end Start

section Step

variable {ι : Type} [DecidableEq ι] {w₀ v : World} {puts : ι → Put} {c c' : CompactingPuts ι} {es : List ι}
  {all : List Put} {i : ι} {t : PutCall} {rs rest : List Reply}

omit [Zlib] in
theorem put_turn_self : (({ c with shared := v, put := Function.update c.put i t } : CompactingPuts ι).put i) = t :=
  Function.update_self i t c.put

omit [Zlib] in
theorem put_turn_of_ne {j : ι} (h : j ≠ i) :
    ({ c with shared := v, put := Function.update c.put i t } : CompactingPuts ι).put j = c.put j :=
  Function.update_of_ne h t c.put

omit [Zlib] in
theorem writeAppend_extends (r : DatafileRecord) : Moves Extends (writeAppend r) := by
  refine Moves.loop (fun _ => ?_) ()
  refine Moves.state fun w => ?_
  cases ccaskFilesGetActiveFile w with
  | none => exact Moves.block w
  | some file =>
      refine (lseekEnd_moves file.fd).bind (fun pos => ?_) w
      cases pos with
      | none => exact Moves.pure _
      | some pos =>
          simp only []
          split
          · exact ccaskFilesRotate_extends.bind fun _ => Moves.pure _
          · refine (safeWritev_extends file.fd (iov_fits r)).bind fun res => ?_
            cases res with
            | fail e => exact Moves.pure _
            | retry e => exact Moves.pure _
            | ok u => exact Moves.pure _

/-- A call keeps its record. -/
theorem Keeping.records_put (h : Keeping w₀ puts c all)
    (ht : ∀ r, (t = .append r ∨ ∃ id pos, t = .upsert r id pos) → r = (puts i).record) (j : ι) (r : DatafileRecord)
    (hj : Function.update c.put i t j = .append r ∨ ∃ id pos, Function.update c.put i t j = .upsert r id pos) :
    r = (puts j).record := by
  by_cases hji : j = i
  · subst hji
    rw [Function.update_self] at hj
    exact ht r hj
  · rw [Function.update_of_ne hji] at hj
    exact h.records j r hj

/-- The append of a put. -/
theorem Keeping.append (h : Keeping w₀ puts c all) (hp : Good (puts i))
    (hsize : (puts i).record.bytes.length ≤ w₀.maxActiveFileSize.toNat)
    (hi : c.put i = .append (puts i).record) (hok : Appendable c.shared (puts i).record c.compactor) :
    ∃ id pos v, Computes (writeAppend (puts i).record) c.shared (.ok (id, pos)) v ∧ Keeping w₀ puts
      { c with shared := v, put := Function.update c.put i (.upsert (puts i).record id pos) }
      (all ++ (effectIn c (some i)).map puts) := by
  rw [← h.threshold] at hsize
  have hrecords : ∀ id pos r, ((.upsert (puts i).record id pos : PutCall) = .append r ∨
      ∃ id' pos', (.upsert (puts i).record id pos : PutCall) = .upsert r id' pos') → r = (puts i).record := by
    rintro id pos r (hr | ⟨id', pos', hr⟩)
    · cases hr
    · cases hr
      rfl
  by_cases hd : c.compactor = .dumping
  · have heffect := effectIn_append_dumping hd hi
    rw [hd] at hok
    obtain ⟨hnone, seg, xs, hfiled, htable, hxs, hall, hpending⟩ := h.before hd
    obtain ⟨id, pos, v, seg', hrun, hfiled', hlog, htable', hmax', -⟩ := hfiled.append hp hsize hok
    have hextends := (writeAppend_extends (puts i).record c.shared).returned (fun _ _ => trivial)
      hrun.exists_run.choose_spec.choose_spec.2
    refine ⟨id, pos, v, hrun, h.records_put (hrecords id pos), hmax'.trans h.threshold, fun _ => ?_,
      fun hnot => absurd hd hnot⟩
    rw [heffect, List.map_nil, List.append_nil]
    refine ⟨hnone.extends hextends, seg', xs, hfiled', htable'.trans htable,
      fun x hx => ?_, hall, fun j r id' pos' hj => ?_⟩
    · show x ∈ log (ids v) seg'
      rw [hlog]
      exact List.mem_append_left _ (hxs x hx)
    · show _ ∈ log (ids v) seg'
      rw [hlog]
      by_cases hji : j = i
      · subst hji
        rw [put_turn_self] at hj
        cases hj
        exact List.mem_append_right _ (List.mem_singleton_self _)
      · rw [put_turn_of_ne hji] at hj
        exact List.mem_append_left _ (hpending j r id' pos' hj)
  · have heffect := effectIn_append_dumped hd hi
    obtain ⟨l, seg, hsettled, hlatest⟩ := h.after hd
    obtain ⟨hwalked, hstays⟩ := hok.stays hd
    obtain ⟨id, pos, v, l', seg', hrun, hsettled', hmax, hinsert⟩ := hsettled.wrote hwalked hp hsize hstays
    refine ⟨id, pos, v, hrun, h.records_put (hrecords id pos), hmax.trans h.threshold,
      fun hnot => absurd hnot hd, fun _ => ⟨l', seg', hsettled', fun k => ?_⟩⟩
    have hconcat : latest putKey k (all ++ [puts i]) =
        if putKey (puts i) = k then some (puts i) else latest putKey k all := latest_concat k all (puts i)
    rw [heffect, hinsert, hlatest]
    exact hconcat.symm

/-- The update of a put. -/
theorem Keeping.upsert {id pos : Nat} (h : Keeping w₀ puts c all)
    (hi : c.put i = .upsert (puts i).record id pos) : Keeping w₀ puts
      { c with shared := upserted c.shared (datafileEntry id (puts i).record pos),
               put := Function.update c.put i (.done (.ok ())) } (all ++ (effectIn c (some i)).map puts) := by
  have hrecords : ∀ r, ((.done (.ok ()) : PutCall) = .append r ∨
      ∃ id' pos', (.done (.ok ()) : PutCall) = .upsert r id' pos') → r = (puts i).record := by
    rintro r (hr | ⟨id', pos', hr⟩) <;> cases hr
  by_cases hd : c.compactor = .dumping
  · have heffect := effectIn_upsert_dumping hd hi
    obtain ⟨hnone, seg, xs, hfiled, htable, hxs, hall, hpending⟩ := h.before hd
    have hx := hpending i _ id pos hi
    refine ⟨h.records_put hrecords, h.threshold, fun _ => ?_, fun hnot => absurd hd hnot⟩
    refine ⟨hnone, seg, xs ++ [(id, puts i, pos)], hfiled.entered _, ?_, fun x hx' => ?_, ?_,
      fun j r id' pos' hj => ?_⟩
    · show Index.put KeydirRecord.key _ c.shared.hashTable = _
      rw [replay_concat, htable, datafileEntry_record]
      exact put_map (g := logEntry) (fun _ => rfl) (id, puts i, pos) _
    · obtain hx' | hx' := List.mem_append.mp hx'
      · exact hxs x hx'
      · rw [List.mem_singleton.mp hx']
        exact hx
    · rw [heffect, List.map_append, hall]
      rfl
    · by_cases hji : j = i
      · subst hji
        rw [put_turn_self] at hj
        cases hj
      · rw [put_turn_of_ne hji] at hj
        exact hpending j r id' pos' hj
  · have heffect := effectIn_upsert_dumped hd hi
    obtain ⟨l, seg, hsettled, hlatest⟩ := h.after hd
    rw [heffect, List.map_nil, List.append_nil]
    exact ⟨h.records_put hrecords, h.threshold, fun hnot => absurd hnot hd,
      fun _ => ⟨l, seg, hsettled.upserted _, hlatest⟩⟩

/-- A turn of a put is its append or its update, and comes through. -/
theorem Keeping.put_cases {m : Sys PutCall} (h : Keeping w₀ puts c all) (hok : AppendsStay c (some i) rs)
    (hp : Good (puts i)) (hsize : (puts i).record.bytes.length ≤ w₀.maxActiveFileSize.toNat)
    (hsect : (c.put i).sect = some m) (hrun : m.run rs c.shared = .returned t rest v) :
    ((∃ r id pos, c.put i = .append r ∧ t = .upsert r id pos) ∨
      ∃ r id pos, c.put i = .upsert r id pos ∧ t = .done (.ok ())) ∧
    Keeping w₀ puts { c with shared := v, put := Function.update c.put i t }
      (all ++ (effectIn c (some i)).map puts) := by
  obtain ⟨hclean, happend⟩ := hok
  cases hi : c.put i with
  | append r =>
      obtain rfl := h.records i r (.inl hi)
      obtain ⟨id, pos, v, happends, hkeeping⟩ := h.append hp hsize hi (happend _ hi)
      rw [hi] at hsect
      cases hsect
      obtain ⟨r, mid, u, hcall, hrest⟩ := Prog.run_bind_eq_returned hrun
      obtain ⟨rfl, rfl⟩ := happends.eq_of_returned hclean hcall
      cases hrest
      exact ⟨.inl ⟨_, id, pos, rfl, rfl⟩, hkeeping⟩
  | upsert r id pos =>
      obtain rfl := h.records i r (.inr ⟨id, pos, hi⟩)
      rw [hi] at hsect
      cases hsect
      obtain ⟨r, mid, u, hcall, hrest⟩ := Prog.run_bind_eq_returned hrun
      cases hrest
      by_cases hl : c.shared.readLocks = 0
      · obtain ⟨rfl, rfl⟩ := (writeUpsert_computes hl id pos).eq_of_returned hclean hcall
        exact ⟨.inr ⟨_, id, pos, rfl, rfl⟩, h.upsert hi⟩
      · exact ((writeUpsert_waits hl id pos).returned hclean hcall).elim
  | done res =>
      rw [hi] at hsect
      cases hsect

end Step

section Count

variable {ι : Type} [DecidableEq ι] {v : World} {c : CompactingPuts ι} {es : List ι} {i : ι} {t : PutCall}

omit [Zlib] [DecidableEq ι] in
theorem mem_effect {j : ι} (h : j ∈ effectIn c (some i)) : j = i := by
  rw [effectIn] at h
  split at h
  · exact List.mem_singleton.mp h
  · cases h

omit [Zlib] in
/-- A turn of a put, that takes effect or does not. -/
theorem Counted.put (h : Counted c es) (hnew : i ∈ effectIn c (some i) → i ∉ es)
    (hwaiting : ∀ r, t ≠ .append r)
    (hentering : ∀ r id pos, t = .upsert r id pos → (i ∈ es ++ effectIn c (some i) ↔ c.compactor ≠ .dumping))
    (hreturned : ∀ res, t = .done res → res = .ok () ∧ i ∈ es ++ effectIn c (some i)) :
    Counted { c with shared := v, put := Function.update c.put i t } (es ++ effectIn c (some i)) := by
  have hother : ∀ {j}, j ≠ i → (j ∈ es ++ effectIn c (some i) ↔ j ∈ es) := fun hne =>
    ⟨fun hin => (List.mem_append.mp hin).resolve_right fun he => hne (mem_effect he),
      List.mem_append_left _⟩
  refine ⟨?_, fun j r hj => ?_, fun j r id pos hj => ?_, fun j res hj => ?_⟩
  · refine List.Nodup.append h.nodup ?_ fun j hj he => ?_
    · rw [effectIn]
      split
      · exact List.nodup_singleton i
      · exact List.nodup_nil
    · obtain rfl := mem_effect he
      exact hnew he hj
  · by_cases hji : j = i
    · subst hji
      rw [put_turn_self] at hj
      exact absurd hj (hwaiting r)
    · rw [put_turn_of_ne hji] at hj
      rw [hother hji]
      exact h.waiting j r hj
  · by_cases hji : j = i
    · subst hji
      rw [put_turn_self] at hj
      exact hentering r id pos hj
    · rw [put_turn_of_ne hji] at hj
      rw [hother hji]
      exact h.entering j r id pos hj
  · by_cases hji : j = i
    · subst hji
      rw [put_turn_self] at hj
      exact hreturned res hj
    · rw [put_turn_of_ne hji] at hj
      rw [hother hji]
      exact h.returned j res hj

omit [Zlib] in
theorem Counted.append (h : Counted c es) {r : DatafileRecord} (hi : c.put i = .append r) (id pos : Nat) :
    Counted { c with shared := v, put := Function.update c.put i (.upsert r id pos) }
      (es ++ effectIn c (some i)) := by
  have hfresh := h.waiting i r hi
  refine h.put (fun _ => hfresh) (by simp) (fun _ _ _ _ => ?_) (by simp)
  by_cases hd : c.compactor = .dumping
  · rw [effectIn_append_dumping hd hi, List.append_nil]
    exact ⟨fun hin => absurd hin hfresh, fun hnot => absurd hd hnot⟩
  · rw [effectIn_append_dumped hd hi]
    exact ⟨fun _ => hd, fun _ => List.mem_append_right _ (List.mem_singleton_self i)⟩

omit [Zlib] in
theorem Counted.upsert (h : Counted c es) {r : DatafileRecord} {id pos : Nat} (hi : c.put i = .upsert r id pos) :
    Counted { c with shared := v, put := Function.update c.put i (.done (.ok ())) }
      (es ++ effectIn c (some i)) := by
  have hmem := h.entering i r id pos hi
  by_cases hd : c.compactor = .dumping
  · refine h.put (fun _ hin => hmem.mp hin hd) (by simp) (by simp) fun res hres => ?_
    cases hres
    rw [effectIn_upsert_dumping hd hi]
    exact ⟨rfl, List.mem_append_right _ (List.mem_singleton_self i)⟩
  · refine h.put (fun he => ?_) (by simp) (by simp) fun res hres => ?_
    · rw [effectIn_upsert_dumped hd hi] at he
      cases he
    · cases hres
      exact ⟨rfl, List.mem_append_left _ (hmem.mpr hd)⟩

omit [Zlib] [DecidableEq ι] in
/-- A turn of the compaction, that finds no record on its way when it is the dump. -/
theorem Counted.compact {t' : CompactCall} (h : Counted c es) (hs : CompactStep c.shared c.compactor v t')
    (hidle : c.compactor = .dumping → ∀ i r id pos, c.put i ≠ .upsert r id pos) :
    Counted { c with shared := v, compactor := t' } es := by
  refine ⟨h.nodup, h.waiting, fun i r id pos hi => ?_, h.returned⟩
  have hd : c.compactor ≠ .dumping := fun hd => hidle hd i r id pos hi
  exact ⟨fun _ => hs.ne_dumping, fun _ => (h.entering i r id pos hi).mpr hd⟩

end Count

section Compact

variable {ι : Type} {w₀ v : World} {puts : ι → Put} {all : List Put} {c : CompactingPuts ι}
  {t : CompactCall} {rs rest : List Reply} {n : Nat}

/-- The dump packs the last record of every key. -/
theorem Gathered.dumped (h : Gathered puts c all)
    (hfill : fillTemps.run rs c.shared = .returned (.ok (.finished n)) rest v) :
    v.maxActiveFileSize = c.shared.maxActiveFileSize ∧ ∃ l seg, Settled v (.closing n) l seg ∧
      ∀ k, latest putKey k (history l seg) = latest putKey k all := by
  obtain ⟨seg, xs, hfiled, htable, hxs, hall, -⟩ := h.entered
  let live := replay (fun x : Nat × Put × Nat => putKey x.2.1) [] xs
  have hstored := hfiled.stored
  have hfound : ∀ x ∈ live, Found c.shared x := by
    intro x hx
    obtain ⟨hid, hput, pre, post, hwritten, hpos⟩ := mem_log (hxs x (mem_of_mem_replay hx))
    obtain ⟨tail, htail⟩ := hstored.contents x.1 hid
    refine ⟨hid, ⟨pre, post ++ tail, ?_, hpos⟩, (hstored.good x.1 hid x.2.1 hput).value_ne⟩
    rw [htail, hwritten, List.append_assoc]
  have hlive : live.map (fun x => x.2.1) = replay putKey [] all := by
    rw [← hall]
    exact (replay_map (g := fun x : Nat × Put × Nat => x.2.1) (fun _ => rfl) [] xs).symm
  have hgood : ∀ q ∈ all, Good q := by
    intro q hq
    rw [← hall] at hq
    obtain ⟨x, hx, rfl⟩ := List.mem_map.mp hq
    obtain ⟨hid, hput, -⟩ := mem_log (hxs x hx)
    exact hstored.good x.1 hid x.2.1 hput
  have hfresh : ∀ i, c.shared.fs.read (fileName i .tempData) = none :=
    fun i => (Fs.read_eq_none _ _).mpr (h.noTemps i)
  have hb : packed all c.shared.maxActiveFileSize.toNat =
      Bins.init.addAll recordBytes c.shared.maxActiveFileSize.toNat (live.map fun x => x.2.1) := by
    rw [packed, hlive]
  obtain ⟨rfl, hd⟩ := (fillTemps_dumps_of_table hfiled.store.mounted htable hfound hb hfresh).returned
    (fun _ _ => trivial) hfill n rfl
  refine ⟨by rw [hd.keeps.same]; rfl, _, _, Settled.dumped hfiled.store h.noTemps hd rfl
    c.shared.maxActiveFileSize.toNat_lt hgood, fun k => ?_⟩
  have hnodup : ((replay putKey [] all).map putKey).Nodup := nodup_replay (l := []) List.nodup_nil
  rw [history_packed, latest_of_nodup hnodup, get_replay_nil]

/-- A turn of the compaction. -/
theorem Keeping.compact (h : Keeping w₀ puts c all) (hs : CompactStep c.shared c.compactor v t)
    (hrename : ∀ i n, c.compactor = .renamingTemps i n → i ≤ n →
      v.fs = c.shared.fs.rename (fileName i .tempData) (fileName i .data)) :
    Keeping w₀ puts { c with shared := v, compactor := t } all := by
  by_cases hd : c.compactor = .dumping
  · have hgathered := h.before hd
    rw [hd] at hs
    cases hs with
    | dumped hfill =>
        obtain ⟨hmax, hsettled⟩ := hgathered.dumped hfill
        exact ⟨h.records, hmax.trans h.threshold, fun hnot => absurd hnot (by simp), fun _ => hsettled⟩
  · obtain ⟨l, seg, hsettled, hlatest⟩ := h.after hd
    have hmax : v.maxActiveFileSize = c.shared.maxActiveFileSize := by
      generalize c.compactor = t₀ at hs hd
      cases hs with
      | dumped hfill => exact absurd rfl hd
      | _ => rfl
    exact ⟨h.records, hmax.trans h.threshold, fun hnot => absurd hnot hs.ne_dumping,
      fun _ => ⟨l, seg, hsettled.compact hs hd hrename, hlatest⟩⟩

end Compact

section Run

variable {ι : Type} [DecidableEq ι] {w₀ : World} {puts : ι → Put} {all : List Put}
  {c c' : CompactingPuts ι} {es : List ι} {turn : Option ι}

omit [Zlib] in
/-- A turn of a compaction that is to return CCASK_OK. -/
theorem onCourse_of_step {ok : CompactingPuts ι → Option ι → List Reply → Prop} (hs : c.Step ok turn c')
    (hon : OnCourse c'.compactor) : OnCourse c.compactor := by
  cases hs with
  | compact hok hsect hrun => exact (compact_step hsect hrun hon).onCourse
  | put i hok hsect hrun => exact hon

omit [Zlib] in
theorem onCourse_of_run {ok : CompactingPuts ι → Option ι → List Reply → Prop} (h : RunInOrder ok c es c')
    (hon : OnCourse c'.compactor) : OnCourse c.compactor := by
  induction h with
  | start => exact hon
  | next _ hs ih => exact ih (onCourse_of_step hs hon)

theorem Keeping.step (h : Keeping w₀ puts c all) (hs : c.Step AppendsStay turn c') (hon : OnCourse c'.compactor)
    (hputs : ∀ i, Good (puts i) ∧ (puts i).record.bytes.length ≤ w₀.maxActiveFileSize.toNat) :
    Keeping w₀ puts c' (all ++ (effectIn c turn).map puts) := by
  cases hs with
  | compact htold hsect hrun =>
      show Keeping w₀ puts _ (all ++ [])
      rw [List.append_nil]
      refine h.compact (compact_step hsect hrun hon) fun i n ht hi => ?_
      obtain ⟨left, htold⟩ := htold i n ht hi
      rw [ht, CompactCall.sect, if_pos hi] at hsect
      cases hsect
      obtain ⟨r, mid, u, hcall, hrest⟩ := Prog.run_bind_eq_returned hrun
      cases hrest
      -- the temporary file is there, since it becomes a datafile
      obtain ⟨l, seg, hsettled, -⟩ := h.after (by rw [ht]; simp)
      have hmem := hsettled.temps i n (by rw [ht]; rfl) i hi
      have hawaited := settled_awaited (t := .renamingTemps i n) trivial ⟨i, n, rfl, Nat.le_refl i, hi⟩ c.shared
      rw [hsettled.plain.known, ht, hawaited, Fs.isSome_read] at hmem
      exact changeExt_of_told hmem htold hcall
  | put i hok hsect hrun =>
      obtain ⟨hgood, hsize⟩ := hputs i
      exact (h.put_cases hok hgood hsize hsect hrun).2

theorem Keeping.run (h : Keeping w₀ puts c all)
    (hputs : ∀ i, Good (puts i) ∧ (puts i).record.bytes.length ≤ w₀.maxActiveFileSize.toNat)
    (hrun : RunInOrder AppendsStay c es c') (hon : OnCourse c'.compactor) :
    Keeping w₀ puts c' (all ++ es.map puts) := by
  induction hrun with
  | start => rwa [List.map_nil, List.append_nil]
  | next _ hs ih =>
      rw [List.map_append, ← List.append_assoc]
      exact (ih (onCourse_of_step hs hon)).step hs hon hputs

theorem Counted.step (h : Counted c es) (hkeeping : Keeping w₀ puts c all) (hs : c.Step KeepsPuts turn c')
    (hon : OnCourse c'.compactor)
    (hputs : ∀ i, Good (puts i) ∧ (puts i).record.bytes.length ≤ w₀.maxActiveFileSize.toNat) :
    Counted c' (es ++ effectIn c turn) := by
  cases hs with
  | compact hok hsect hrun =>
      show Counted _ (es ++ [])
      rw [List.append_nil]
      exact h.compact (compact_step hsect hrun hon) (hok.2 rfl)
  | put i hok hsect hrun =>
      obtain ⟨hgood, hsize⟩ := hputs i
      obtain ⟨r, id, pos, hi, rfl⟩ | ⟨r, id, pos, hi, rfl⟩ := (hkeeping.put_cases hok.1 hgood hsize hsect hrun).1
      · exact h.append hi id pos
      · exact h.upsert hi

theorem Counted.run (h : Counted c []) (hkeeping : Keeping w₀ puts c all)
    (hputs : ∀ i, Good (puts i) ∧ (puts i).record.bytes.length ≤ w₀.maxActiveFileSize.toNat)
    (hrun : RunInOrder KeepsPuts c es c') (hon : OnCourse c'.compactor) : Counted c' es := by
  induction hrun with
  | start => exact h
  | next hrun hs ih =>
      have hon' := onCourse_of_step hs hon
      have hstays := hkeeping.run hputs (hrun.mono fun _ _ _ hok => hok.1) hon'
      exact (ih hon').step hstays hs hon hputs

end Run

section Result

variable {ι : Type} [DecidableEq ι] {w : World} {puts : ι → Put} {hist hist' : List Put}
  {c c₁ : CompactingPuts ι} {es es' : List ι}

omit [Zlib] in
theorem latest_congr (h : replay putKey [] hist' = replay putKey [] hist) (k : Bytes) :
    latest putKey k hist' = latest putKey k hist := by
  rw [← get_replay_nil, h, get_replay_nil]

/-- Every start after the compaction answers with the puts that took effect. -/
theorem effects_outlive (h : Life w hist)
    (hputs : ∀ i, Good (puts i) ∧ (puts i).record.bytes.length ≤ w.maxActiveFileSize.toNat)
    (hrun : RunInOrder AppendsStay (CompactingPuts.start w fun i => (puts i).record) es c)
    (hdone : c.compactor = .done (.ok ()))
    (hids : ∀ id, (c.shared.fs.read (fileName id .data)).isSome → id < 2 ^ 31) :
    Outlives c.shared (hist ++ es.map puts) := by
  obtain ⟨seg, hreached, hhist⟩ := h.reached
  have hkeeping := (Keeping.start hreached).run hputs hrun (by rw [hdone]; rfl)
  obtain ⟨l, seg', hsettled, hlatest⟩ := hkeeping.after (by rw [hdone]; simp)
  rw [hdone] at hsettled
  refine (hsettled.outlives hids).congr fun key => lookup_of_latest (fun k => ?_) key.val
  rw [hlatest, latest_append, latest_append, latest_congr hhist]

/-- In every run of a compaction beside puts whose steps all keep the puts, once the compaction has returned
CCASK_OK every start answers with the puts from before its call and then those of the run, in the order in which
they take effect. A put that has returned has taken effect by then, and one that has not begun has not. -/
theorem puts_survive (h : Life w hist)
    (hputs : ∀ i, Good (puts i) ∧ (puts i).record.bytes.length ≤ w.maxActiveFileSize.toNat)
    (hfirst : RunInOrder KeepsPuts (CompactingPuts.start w fun i => (puts i).record) es c₁)
    (hrest : RunInOrder KeepsPuts c₁ es' c) (hdone : c.compactor = .done (.ok ()))
    (hids : ∀ id, (c.shared.fs.read (fileName id .data)).isSome → id < 2 ^ 31) :
    (es ++ es').Nodup ∧ (∀ i res, c₁.put i = .done res → i ∈ es) ∧ (∀ i r, c₁.put i = .append r → i ∉ es) ∧
      (∀ i res, c.put i = .done res → res = .ok () ∧ i ∈ es ++ es') ∧
      Outlives c.shared (hist ++ (es ++ es').map puts) := by
  obtain ⟨seg, hreached, -⟩ := h.reached
  have hkeeping : Keeping w puts _ _ := .start hreached
  have hon : OnCourse c.compactor := by rw [hdone]; rfl
  have hmiddle := (Counted.start fun i => (puts i).record).run hkeeping hputs hfirst (onCourse_of_run hrest hon)
  have hend := (Counted.start fun i => (puts i).record).run hkeeping hputs (hfirst.trans hrest) hon
  exact ⟨hend.nodup, fun i res hi => (hmiddle.returned i res hi).2, hmiddle.waiting, hend.returned,
    effects_outlive h hputs ((hfirst.trans hrest).mono fun _ _ _ hok => hok.1) hdone hids⟩

end Result

section Sample

variable {n : Nat} {allowed : CompactingPuts (Fin n) → Option (Fin n) → Bool}
  {ok : CompactingPuts (Fin n) → Option (Fin n) → List Reply → Prop} {c c' : CompactingPuts (Fin n)}
  {turn : Option (Fin n)} {turns : List (Option (Fin n))} {es : List (Fin n)}

/-- One section of a thread, in which every call comes through. -/
def nextSection (c : CompactingPuts (Fin n)) : Option (Fin n) → Option (CompactingPuts (Fin n))
  | none => do
      let m ← c.compactor.sect
      let t ← (m.run wholeReplies c.shared).value
      pure { c with shared := after m c.shared, compactor := t }
  | some i => do
      let m ← (c.put i).sect
      let t ← (m.run wholeReplies c.shared).value
      pure { c with shared := after m c.shared, put := Function.update c.put i t }

/-- Sections that are allowed, one after another, and the puts that take effect in them. -/
def playSections (allowed : CompactingPuts (Fin n) → Option (Fin n) → Bool) :
    List (Option (Fin n)) → CompactingPuts (Fin n) → Option (List (Fin n) × CompactingPuts (Fin n))
  | [], c => some ([], c)
  | turn :: turns, c =>
      if allowed c turn then do
        let u ← nextSection c turn
        let p ← playSections allowed turns u
        pure (effectIn c turn ++ p.1, p.2)
      else none

omit [Zlib] in
theorem step_of_nextSection (hok : ok c turn wholeReplies) (h : nextSection c turn = some c') :
    c.Step ok turn c' := by
  cases turn with
  | none =>
      simp only [nextSection, Option.bind_eq_bind, Option.bind_eq_some_iff] at h
      obtain ⟨m, hsect, t, hvalue, hc⟩ := h
      cases hc
      obtain ⟨rest, hrun⟩ := Outcome.of_value hvalue
      exact .compact hok hsect hrun
  | some i =>
      simp only [nextSection, Option.bind_eq_bind, Option.bind_eq_some_iff] at h
      obtain ⟨m, hsect, t, hvalue, hc⟩ := h
      cases hc
      obtain ⟨rest, hrun⟩ := Outcome.of_value hvalue
      exact .put i hok hsect hrun

omit [Zlib] in
theorem run_of_playSections (hok : ∀ c turn, allowed c turn = true → ok c turn wholeReplies)
    (h : playSections allowed turns c = some (es, c')) : RunInOrder ok c es c' := by
  induction turns generalizing c es with
  | nil =>
      cases h
      exact .start
  | cons turn turns ih =>
      rw [playSections] at h
      split at h
      · simp only [Option.bind_eq_bind, Option.bind_eq_some_iff] at h
        obtain ⟨u, hu, p, hp, h⟩ := h
        cases h
        exact RunInOrder.head (step_of_nextSection (hok c turn ‹_›) hu) (ih hp)
      · cases h

/-- The section leaves the records where they are, and does not append one after the dump. -/
def leavesRecords (c : CompactingPuts (Fin n)) : Option (Fin n) → Bool
  | none =>
      match c.compactor with
      | .renamingTemps _ _ => (Telling.tries 5 wholeReplies).any Prod.fst
      | _ => true
  | some i =>
      match c.put i, c.compactor with
      | .append _, .dumping => (ccaskFilesGetActiveFile c.shared).all fun f => f.fileId + 1 < 2 ^ 31
      | .append _, _ => false
      | _, _ => true

/-- Besides, it is not a dump that leaves out a record. -/
def leavesOutNone (c : CompactingPuts (Fin n)) (turn : Option (Fin n)) : Bool :=
  leavesRecords c turn && match turn, c.compactor with
    | none, .dumping => (List.finRange n).all fun i =>
        match c.put i with
        | .upsert _ _ _ => false
        | _ => true
    | _, _ => true

omit [Zlib] in
theorem appendsStay_of_leavesRecords (h : leavesRecords c turn = true) : AppendsStay c turn wholeReplies := by
  cases turn with
  | none =>
      intro i m ht _
      simp only [leavesRecords, ht] at h
      exact told_of_any h
  | some i =>
      refine ⟨allClean_wholeReplies, fun r hr => ?_⟩
      simp only [leavesRecords, hr] at h
      cases hc : c.compactor with
      | dumping =>
          rw [hc] at h
          intro f hf
          exact of_decide_eq_true ((Option.all_eq_true _ _).mp h f hf)
      | _ => rw [hc] at h; cases h

omit [Zlib] in
theorem keepsPuts_of_leavesOutNone (h : leavesOutNone c turn = true) : KeepsPuts c turn wholeReplies := by
  obtain ⟨hrecords, hnone⟩ := (Bool.and_eq_true _ _).mp h
  refine ⟨appendsStay_of_leavesRecords hrecords, fun ht hd i r id pos hi => ?_⟩
  subst ht
  simp only [hd] at hnone
  have hput := List.all_eq_true.mp hnone i (List.mem_finRange i)
  rw [hi] at hput
  cases hput

/-- The files of the list and their descriptors. -/
def listed (w : World) : List (Nat × Option Ino) := w.files.map fun f => (f.fileId, f.fd)

omit [Zlib] in
theorem front_of_listed {w : World} {id : Nat} {ino : Ino} {older : List (Nat × Option Ino)}
    (h : listed w = (id, some ino) :: older) (hnewest : ∀ x ∈ older, x.1 < id) :
    ∃ f rest, Front w f rest ino ∧ f.fileId = id := by
  obtain ⟨f, rest, hfiles, hf, hrest⟩ := List.map_eq_cons_iff.mp h
  obtain ⟨rfl, hfd⟩ := Prod.mk.inj hf
  refine ⟨f, rest, ⟨hfiles, hfd, fun g hg => ?_⟩, rfl⟩
  rw [← hrest] at hnewest
  exact hnewest _ (List.mem_map_of_mem hg)

/-- The ids of the datafiles are small when the newest is. -/
theorem Settled.small {w : World} {res : Status} {l : List Nat} {seg : Nat → List Put} {f : CcaskFile}
    {rest : List CcaskFile} {id : Nat} (h : Settled w (.done res) l seg) (hfiles : w.files = f :: rest)
    (hnone : w.fs.read (fileName (f.fileId + 1) .data) = none) (hid : (w.fs.read (fileName id .data)).isSome) :
    id ≤ f.fileId := by
  refine h.le_newest trivial hfiles ?_ hnone ((h.plain.known id).mpr hid)
  rintro ⟨i, m, hm, -⟩
  cases hm

/-- Two puts, of a new key and of one that has a record. -/
def besidePuts : Fin 2 → Put
  | 0 => bytePut 0 102 103
  | 1 => bytePut 0 99 104

omit [Zlib] in
theorem good_besidePuts (i : Fin 2) : Good (besidePuts i) := by
  match i with
  | 0 => exact good_bytePut 0 102 103
  | 1 => exact good_bytePut 0 99 104

def besideStart : CompactingPuts (Fin 2) :=
  letI := zlib
  CompactingPuts.start filledWorld fun i => (besidePuts i).record

/-- The first put is made, the store is dumped into two files, the old files go, and the first of the two gets
its new name. -/
def firstSections : List (Option (Fin 2)) := [some 0, some 0] ++ List.replicate 10 none

/-- After the append of the second put: the other rename, the return, and the update. -/
def lastSections : List (Option (Fin 2)) := [none, none, some 1]

/-- The second put is to append its record, and the active file is full. -/
def midway (c : CompactingPuts (Fin 2)) : Bool :=
  (match c.compactor, c.put 1 with
    | .renamingTemps 1 1, .append _ => true
    | _, _ => false) &&
  decide (listed c.shared = [(1, some 1), (0, some 0)] ∧ (c.shared.fs.data 1).length = 36 ∧
    c.shared.maxActiveFileSize = 40 ∧ c.shared.fs.read (fileName 2 .data) = none)

/-- The compaction has returned CCASK_OK, and so have the puts. -/
def allReturned (c : CompactingPuts (Fin n)) : Bool :=
  (match c.compactor with
    | .done res => res.isOk
    | _ => false) &&
  (List.finRange n).all fun i =>
    match c.put i with
    | .done res => res.isOk
    | _ => false

/-- The run ends so, in these files. -/
def endsWith (files : List (Nat × Option Ino)) (free : Nat) (c : CompactingPuts (Fin n)) : Bool :=
  allReturned c && decide (listed c.shared = files ∧ c.shared.fs.read (fileName free .data) = none)

omit [Zlib] in
theorem eq_ok_of_isOk {res : Status} (h : res.isOk = true) : res = .ok () := by
  cases res with
  | ok a => rfl
  | fail e => cases h
  | retry e => cases h

omit [Zlib] in
theorem allReturned_spec (h : allReturned c = true) :
    c.compactor = .done (.ok ()) ∧ ∀ i, c.put i = .done (.ok ()) := by
  obtain ⟨hcompactor, hputs⟩ := (Bool.and_eq_true _ _).mp h
  refine ⟨?_, fun i => ?_⟩
  · split at hcompactor
    · rename_i res hdone
      rw [hdone, eq_ok_of_isOk hcompactor]
    · cases hcompactor
  · have hput := List.all_eq_true.mp hputs i (List.mem_finRange i)
    split at hput
    · rename_i res hdone
      rw [hdone, eq_ok_of_isOk hput]
    · cases hput

omit [Zlib] in
theorem endsWith_spec {files : List (Nat × Option Ino)} {free : Nat} (h : endsWith files free c = true) :
    c.compactor = .done (.ok ()) ∧ (∀ i, c.put i = .done (.ok ())) ∧ listed c.shared = files ∧
      c.shared.fs.read (fileName free .data) = none := by
  obtain ⟨hall, hfiles⟩ := (Bool.and_eq_true _ _).mp h
  obtain ⟨hdone, hputs⟩ := allReturned_spec hall
  exact ⟨hdone, hputs, of_decide_eq_true hfiles⟩

/-- The ids of the datafiles at the end of a run are small. -/
theorem small_of_endsWith {w₀ : World} {puts : Fin n → Put} {all : List Put} {id : Nat} {ino : Ino}
    {older : List (Nat × Option Ino)} (h : Keeping w₀ puts c all)
    (hends : endsWith ((id, some ino) :: older) (id + 1) c = true) (hnewest : ∀ x ∈ older, x.1 < id) {i : Nat}
    (hi : (c.shared.fs.read (fileName i .data)).isSome) : i ≤ id := by
  obtain ⟨hdone, -, hlisted, hnone⟩ := endsWith_spec hends
  obtain ⟨l, seg, hsettled, -⟩ := h.after (by rw [hdone]; simp)
  rw [hdone] at hsettled
  obtain ⟨f, rest, hfront, rfl⟩ := front_of_listed hlisted hnewest
  exact hsettled.small hfront.files hnone hi

omit [Zlib] in
theorem midway_spec {c : CompactingPuts (Fin 2)} (h : midway c = true) :
    c.compactor = .renamingTemps 1 1 ∧ ∃ r, c.put 1 = .append r := by
  obtain ⟨hturn, -⟩ := (Bool.and_eq_true _ _).mp h
  split at hturn
  · exact ⟨by assumption, _, by assumption⟩
  · cases hturn

/-- The second put rotates into a new file. -/
theorem stays_of_midway {c : CompactingPuts (Fin 2)} {all : List Put} (h : Keeping filledWorld besidePuts c all)
    (hmid : midway c = true) : Stays c.shared (.renamingTemps 1 1) (besidePuts 1).record := by
  obtain ⟨hcompactor, -⟩ := midway_spec hmid
  obtain ⟨hlisted, hlen, hmax, hnone⟩ := of_decide_eq_true ((Bool.and_eq_true _ _).mp hmid).2
  obtain ⟨l, seg, hsettled, -⟩ := h.after (by rw [hcompactor]; simp)
  rw [hcompactor] at hsettled
  obtain ⟨f, rest, hfront, hid⟩ := front_of_listed hlisted (by simp)
  refine hsettled.stays trivial hfront ?_ ?_ (by rw [hid]; decide) ?_ (by rw [hid]; exact hnone)
  · rw [hmax, hlen, Put.length_record]
    decide
  · rw [hmax, Put.length_record]
    decide
  · rw [hid]
    rintro ⟨i, m, hm, -, hle⟩
    cases hm
    omega

omit [Zlib] in
theorem evaluated_besideRun : letI := zlib
    (∀ i, (besidePuts i).record.bytes.length ≤ filledWorld.maxActiveFileSize.toNat) ∧
    (playSections leavesOutNone firstSections besideStart).any (fun p => decide (p.1 = [0]) && midway p.2 &&
      (nextSection p.2 (some 1)).any fun u => (playSections leavesOutNone lastSections u).any fun q =>
        decide (q.1 = []) && endsWith [(2, some 4), (1, none), (0, some 0)] 3 q.2) = true := by
  decide +kernel

omit [Zlib] in
/-- A put before the dump, and one between two renames. -/
theorem puts_survive_one : letI := zlib
    ∃ c, Life filledWorld filledPuts ∧ RunInOrder KeepsPuts besideStart [0, 1] c ∧
      c.compactor = .done (.ok ()) ∧ (∀ i, c.put i = .done (.ok ())) ∧
      Outlives c.shared (filledPuts ++ [bytePut 0 102 103, bytePut 0 99 104]) := by
  let _ := zlib
  obtain ⟨hsizes, hplay⟩ := evaluated_besideRun
  obtain ⟨⟨es, c₁⟩, hfirst, hplay⟩ := (Option.any_eq_true _ _).mp hplay
  obtain ⟨hmid, hplay⟩ := (Bool.and_eq_true _ _).mp hplay
  obtain ⟨hes, hmid⟩ := (Bool.and_eq_true _ _).mp hmid
  obtain ⟨u, hnext, hplay⟩ := (Option.any_eq_true _ _).mp hplay
  obtain ⟨⟨es', c⟩, hlast, hends⟩ := (Option.any_eq_true _ _).mp hplay
  obtain ⟨hes', hends⟩ := (Bool.and_eq_true _ _).mp hends
  obtain rfl := of_decide_eq_true hes
  obtain rfl := of_decide_eq_true hes'
  obtain ⟨hdone, hreturned, -⟩ := endsWith_spec hends
  have hlife : Life filledWorld filledPuts := .run run_filledWorld
  obtain ⟨seg, hreached, -⟩ := hlife.reached
  have hputs := fun i => And.intro (good_besidePuts i) (hsizes i)
  have hfirst : RunInOrder KeepsPuts besideStart [0] c₁ :=
    run_of_playSections (fun _ _ => keepsPuts_of_leavesOutNone) hfirst
  have hlast : RunInOrder KeepsPuts u [] c := run_of_playSections (fun _ _ => keepsPuts_of_leavesOutNone) hlast
  have hstart : Keeping filledWorld besidePuts besideStart _ := .start hreached
  obtain ⟨hcompactor, r, hput⟩ := midway_spec hmid
  have hkeeping := hstart.run hputs (hfirst.mono fun _ _ _ hok => hok.1) (by rw [hcompactor]; trivial)
  have happends : AppendsStay c₁ (some 1) wholeReplies := by
    refine ⟨allClean_wholeReplies, fun r' hr' => ?_⟩
    rw [hkeeping.records 1 r' (.inl hr'), hcompactor]
    exact stays_of_midway hkeeping hmid
  have hrest := RunInOrder.head (step_of_nextSection ⟨happends, by simp⟩ hnext) hlast
  have heffect : effectIn c₁ (some 1) ++ [] = [1] := by
    rw [effectIn, hcompactor, hput]
    rfl
  rw [heffect] at hrest
  have hrun := hfirst.trans hrest
  have hend := hstart.run hputs (hrun.mono fun _ _ _ hok => hok.1) (by rw [hdone]; rfl)
  have hsmall := fun id hid => lt_of_le_of_lt (small_of_endsWith hend hends (by simp) (i := id) hid)
    (show 2 < 2 ^ 31 by decide)
  obtain ⟨-, -, -, -, houtlives⟩ := puts_survive hlife hputs hfirst hrest hdone hsmall
  exact ⟨c, hlife, hrun, hdone, hreturned, houtlives⟩

/-- A put of a key that has a record. -/
def lostPut (_ : Fin 1) : Put := bytePut 0 99 104

def lostStart : CompactingPuts (Fin 1) :=
  letI := zlib
  CompactingPuts.start filledWorld fun i => (lostPut i).record

/-- The put appends its record, the whole compaction runs, and the put enters its record. -/
def lostSections : List (Option (Fin 1)) := [some 0] ++ List.replicate 11 none ++ [some 0]

omit [Zlib] in
theorem evaluated_lostRun : letI := zlib
    (∀ i, (lostPut i).record.bytes.length ≤ filledWorld.maxActiveFileSize.toNat) ∧
    ((playSections leavesRecords lostSections lostStart).any fun p =>
      decide (p.1 = []) && endsWith [(1, some 1), (0, some 0)] 2 p.2) = true := by
  decide +kernel

omit [Zlib] in
/-- A put that has appended its record and not entered it when the key directory is dumped: it is acknowledged, and
every start answers as if it had not been made. -/
theorem put_lost_to_compaction : letI := zlib
    ∃ w hist c, Life w hist ∧ Good (bytePut 0 99 104) ∧ (∃ es, RunInOrder (fun _ _ rs => AllClean rs)
        (CompactingPuts.start w fun _ : Fin 1 => (bytePut 0 99 104).record) es c) ∧
      c.compactor = .done (.ok ()) ∧ (∀ i, c.put i = .done (.ok ())) ∧ Outlives c.shared hist ∧
      ¬ Outlives c.shared (hist ++ [bytePut 0 99 104]) := by
  let _ := zlib
  obtain ⟨hsizes, hplay⟩ := evaluated_lostRun
  obtain ⟨⟨es, c⟩, hplay, hends⟩ := (Option.any_eq_true _ _).mp hplay
  obtain ⟨hes, hends⟩ := (Bool.and_eq_true _ _).mp hends
  obtain rfl := of_decide_eq_true hes
  obtain ⟨hdone, hreturned, -⟩ := endsWith_spec hends
  have hlife : Life filledWorld filledPuts := .run run_filledWorld
  obtain ⟨seg, hreached, -⟩ := hlife.reached
  have hputs : ∀ i, Good (lostPut i) ∧ _ := fun i => ⟨good_bytePut 0 99 104, hsizes i⟩
  have hrun : RunInOrder (fun c turn rs => AppendsStay c turn rs ∧ AllClean rs) lostStart [] c :=
    run_of_playSections (fun _ _ h => ⟨appendsStay_of_leavesRecords h, allClean_wholeReplies⟩) hplay
  have hstays : RunInOrder AppendsStay lostStart [] c := hrun.mono fun _ _ _ hok => hok.1
  have hstart : Keeping filledWorld lostPut lostStart _ := .start hreached
  have hend := hstart.run hputs hstays (by rw [hdone]; rfl)
  have hforgets := effects_outlive hlife hputs hstays hdone fun id hid =>
    lt_of_le_of_lt (small_of_endsWith hend hends (by simp) (i := id) hid) (show 1 < 2 ^ 31 by decide)
  refine ⟨filledWorld, filledPuts, c, hlife, good_bytePut 0 99 104, ⟨[], hrun.mono fun _ _ _ hok => hok.2⟩, hdone,
    hreturned, hforgets, fun hnew => ?_⟩
  have hsame := hforgets.unique hnew ⟨[99], Nat.one_lt_two_pow (by decide)⟩
  revert hsame
  decide

end Sample

end Ccask.Audit
