import Ccask.Audit.Integrity

/-!
# Which bytes a get touches

The buffers of a get have the sizes of the entry in the key directory, and the checksum runs
over as many bytes as the header from the file says, before anything about the header is
known. The copy at the end goes by the entry again.
-/

namespace Ccask.Audit

open Ccask.Effect Ccask.Model

section Bounds

variable [Zlib] {w : World} {kd : KeydirRecord} {key : Buf}

/-- The checksum leaves a buffer exactly when a size in the header is larger than the buffer. -/
theorem overruns_iff (r : DatafileRecord) : Overruns r ↔
    r.key.length < (ccaskGetDatafileRecordHeader r).keySize.toNat ∨
      r.value.length < (ccaskGetDatafileRecordHeader r).valueSize.toNat := by
  have hfour : ∀ v, (4 : UInt32).toNat = (native32 v).length := fun _ => rfl
  show calculateCrc32 _ _ _ (some r.key) (some r.value) = none ↔ _
  simp only [calculateCrc32, Option.bind_eq_bind, zlibCrc32_some _ (hfour _), Option.bind_some]
  by_cases hkey : (ccaskGetDatafileRecordHeader r).keySize.toNat ≤ r.key.length
  · by_cases hvalue : (ccaskGetDatafileRecordHeader r).valueSize.toNat ≤ r.value.length
    · simp only [zlibCrc32, hkey, hvalue, if_true, Option.bind_some, reduceCtorEq, false_iff]
      omega
    · simp only [zlibCrc32, hkey, hvalue, if_true, if_false, Option.bind_some, true_iff]
      omega
  · simp only [zlibCrc32, hkey, if_false, Option.bind_none, true_iff]
    omega

/-- Every byte that the answer rests on was in the buffers: the checksum stayed inside, and the copy
found all of its bytes. -/
def StaysInside : GetResult → Prop
  | .found c => c.value.length = c.valueSize.toNat
  | .outOfBounds => False
  | .fail _ | .missing => True

/-- The sizes in the header that stands where an entry leads to are at most those of the entry. -/
def HeaderFits (w : World) (kd : KeydirRecord) : Prop :=
  ∀ r, Reads w kd r →
    (ccaskGetDatafileRecordHeader r).keySize.toNat ≤ kd.key.length ∧
      (ccaskGetDatafileRecordHeader r).valueSize.toNat ≤ kd.valueSize.toNat

omit [Zlib] in
/-- What is read fills the buffers of the entry. -/
theorem Reads.lengths {r : DatafileRecord} (h : Reads w kd r) :
    r.key.length = kd.key.length ∧ r.value.length = kd.valueSize.toNat := by
  obtain ⟨ino, -, -, hlen, rfl⟩ := h
  have hdrop : 16 + kd.key.length + kd.valueSize.toNat ≤
      ((w.fs.data ino).drop kd.recordPos).length := by
    rw [List.length_drop]
    omega
  exact (readBack_lengths hdrop).2

theorem headerFits_iff : HeaderFits w kd ↔ ∀ r, Reads w kd r → ¬ Overruns r := by
  constructor
  · intro h r hr hover
    obtain ⟨hkey, hvalue⟩ := h r hr
    obtain ⟨hk, hv⟩ := hr.lengths
    rcases (overruns_iff r).mp hover with hover | hover
    · omega
    · omega
  · intro h r hr
    have hover := mt (overruns_iff r).mpr (h r hr)
    obtain ⟨hk, hv⟩ := hr.lengths
    omega

/-- Without errors a get of a record whose header says too much reads past its buffers. -/
theorem ccaskGet_overruns (hfind : ccaskKeydirFind key.val w = some kd) {r : DatafileRecord}
    (hr : Reads w kd r) (hover : Overruns r) : ∃ v, Computes (ccaskGet key) w .outOfBounds v := by
  obtain ⟨res, v, hget, hres⟩ := ccaskGet_gives hfind hr (.inr hover)
  obtain ⟨rs, rest, -, hrun⟩ := hget.exists_run
  obtain ⟨e, he⟩ | ⟨r', hr', hanswer⟩ := (ccaskGet_answers hfind).returned (fun _ _ => trivial) hrun
  · exact absurd he (hres e)
  · obtain rfl := hr.unique hr'
    cases res with
    | outOfBounds => exact ⟨v, hget⟩
    | fail e => exact absurd rfl (hres e)
    | missing => exact hanswer.elim
    | found c =>
        exact absurd (hover.symm.trans hanswer.1) (Option.some_ne_none _).symm

/-- A get never reads past its buffers, and answers a record that does not have its checksum with an
error, exactly when no header that it comes to says more than the entry of the key. -/
theorem get_in_bounds_iff (key : Buf) (w : World) :
    (∀ rs rest res v, (ccaskGet key).run rs w = .returned res rest v → StaysInside res ∧
      ∀ kd r, ccaskKeydirFind key.val w = some kd → Reads w kd r → ¬ Checks r → ∃ e, res = .fail e) ↔
    ∀ kd, ccaskKeydirFind key.val w = some kd → HeaderFits w kd := by
  constructor
  · intro h kd hfind
    rw [headerFits_iff]
    intro r hr hover
    obtain ⟨v, hget⟩ := ccaskGet_overruns hfind hr hover
    obtain ⟨rs, rest, -, hrun⟩ := hget.exists_run
    exact (h rs rest _ v hrun).1
  · intro h rs rest res v hrun
    cases hfind : ccaskKeydirFind key.val w with
    | none =>
        have hmissing : Ensures (fun _ => True) (ccaskGet key) w (fun res _ => res = .missing)
            (fun _ => True) := by
          apply Ensures.state_bind
          rw [hfind]
          exact Ensures.pure rfl
        obtain rfl := hmissing.returned (fun _ _ => trivial) hrun
        exact ⟨trivial, fun kd r hkd => by cases hkd⟩
    | some kd =>
        have hfits := headerFits_iff.mp (h kd hfind)
        obtain ⟨e, rfl⟩ | ⟨r, hr, hanswer⟩ :=
          (ccaskGet_answers hfind).returned (fun _ _ => trivial) hrun
        · exact ⟨trivial, fun _ _ _ _ _ => ⟨e, rfl⟩⟩
        cases res with
        | fail e => exact ⟨trivial, fun _ _ _ _ _ => ⟨e, rfl⟩⟩
        | missing => exact hanswer.elim
        | outOfBounds => exact absurd hanswer (hfits r hr)
        | found c =>
            obtain ⟨hchecks, rfl⟩ := hanswer
            constructor
            · show (r.value.take kd.valueSize.toNat).length = kd.valueSize.toNat
              rw [List.length_take, hr.lengths.2, Nat.min_self]
            · intro kd' r' hkd hr' hbad
              obtain rfl := Option.some.inj hkd
              rw [hr'.unique hr] at hbad
              exact absurd hchecks hbad

end Bounds

section Sample

variable [Zlib]

/-- The record of a key and a value of one byte each, with the size of the key in it changed to 2. -/
def grownKey : Bytes := (bytePut 0 97 98).record.bytes.set 11 2

/-- The store that holds it, with the entry of the record as it was. -/
def grown : World :=
  { oneFile (fileName 0 .data) grownKey with
    files := [⟨0, some 0, 0, false, true, false⟩]
    hashTable := [⟨sampleKey.val, 0, 0, 1, 0⟩] }

omit [Zlib] in
/-- One changed byte in a header, and a get reads a byte behind the buffer of the key. -/
theorem get_out_of_bounds : letI := zlib
    ∃ rs rest v, (ccaskGet sampleKey).run rs grown = .returned .outOfBounds rest v := by
  let _ := zlib
  have hfind : ccaskKeydirFind sampleKey.val grown = some ⟨sampleKey.val, 0, 0, 1, 0⟩ := rfl
  have hreads : Reads grown ⟨sampleKey.val, 0, 0, 1, 0⟩ (readBack grownKey 1 1) :=
    ⟨0, rfl, by decide, by decide +kernel, by decide +kernel⟩
  have hover : Overruns (readBack grownKey 1 1) := (overruns_iff _).mpr (.inl (by decide +kernel))
  obtain ⟨v, hget⟩ := ccaskGet_overruns hfind hreads hover
  obtain ⟨rs, rest, -, hrun⟩ := hget.exists_run
  exact ⟨rs, rest, v, hrun⟩

end Sample

end Ccask.Audit
