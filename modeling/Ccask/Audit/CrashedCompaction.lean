import Ccask.Audit.Compaction
import Ccask.Audit.DumpReplies

/-!
# A compaction cut short

The process may die inside `ccask_compactor_dump_keydir`. The old files are unlinked before the new
ones have their names, and nothing in the directory tells a later start that the temporary files
belong to it.
-/

namespace Ccask.Audit

open Ccask.Effect Ccask.Model Ccask.Index

section Names

variable {files : List CcaskFile} {f : CcaskFile}

end Names

variable [Zlib]

section Cut

variable {w u v : World} {b : Bins Put} {seg : Nat → List Put} {rs : List Reply}

end Cut

section Shortened

variable {w : World} {fs fs' : Fs} {seg : Nat → List Put} {id : Nat} {rem tl gone : List Nat}

end Shortened

section Recovery

variable {w v w₂ : World} {seg : Nat → List Put} {b : Bins Put} {id k : Nat} {tl gone : List Nat}
  {opts : CcaskOptions} {hist : List Put}

end Recovery

section Crash

variable {w v w₂ : World} {seg : Nat → List Put} {b : Bins Put} {k : Nat} {opts : CcaskOptions}
  {hist : List Put} {rs : List Reply}

/-- After the unlinks the first temporary files have their new names. -/
theorem Holds.renamed (h : Holds w seg) (hd : Dumped w v b)
    (hk : (fileNames w.files.reverse).length ≤ k) (hle : k ≤ (script w.files b.last).length)
    (hfs : w₂.fs = (play DirOp.act ((script w.files b.last).take k) v).fs) :
    k - (fileNames w.files.reverse).length ≤ b.last + 1 ∧
      Renamed (k - (fileNames w.files.reverse).length) v.fs w₂.fs := by
  have hlen : (unlinks w.files.reverse).length = (fileNames w.files.reverse).length := List.length_map _
  rw [script, renames, List.length_append, List.length_map, List.length_range] at hle
  have htake : (script w.files b.last).take k = unlinks w.files.reverse ++
      (List.range (k - (fileNames w.files.reverse).length)).map renameOp := by
    rw [script, renames, List.take_append, List.take_of_length_le (by omega), ← List.map_take,
      List.take_range, hlen, Nat.min_eq_left (by omega)]
  refine ⟨by omega, ?_⟩
  rw [hfs, htake]
  refine renamed_play v (fun i hi => ?_) fun i hi => ?_
  · rw [← Fs.isSome_read, hd.keeps.read_data] at hi
    exact (h.store.named i).1 hi
  · rw [← Fs.isSome_read, hd.keeps.read_hint] at hi
    exact (h.store.named i).2 hi

end Crash

section Sample

/-- The replies of a compaction of one record that is cut short behind the first unlink. -/
def crashReplies : List Reply := List.replicate 4 (.done 0) ++ [.done 17, .done 0, .done 17, .done 0]

end Sample

end Ccask.Audit
