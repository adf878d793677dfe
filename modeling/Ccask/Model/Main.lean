import Ccask.Model.Compactor

/-!
# The program (bin/src/main.c)
-/

namespace Ccask.Model

open Ccask.Effect

/-- `main`, with the exit status. It does not look at the result of the compaction. -/
def main (listing : List Name) : Sys Int := do
  match ← ccaskInit ⟨listing, 10, 60⟩ with
  | .fail _ | .retry _ => pure (-1)
  | .ok () =>
    let _ ← ccaskCompactorDumpKeydir
    ccaskShutdown
    pure 0

end Ccask.Model
