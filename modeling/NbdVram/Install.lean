import NbdVram.Startup

/-!
# From the installer to the device

`install-manual.sh` checks its arguments, builds the daemon with the extent size and
writes the other two sizes into the unit. When the unit is started, the daemon finds
them in its environment and makes a device of them. Three programs read the same
numbers, each with its own parser: the shell's `test`, the text of the unit, and
`atol`. Arguments that pass the first mean the same to the last.
-/

namespace NbdVram

namespace Install

open Power

/-! ## The arguments -/

/-- The loop that looks for `EXTENT_SHIFT`. -/
def extentShift (extentKib : String) : Option ℕ :=
  [14, 15, 16, 17, 18, 19, 20].foldl
    (fun acc s => if shInt extentKib = some ((1 <<< (s - 10) : ℕ) : ℤ) then some s else acc) none

/-- Why the script stops before it changes anything. -/
inductive ArgError
  | usage
  | notWhole (name : String)
  | setupTooSmall
  | diskTooSmall
  | extentKib
  | notRoot
  deriving DecidableEq

/-- The lines of its message; the usage follows the first two. -/
def ArgError.text : ArgError → List String
  | .usage => []
  | .notWhole name => ["error: " ++ name ++ " must be a whole number"]
  | .setupTooSmall => ["error: VRAM_SETUP_SIZE_MB too small (minimum 1024 MiB)"]
  | .diskTooSmall => ["error: VRAM_DISK_SIZE_MB must be >= VRAM_SETUP_SIZE_MB"]
  | .extentKib => ["error: EXTENT_KIB must be a power of two from 16 to 1024"]
  | .notRoot => ["error: must run as root"]

variable {s : String} {root : Bool} {args : List String} {x : Settings} {n : ℕ}

variable {name name' value : String} {unit : List (List Char)}

/-- The four variables that the script writes. -/
def written : List String :=
  ["VRAM_SETUP_SIZE_MB", "VRAM_DISK_SIZE_MB", "VRAM_NBD_THREADS", "VRAM_NBD_CONNECTIONS"]

end Install

end NbdVram
