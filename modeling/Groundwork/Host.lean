import Groundwork.Rule

/-!
# The host

What grounding finds outside of a session: how many workers there are, how much time
has passed, and whether someone wants it to stop.  A pass asks for the time again and
again, and what it is told is left open.  The questions of a pass are told apart by the
rule and by how many of its bindings are done.
-/

namespace Groundwork

/-- What the surroundings of a session answer while rules are grounded. -/
structure Host where
  /-- The number of workers among whom rules are shared out. -/
  workers : Nat := 1
  /-- Whether a request to stop has come in the course of the pass. -/
  raised : Rule → Nat → Bool := fun _ _ => false
  /-- The time since the pass began, in nanoseconds. -/
  elapsed : Rule → Nat → Nat := fun _ _ => 0

end Groundwork
