import Groundwork.Text.Count

/-!
# Options

Options are kept with a session and read when an operation begins.  The limits
among them have bounds, and a value outside of the bounds is refused.
-/

namespace Groundwork

/-- A number with bounds. -/
structure Limit where
  least : Nat
  greatest : Nat := Text.maxCount
  value : Nat
deriving DecidableEq, Repr

/-- The limit with another value, if that is within bounds. -/
def Limit.set? (l : Limit) (value : Nat) : Option Limit :=
  if l.least ≤ value ∧ value ≤ l.greatest then some { l with value } else none

/-- The options of a session. -/
structure Options where
  /-- The number of bindings that a single rule may need, those of variables that
  are instantiated within a clause included. -/
  bindingLimit : Limit := { least := 1, value := 10000000 }
  /-- Whether rules whose variables have the same sorts share an enumeration. -/
  groupRules : Bool := false
  /-- Whether the solver makes cores minimal. -/
  minimiseCore : Bool := true
  /-- Whether rules are grounded by several workers. -/
  parallelGrounding : Bool := false
  /-- The width of a line when a model is listed. -/
  renderWidth : Limit := { least := 8, value := 100 }
  /-- The number of constants that a single sort may hold. -/
  sortLimit : Limit := { least := 1, value := 1000000 }
  /-- The time that a pass may take, in nanoseconds, where zero is no limit. -/
  timeLimit : Nat := 0
deriving DecidableEq, Repr

/-- A new value for one option. -/
inductive Setting where
  | bindingLimit (value : Nat)
  | groupRules (value : Bool)
  | minimiseCore (value : Bool)
  | parallelGrounding (value : Bool)
  | renderWidth (value : Nat)
  | sortLimit (value : Nat)
  | timeLimit (value : Nat)
deriving DecidableEq, Repr

/-- The options with one of them set, unless the value is out of bounds. -/
def Options.set? (o : Options) : Setting → Option Options
  | .bindingLimit value => (o.bindingLimit.set? value).map ({ o with bindingLimit := · })
  | .groupRules value => some { o with groupRules := value }
  | .minimiseCore value => some { o with minimiseCore := value }
  | .parallelGrounding value => some { o with parallelGrounding := value }
  | .renderWidth value => (o.renderWidth.set? value).map ({ o with renderWidth := · })
  | .sortLimit value => (o.sortLimit.set? value).map ({ o with sortLimit := · })
  | .timeLimit value => some { o with timeLimit := value }

end Groundwork
