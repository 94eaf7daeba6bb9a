/-!
# Counts in decimal

A count is written in decimal digits, with an optional plus sign before them,
and is at most `maxCount`.  Arithmetic on counts saturates at that bound.
-/

namespace Groundwork.Text

/-- The largest count: every 64-bit number is a count. -/
def maxCount : Nat :=
  0xFFFFFFFFFFFFFFFF

/-- The value of a decimal digit. -/
def digit? (c : Char) : Option Nat :=
  if '0' ≤ c ∧ c ≤ '9' then some (c.toNat - '0'.toNat) else none

/-- The number written by digits, if there is nothing but digits. -/
def digits? (cs : List Char) : Option Nat :=
  cs.foldlM (fun n c => (digit? c).map (10 * n + ·)) 0

/-- Reads a count. -/
def count? (cs : List Char) : Option Nat := do
  let digits := if cs.head? = some '+' then cs.tail else cs
  if digits.isEmpty then none
  else
    let n ← digits? digits
    if n ≤ maxCount then some n else none

end Groundwork.Text
