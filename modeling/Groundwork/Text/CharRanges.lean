/-!
# Sets of characters as ranges

The properties that Unicode gives to characters hold on runs of neighbouring
code points.  `CharRanges` is such a set as a list of its runs in ascending
order, so that a search ends at the first run that reaches the character.
`contains_iff` says that ending there loses nothing.
-/

namespace Groundwork.Text

namespace CharRanges

/-- Whether the ranges ascend from a bound on: each begins at the bound or
above, does not end before it begins, and leaves a gap before the next. -/
def ascends : Nat → List (Nat × Nat) → Bool
  | _, [] => true
  | bound, (low, high) :: rest => bound ≤ low && low ≤ high && ascends (high + 2) rest

/-- Whether the first range that does not end below `n` holds `n`. -/
def reaches (n : Nat) : List (Nat × Nat) → Bool
  | [] => false
  | (low, high) :: rest => if n ≤ high then low ≤ n else reaches n rest

end CharRanges

/-- A set of characters: inclusive ranges of code points, in ascending order
and with a gap between any two. -/
structure CharRanges where
  ranges : List (Nat × Nat)
  ascending : CharRanges.ascends 0 ranges = true

namespace CharRanges

/-- Whether the character lies in one of the ranges. -/
def contains (s : CharRanges) (c : Char) : Bool :=
  reaches c.toNat s.ranges

/-- The number of code points in the ranges. -/
def size (s : CharRanges) : Nat :=
  s.ranges.foldl (fun total (low, high) => total + (high + 1 - low)) 0

theorem bound_le_of_mem {bound : Nat} {ranges : List (Nat × Nat)}
    (h : ascends bound ranges = true) {range : Nat × Nat} (hr : range ∈ ranges) :
    bound ≤ range.1 := by
  induction ranges generalizing bound with
  | nil => simp at hr
  | cons first rest ih =>
    simp only [ascends, Bool.and_eq_true, decide_eq_true_eq] at h
    rcases List.mem_cons.1 hr with rfl | hr
    · exact h.1.1
    · have := ih h.2 hr
      omega

theorem reaches_iff {bound : Nat} {ranges : List (Nat × Nat)}
    (h : ascends bound ranges = true) (n : Nat) :
    reaches n ranges = true ↔ ∃ range ∈ ranges, range.1 ≤ n ∧ n ≤ range.2 := by
  induction ranges generalizing bound with
  | nil => simp [reaches]
  | cons first rest ih =>
    simp only [ascends, Bool.and_eq_true, decide_eq_true_eq] at h
    by_cases hn : n ≤ first.2
    · have later : ∀ range ∈ rest, ¬ range.1 ≤ n := fun range hr hle => by
        have := bound_le_of_mem h.2 hr
        omega
      grind [reaches]
    · simp [reaches, hn, ih h.2]

/-- The characters of the set are those within some range. -/
theorem contains_iff (s : CharRanges) (c : Char) :
    s.contains c = true ↔ ∃ range ∈ s.ranges, range.1 ≤ c.toNat ∧ c.toNat ≤ range.2 :=
  reaches_iff s.ascending c.toNat

end CharRanges

end Groundwork.Text
