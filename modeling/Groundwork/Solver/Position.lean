import Groundwork.Literal
import Std.Data.HashMap

/-!
# Positions of the search

A position holds the values given to atoms so far, and a trail of the atoms that
have one, the latest first, with the reason for each.  All other atoms are free.
The search moves on by giving a value to a free atom, and moves back by undoing the
trail down to a decision that has not been flipped.

Atoms that were never given a value take no room, so a position is as large as its
trail and not as the greatest atom.

`Position.weight` is a number that falls with every such move.  It counts
the `worth` of the atoms that are still free, and for each decision that can still
be flipped the worth of those that were free after it.
-/

namespace Groundwork

/-- Why an atom has its value. -/
inductive Reason where
  /-- The value is assumed. -/
  | assumed
  /-- The value was chosen.  A flipped choice is the second of the two. -/
  | decided (flipped : Bool)
  /-- A clause leaves no other value. -/
  | propagated
deriving DecidableEq, Repr

/-- The values of atoms, and the order in which they were given. -/
structure Position where
  values : Std.HashMap Nat Bool := ∅
  trail : List (Nat × Reason) := []
deriving Repr

namespace Position

/-- The value of an atom, if it is not free. -/
def value? (p : Position) (atom : Nat) : Option Bool :=
  p.values[atom]?

/-- The truth of a literal, if its atom is not free. -/
def truth? (p : Position) (l : Literal) : Option Bool :=
  (p.value? (Literal.atom l)).map (· == Literal.polarity l)

/-- The assignment in which every free atom is false. -/
def assignment (p : Position) : Assignment := fun atom =>
  (p.value? atom).getD false

/-- The literals of the atoms up to `atoms` that the assignment of the position makes
true, in order of atom. -/
def model (p : Position) (atoms : Nat) : List Literal :=
  (List.range' 1 atoms).map fun atom => Literal.ofAtom atom (p.assignment atom)

/-- Gives a value to an atom. -/
def assign (p : Position) (atom : Nat) (value : Bool) (reason : Reason) : Position :=
  { values := p.values.insert atom value, trail := (atom, reason) :: p.trail }

/-- Undoes a trail to its latest decision that has not been flipped, and flips it.
Returns the atom that was decided, with the position.  There is none if an assumption
comes first. -/
def undo (values : Std.HashMap Nat Bool) : List (Nat × Reason) → Option (Nat × Position)
  | [] => none
  | (atom, reason) :: trail =>
    match reason with
    | .decided false =>
      some (atom,
        { values := values.insert atom true, trail := (atom, .decided true) :: trail })
    | .assumed => none
    | _ => undo (values.erase atom) trail

/-- The position after the latest decision that can be flipped is flipped, with the atom
of that decision. -/
def backtrack (p : Position) : Option (Nat × Position) :=
  undo p.values p.trail

theorem value?_assign (p : Position) (atom : Nat) (value : Bool) (reason : Reason) (a : Nat) :
    (p.assign atom value reason).value? a = if a = atom then some value else p.value? a := by
  by_cases same : a = atom
  · simp [value?, assign, same]
  · simp [value?, assign, Std.HashMap.getElem?_insert, same, Ne.symm same]

/-! ## The measure -/

/-- The worth of a number of free atoms, which is three times as much with each. -/
def worth : Nat → Nat
  | 0 => 1
  | free + 1 => 3 * worth free

theorem worth_pos (n : Nat) : 0 < worth n := by
  induction n with
  | zero => exact Nat.one_pos
  | succ n ih => exact Nat.mul_pos (by decide) ih

theorem worth_le_worth {m n : Nat} (h : m ≤ n) : worth m ≤ worth n := by
  induction h with
  | refl => exact Nat.le_refl _
  | step _ ih =>
    simp only [worth]
    omega

theorem worth_of_lt {m n : Nat} (h : m < n) : 3 * worth m ≤ worth n :=
  worth_le_worth (m := m + 1) h

/-- How many of `atoms` are free where the others have the values `value?`. -/
def free (atoms : List Nat) (value? : Nat → Option Bool) : Nat :=
  atoms.countP fun atom => (value? atom).isNone

/-- The values without that of one atom. -/
def without (value? : Nat → Option Bool) (atom : Nat) : Nat → Option Bool := fun a =>
  if a = atom then none else value? a

/-- What the decisions of a trail that can still be flipped add to the weight. -/
def pending (atoms : List Nat) (value? : Nat → Option Bool) : List (Nat × Reason) → Nat
  | [] => 0
  | (atom, reason) :: trail =>
    (if reason = .decided false then worth (free atoms value?) else 0) +
      pending atoms (without value? atom) trail

/-- A number that falls with every move of the search, if all moves are on `atoms`. -/
def weight (atoms : List Nat) (p : Position) : Nat :=
  worth (free atoms p.value?) + pending atoms p.value? p.trail

theorem free_le_free {atoms : List Nat} {u v : Nat → Option Bool}
    (h : ∀ a, u a = none → v a = none) : free atoms u ≤ free atoms v :=
  List.countP_mono_left fun a _ isFree => by simpa using h a (by simpa using isFree)

theorem free_assign_le (atoms : List Nat) (p : Position) (atom : Nat) (value : Bool)
    (reason : Reason) : free atoms (p.assign atom value reason).value? ≤ free atoms p.value? := by
  apply free_le_free
  intro a
  rw [value?_assign]
  split <;> simp

theorem free_assign_lt {atoms : List Nat} {p : Position} {atom : Nat} (mem : atom ∈ atoms)
    (isFree : p.value? atom = none) (value : Bool) (reason : Reason) :
    free atoms (p.assign atom value reason).value? < free atoms p.value? := by
  induction atoms with
  | nil => simp at mem
  | cons a rest ih =>
    have tail := free_assign_le rest p atom value reason
    simp only [free, List.countP_cons, value?_assign] at *
    by_cases same : a = atom
    · simp only [same, isFree, Option.isNone_some, Option.isNone_none, if_true]
      simp only [Bool.false_eq_true, if_false]
      omega
    · have later := ih (by simpa [Ne.symm same] using mem)
      simp only [same, if_false]
      omega

theorem without_assign {p : Position} {atom : Nat} (isFree : p.value? atom = none)
    (value : Bool) (reason : Reason) :
    without (p.assign atom value reason).value? atom = p.value? := by
  funext a
  by_cases same : a = atom <;> simp [without, value?_assign, same, isFree]

theorem weight_assign_lt {atoms : List Nat} {p : Position} {atom : Nat} (mem : atom ∈ atoms)
    (isFree : p.value? atom = none) (value : Bool) (reason : Reason) :
    (p.assign atom value reason).weight atoms < p.weight atoms := by
  have trail : (p.assign atom value reason).trail = (atom, reason) :: p.trail := rfl
  have fewer := worth_of_lt (free_assign_lt mem isFree value reason)
  have positive := worth_pos (free atoms (p.assign atom value reason).value?)
  simp only [weight, trail, pending, without_assign isFree]
  split <;> omega

theorem value?_erase (p : Position) (atom : Nat) :
    value? { p with values := p.values.erase atom } = without p.value? atom := by
  funext a
  by_cases same : a = atom
  · simp [value?, without, same]
  · simp [value?, without, Std.HashMap.getElem?_erase, same, Ne.symm same]

/-- A flip keeps the atom's worth and takes away what the decision adds. -/
theorem weight_flip_le (atoms : List Nat) (p : Position) (atom : Nat) :
    (p.assign atom true (.decided true)).weight atoms ≤
      worth (free atoms p.value?) + pending atoms (without p.value? atom) p.trail := by
  have same : without (p.assign atom true (.decided true)).value? atom = without p.value? atom := by
    funext a
    by_cases same : a = atom <;> simp [without, value?_assign, same]
  have trail : (p.assign atom true (.decided true)).trail = (atom, .decided true) :: p.trail := rfl
  have less := worth_le_worth (free_assign_le atoms p atom true (.decided true))
  simp only [weight, pending, trail, same, Reason.decided.injEq, Bool.true_eq_false, if_false]
  omega

theorem weight_undo_le (atoms : List Nat) {p q : Position} {flipped : Nat}
    (h : undo p.values p.trail = some (flipped, q)) :
    q.weight atoms ≤ pending atoms p.value? p.trail := by
  obtain ⟨values, trail⟩ := p
  induction trail generalizing values with
  | nil => simp [undo] at h
  | cons step trail ih =>
    obtain ⟨atom, reason⟩ := step
    have later (h : undo (values.erase atom) trail = some (flipped, q)) :
        q.weight atoms ≤ pending atoms (without (value? ⟨values, trail⟩) atom) trail :=
      value?_erase ⟨values, trail⟩ atom ▸ ih (values.erase atom) h
    have same : value? ⟨values, (atom, reason) :: trail⟩ = value? ⟨values, trail⟩ := rfl
    rw [pending, same]
    cases reason with
    | assumed => simp [undo] at h
    | propagated => simpa using later (by simpa [undo] using h)
    | decided isFlipped =>
      cases isFlipped with
      | true => simpa using later (by simpa [undo] using h)
      | false =>
        have flip : (assign ⟨values, trail⟩ atom true (.decided true)) = q :=
          (Prod.mk.inj (Option.some.inj (by simpa [undo, assign] using h))).2
        simpa [flip] using weight_flip_le atoms ⟨values, trail⟩ atom

theorem weight_backtrack_lt (atoms : List Nat) {p q : Position} {flipped : Nat}
    (h : p.backtrack = some (flipped, q)) : q.weight atoms < p.weight atoms := by
  have bound := weight_undo_le atoms h
  have positive := worth_pos (free atoms p.value?)
  rw [weight.eq_1 atoms p]
  omega

end Position

end Groundwork
