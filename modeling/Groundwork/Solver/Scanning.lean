import Groundwork.Solver

/-!
# The plain procedure

The procedure as it is usually told.  Propagation scans all clauses, one scan after the
other, until a scan gives no value.  Decisions are made on every atom up to the greatest
one that was met, whether or not it occurs in a clause, and after a flip the least free
atom is looked for from the first one on.  The empty clause is not among those that are
scanned: with it, nothing is searched.

The solver itself looks only at clauses that may have changed and decides only atoms
that occur.  Its answers are those of this procedure (`Solver.scan_eq_solve`).
-/

namespace Groundwork

namespace Position

/-- Scans all clauses, again and again until no atom gets a value any more.  Stops with
`false` at a clause that is false. -/
def rescan (f : Formula) (p : Position) : Bool × Position :=
  match _h : pass [] f.clauses p with
  | (none, q) => (false, q)
  | (some [], q) => (true, q)
  | (some (_ :: _), q) => rescan f q
termination_by free f.atoms p.value?
decreasing_by
  have := free_pass_le (List.Subset.refl _) _h
  simp only [List.length_cons, List.length_nil] at this
  omega

theorem weight_rescan_le {f : Formula} {atoms : List Nat} (hatoms : f.atoms ⊆ atoms)
    (p : Position) : (rescan f p).2.weight atoms ≤ p.weight atoms := by
  fun_induction rescan f p with
  | case1 p q h => simpa [h] using weight_pass_le hatoms [] (List.Subset.refl _) p
  | case2 p q h => simpa [h] using weight_pass_le hatoms [] (List.Subset.refl _) p
  | case3 p atom gained q h ih =>
    exact Nat.le_trans ih (by simpa [h] using weight_pass_le hatoms [] (List.Subset.refl _) p)

/-- The first atom from `next` on that is free, or the one after `atoms` if there is none
up to there. -/
def nextFrom (p : Position) (atoms next : Nat) : Nat :=
  if next ≤ atoms ∧ (p.value? next).isSome then p.nextFrom atoms (next + 1) else next
termination_by atoms + 1 - next

theorem value?_nextFrom {p : Position} {atoms next : Nat} (h : p.nextFrom atoms next ≤ atoms) :
    p.value? (p.nextFrom atoms next) = none := by
  fun_induction nextFrom p atoms next with
  | case1 next _ ih => exact ih h
  | case2 next hstop => simpa [h] using hstop

/-- Searches on from a position, for one that gives a value to every atom up to `atoms`
and makes no clause false.  The atoms before `next` are not free. -/
def scanFrom (f : Formula) (atoms next : Nat) (p : Position) : Option Position :=
  match h : rescan f p with
  | (false, q) =>
    match hr : q.backtrack with
    | none => none
    | some (_, r) =>
      have : r.weight (f.atoms ++ List.range (atoms + 1)) <
          p.weight (f.atoms ++ List.range (atoms + 1)) :=
        Nat.lt_of_lt_of_le (weight_backtrack_lt _ hr)
          (by simpa [h] using weight_rescan_le (List.subset_append_left f.atoms _) p)
      scanFrom f atoms 1 r
  | (true, q) =>
    if hnext : q.nextFrom atoms next ≤ atoms then
      have : (q.assign (q.nextFrom atoms next) false (.decided false)).weight
            (f.atoms ++ List.range (atoms + 1)) <
          p.weight (f.atoms ++ List.range (atoms + 1)) :=
        Nat.lt_of_lt_of_le
          (weight_assign_lt (List.mem_append_right _ (List.mem_range.2 (Nat.lt_succ_of_le hnext)))
            (value?_nextFrom hnext) _ _)
          (by simpa [h] using weight_rescan_le (List.subset_append_left f.atoms _) p)
      scanFrom f atoms (q.nextFrom atoms next)
        (q.assign (q.nextFrom atoms next) false (.decided false))
    else some q
termination_by p.weight (f.atoms ++ List.range (atoms + 1))

end Position

namespace Solver

/-- The formula of the clauses that are scanned. -/
def stored (s : Solver) : Formula :=
  .ofClauses s.clauses.toList

/-- The position at which the procedure ends under assumptions, if they can hold together
with the clauses. -/
def scan? (s : Solver) (assumptions : List Literal) : Option Position :=
  if s.hasEmpty then none
  else (Position.assume {} assumptions).bind (Position.scanFrom s.stored s.atoms 1)

/-- Goes through refuted literals from an index on, and leaves out each one without which
the rest is still refuted. -/
def shrink (s : Solver) (core : List Literal) (index : Nat) : List Literal :=
  if index < core.length then
    if (s.scan? (core.eraseIdx index)).isNone then s.shrink (core.eraseIdx index) index
    else s.shrink core (index + 1)
  else core
termination_by core.length - index
decreasing_by
  · rw [List.length_eraseIdx_of_lt ‹_›]
    omega
  · omega

/-- The part of refuted assumptions that is given as the reason, made minimal if it is
asked for. -/
def scanCore (s : Solver) (assumptions : List Literal) : List Literal :=
  if (s.scan? []).isNone then []
  else if s.minimise then s.shrink assumptions 0
  else assumptions

/-- Decides the clauses under assumptions by the plain procedure. -/
def scan (s : Solver) (assumptions : List Literal) : Except BackendError Verdict × Solver :=
  match s.noteAtoms assumptions with
  | (.error e, s) => (.error e, s)
  | (.ok (), s) =>
    match s.scan? assumptions with
    | some p => (.ok .satisfiable, { s with model := some (p.model s.atoms), core := [] })
    | none =>
      (.ok .unsatisfiable, { s with model := none, core := s.scanCore assumptions })

end Solver

end Groundwork
