import Groundwork.Solver.Formula
import Groundwork.Solver.Position

/-!
# The search for a model

Clauses that leave one literal are propagated until none does.  Then the least free
atom of the formula is decided, with the value false first.  On a conflict the latest
decision that has not been flipped is flipped.  The search ends at a position that
gives a value to every atom of the formula, or when no decision is left to flip.

A clause can only change its status when one of its atoms gets a value.  So after a
decision only the clauses with its atom are looked at, and after each pass only
those with an atom that got a value in it.  Before a decision no clause was left to
propagate, so after a flip too only the clauses with the flipped atom are looked at.
-/

namespace Groundwork

namespace Position

/-- What a position makes of a clause. -/
inductive Status where
  /-- Every literal is false. -/
  | falsified
  /-- One literal is free, and all others are false. -/
  | unit (l : Literal)
  /-- Some literal is true, or several are free. -/
  | settled
deriving DecidableEq, Repr

/-- Whether every literal of the clause is false. -/
def falsifies (p : Position) (c : Clause) : Bool :=
  c.all fun l => p.truth? l == some false

/-- The status of a clause. -/
def status (p : Position) : Clause → Status
  | [] => .falsified
  | l :: rest =>
    match p.truth? l with
    | some true => .settled
    | some false => p.status rest
    | none => if p.falsifies rest then .unit l else .settled

theorem mem_of_status_unit {p : Position} {c : Clause} {l : Literal} (h : p.status c = .unit l) :
    l ∈ c ∧ p.value? (Literal.atom l) = none := by
  induction c with
  | nil => simp [status] at h
  | cons other rest ih =>
    rw [status] at h
    split at h
    · simp at h
    · exact ⟨List.mem_cons_of_mem _ (ih h).1, (ih h).2⟩
    · next isFree =>
      split at h
      · obtain rfl : other = l := by simpa using h
        exact ⟨List.mem_cons_self, by simpa [truth?] using isFree⟩
      · simp at h

/-! ## Propagation -/

/-- Goes once through clauses, and gives a value to the literal of each that leaves
one.  The atoms that get a value are put in front of those in `gained`.  Stops with
`none` at a clause that is false. -/
def pass (gained : List Nat) : List Clause → Position → Option (List Nat) × Position
  | [], p => (some gained, p)
  | c :: clauses, p =>
    match p.status c with
    | .falsified => (none, p)
    | .unit l =>
      pass (Literal.atom l :: gained) clauses
        (p.assign (Literal.atom l) (Literal.polarity l) .propagated)
    | .settled => pass gained clauses p

theorem weight_pass_le {f : Formula} {atoms : List Nat} (hatoms : f.atoms ⊆ atoms)
    (gained : List Nat) {clauses : List Clause} (mem : clauses ⊆ f.clauses) (p : Position) :
    (pass gained clauses p).2.weight atoms ≤ p.weight atoms := by
  fun_induction pass gained clauses p with
  | case1 => exact Nat.le_refl _
  | case2 => exact Nat.le_refl _
  | case3 gained c clauses p l h ih =>
    obtain ⟨hc, mem⟩ := List.cons_subset.1 mem
    have ⟨hl, isFree⟩ := mem_of_status_unit h
    exact Nat.le_trans (ih mem)
      (Nat.le_of_lt (weight_assign_lt (hatoms (Formula.atom_mem_atoms hc hl)) isFree _ _))
  | case4 _ _ _ _ _ ih => exact ih (List.cons_subset.1 mem).2

/-- Each atom that gets a value was free before. -/
theorem free_pass_le {f : Formula} {gained gained' : List Nat} {clauses : List Clause}
    (mem : clauses ⊆ f.clauses) {p q : Position} (h : pass gained clauses p = (some gained', q)) :
    free f.atoms q.value? + gained'.length ≤ free f.atoms p.value? + gained.length := by
  fun_induction pass gained clauses p with
  | case1 =>
    cases h
    exact Nat.le_refl _
  | case2 => simp at h
  | case3 gained c clauses p l status ih =>
    obtain ⟨hc, mem⟩ := List.cons_subset.1 mem
    have ⟨hl, isFree⟩ := mem_of_status_unit status
    have fewer := free_assign_lt (Formula.atom_mem_atoms hc hl) isFree (Literal.polarity l)
      .propagated
    have later := ih mem h
    rw [List.length_cons] at later
    omega
  | case4 _ _ _ _ _ ih => exact ih (List.cons_subset.1 mem).2 h

/-- Goes through clauses, and then through those with an atom that got a value, until
no atom gets a value any more.  Stops with `false` at a clause that is false. -/
def propagate (f : Formula) (clauses : List Clause) (mem : clauses ⊆ f.clauses) (p : Position) :
    Bool × Position :=
  match h : pass [] clauses p with
  | (none, q) => (false, q)
  | (some [], q) => (true, q)
  | (some (atom :: gained), q) =>
    have : free f.atoms q.value? < free f.atoms p.value? := by
      have := free_pass_le mem h
      simp only [List.length_cons, List.length_nil] at this
      omega
    propagate f ((atom :: gained).flatMap f.clausesWith)
      (f.flatMap_clausesWith_subset _) q
termination_by free f.atoms p.value?

theorem weight_propagate_le {f : Formula} {clauses : List Clause} (mem : clauses ⊆ f.clauses)
    (p : Position) : (propagate f clauses mem p).2.weight f.atoms ≤ p.weight f.atoms := by
  fun_induction propagate f clauses mem p with
  | case1 clauses mem p q h => simpa [h] using weight_pass_le (List.Subset.refl _) [] mem p
  | case2 clauses mem p q h => simpa [h] using weight_pass_le (List.Subset.refl _) [] mem p
  | case3 clauses mem p atom gained q h _ ih =>
    exact Nat.le_trans ih (by simpa [h] using weight_pass_le (List.Subset.refl _) [] mem p)

/-! ## The search -/

/-- The first of some atoms that is free, and the atoms after it. -/
def nextFree? (p : Position) : List Nat → Option (Nat × List Nat)
  | [] => none
  | atom :: rest => if (p.value? atom).isNone then some (atom, rest) else p.nextFree? rest

theorem nextFree?_spec {p : Position} {atoms rest : List Nat} {atom : Nat}
    (h : p.nextFree? atoms = some (atom, rest)) :
    p.value? atom = none ∧ atom ∈ atoms ∧ rest ⊆ atoms := by
  induction atoms with
  | nil => simp [nextFree?] at h
  | cons a atoms ih =>
    rw [nextFree?] at h
    split at h
    · next isFree =>
      cases h
      exact ⟨by simpa using isFree, List.mem_cons_self, List.subset_cons_self _ _⟩
    · have ⟨isFree, mem, later⟩ := ih h
      exact ⟨isFree, List.mem_cons_of_mem _ mem, fun b hb => List.mem_cons_of_mem _ (later hb)⟩

/-- Searches on from a position, for one that gives a value to every atom of the
formula and makes no clause false.  Only the clauses in `touched` may leave one
literal or none, and only the atoms in `ahead` may be free. -/
def searchFrom (f : Formula) (touched : List Clause) (htouched : touched ⊆ f.clauses)
    (ahead : List Nat) (hahead : ahead ⊆ f.atoms) (p : Position) : Option Position :=
  match h : propagate f touched htouched p with
  | (false, q) =>
    match hr : q.backtrack with
    | none => none
    | some (atom, r) =>
      have : r.weight f.atoms < p.weight f.atoms :=
        Nat.lt_of_lt_of_le (weight_backtrack_lt _ hr)
          (by simpa [h] using weight_propagate_le htouched p)
      searchFrom f (f.clausesWith atom) (f.clausesWith_subset atom) f.atoms
        (List.Subset.refl _) r
  | (true, q) =>
    match hn : q.nextFree? ahead with
    | none => some q
    | some (atom, rest) =>
      have next := nextFree?_spec hn
      have : (q.assign atom false (.decided false)).weight f.atoms < p.weight f.atoms :=
        Nat.lt_of_lt_of_le (weight_assign_lt (hahead next.2.1) next.1 _ _)
          (by simpa [h] using weight_propagate_le htouched p)
      searchFrom f (f.clausesWith atom) (f.clausesWith_subset atom) rest
        (fun _ hb => hahead (next.2.2 hb)) (q.assign atom false (.decided false))
termination_by p.weight f.atoms

/-- Searches on from a position, for one that gives a value to every atom of the
formula and makes no clause false. -/
def search (f : Formula) (p : Position) : Option Position :=
  searchFrom f f.clauses (List.Subset.refl _) f.atoms (List.Subset.refl _) p

/-- Assumes literals one after the other, unless one of them is false already. -/
def assume (p : Position) : List Literal → Option Position
  | [] => some p
  | l :: rest =>
    match p.truth? l with
    | some true => p.assume rest
    | some false => none
    | none => (p.assign (Literal.atom l) (Literal.polarity l) .assumed).assume rest

end Position

namespace Formula

/-- The position at which a search under assumptions ends, if they can hold together
with the clauses. -/
def solve? (f : Formula) (assumptions : List Literal) : Option Position :=
  (Position.assume {} assumptions).bind (Position.search f)

/-- Whether the assumptions cannot hold together with the clauses. -/
def refutes (f : Formula) (assumptions : List Literal) : Bool :=
  (f.solve? assumptions).isNone

end Formula

end Groundwork
