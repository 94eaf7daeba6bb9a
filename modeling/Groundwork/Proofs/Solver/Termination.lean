import Groundwork.Proofs.Solver.Propagation
import Mathlib.Logic.Relation

/-!
# The search ends

The search moves by giving a value to the literal of a unit clause, by deciding a free atom for
false, and by flipping the latest decision that can be flipped.  Values come and go, and after a
conflict the search looks for free atoms from the first one on again.  But every move lowers
`Position.weight`, in whatever order clauses are read and atoms are decided: `Move` leaves this
open, and `weight_lt_of_move` is about all moves.

The loops are described by what one turn of each of them does, and by where it ends.  That a loop
comes to its end after finitely many turns, and that what is found there is what the search
returns, is `EndsAfter`; it follows from a measure that falls with each turn (`exists_endsAfter`).

* `Reading.Repeats`, `Reading.Ends`: passes over clauses.  A pass that is followed by another one
  has given a value to an atom (`gain_of_repeats`);
* `Stage.Turn`, `Stage.Ends`: the search.  A turn is a run of moves (`moves_of_turn`);
* `Solver.Tries`, `Solver.Tried`: assumptions that are left out of a core, or kept;
* `Solver.search_ends`: all loops end, for every solver.
-/

namespace Groundwork

/-! ## Loops -/

section Loop

variable {σ ρ : Type} {turn : σ → σ → Prop} {ends : σ → ρ → Prop}

/-- From `x`, the loop takes `n` turns and then ends with the result `r`. -/
inductive EndsAfter (turn : σ → σ → Prop) (ends : σ → ρ → Prop) : Nat → σ → ρ → Prop where
  | here {x : σ} {r : ρ} (h : ends x r) : EndsAfter turn ends 0 x r
  | turn {n : Nat} {x y : σ} {r : ρ} (h : turn x y) (rest : EndsAfter turn ends n y r) :
      EndsAfter turn ends (n + 1) x r

/-- A loop ends if a measure falls with every turn, and the measure bounds its turns.  The induction
is on the measure. -/
theorem exists_endsAfter (measure : σ → Nat) (result : σ → ρ)
    (hturn : ∀ x y, turn x y → measure y < measure x)
    (hnext : ∀ x, ends x (result x) ∨ ∃ y, turn x y ∧ result y = result x) (x : σ) :
    ∃ n ≤ measure x, EndsAfter turn ends n x (result x) := by
  induction hm : measure x using Nat.strongRecOn generalizing x with
  | ind m ih =>
    subst hm
    rcases hnext x with hend | ⟨y, hy, hresult⟩
    · exact ⟨0, Nat.zero_le _, .here hend⟩
    · have hlt := hturn x y hy
      obtain ⟨n, hn, hrest⟩ := ih (measure y) hlt y rfl
      rw [hresult] at hrest
      exact ⟨n + 1, by omega, .turn hy hrest⟩

end Loop

namespace Position

variable {f : Formula}

/-! ## Moves -/

/-- The moves of a search that decides the given atoms, in any order. -/
inductive Move (f : Formula) (atoms : List Nat) : Position → Position → Prop where
  | propagate {p : Position} {c : Clause} {l : Literal} (hc : c ∈ f.clauses)
      (hunit : p.status c = .unit l) :
      Move f atoms p (p.assign (Literal.atom l) (Literal.polarity l) .propagated)
  | decide {p : Position} {atom : Nat} (hatom : atom ∈ atoms) (hfree : p.value? atom = none) :
      Move f atoms p (p.assign atom false (.decided false))
  | flip {p q : Position} {atom : Nat} (h : p.backtrack = some (atom, q)) : Move f atoms p q

/-- Each move lowers the weight. -/
theorem weight_lt_of_move {atoms : List Nat} (hatoms : f.atoms ⊆ atoms) {p q : Position}
    (h : Move f atoms p q) : q.weight atoms < p.weight atoms := by
  cases h with
  | propagate hc hunit =>
    obtain ⟨hl, hfree⟩ := mem_of_status_unit hunit
    exact weight_assign_lt (hatoms (Formula.atom_mem_atoms hc hl)) hfree _ _
  | decide hatom hfree => exact weight_assign_lt hatom hfree _ _
  | flip h => exact weight_backtrack_lt atoms h

/-- So does every run of moves. -/
theorem weight_lt_of_moves {atoms : List Nat} (hatoms : f.atoms ⊆ atoms) {p q : Position}
    (h : Relation.TransGen (Move f atoms) p q) : q.weight atoms < p.weight atoms := by
  induction h with
  | single h => exact weight_lt_of_move hatoms h
  | tail _ h ih => exact Nat.lt_trans (weight_lt_of_move hatoms h) ih

/-- Propagation is made of moves. -/
theorem moves_propagate (atoms : List Nat) {clauses : List Clause} (mem : clauses ⊆ f.clauses)
    (p : Position) :
    Relation.ReflTransGen (Move f atoms) p (propagate f clauses mem p).2 := by
  have hunit : UnitInvariant f (Relation.ReflTransGen (Move f atoms) p) :=
    fun q c l hc hunit hq => hq.tail (.propagate hc hunit)
  exact propagate_invariant hunit mem .refl

/-! ## Passes -/

/-- Clauses that are to be read at a position. -/
structure Reading (f : Formula) where
  clauses : List Clause
  subset : clauses ⊆ f.clauses
  position : Position

namespace Reading

/-- What propagation comes to. -/
def outcome (x : Reading f) : Bool × Position :=
  propagate f x.clauses x.subset x.position

/-- A pass that is followed by another one. -/
inductive Repeats : Reading f → Reading f → Prop where
  | mk {x : Reading f} {atom : Nat} {gained : List Nat} {q : Position}
      (h : pass [] x.clauses x.position = (some (atom :: gained), q)) :
      Repeats x ⟨(atom :: gained).flatMap f.clausesWith, f.flatMap_clausesWith_subset _, q⟩

/-- The last pass.  It meets a clause that is false, or gives no value. -/
inductive Ends : Reading f → Bool × Position → Prop where
  | conflict {x : Reading f} {q : Position} (h : pass [] x.clauses x.position = (none, q)) :
      Ends x (false, q)
  | fixpoint {x : Reading f} {q : Position} (h : pass [] x.clauses x.position = (some [], q)) :
      Ends x (true, q)

theorem ends_or_repeats (x : Reading f) :
    Ends x x.outcome ∨ ∃ y, Repeats x y ∧ y.outcome = x.outcome := by
  unfold outcome
  rw [propagate.eq_def f x.clauses x.subset x.position]
  split
  · next h => exact Or.inl (.conflict h)
  · next h => exact Or.inl (.fixpoint h)
  · next h => exact Or.inr ⟨_, .mk h, rfl⟩

/-- A pass that is followed by another one takes no value back, and gives a value to an atom of the
formula that was free. -/
theorem gain_of_repeats {x y : Reading f} (h : Repeats x y) :
    (∀ atom value, x.position.value? atom = some value → y.position.value? atom = some value) ∧
      ∃ atom ∈ f.atoms, x.position.value? atom = none ∧ y.position.value? atom ≠ none := by
  cases h with
  | @mk atom gained q h =>
    obtain ⟨added, hadded, hgains, hsub⟩ := gains_pass x.subset h
    rw [List.append_nil] at hadded
    have hatom : atom ∈ added := hadded ▸ List.mem_cons_self
    exact ⟨hgains.kept, atom, hsub hatom, (hgains.mem_iff atom).1 hatom⟩

/-- So there are no more passes than free atoms before the last one. -/
theorem exists_endsAfter_passes (x : Reading f) :
    ∃ n ≤ free f.atoms x.position.value?, EndsAfter Repeats Ends n x x.outcome := by
  refine exists_endsAfter (fun x => free f.atoms x.position.value?) outcome ?_ ends_or_repeats x
  intro x y h
  cases h with
  | @mk atom gained q h =>
    have hle := free_pass_le x.subset h
    simp only [List.length_cons, List.length_nil] at hle
    show free f.atoms q.value? < free f.atoms x.position.value?
    omega

end Reading

/-! ## Turns of the search -/

/-- What the search goes on from: the clauses to be read, the atoms to be decided, and a position. -/
structure Stage (f : Formula) where
  touched : List Clause
  touched_subset : touched ⊆ f.clauses
  ahead : List Nat
  ahead_subset : ahead ⊆ f.atoms
  position : Position

namespace Stage

/-- What propagation comes to. -/
def propagated (x : Stage f) : Bool × Position :=
  propagate f x.touched x.touched_subset x.position

/-- What the search comes to. -/
def result (x : Stage f) : Option Position :=
  searchFrom f x.touched x.touched_subset x.ahead x.ahead_subset x.position

/-- A turn of the search propagates, and then flips a decision or makes one. -/
inductive Turn : Stage f → Stage f → Prop where
  | flip {x : Stage f} {q r : Position} {atom : Nat} (h : x.propagated = (false, q))
      (hr : q.backtrack = some (atom, r)) :
      Turn x ⟨f.clausesWith atom, f.clausesWith_subset atom, f.atoms, List.Subset.refl _, r⟩
  | decide {x : Stage f} {q : Position} {atom : Nat} {rest : List Nat}
      (h : x.propagated = (true, q)) (hn : q.nextFree? x.ahead = some (atom, rest)) :
      Turn x ⟨f.clausesWith atom, f.clausesWith_subset atom, rest,
        fun _ hb => x.ahead_subset ((nextFree?_spec hn).2.2 hb),
        q.assign atom false (.decided false)⟩

/-- The search ends when no decision is left to flip, or no atom is free. -/
inductive Ends : Stage f → Option Position → Prop where
  | refuted {x : Stage f} {q : Position} (h : x.propagated = (false, q))
      (hr : q.backtrack = none) : Ends x none
  | found {x : Stage f} {q : Position} (h : x.propagated = (true, q))
      (hn : q.nextFree? x.ahead = none) : Ends x (some q)

theorem ends_or_turns (x : Stage f) : Ends x x.result ∨ ∃ y, Turn x y ∧ y.result = x.result := by
  unfold result
  rw [searchFrom.eq_def f x.touched x.touched_subset x.ahead x.ahead_subset x.position]
  split
  · next q h =>
    have hx : x.propagated = (false, q) := h
    split
    · next hr => exact Or.inl (.refuted hx hr)
    · next atom r hr => exact Or.inr ⟨_, .flip hx hr, rfl⟩
  · next q h =>
    have hx : x.propagated = (true, q) := h
    split
    · next hn => exact Or.inl (.found hx hn)
    · next atom rest hn => exact Or.inr ⟨_, .decide hx hn, rfl⟩

/-- A turn is a run of moves, the last of which is the flip or the decision. -/
theorem moves_of_turn {x y : Stage f} (h : Turn x y) :
    Relation.TransGen (Move f f.atoms) x.position y.position := by
  have hpropagated := moves_propagate f.atoms x.touched_subset x.position
  cases h with
  | flip h hr =>
    rw [show propagate f _ x.touched_subset x.position = _ from h] at hpropagated
    exact .tail' hpropagated (.flip hr)
  | decide h hn =>
    rw [show propagate f _ x.touched_subset x.position = _ from h] at hpropagated
    obtain ⟨hfree, hmem, _⟩ := nextFree?_spec hn
    exact .tail' hpropagated (.decide (x.ahead_subset hmem) hfree)

theorem exists_endsAfter_turns (x : Stage f) :
    ∃ n ≤ x.position.weight f.atoms, EndsAfter Turn Ends n x x.result := by
  refine exists_endsAfter (fun x => x.position.weight f.atoms) result ?_ ends_or_turns x
  intro x y h
  exact weight_lt_of_moves (List.Subset.refl _) (moves_of_turn h)

/-- What a search goes on from at first. -/
def start (f : Formula) (first : Position) : Stage f :=
  ⟨f.clauses, fun _ h => h, f.atoms, fun _ h => h, first⟩

end Stage

/-- Assumptions are never flipped. -/
theorem pending_of_assumed (atoms : List Nat) (value? : Nat → Option Bool)
    {trail : List (Nat × Reason)} (h : ∀ step ∈ trail, step.2 = .assumed) :
    pending atoms value? trail = 0 := by
  induction trail generalizing value? with
  | nil => rfl
  | cons step trail ih =>
    obtain ⟨hstep, hrest⟩ := List.forall_mem_cons.1 h
    obtain ⟨atom, reason⟩ := step
    obtain rfl : reason = .assumed := hstep
    rw [pending, ih _ hrest]
    rfl

/-- Under assumptions the search takes no more turns than a number that only depends on how many
atoms there are. -/
theorem exists_endsAfter_solve? (f : Formula) {assumptions : List Literal} {first : Position}
    (h : assume {} assumptions = some first) :
    ∃ n ≤ worth f.atoms.length,
      EndsAfter Stage.Turn Stage.Ends n (Stage.start f first) (f.solve? assumptions) := by
  have hassumed : ∀ step ∈ first.trail, step.2 = .assumed := assumed_of_assume h (by simp)
  have hweight : first.weight f.atoms ≤ worth f.atoms.length := by
    rw [weight, pending_of_assumed _ _ hassumed]
    exact worth_le_worth (List.countP_le_length)
  obtain ⟨n, hn, hends⟩ := (Stage.start f first).exists_endsAfter_turns
  refine ⟨n, Nat.le_trans hn hweight, ?_⟩
  rw [Formula.solve?, h]
  exact hends

end Position

namespace Solver

/-! ## Assumptions that are left out -/

variable {f : Formula}

/-- One assumption is tried, and is left out if the others are refuted without it. -/
inductive Tries (f : Formula) :
    List Literal × List Literal → List Literal × List Literal → Prop where
  | leave {kept rest : List Literal} {l : Literal} (h : f.refutes (kept ++ rest) = true) :
      Tries f (kept, l :: rest) (kept, rest)
  | keep {kept rest : List Literal} {l : Literal} (h : f.refutes (kept ++ rest) = false) :
      Tries f (kept, l :: rest) (kept ++ [l], rest)

/-- All assumptions have been tried. -/
inductive Tried : List Literal × List Literal → List Literal → Prop where
  | mk {kept : List Literal} : Tried (kept, []) kept

/-- Each assumption is tried once. -/
theorem endsAfter_prune (kept rest : List Literal) :
    EndsAfter (Tries f) Tried rest.length (kept, rest) (prune f kept rest) := by
  induction rest generalizing kept with
  | nil => exact .here .mk
  | cons l rest ih =>
    rw [prune]
    cases h : f.refutes (kept ++ rest) with
    | true => exact .turn (.leave h) (ih kept)
    | false => exact .turn (.keep h) (ih (kept ++ [l]))

/-! ## All loops -/

/-- The loops of a search end, and what they come to is what they end with. -/
structure SearchEnds (f : Formula) : Prop where
  /-- A number falls with every decision, every flip, and every value that is propagated. -/
  falls : ∀ atoms, f.atoms ⊆ atoms → ∀ p q, Position.Move f atoms p q →
    q.weight atoms < p.weight atoms
  moves : ∀ x y : Position.Stage f, x.Turn y →
    Relation.TransGen (Position.Move f f.atoms) x.position y.position
  /-- A pass that is followed by another one gives a value to an atom, and takes none back. -/
  gain : ∀ x y : Position.Reading f, x.Repeats y →
    (∀ atom value, x.position.value? atom = some value → y.position.value? atom = some value) ∧
      ∃ atom ∈ f.atoms, x.position.value? atom = none ∧ y.position.value? atom ≠ none
  passes : ∀ x : Position.Reading f, ∃ n ≤ Position.free f.atoms x.position.value?,
    EndsAfter Position.Reading.Repeats Position.Reading.Ends n x x.outcome
  turns : ∀ x : Position.Stage f, ∃ n ≤ x.position.weight f.atoms,
    EndsAfter Position.Stage.Turn Position.Stage.Ends n x x.result
  /-- Assumptions clash, or the search under them ends. -/
  decided : ∀ assumptions,
    Position.assume {} assumptions = none ∧ f.solve? assumptions = none ∨
      ∃ first, Position.assume {} assumptions = some first ∧
        ∃ n ≤ Position.worth f.atoms.length,
          EndsAfter Position.Stage.Turn Position.Stage.Ends n (Position.Stage.start f first)
            (f.solve? assumptions)
  tried : ∀ assumptions,
    EndsAfter (Tries f) Tried assumptions.length ([], assumptions) (prune f [] assumptions)

/-- For every solver, the search ends from wherever it goes on, propagation ends, and so does the
search for a core. -/
theorem search_ends (s : Solver) : SearchEnds s.formula := by
  refine ⟨fun _ hatoms _ _ h => Position.weight_lt_of_move hatoms h,
    fun _ _ h => Position.Stage.moves_of_turn h, fun _ _ h => Position.Reading.gain_of_repeats h,
    fun x => x.exists_endsAfter_passes, fun x => x.exists_endsAfter_turns, fun assumptions => ?_,
    fun assumptions => endsAfter_prune [] assumptions⟩
  cases h : Position.assume {} assumptions with
  | none =>
    refine Or.inl ⟨rfl, ?_⟩
    rw [Formula.solve?, h]
    rfl
  | some first => exact Or.inr ⟨first, rfl, Position.exists_endsAfter_solve? s.formula h⟩

end Solver

end Groundwork
