import Groundwork.Proofs.Solver.Least
import Groundwork.Proofs.Solver.Stored
import Mathlib.Data.List.Forall2

/-!
# Calls with a zero

A clause or a list of assumptions with a zero is refused.  The clauses, the model and the core are
left alone, but the literals before the zero have been noted by then, so that later models may
have literals for atoms that they would not have.

The two solvers to compare are the one before the call and the one after it (`Ahead`): the second
one has the same clauses, and may have met further atoms.  What the search finds depends on the
clauses alone, and what it finds is false at all further atoms (`mem_atoms_of_true`).

* `Ahead.add`, `Ahead.solve`: each call is answered alike by both, up to the length of models;
* `refused_prolongs_models`: what this means for everything that may follow a refused call, and
  that nothing can be told if the literals before the zero are about atoms that were met before;
* `refused_seen_in_model`: a refused call that is told by the next model.
-/

namespace Groundwork

/-- What the search makes true is an atom of the formula or of an assumption. -/
theorem Formula.mem_atoms_of_true {f : Formula} {assumptions : List Literal} {p : Position}
    (hp : f.solve? assumptions = some p) {atom : Nat} (htrue : p.assignment atom = true) :
    atom ∈ f.atoms ∨ ∃ l ∈ assumptions, Literal.atom l = atom := by
  apply Classical.byContradiction
  intro hnone
  obtain ⟨hatom, hassumed⟩ := not_or.1 hnone
  obtain ⟨hmodels, hholds⟩ := (found_of_solve? hp).solves
  have hcleared : p.assignment atom = false := by
    apply (found_of_solve? hp).assignment_eq_false
    · exact models_clear hmodels hatom
    · intro l hl
      exact Assignment.holds_clear (hholds l hl) fun hsame => absurd ⟨l, hl, hsame⟩ hassumed
  rw [htrue] at hcleared
  cases hcleared

namespace Solver

/-! ## What can be seen of a solver -/

/-- The answers of a solver to all that can be asked without changing it. -/
structure View where
  model? : Except BackendError (List Literal)
  core : List Literal
  clauseCount : Nat

/-- What can be seen of a solver. -/
def view (s : Solver) : View where
  model? := s.model?
  core := s.core
  clauseCount := s.clauseCount

/-- What a call answers. -/
inductive Answer where
  | added (result : Except BackendError Admission)
  | decided (result : Except BackendError Verdict)
  | done

/-- The answer of a solver to a call. -/
def answer (s : Solver) : Call → Answer
  | .add c => .added (s.add c).1
  | .solve assumptions => .decided (s.solve assumptions).1
  | .reset => .done

/-- The answers to calls that are made one after the other, each with what can be seen of the solver
behind it. -/
def answers (s : Solver) : List Call → List (Answer × View)
  | [] => []
  | call :: calls => (s.answer call, (s.after call).view) :: answers (s.after call) calls

/-- The literals of a call. -/
def Call.literals : Call → List Literal
  | .add c => c
  | .solve assumptions => assumptions
  | .reset => []

/-- The answer that refuses a call for a zero. -/
def Call.refusal : Call → Answer
  | .add _ => .added (.error .zeroLiteral)
  | .solve _ => .decided (.error .zeroLiteral)
  | .reset => .done

/-- A model with literals for the `n` next atoms, all of them false. -/
def prolonged (model : List Literal) (n : Nat) : List Literal :=
  model ++ (List.range' (model.length + 1) n).map (Literal.ofAtom · false)

theorem prolonged_zero (model : List Literal) : prolonged model 0 = model :=
  List.append_nil model

/-- What can be seen of the second solver is what can be seen of the first, but for a longer
model. -/
structure View.Prolongs (v w : View) : Prop where
  model : ∃ n, w.model? = v.model?.map (prolonged · n)
  core_eq : w.core = v.core
  clauseCount_eq : w.clauseCount = v.clauseCount

/-! ## Two solvers, the second of which has met more atoms -/

/-- The solvers have the same clauses, and the second may have met further atoms. -/
structure Ahead (s t : Solver) : Prop where
  minimise_eq : t.minimise = s.minimise
  clauses_eq : t.clauses = s.clauses
  hasEmpty_eq : t.hasEmpty = s.hasEmpty
  atoms_le : s.atoms ≤ t.atoms
  model : ∃ n, t.model = s.model.map (prolonged · n)
  core_eq : t.core = s.core

theorem Ahead.refl (s : Solver) : Ahead s s := by
  refine ⟨rfl, rfl, rfl, Nat.le_refl _, ⟨0, ?_⟩, rfl⟩
  simp only [prolonged_zero, Option.map_id']

section Ahead

variable {s t : Solver}

theorem Ahead.formula_eq (h : Ahead s t) : t.formula = s.formula := by
  rw [formula, formula, h.clauses_eq, h.hasEmpty_eq]

theorem Ahead.prolongs (h : Ahead s t) : s.view.Prolongs t.view := by
  obtain ⟨n, hn⟩ := h.model
  refine ⟨⟨n, ?_⟩, h.core_eq, ?_⟩
  · show t.model? = s.model?.map (prolonged · n)
    rw [model?, model?, hn]
    cases s.model <;> rfl
  · show t.clauseCount = s.clauseCount
    rw [clauseCount, clauseCount, h.clauses_eq, h.hasEmpty_eq]

theorem foldl_max_mono (literals : List Literal) {m n : Nat} (h : m ≤ n) :
    literals.foldl (fun n l => max n (Literal.atom l)) m ≤
      literals.foldl (fun n l => max n (Literal.atom l)) n := by
  obtain ⟨hn, hall⟩ := le_foldl_max literals n
  exact foldl_max_le (Nat.le_trans h hn) hall

theorem Ahead.noteAtoms (h : Ahead s t) (literals : List Literal) :
    Ahead (s.noteAtoms literals).2 (t.noteAtoms literals).2 := by
  rw [noteAtoms_snd, noteAtoms_snd]
  exact ⟨h.minimise_eq, h.clauses_eq, h.hasEmpty_eq, foldl_max_mono _ h.atoms_le, h.model,
    h.core_eq⟩

theorem Ahead.add (h : Ahead s t) (c : Clause) :
    (t.add c).1 = (s.add c).1 ∧ Ahead (s.add c).2 (t.add c).2 := by
  by_cases hzero : 0 ∈ c
  · rw [add_of_zero hzero, add_of_zero hzero]
    exact ⟨rfl, h.noteAtoms c⟩
  have hc : ∀ l ∈ c, l ≠ 0 := fun l hl hl0 => hzero (hl0 ▸ hl)
  have hatoms := foldl_max_mono c h.atoms_le
  rw [add_eq hc, add_eq hc]
  dsimp only
  split
  · exact ⟨rfl, h.minimise_eq, h.clauses_eq, h.hasEmpty_eq, hatoms, h.model, h.core_eq⟩
  · split
    · exact ⟨rfl, h.minimise_eq, h.clauses_eq, rfl, hatoms, h.model, h.core_eq⟩
    · have hpush : t.clauses.push (normalise c) = s.clauses.push (normalise c) := by
        rw [h.clauses_eq]
      exact ⟨rfl, h.minimise_eq, hpush, h.hasEmpty_eq, hatoms, h.model, h.core_eq⟩

/-- The model of a position can be given up to any greater atom.  Beyond the atoms that were met it
is false. -/
theorem model_eq_prolonged {p : Position} {m n : Nat} (hle : m ≤ n)
    (hmet : ∀ atom, p.assignment atom = true → atom ≤ m) :
    p.model n = prolonged (p.model m) (n - m) := by
  have hlength : (p.model m).length = m := by
    rw [Position.model, List.length_map, List.length_range']
  have hrange : List.range' 1 n = List.range' 1 m ++ List.range' (m + 1) (n - m) := by
    rw [Nat.add_comm m 1, List.range'_append_1, Nat.add_sub_cancel' hle]
  rw [prolonged, hlength, Position.model, hrange, List.map_append]
  refine congrArg (p.model m ++ ·) (List.map_congr_left fun atom hatom => ?_)
  have hbeyond := (List.mem_range'_1.1 hatom).1
  cases htrue : p.assignment atom with
  | false => rfl
  | true =>
    have := hmet atom htrue
    omega

theorem Ahead.solve (h : Ahead s t) (hs : HoldsStored s) (assumptions : List Literal) :
    (t.solve assumptions).1 = (s.solve assumptions).1 ∧
      Ahead (s.solve assumptions).2 (t.solve assumptions).2 := by
  by_cases hzero : 0 ∈ assumptions
  · rw [solve_of_zero hzero, solve_of_zero hzero]
    exact ⟨rfl, h.noteAtoms assumptions⟩
  have hne : ∀ l ∈ assumptions, l ≠ 0 := fun l hl hl0 => hzero (hl0 ▸ hl)
  have hatoms := foldl_max_mono assumptions h.atoms_le
  obtain ⟨hmet, hassumed⟩ := le_foldl_max assumptions s.atoms
  cases hp : s.formula.solve? assumptions with
  | none =>
    rw [solve_of_eq_none hne hp, solve_of_eq_none hne (h.formula_eq ▸ hp)]
    refine ⟨rfl, h.minimise_eq, h.clauses_eq, h.hasEmpty_eq, hatoms, ⟨0, rfl⟩, ?_⟩
    dsimp only
    rw [h.formula_eq, h.minimise_eq]
  | some p =>
    rw [solve_of_eq_some hne hp, solve_of_eq_some hne (h.formula_eq ▸ hp)]
    have hbound : ∀ atom, p.assignment atom = true →
        atom ≤ assumptions.foldl (fun n l => max n (Literal.atom l)) s.atoms := by
      intro atom htrue
      rcases Formula.mem_atoms_of_true hp htrue with hatom | ⟨l, hl, rfl⟩
      · exact Nat.le_trans (hs.le_atoms atom hatom) hmet
      · exact hassumed l hl
    exact ⟨rfl, h.minimise_eq, h.clauses_eq, h.hasEmpty_eq, hatoms,
      ⟨_, congrArg some (model_eq_prolonged hatoms hbound)⟩, rfl⟩

theorem Ahead.after (h : Ahead s t) (hs : HoldsStored s) (call : Call) :
    t.answer call = s.answer call ∧ Ahead (s.after call) (t.after call) := by
  cases call with
  | add c =>
    obtain ⟨hanswer, hahead⟩ := h.add c
    exact ⟨congrArg Answer.added hanswer, hahead⟩
  | solve assumptions =>
    obtain ⟨hanswer, hahead⟩ := h.solve hs assumptions
    exact ⟨congrArg Answer.decided hanswer, hahead⟩
  | reset =>
    refine ⟨rfl, ?_⟩
    show Ahead s.reset t.reset
    rw [reset, reset, h.minimise_eq]
    exact .refl _

/-- The induction is on the calls. -/
theorem Ahead.answers (h : Ahead s t) (hs : HoldsStored s) (calls : List Call) :
    List.Forall₂ (fun x y => y.1 = x.1 ∧ x.2.Prolongs y.2) (s.answers calls) (t.answers calls) := by
  induction calls generalizing s t with
  | nil => exact .nil
  | cons call calls ih =>
    obtain ⟨hanswer, hahead⟩ := h.after hs call
    exact .cons ⟨hanswer, hahead.prolongs⟩ (ih hahead (hs.after call))

end Ahead

/-! ## Refused calls -/

/-- What a refused call leaves behind. -/
theorem after_of_zero {call : Call} (hzero : 0 ∈ call.literals) (s : Solver) :
    s.answer call = call.refusal ∧ s.after call = { s with
      atoms := (beforeZero call.literals).foldl (fun n l => max n (Literal.atom l)) s.atoms } := by
  rw [← noteAtoms_snd]
  cases call with
  | add c =>
    have hadd : s.add c = (.error .zeroLiteral, (s.noteAtoms c).2) := add_of_zero hzero s
    exact ⟨congrArg Answer.added (congrArg Prod.fst hadd), congrArg Prod.snd hadd⟩
  | solve assumptions =>
    have hsolve : s.solve assumptions = (.error .zeroLiteral, (s.noteAtoms assumptions).2) :=
      solve_of_zero hzero s
    exact ⟨congrArg Answer.decided (congrArg Prod.fst hsolve), congrArg Prod.snd hsolve⟩
  | reset => cases hzero

/-- What a refused call means for all that follows it. -/
structure Refused (s : Solver) (call : Call) : Prop where
  answer : s.answer call = call.refusal
  /-- Nothing can be seen of the call itself. -/
  view : (s.after call).view = s.view
  /-- All later answers are the same, but for literals that are false at the end of models. -/
  prolongs : ∀ later : List Call, List.Forall₂ (fun x y => y.1 = x.1 ∧ x.2.Prolongs y.2)
    (s.answers later) ((s.after call).answers later)
  /-- If the literals before the zero are about atoms that have been met, so are the models. -/
  unseen : (∀ l ∈ beforeZero call.literals, Literal.atom l ≤ s.atoms) →
    ∀ later : List Call, (s.after call).answers later = s.answers later

/-- After every history, a call with a zero is refused, and all that follows is as if it had not
been made, but for the length of models. -/
theorem refused_prolongs_models (minimise : Bool) (calls : List Call) (call : Call)
    (hzero : 0 ∈ call.literals) : Refused (run minimise calls) call := by
  obtain ⟨hanswer, hafter⟩ := after_of_zero hzero (run minimise calls)
  refine ⟨hanswer, ?_, fun later => ?_, fun hmet later => ?_⟩
  · rw [hafter]
    rfl
  · have hahead : Ahead (run minimise calls) ((run minimise calls).after call) := by
      obtain ⟨hminimise, hclauses, hempty, _, hmodel, hcore⟩ := Ahead.refl (run minimise calls)
      rw [hafter]
      exact ⟨hminimise, hclauses, hempty, (le_foldl_max _ _).1, hmodel, hcore⟩
    exact hahead.answers (stored_run minimise calls) later
  · rw [hafter, foldl_max_eq hmet]

/-- Assumptions with a zero, after a decision that found a model. -/
theorem refused_prolongs_models_assumptions :
    0 ∈ (Call.solve [2, -5, 0, 7]).literals ∧
      Refused (run true [.add [1, -2], .add [3, 0], .solve [2]]) (.solve [2, -5, 0, 7]) :=
  ⟨by decide, refused_prolongs_models true _ _ (by decide)⟩

/-- Without clauses, all atoms are false. -/
theorem solve_nil (s : Solver) (hclauses : s.clauses = #[]) (hempty : s.hasEmpty = false) :
    s.solve [] = (.ok .satisfiable, { s with
      model := some ((List.range' 1 s.atoms).map (Literal.ofAtom · false)), core := [] }) := by
  have hmodels : ∀ v, s.formula.Models v := fun v =>
    formula_models_iff.2 ⟨hempty, by simp [hclauses]⟩
  have hholds : ∀ v : Assignment, ∀ l ∈ ([] : List Literal), Literal.Holds v l := by simp
  cases hp : s.formula.solve? [] with
  | none =>
    exact absurd ⟨fun _ => false, hmodels _, hholds _⟩ ((Formula.solve?_eq_none_iff _ _).1 hp)
  | some p =>
    rw [solve_of_eq_some (by simp) hp]
    have hfalse : ∀ atom, p.assignment atom = false := fun atom =>
      (Formula.found_of_solve? hp).assignment_eq_false (hmodels _) (hholds _)
    simp only [Position.model, hfalse, List.foldl_nil]

/-- The clause is refused, and the model that is found next has a literal for its first atom.
There would be no such literal without the call. -/
theorem refused_seen_in_model :
    0 ∈ (Call.add [1, 0]).literals ∧
    (run true []).answer (.add [1, 0]) = .added (.error .zeroLiteral) ∧
    (run true []).answers [.solve []] =
      [(.decided (.ok .satisfiable), { model? := .ok [], core := [], clauseCount := 0 })] ∧
    ((run true []).after (.add [1, 0])).answers [.solve []] =
      [(.decided (.ok .satisfiable), { model? := .ok [-1], core := [], clauseCount := 0 })] := by
  have hzero : 0 ∈ (Call.add [1, 0]).literals := by decide
  obtain ⟨hanswer, hafter⟩ := after_of_zero hzero (run true [])
  refine ⟨hzero, hanswer, ?_, ?_⟩
  · have hsolve := solve_nil (run true []) rfl rfl
    simp only [answers, answer, after, hsolve]
    rfl
  · rw [hafter]
    have hsolve := solve_nil { run true [] with atoms := 1 } rfl rfl
    show answers { run true [] with atoms := 1 } _ = _
    simp only [answers, answer, after, hsolve]
    rfl

end Solver

end Groundwork
