import Groundwork.Proofs.Solver.Core
import Groundwork.Proofs.Solver.Least

/-!
# Answers depend on what the clauses say

Solvers whose recorded clauses have the same models give the same answers, in whatever form
the clauses came and whatever was decided in between.  The searches may go different ways, but
a verdict only says whether there is a model, a core comes from verdicts alone, and a model is
the first one of all.

* `Formula.Found.assignment_congr` and `coreOf_congr`: formulas with the same models have the same
  assignment and the same cores;
* `solve_congr`: the answers of two solvers, each with a history of its own.
-/

namespace Groundwork

/-! ## Formulas with the same models -/

section

variable {f f' : Formula} (hmodels : ∀ v, f.Models v ↔ f'.Models v)

include hmodels

theorem Formula.refutes_congr (assumptions : List Literal) :
    f.refutes assumptions = f'.refutes assumptions := by
  rw [Bool.eq_iff_iff, refutes_iff, refutes_iff]
  exact not_congr (exists_congr fun v => and_congr_left' (hmodels v))

theorem Formula.isNone_solve?_congr (assumptions : List Literal) :
    f.solve? assumptions = none ↔ f'.solve? assumptions = none := by
  have hrefutes := refutes_congr hmodels assumptions
  rw [refutes, refutes] at hrefutes
  rw [← Option.isNone_iff_eq_none, ← Option.isNone_iff_eq_none, hrefutes]

/-- The induction is on the atoms, with all lesser ones at once. -/
theorem Formula.Found.assignment_congr {assumptions : List Literal} {p p' : Position}
    (hp : f.Found assumptions p) (hp' : f'.Found assumptions p') :
    p.assignment = p'.assignment := by
  obtain ⟨hf, hholds⟩ := hp.solves
  obtain ⟨hf', hholds'⟩ := hp'.solves
  funext atom
  induction atom using Nat.strongRecOn with
  | ind atom ih =>
    rw [Bool.eq_iff_iff]
    constructor
    · exact hp.true_of_lesser ((hmodels _).2 hf') hholds' ih
    · exact hp'.true_of_lesser ((hmodels _).1 hf) hholds fun a hlt => (ih a hlt).symm

theorem Solver.prune_congr (kept rest : List Literal) : prune f kept rest = prune f' kept rest := by
  induction rest generalizing kept with
  | nil => rfl
  | cons l rest ih => rw [prune, prune, Formula.refutes_congr hmodels, ih, ih]

theorem Solver.coreOf_congr (minimise : Bool) (assumptions : List Literal) :
    coreOf f minimise assumptions = coreOf f' minimise assumptions := by
  rw [coreOf, coreOf, Formula.refutes_congr hmodels, prune_congr hmodels]

end

/-! ## Solvers -/

namespace Solver

/-- Two models give the same literal to each atom that both of them have, and make every
further atom false. -/
structure Agree (model model' : List Literal) : Prop where
  common : ∀ l ∈ model, ∀ l' ∈ model', Literal.atom l = Literal.atom l' → l = l'
  further : ∀ l ∈ model, (∀ l' ∈ model', Literal.atom l' ≠ Literal.atom l) →
    Literal.polarity l = false
  further' : ∀ l' ∈ model', (∀ l ∈ model, Literal.atom l ≠ Literal.atom l') →
    Literal.polarity l' = false

/-- What it means that two decisions come out alike. -/
structure Alike (outcome outcome' : Except BackendError Verdict × Solver) : Prop where
  verdict : outcome.1 = outcome'.1
  /-- If there is a verdict at all, it leaves the same core behind. -/
  core : ∀ verdict, outcome.1 = .ok verdict → outcome.2.core = outcome'.2.core
  model : outcome.1 = .ok .satisfiable → ∃ model model', outcome.2.model? = .ok model ∧
    outcome'.2.model? = .ok model' ∧ Agree model model'

/-- Of two positions with the same assignment, a further atom of the longer model is false, as it
was not met where the model is shorter. -/
theorem polarity_of_further {p p' : Position} (hsame : p.assignment = p'.assignment) {n n' : Nat}
    (hn : n ≤ maxAtom + 1)
    (hmet : ∀ atom, p'.assignment atom = true → atom ≤ n') {l : Literal} (hl : l ∈ p.model n)
    (hfurther : ∀ l' ∈ p'.model n', Literal.atom l' ≠ Literal.atom l) :
    Literal.polarity l = false := by
  obtain ⟨a, ha, rfl⟩ := List.mem_map.1 hl
  have hrange := List.mem_range'_1.1 ha
  have hle : a ≤ maxAtom + 1 := by omega
  cases htrue : p.assignment a with
  | false => exact Literal.polarity_ofAtom_false hle
  | true =>
    have hmem : a ∈ List.range' 1 n' := by
      have := hmet a (hsame ▸ htrue)
      exact List.mem_range'_1.2 (by omega)
    refine absurd ?_ (hfurther _ (List.mem_map_of_mem hmem))
    rw [Literal.atom_ofAtom_of_le_succ hle, Literal.atom_ofAtom_of_le_succ hle]

theorem agree_model {p p' : Position} (hsame : p.assignment = p'.assignment) {n n' : Nat}
    (hn : n ≤ maxAtom + 1) (hn' : n' ≤ maxAtom + 1)
    (hmet : ∀ atom, p.assignment atom = true → atom ≤ n)
    (hmet' : ∀ atom, p'.assignment atom = true → atom ≤ n') :
    Agree (p.model n) (p'.model n') := by
  refine ⟨fun l hl l' hl' hatom => ?_, fun l => polarity_of_further hsame hn hmet',
    fun l => polarity_of_further hsame.symm hn' hmet⟩
  obtain ⟨a, ha, rfl⟩ := List.mem_map.1 hl
  obtain ⟨a', ha', rfl⟩ := List.mem_map.1 hl'
  have hle := (List.mem_range'_1.1 ha).2
  have hle' := (List.mem_range'_1.1 ha').2
  rw [Literal.atom_ofAtom_of_le_succ (by omega), Literal.atom_ofAtom_of_le_succ (by omega)] at hatom
  rw [hatom, hsame]

variable {minimise : Bool} {s s' : Solver} {g g' : Given}

theorem Keeps.le_greatestAtom (h : Keeps minimise s g) {assumptions : List Literal} {p : Position}
    (hp : s.formula.solve? assumptions = some p) (atom : Nat) (htrue : p.assignment atom = true) :
    atom ≤ greatestAtom (g.literals ++ assumptions) := by
  obtain ⟨l, hl, rfl, _⟩ := h.exists_literal hp htrue
  exact atom_le_greatestAtom hl

theorem Keeps.alike (h : Keeps minimise s g) (h' : Keeps minimise s' g')
    (hcontent : ∀ v, (∀ c ∈ g.recorded, Clause.Holds v c) ↔ ∀ c ∈ g'.recorded, Clause.Holds v c)
    (assumptions : List Literal) : Alike (s.solve assumptions) (s'.solve assumptions) := by
  have hmodels : ∀ v, s.formula.Models v ↔ s'.formula.Models v := fun v =>
    (h.models v).trans ((hcontent v).trans (h'.models v).symm)
  by_cases hzero : 0 ∈ assumptions
  · have herror := solve_zero hzero s
    refine ⟨herror.trans (solve_zero hzero s').symm, ?_, ?_⟩ <;> simp [herror]
  have hne : ∀ l ∈ assumptions, l ≠ 0 := fun l hl hl0 => hzero (hl0 ▸ hl)
  have hnone := Formula.isNone_solve?_congr hmodels assumptions
  rw [solve_eq hne, solve_eq hne, h.greatest, h'.greatest]
  cases hp : s.formula.solve? assumptions with
  | none =>
    rw [hnone.1 hp]
    refine ⟨rfl, fun _ _ => ?_, by simp⟩
    rw [h.minimise_eq, h'.minimise_eq]
    exact coreOf_congr hmodels minimise assumptions
  | some p =>
    cases hp' : s'.formula.solve? assumptions with
    | none =>
      rw [hnone.2 hp'] at hp
      cases hp
    | some p' =>
      refine ⟨rfl, fun _ _ => rfl, fun _ => ⟨_, _, rfl, rfl, ?_⟩⟩
      exact agree_model (Formula.Found.assignment_congr hmodels (Formula.found_of_solve? hp)
        (Formula.found_of_solve? hp')) (greatestAtom_le_succ _)
        (greatestAtom_le_succ _) (h.le_greatestAtom hp) (h'.le_greatestAtom hp')

/-- After any two histories that leave behind recorded clauses with the same models, each decision
comes out alike. -/
theorem solve_congr (minimise : Bool) (calls calls' : List Call)
    (hcalls : ∀ call ∈ calls, call.NonZero) (hcalls' : ∀ call ∈ calls', call.NonZero)
    (hcontent : ∀ v, (∀ c ∈ (given calls).recorded, Clause.Holds v c) ↔
      ∀ c ∈ (given calls').recorded, Clause.Holds v c) (assumptions : List Literal) :
    Alike ((run minimise calls).solve assumptions) ((run minimise calls').solve assumptions) :=
  (keeps_run minimise hcalls).alike (keeps_run minimise hcalls') hcontent assumptions

/-- The same two clauses, the second time in another order, with a literal and a clause twice, a
tautology, and decisions in between. -/
theorem solve_congr_reordered :
    Alike ((run true [.add [-1, 2], .add [-2, 3]]).solve [4, 1, -3])
      ((run true [.add [7], .reset, .solve [5], .add [3, -2, 3], .solve [1], .add [2, -1],
        .add [2, -1], .add [4, -4]]).solve [4, 1, -3]) := by
  refine solve_congr true _ _ (by decide) (by decide) (fun v => ?_) _
  show (∀ c ∈ [[-1, 2], [-2, 3]], Clause.Holds v c) ↔
    ∀ c ∈ [[3, -2, 3], [2, -1], [2, -1]], Clause.Holds v c
  have hordered : Clause.Holds v [2, -1] ↔ Clause.Holds v [-1, 2] :=
    Clause.holds_of_mem_iff (by grind) v
  have hrepeated : Clause.Holds v [3, -2, 3] ↔ Clause.Holds v [-2, 3] :=
    Clause.holds_of_mem_iff (by grind) v
  simp [hordered, hrepeated, and_comm]

end Solver

end Groundwork
