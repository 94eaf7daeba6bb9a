import Groundwork.Proofs.Solver.History

/-!
# Models of the solver are minimal

A decision tries false first, and a value is only true where the values below it leave no
choice.  So no model has fewer true atoms than the one that is found.

The argument goes along the trail of the position where the search ends.  If a model has no
true atom besides those of the position, it agrees with each step: with the forced steps as
it is a model, and with the decisions as they are false.

* `Position.Justified.extends_of_le`: the induction on the trail;
* `Formula.Found.eq_assignment_of_le`: the position that is found has a minimal assignment;
* `Solver.Keeps.ofModel`: all its true atoms were met, so the model has the same truth values;
* `Solver.Records.minimal`: so the model that the solver gives is minimal.
-/

namespace Groundwork

/-! ## Assignments -/

namespace Assignment

/-- The assignment makes all clauses true, and all assumptions. -/
structure Solves (v : Assignment) (clauses : List Clause) (assumptions : List Literal) : Prop where
  clauses : ∀ c ∈ clauses, Clause.Holds v c
  assumptions : ∀ l ∈ assumptions, Literal.Holds v l

/-- The assignment with an atom made false. -/
def clear (v : Assignment) (atom : Nat) : Assignment := fun a => a != atom && v a

theorem clear_of_ne {v : Assignment} {atom a : Nat} (h : a ≠ atom) : v.clear atom a = v a := by
  simp [clear, h]

@[simp] theorem clear_self (v : Assignment) (atom : Nat) : v.clear atom atom = false := by
  simp [clear]

/-- A literal stays true if it does not say that the atom is true. -/
theorem holds_clear {v : Assignment} {l : Literal} (h : Literal.Holds v l) {atom : Nat}
    (hatom : Literal.atom l = atom → Literal.polarity l = false) :
    Literal.Holds (v.clear atom) l := by
  by_cases hsame : Literal.atom l = atom
  · rw [Literal.Holds, hsame, clear_self, hatom hsame]
  · exact (clear_of_ne hsame).trans h

theorem Solves.clear {v : Assignment} {clauses : List Clause} {assumptions : List Literal}
    (h : v.Solves clauses assumptions) {atom : Nat}
    (hclauses : ∀ c ∈ clauses, ∀ l ∈ c, Literal.atom l = atom → Literal.polarity l = false)
    (hassumptions : ∀ l ∈ assumptions, Literal.atom l = atom → Literal.polarity l = false) :
    (v.clear atom).Solves clauses assumptions := by
  refine ⟨fun c hc => ?_, fun l hl => holds_clear (h.assumptions l hl) (hassumptions l hl)⟩
  obtain ⟨l, hl, htrue⟩ := h.clauses c hc
  exact ⟨l, hl, holds_clear htrue (hclauses c hc l hl)⟩

end Assignment

/-! ## The search -/

namespace Position

theorem assignment_eq_of_value? {p : Position} {atom : Nat} {value : Bool}
    (h : p.value? atom = some value) : p.assignment atom = value :=
  extends_assignment p atom value h

/-- A model with no true atom besides those of a position agrees with the values of the
position, as far as they are justified. -/
theorem Justified.extends_of_le {f : Formula} {first p : Position} {u : Nat → Option Bool}
    {trail : List (Nat × Reason)} (h : Justified f first u trail) {v : Assignment}
    (hmodels : f.Models v) (hfirst : Assignment.Extends v first.value?)
    (hle : ∀ atom, v atom = true → p.assignment atom = true)
    (hbelow : Assignment.Extends p.assignment u) : Assignment.Extends v u := by
  induction h with
  | first => exact hfirst
  | propagated _ free forced ih =>
    have hv := ih (extends_of_extends_update free hbelow)
    exact extends_update hv (forced v hmodels hv)
  | @decided u _ atom _ free _ ih =>
    have hv := ih (extends_of_extends_update free hbelow)
    have hfalse : p.assignment atom = false := hbelow atom false (if_pos rfl)
    refine extends_update hv ?_
    cases hatom : v atom with
    | false => rfl
    | true =>
      have htrue := hle atom hatom
      rw [hfalse] at htrue
      cases htrue
  | flipped _ free _ forced ih =>
    have hv := ih (extends_of_extends_update free hbelow)
    exact extends_update hv (forced v hmodels hv)

/-- Atoms without a value are false in the assignment of a position. -/
theorem eq_assignment_of_extends {p : Position} {v : Assignment}
    (hv : Assignment.Extends v p.value?)
    (hle : ∀ atom, v atom = true → p.assignment atom = true) : v = p.assignment := by
  funext atom
  cases hvalue : p.value? atom with
  | some value => rw [hv atom value hvalue, assignment_eq_of_value? hvalue]
  | none =>
    have hfalse : p.assignment atom = false := by
      rw [assignment, hvalue]
      rfl
    cases hatom : v atom with
    | false => exact hfalse.symm
    | true => exact (hle atom hatom).symm

end Position

namespace Formula

/-- No model under the assumptions has fewer true atoms than the one that is found. -/
theorem Found.eq_assignment_of_le {f : Formula} {assumptions : List Literal} {p : Position}
    (h : f.Found assumptions p) {v : Assignment} (hmodels : f.Models v)
    (hassumed : ∀ l ∈ assumptions, Literal.Holds v l)
    (hle : ∀ atom, v atom = true → p.assignment atom = true) : v = p.assignment := by
  obtain ⟨first, hcomplete, hfirst⟩ := h
  apply Position.eq_assignment_of_extends _ hle
  exact hcomplete.justified.extends_of_le hmodels ((hfirst v).2 hassumed) hle
    (Position.extends_assignment p)

/-- Where the assignment with an atom made false is still a model, the atom was false. -/
theorem Found.assignment_eq_false {f : Formula} {assumptions : List Literal} {p : Position}
    (h : f.Found assumptions p) {atom : Nat}
    (hmodels : f.Models (p.assignment.clear atom))
    (hassumed : ∀ l ∈ assumptions, Literal.Holds (p.assignment.clear atom) l) :
    p.assignment atom = false := by
  have hbelow : ∀ a, p.assignment.clear atom a = true → p.assignment a = true := by
    intro a ha
    simp only [Assignment.clear, Bool.and_eq_true] at ha
    exact ha.2
  rw [← h.eq_assignment_of_le hmodels hassumed hbelow, Assignment.clear_self]

end Formula

/-! ## The solver -/

/-- The truth values that a model gives to atoms.  Atoms without a literal are false. -/
def Assignment.ofModel (model : List Literal) : Assignment := fun atom =>
  model.any fun l => Literal.atom l == atom && Literal.polarity l

theorem Assignment.ofModel_eq_true_iff {model : List Literal} {atom : Nat} :
    Assignment.ofModel model atom = true ↔
      ∃ l ∈ model, Literal.atom l = atom ∧ Literal.polarity l = true := by
  simp [Assignment.ofModel]

/-- The truth values make clauses and assumptions true, and no others do of which all true
atoms are among theirs. -/
structure Assignment.Minimal (v : Assignment) (clauses : List Clause) (assumptions : List Literal) :
    Prop where
  models : ∀ c ∈ clauses, Clause.Holds v c
  assumed : ∀ l ∈ assumptions, Literal.Holds v l
  least : ∀ w : Assignment, (∀ c ∈ clauses, Clause.Holds w c) →
    (∀ l ∈ assumptions, Literal.Holds w l) → (∀ atom, w atom = true → v atom = true) → w = v

namespace Solver

theorem mem_of_mem_recorded {g : Given} {c : Clause} (h : c ∈ g.recorded) : c ∈ g.clauses :=
  (List.mem_filter.1 h).1

section Keeps

variable {minimise : Bool} {s : Solver} {g : Given} {assumptions : List Literal} {p : Position}

theorem Keeps.solves (h : Keeps minimise s g) (hp : s.formula.solve? assumptions = some p) :
    p.assignment.Solves g.recorded assumptions := by
  obtain ⟨hmodels, hholds⟩ := (Formula.found_of_solve? hp).solves
  exact ⟨(h.models _).1 hmodels, hholds⟩

/-- A true atom has a positive literal among those that were met. -/
theorem Keeps.exists_literal (h : Keeps minimise s g) (hp : s.formula.solve? assumptions = some p)
    {atom : Nat} (htrue : p.assignment atom = true) :
    ∃ l ∈ g.literals ++ assumptions, Literal.atom l = atom ∧ Literal.polarity l = true := by
  apply Classical.byContradiction
  intro hnone
  have hfalse : ∀ l ∈ g.literals ++ assumptions, Literal.atom l = atom →
      Literal.polarity l = false := by
    intro l hl hatom
    cases hpol : Literal.polarity l with
    | false => rfl
    | true => exact absurd ⟨l, hl, hatom, hpol⟩ hnone
  have hclear : (p.assignment.clear atom).Solves g.recorded assumptions :=
    (h.solves hp).clear
      (fun c hc l hl => hfalse l
        (List.mem_append_left _ (h.subset c (mem_of_mem_recorded hc) hl)))
      (fun l hl => hfalse l (List.mem_append_right _ hl))
  have hcleared := (Formula.found_of_solve? hp).assignment_eq_false ((h.models _).2 hclear.clauses)
    hclear.assumptions
  rw [htrue] at hcleared
  cases hcleared

theorem Keeps.found (h : Keeps minimise s g)
    (hsat : (s.solve assumptions).1 = .ok .satisfiable) :
    ∃ p, s.formula.solve? assumptions = some p ∧ (s.solve assumptions).2.model? =
      .ok (p.model (greatestAtom (g.literals ++ assumptions))) := by
  have hne := ne_zero_of_solve hsat
  rw [solve_eq hne, h.greatest assumptions] at hsat ⊢
  cases hp : s.formula.solve? assumptions with
  | none =>
    rw [hp] at hsat
    cases hsat
  | some p => exact ⟨p, rfl, rfl⟩

/-- The truth values of the model are those of the position, as all true atoms were met. -/
theorem Keeps.ofModel (h : Keeps minimise s g) (hp : s.formula.solve? assumptions = some p) :
    Assignment.ofModel (p.model (greatestAtom (g.literals ++ assumptions))) = p.assignment := by
  have hbound := greatestAtom_le_succ (g.literals ++ assumptions)
  funext atom
  rw [Bool.eq_iff_iff, Assignment.ofModel_eq_true_iff]
  constructor
  · intro hmodel
    obtain ⟨l, hl, rfl, hpol⟩ := hmodel
    obtain ⟨a, ha, rfl⟩ := List.mem_map.1 hl
    have hle : a ≤ maxAtom + 1 := by
      have := (List.mem_range'_1.1 ha).2
      omega
    rw [Literal.atom_ofAtom_of_le_succ hle]
    cases htrue : p.assignment a with
    | true => rfl
    | false =>
      rw [htrue, Literal.polarity_ofAtom_false hle] at hpol
      cases hpol
  · intro htrue
    obtain ⟨l, hl, rfl, hpol⟩ := h.exists_literal hp htrue
    have hbounds := Literal.bounds_of_polarity hpol
    refine ⟨l, List.mem_map.2 ⟨Literal.atom l, ?_, ?_⟩, rfl, hpol⟩
    · have := atom_le_greatestAtom hl
      exact List.mem_range'_1.2 (by omega)
    · rw [htrue, ← hpol, Literal.ofAtom_atom hbounds.2]

end Keeps

/-- The model of a decision has the truth values of the position that the search found, and
these are minimal. -/
theorem Records.minimal {s : Solver} {g : Given} (h : Records s g) {assumptions : List Literal}
    (hsat : (s.solve assumptions).1 = .ok .satisfiable) :
    ∃ model, (s.solve assumptions).2.model? = .ok model ∧
      Assignment.Minimal (.ofModel model) g.clauses assumptions := by
  have hkeeps := (records_iff.1 h).1
  obtain ⟨p, hp, hmodel⟩ := hkeeps.found hsat
  obtain ⟨hmodels, hholds⟩ := (Formula.found_of_solve? hp).solves
  refine ⟨_, hmodel, ?_⟩
  rw [hkeeps.ofModel hp]
  refine ⟨(h.models _).1 hmodels, hholds, fun w hclauses hassumed hle => ?_⟩
  exact (Formula.found_of_solve? hp).eq_assignment_of_le ((h.models w).2 hclauses) hassumed hle

end Solver

end Groundwork
