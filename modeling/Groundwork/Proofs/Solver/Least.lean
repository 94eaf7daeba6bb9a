import Groundwork.Proofs.Solver.Minimal

/-!
# The model of the solver is the first one

Of all models, the solver gives the one that is first in the order of atoms, with false
before true.

Compare a model with the trail of the position where the search ends.  It agrees with the
steps of the trail up to the first decision that it makes otherwise.  There all lesser atoms
of the formula have a value, so the model differs for the first time, and it is the one that
says true.

* `Position.Justified.extends_or_true`: the induction on the trail;
* `Formula.Found.true_of_lesser`: where another model differs from the assignment that is found for
  the first time, the assignment is false;
* `Solver.solve_first`: the model is the first one after every history of calls, and on Horn
  clauses it is below all others.
-/

namespace Groundwork

/-! ## Assignments -/

namespace Assignment

/-- The truth values of the atoms from one to a bound. -/
def values (v : Assignment) (n : Nat) : List Bool :=
  (List.range' 1 n).map v

/-- The lexicographic order of truth values.  The least atom counts most, and false is before
true. -/
def Before (v w : List Bool) : Prop :=
  List.Lex (fun a b => a = false ∧ b = true) v w

/-- If the first difference of two assignments is an atom that the former makes false, its
truth values are not behind.  The induction is on the atoms, from the least on. -/
theorem eq_or_before {v w : Assignment} {first n : Nat}
    (h : ∀ atom, first ≤ atom → (∀ a, first ≤ a → a < atom → v a = w a) →
      v atom = true → w atom = true) :
    (List.range' first n).map v = (List.range' first n).map w ∨
      Before ((List.range' first n).map v) ((List.range' first n).map w) := by
  induction n generalizing first with
  | zero => exact Or.inl rfl
  | succ n ih =>
    rw [List.range'_succ, List.map_cons, List.map_cons]
    by_cases hsame : v first = w first
    · have hrest : ∀ atom, first + 1 ≤ atom → (∀ a, first + 1 ≤ a → a < atom → v a = w a) →
          v atom = true → w atom = true := by
        intro atom hfirst hlesser
        refine h atom (by omega) fun a hge hlt => ?_
        rcases Nat.eq_or_lt_of_le hge with rfl | hgt
        · exact hsame
        · exact hlesser a hgt hlt
      rw [hsame]
      exact (ih hrest).imp (congrArg _) .cons
    · have hv : v first = false := by
        cases hvalue : v first with
        | false => rfl
        | true =>
          have hw := h first (Nat.le_refl _) (fun a hge hlt => by omega) hvalue
          exact absurd (hvalue.trans hw.symm) hsame
      have hw : w first = true := by simpa [hv] using Ne.symm hsame
      exact Or.inr (.rel ⟨hv, hw⟩)

end Assignment

/-! ## The search -/

/-- A model that agrees with the first position agrees with all justified values, or it makes
an atom true that is false, and agrees on all lesser atoms of the formula.  The induction is
on the trail. -/
theorem Position.Justified.extends_or_true {f : Formula} {first p : Position}
    {u : Nat → Option Bool} {trail : List (Nat × Reason)} (h : Justified f first u trail)
    {v : Assignment} (hmodels : f.Models v) (hfirst : Assignment.Extends v first.value?)
    (hbelow : Assignment.Extends p.assignment u) :
    Assignment.Extends v u ∨ ∃ atom, p.assignment atom = false ∧ v atom = true ∧
      ∀ a ∈ f.atoms, a < atom → p.assignment a = v a := by
  induction h with
  | first => exact Or.inl hfirst
  | propagated _ free forced ih =>
    refine (ih (extends_of_extends_update free hbelow)).imp_left fun hv => ?_
    exact extends_update hv (forced v hmodels hv)
  | @decided u _ atom _ free ready ih =>
    have hbelow' := extends_of_extends_update free hbelow
    rcases ih hbelow' with hv | htrue
    · cases hatom : v atom with
      | false => exact Or.inl (extends_update hv hatom)
      | true =>
        refine Or.inr ⟨atom, hbelow atom false (if_pos rfl), hatom, fun a ha hlt => ?_⟩
        obtain ⟨value, hvalue⟩ := Option.ne_none_iff_exists'.1 (ready.least a ha hlt)
        rw [hbelow' a value hvalue, hv a value hvalue]
    · exact Or.inr htrue
  | flipped _ free _ forced ih =>
    refine (ih (extends_of_extends_update free hbelow)).imp_left fun hv => ?_
    exact extends_update hv (forced v hmodels hv)

namespace Formula

variable {f : Formula} {assumptions : List Literal} {p : Position}

theorem models_clear {v : Assignment} (h : f.Models v) {atom : Nat} (hatom : atom ∉ f.atoms) :
    f.Models (v.clear atom) := by
  intro c hc
  obtain ⟨l, hl, htrue⟩ := h c hc
  refine ⟨l, hl, Assignment.holds_clear htrue ?_⟩
  rintro rfl
  exact absurd (atom_mem_atoms hc hl) hatom

/-- If a model under the assumptions agrees on all lesser atoms, an atom is only true where it
is true in that model. -/
theorem Found.true_of_lesser (h : f.Found assumptions p) {v : Assignment}
    (hmodels : f.Models v) (hassumed : ∀ l ∈ assumptions, Literal.Holds v l) {atom : Nat}
    (hlesser : ∀ a, a < atom → p.assignment a = v a) (htrue : p.assignment atom = true) :
    v atom = true := by
  have hfound := h
  obtain ⟨first, hcomplete, hfirst⟩ := h
  have hvfirst := (hfirst v).2 hassumed
  cases hfalse : v atom with
  | true => rfl
  | false =>
    rcases hcomplete.justified.extends_or_true hmodels hvfirst (Position.extends_assignment p) with
      hv | ⟨other, hother, htrue', hagree⟩
    · cases hvalue : p.value? atom with
      | none => simp [Position.assignment, hvalue] at htrue
      | some value =>
        rw [← hfalse, hv atom value hvalue, ← htrue, Position.assignment_eq_of_value? hvalue]
    · rcases Nat.lt_trichotomy other atom with hlt | rfl | hgt
      · rw [hlesser other hlt, htrue'] at hother
        cases hother
      · rw [hother] at htrue
        cases htrue
      -- The atom is not one of the formula, and no assumption makes it true.
      · have hnone : atom ∉ f.atoms := fun hmem => by
          rw [hagree atom hmem hgt, hfalse] at htrue
          cases htrue
        obtain ⟨hp, hholds⟩ := hfound.solves
        have hcleared := hfound.assignment_eq_false (models_clear hp hnone) fun l hl =>
          Assignment.holds_clear (hholds l hl) fun hl' => by
            rw [← hassumed l hl, hl', hfalse]
        rw [htrue] at hcleared
        cases hcleared

end Formula

/-! ## Horn clauses -/

/-- One literal of the clause is positive at most. -/
def Clause.Horn (c : Clause) : Prop :=
  ∀ l ∈ c, ∀ l' ∈ c, Literal.polarity l = true → Literal.polarity l' = true → l = l'

/-- What is true in both of two assignments. -/
def Assignment.meet (v w : Assignment) : Assignment := fun atom => v atom && w atom

theorem Literal.holds_meet {v w : Assignment} {l : Literal} (hv : Literal.Holds v l)
    (hw : Literal.Holds w l) : Literal.Holds (v.meet w) l := by
  rw [Literal.Holds] at hv hw ⊢
  rw [Assignment.meet, hv, hw, Bool.and_self]

/-- Of a literal that is not positive, one side is enough. -/
theorem Literal.holds_meet_of_false {v w : Assignment} {l : Literal}
    (hl : Literal.polarity l = false) (h : Literal.Holds v l ∨ Literal.Holds w l) :
    Literal.Holds (v.meet w) l := by
  rw [Literal.Holds, Literal.Holds, hl] at h
  rw [Literal.Holds, hl, Assignment.meet, Bool.and_eq_false_iff]
  exact h

/-- A Horn clause that is true under two assignments is true under their meet. -/
theorem Clause.Horn.holds_meet {c : Clause} (h : c.Horn) {v w : Assignment}
    (hv : Clause.Holds v c) (hw : Clause.Holds w c) : Clause.Holds (v.meet w) c := by
  obtain ⟨l, hl, hvl⟩ := hv
  obtain ⟨l', hl', hwl'⟩ := hw
  cases hpol : Literal.polarity l with
  | false => exact ⟨l, hl, Literal.holds_meet_of_false hpol (Or.inl hvl)⟩
  | true =>
    cases hpol' : Literal.polarity l' with
    | false => exact ⟨l', hl', Literal.holds_meet_of_false hpol' (Or.inr hwl')⟩
    | true =>
      obtain rfl := h l hl l' hl' hpol hpol'
      exact ⟨l, hl, Literal.holds_meet hvl hwl'⟩

/-! ## The solver -/

/-- Of the truth values of the atoms up to a bound that make clauses and assumptions true, these
come first; and on Horn clauses nothing is true that is not true in all of them. -/
structure Assignment.First (v : Assignment) (n : Nat) (clauses : List Clause)
    (assumptions : List Literal) : Prop where
  solves : v.Solves clauses assumptions
  first : ∀ w : Assignment, w.Solves clauses assumptions →
    v.values n = w.values n ∨ Assignment.Before (v.values n) (w.values n)
  least : (∀ c ∈ clauses, c.Horn) → ∀ w : Assignment, w.Solves clauses assumptions →
    ∀ atom, v atom = true → w atom = true

namespace Solver

variable {minimise : Bool} {s : Solver} {g : Given} {assumptions : List Literal} {p : Position}

/-- No literal says that atom zero is true. -/
theorem Keeps.assignment_zero (h : Keeps minimise s g)
    (hp : s.formula.solve? assumptions = some p) : p.assignment 0 = false := by
  cases hzero : p.assignment 0 with
  | false => rfl
  | true =>
    obtain ⟨l, _, hatom, hpol⟩ := h.exists_literal hp hzero
    rw [← hpol, Literal.polarity_of_atom_eq_zero hatom]

theorem Keeps.first (h : Keeps minimise s g) (hp : s.formula.solve? assumptions = some p)
    (n : Nat) : Assignment.First p.assignment n g.recorded assumptions := by
  have hsolves := h.solves hp
  refine ⟨hsolves, fun w hw => ?_, fun hhorn w hw atom htrue => ?_⟩
  -- Atom zero may be taken as false on both sides.
  · have hcleared : (w.clear 0).Solves g.recorded assumptions :=
      hw.clear (fun _ _ _ _ => Literal.polarity_of_atom_eq_zero)
        fun _ _ => Literal.polarity_of_atom_eq_zero
    have hvalues : (w.clear 0).values n = w.values n := by
      refine List.map_congr_left fun a ha => Assignment.clear_of_ne ?_
      have := (List.mem_range'_1.1 ha).1
      omega
    rw [← hvalues]
    refine Assignment.eq_or_before fun atom _ hlesser htrue => ?_
    refine (Formula.found_of_solve? hp).true_of_lesser ((h.models _).2 hcleared.clauses) hcleared.assumptions ?_ htrue
    intro a hlt
    rcases Nat.eq_zero_or_pos a with rfl | hpos
    · rw [h.assignment_zero hp, Assignment.clear_self]
    · exact hlesser a hpos hlt
  · have hmeet : (p.assignment.meet w).Solves g.recorded assumptions :=
      ⟨fun c hc => (hhorn c hc).holds_meet (hsolves.clauses c hc) (hw.clauses c hc),
        fun l hl => Literal.holds_meet (hsolves.assumptions l hl) (hw.assumptions l hl)⟩
    have hsame := (Formula.found_of_solve? hp).eq_assignment_of_le ((h.models _).2 hmeet.clauses) hmeet.assumptions
      fun a ha => (Bool.and_eq_true_iff.1 ha).1
    rw [← hsame] at htrue
    exact (Bool.and_eq_true_iff.1 htrue).2

/-- After every history of calls, the model of a decision is the first one of the clauses that
were recorded since the last reset. -/
theorem solve_first (minimise : Bool) (calls : List Call)
    (hcalls : ∀ call ∈ calls, call.NonZero) (assumptions : List Literal)
    (hsat : ((run minimise calls).solve assumptions).1 = .ok .satisfiable) :
    ∃ model, ((run minimise calls).solve assumptions).2.model? = .ok model ∧
      model.map Literal.atom =
        List.range' 1 (greatestAtom ((given calls).literals ++ assumptions)) ∧
      Assignment.First (.ofModel model) (greatestAtom ((given calls).literals ++ assumptions))
        (given calls).recorded assumptions := by
  have hkeeps := keeps_run minimise hcalls
  obtain ⟨p, hp, hmodel⟩ := hkeeps.found hsat
  refine ⟨_, hmodel, map_atom_model p (greatestAtom_le_succ _), ?_⟩
  rw [hkeeps.ofModel hp]
  exact hkeeps.first hp _

/-- A history with a reset and a tautology, where the first two atoms cannot both be false. -/
theorem solve_first_backtracking :
    ((run true [.add [9], .reset, .add [1, 2], .add [-2, 3, 3, 1], .add [5, -5], .solve [4]]).solve
      [6]).1 = .ok .satisfiable ∧
    ∃ model,
      ((run true
        [.add [9], .reset, .add [1, 2], .add [-2, 3, 3, 1], .add [5, -5], .solve [4]]).solve
        [6]).2.model? = .ok model ∧
      model.map Literal.atom = List.range' 1 6 ∧
      Assignment.First (.ofModel model) 6 [[1, 2], [-2, 3, 3, 1]] [6] := by
  let calls : List Call :=
    [.add [9], .reset, .add [1, 2], .add [-2, 3, 3, 1], .add [5, -5], .solve [4]]
  have hproper : ∀ call ∈ calls, call.Proper := by decide
  have hassumptions : ∀ l ∈ ([6] : List Literal), Literal.Proper l := by decide
  have hsat : ((run true calls).solve [6]).1 = .ok .satisfiable := by
    refine ((records_run true hproper).decides hassumptions).satisfiable_iff.2 ?_
    refine ⟨fun atom => atom != 1, by decide, fun l hl => ?_⟩
    obtain rfl := List.mem_singleton.1 hl
    rfl
  exact ⟨hsat, solve_first true calls (by decide) [6] hsat⟩

end Solver

end Groundwork
