import Groundwork.Proofs.Solver.Trail

/-!
# The search decides a formula under assumptions

The search is sound and complete.  Where it ends at a position, the assignment of the
position is a model of the formula under the assumptions; where it ends without one,
there is no such model.

* `assume_spec`: the values after the assumptions are extended by exactly the assignments
  under which the assumptions hold.
* `Searching` is what holds at every call of `searchFrom`: the trail is justified, only
  the clauses in `touched` may be left to propagate, and only the atoms in `ahead` may be
  free.  `searchFrom_spec` is the induction on the calls.
* `Formula.DecidedBy` is what a search under assumptions has to come to, and
  `Formula.decidedBy_of_completes` puts the two together for any search.
* `Formula.solve?_eq_none_iff` and `Formula.refutes_iff` are what it says of the search and
  of cores.
-/

namespace Groundwork

namespace Position

/-! ## Assumptions -/

/-- The literals hold where the values are extended, if each is true. -/
theorem extends_assign_iff {p : Position} {l : Literal} (hfree : p.truth? l = none)
    {v : Assignment} (reason : Reason) :
    Assignment.Extends v (p.assign (Literal.atom l) (Literal.polarity l) reason).value? ↔
      Assignment.Extends v p.value? ∧ Literal.Holds v l := by
  rw [value?_assign_eq_update]
  constructor
  · intro hv
    refine ⟨extends_of_extends_update (truth?_eq_none_iff.1 hfree) hv, ?_⟩
    exact hv _ _ (if_pos rfl)
  · intro h
    obtain ⟨hv, hl⟩ := h
    exact extends_update hv hl

/-- Assuming literals gives values that are extended by the assignments under which all
of them hold.  It fails only if there are none. -/
theorem assume_spec (p : Position) (literals : List Literal) :
    match p.assume literals with
    | none => ∀ v, Assignment.Extends v p.value? → ¬ ∀ l ∈ literals, Literal.Holds v l
    | some q => ∀ v, Assignment.Extends v q.value? ↔
        Assignment.Extends v p.value? ∧ ∀ l ∈ literals, Literal.Holds v l := by
  fun_induction assume p literals with
  | case1 p => simp
  | case2 p l rest htruth ih =>
    have hl : ∀ v, Assignment.Extends v p.value? → Literal.Holds v l := fun v hv =>
      hv _ _ (truth?_eq_true_iff.1 htruth)
    cases hrest : p.assume rest with
    | none =>
      rw [hrest] at ih
      intro v hv hall
      exact ih v hv fun l' hl' => hall l' (List.mem_cons_of_mem _ hl')
    | some q =>
      rw [hrest] at ih
      intro v
      rw [ih v, List.forall_mem_cons]
      exact ⟨fun ⟨hv, h⟩ => ⟨hv, hl v hv, h⟩, fun ⟨hv, _, h⟩ => ⟨hv, h⟩⟩
  | case3 p l rest htruth =>
    intro v hv hall
    have hvalue := hv _ _ (truth?_eq_false_iff.1 htruth)
    have hholds : v (Literal.atom l) = Literal.polarity l := hall l List.mem_cons_self
    rw [hvalue] at hholds
    simp at hholds
  | case4 p l rest htruth ih =>
    cases hrest : (p.assign (Literal.atom l) (Literal.polarity l) .assumed).assume rest with
    | none =>
      rw [hrest] at ih
      intro v hv hall
      refine ih v ((extends_assign_iff htruth _).2 ⟨hv, hall l List.mem_cons_self⟩) fun l' hl' => ?_
      exact hall l' (List.mem_cons_of_mem _ hl')
    | some q =>
      rw [hrest] at ih
      intro v
      rw [ih v, extends_assign_iff htruth, List.forall_mem_cons, and_assoc]

/-- Assuming literals puts nothing but assumptions on the trail. -/
theorem assumed_of_assume {p q : Position} {literals : List Literal}
    (h : p.assume literals = some q) (hp : ∀ step ∈ p.trail, step.2 = .assumed) :
    ∀ step ∈ q.trail, step.2 = .assumed := by
  fun_induction assume p literals with
  | case1 p =>
    obtain rfl : p = q := by simpa using h
    exact hp
  | case2 p l rest htruth ih => exact ih h hp
  | case3 p l rest htruth => simp at h
  | case4 p l rest htruth ih =>
    refine ih h fun step hstep => ?_
    rcases List.mem_cons.1 hstep with rfl | hstep
    · rfl
    · exact hp step hstep

/-! ## The search -/

/-- What holds whenever the search goes on from a position. -/
structure Searching (f : Formula) (first : Position) (touched : List Clause) (ahead : List Nat)
    (p : Position) : Prop where
  justified : Justified f first p.value? p.trail
  settled : ∀ c ∈ f.clauses, c ∈ touched ∨ Clause.Settled p.value? c
  valued : ∀ a ∈ f.atoms, a ∈ ahead ∨ p.value? a ≠ none
  sorted : ahead.Pairwise (· ≤ ·)

/-- A position at which the search may end: all clauses are settled, and no atom of the
formula is free. -/
structure Complete (f : Formula) (first p : Position) : Prop where
  justified : Justified f first p.value? p.trail
  settled : ∀ c ∈ f.clauses, Clause.Settled p.value? c
  valued : ∀ a ∈ f.atoms, p.value? a ≠ none

theorem nextFree?_eq_none {p : Position} {atoms : List Nat} (h : p.nextFree? atoms = none) :
    ∀ a ∈ atoms, p.value? a ≠ none := by
  induction atoms with
  | nil => simp
  | cons a atoms ih =>
    rw [nextFree?] at h
    split at h
    · simp at h
    · next hvalued =>
      intro b hb
      rcases List.mem_cons.1 hb with rfl | hb
      · simpa using hvalued
      · exact ih h b hb

/-- Among sorted atoms, those that are not after the first free one have a value or are
that one, and none of them is greater. -/
theorem nextFree?_least {p : Position} {atoms rest : List Nat} {atom : Nat}
    (h : p.nextFree? atoms = some (atom, rest)) (hsorted : atoms.Pairwise (· ≤ ·)) :
    rest.Pairwise (· ≤ ·) ∧ (∀ a ∈ rest, atom ≤ a) ∧
      ∀ a ∈ atoms, a = atom ∨ a ∈ rest ∨ p.value? a ≠ none := by
  induction atoms with
  | nil => simp [nextFree?] at h
  | cons a atoms ih =>
    obtain ⟨hfirst, hrest⟩ := List.pairwise_cons.1 hsorted
    rw [nextFree?] at h
    split at h
    · cases h
      refine ⟨hrest, hfirst, fun b hb => ?_⟩
      rcases List.mem_cons.1 hb with rfl | hb
      · exact Or.inl rfl
      · exact Or.inr (Or.inl hb)
    · next hvalued =>
      obtain ⟨hsorted', hle, hmem⟩ := ih h hrest
      refine ⟨hsorted', hle, fun b hb => ?_⟩
      rcases List.mem_cons.1 hb with rfl | hb
      · exact Or.inr (Or.inr (by simpa using hvalued))
      · exact hmem b hb

theorem Searching.closes {f : Formula} {first p : Position} {touched : List Clause}
    {ahead : List Nat} (h : Searching f first touched ahead p) (htouched : touched ⊆ f.clauses) :
    Closes f p (propagate f touched htouched p) :=
  closes_propagate htouched h.settled

theorem Searching.propagate {f : Formula} {first p : Position} {touched : List Clause}
    {ahead : List Nat} (h : Searching f first touched ahead p) {q : Position}
    (hq : Closes f p (true, q)) : Searching f first [] ahead q := by
  refine ⟨hq.justified h.justified, fun c hc => Or.inr (hq.settled rfl c hc), ?_, h.sorted⟩
  exact fun a ha => (h.valued a ha).imp id hq.value?_ne_none

/-- The next call after a decision. -/
theorem Searching.decide {f : Formula} {first p : Position} {ahead rest : List Nat} {atom : Nat}
    (h : Searching f first [] ahead p) (hnext : p.nextFree? ahead = some (atom, rest)) :
    Searching f first (f.clausesWith atom) rest (p.assign atom false (.decided false)) := by
  have hfree := (nextFree?_spec hnext).1
  obtain ⟨hsorted, hle, hmem⟩ := nextFree?_least hnext h.sorted
  have hsettled : ∀ c ∈ f.clauses, Clause.Settled p.value? c := fun c hc =>
    (h.settled c hc).resolve_left (by simp)
  have hready : Ready f p.value? atom := by
    refine ⟨hsettled, fun a ha hlt => ?_⟩
    rcases h.valued a ha with hahead | hvalued
    · rcases hmem a hahead with rfl | hrest | hvalued
      · omega
      · have := hle a hrest
        omega
      · exact hvalued
    · exact hvalued
  refine ⟨?_, ?_, ?_, hsorted⟩
  · rw [value?_assign_eq_update]
    exact .decided h.justified hfree hready
  · intro c hc
    by_cases hatom : atom ∈ Clause.atoms c
    · exact Or.inl (Formula.mem_clausesWith.2 ⟨hc, hatom⟩)
    · refine Or.inr ((hsettled c hc).congr fun a ha => ?_)
      rw [value?_assign_eq_update]
      refine update_of_ne ?_ false
      rintro rfl
      exact hatom ha
  · intro a ha
    rw [value?_assign]
    by_cases hsame : a = atom
    · simp [hsame]
    · rw [if_neg hsame]
      rcases h.valued a ha with hahead | hvalued
      · exact (hmem a hahead).resolve_left hsame
      · exact Or.inr hvalued

/-- A conflict ends the search without a model, or leads to the next call after a flip. -/
theorem backtrack_of_searching {f : Formula} {first p q : Position} {touched : List Clause}
    {ahead : List Nat} (h : Searching f first touched ahead p)
    (hassumed : ∀ step ∈ first.trail, step.2 = .assumed) (hq : Closes f p (false, q)) :
    (q.backtrack = none ∧ ∀ v, f.Models v → ¬ Assignment.Extends v first.value?) ∨
      ∃ atom r, q.backtrack = some (atom, r) ∧
        Searching f first (f.clausesWith atom) f.atoms r := by
  rcases backtrack_of_closes hq h.justified hassumed with
    hend | ⟨atom, r, hr, hjustified, hsettled⟩
  · exact Or.inl hend
  · refine Or.inr ⟨atom, r, hr, hjustified, ?_, fun a ha => Or.inl ha, f.sorted⟩
    intro c hc
    by_cases hatom : atom ∈ Clause.atoms c
    · exact Or.inl (Formula.mem_clausesWith.2 ⟨hc, hatom⟩)
    · exact Or.inr (hsettled c hc hatom)

/-- What a search above assumed values has to come to. -/
def Completes (f : Formula) (first : Position) : Option Position → Prop
  | none => ∀ v, f.Models v → ¬ Assignment.Extends v first.value?
  | some p => Complete f first p

/-- The induction is on the calls of the search, and `Searching` holds at each of them. -/
theorem searchFrom_spec {f : Formula} {first : Position}
    (hassumed : ∀ step ∈ first.trail, step.2 = .assumed) {touched : List Clause}
    (htouched : touched ⊆ f.clauses) {ahead : List Nat} (hahead : ahead ⊆ f.atoms) {p : Position}
    (h : Searching f first touched ahead p) :
    Completes f first (searchFrom f touched htouched ahead hahead p) := by
  fun_induction searchFrom f touched htouched ahead hahead p with
  | case1 touched htouched ahead hahead p q hq hback =>
    rcases backtrack_of_searching h hassumed (hq ▸ h.closes htouched) with
      ⟨_, hnone⟩ | ⟨atom, r, hr, _⟩
    · exact hnone
    · rw [hback] at hr
      simp at hr
  | case2 touched htouched ahead hahead p q hq atom r hback _ ih =>
    rcases backtrack_of_searching h hassumed (hq ▸ h.closes htouched) with
      ⟨hend, _⟩ | ⟨atom', r', hr, hnext⟩
    · rw [hback] at hend
      simp at hend
    · rw [hback] at hr
      cases hr
      exact ih hnext
  | case3 touched htouched ahead hahead p q hq hfree =>
    have hdone := h.propagate (hq ▸ h.closes htouched)
    refine ⟨hdone.justified, fun c hc => (hdone.settled c hc).resolve_left (by simp), ?_⟩
    intro a ha
    rcases hdone.valued a ha with hahead | hvalued
    · exact nextFree?_eq_none hfree a hahead
    · exact hvalued
  | case4 touched htouched ahead hahead p q hq atom rest hfree _ _ ih =>
    exact ih ((h.propagate (hq ▸ h.closes htouched)).decide hfree)

/-- The search goes on from assumed values. -/
theorem completes_search (f : Formula) {first : Position}
    (hassumed : ∀ step ∈ first.trail, step.2 = .assumed) :
    Completes f first (search f first) := by
  have hstart : Searching f first f.clauses f.atoms first :=
    ⟨.first, fun c hc => Or.inl hc, fun a ha => Or.inl ha, f.sorted⟩
  exact searchFrom_spec hassumed (List.Subset.refl _) (List.Subset.refl _) hstart

theorem extends_assignment (p : Position) : Assignment.Extends p.assignment p.value? := by
  intro atom value hvalue
  rw [assignment, hvalue]
  rfl

/-- At a complete position, the assignment of the position makes the formula true. -/
theorem Complete.models {f : Formula} {first p : Position} (h : Complete f first p) :
    f.Models p.assignment := by
  intro c hc
  have hvalued : ∀ a ∈ Clause.atoms c, p.value? a ≠ none := fun a ha =>
    h.valued a ((f.mem_atoms a).2 ⟨c, hc, ha⟩)
  exact ((h.settled c hc).satisfied hvalued).holds (extends_assignment p)

end Position

/-! ## Formulas under assumptions -/

/-- Some assignment makes all clauses true, and all assumptions. -/
def Satisfiable (clauses : List Clause) (assumptions : List Literal) : Prop :=
  ∃ v : Assignment, (∀ c ∈ clauses, Clause.Holds v c) ∧ ∀ l ∈ assumptions, Literal.Holds v l

theorem Satisfiable.mono {clauses : List Clause} {assumptions fewer : List Literal}
    (h : Satisfiable clauses assumptions) (hsub : fewer ⊆ assumptions) :
    Satisfiable clauses fewer := by
  obtain ⟨v, hclauses, hassumptions⟩ := h
  exact ⟨v, hclauses, fun l hl => hassumptions l (hsub hl)⟩

namespace Formula

/-- The position is complete, above values that say what the assumptions say. -/
def Found (f : Formula) (assumptions : List Literal) (p : Position) : Prop :=
  ∃ first, Position.Complete f first p ∧ ∀ v : Assignment,
    Assignment.Extends v first.value? ↔ ∀ l ∈ assumptions, Literal.Holds v l

/-- A position is found under the assumptions, or there is no model. -/
def Decided (f : Formula) (assumptions : List Literal) : Option Position → Prop
  | none => ¬ Satisfiable f.clauses assumptions
  | some p => f.Found assumptions p

/-- The formula is decided in this way under all assumptions. -/
def DecidedBy (f : Formula) (solve? : List Literal → Option Position) : Prop :=
  ∀ assumptions, f.Decided assumptions (solve? assumptions)

/-- A search that does what it has to above assumed values decides the formula. -/
theorem decidedBy_of_completes {f : Formula} {search : Position → Option Position}
    (hsearch : ∀ first : Position, (∀ step ∈ first.trail, step.2 = .assumed) →
      Position.Completes f first (search first)) :
    f.DecidedBy fun assumptions => (Position.assume {} assumptions).bind search := by
  intro assumptions
  show f.Decided assumptions ((Position.assume {} assumptions).bind search)
  have hassume := Position.assume_spec {} assumptions
  have hempty : ∀ v, Assignment.Extends v (Position.value? {}) := by
    intro v atom value hvalue
    simp [Position.value?] at hvalue
  cases hfirst : Position.assume {} assumptions with
  | none =>
    rw [hfirst] at hassume
    intro h
    obtain ⟨v, _, hall⟩ := h
    exact hassume v (hempty v) hall
  | some first =>
    rw [hfirst] at hassume
    have hends := hsearch first (Position.assumed_of_assume hfirst (by simp))
    rw [Option.bind_some]
    cases hp : search first with
    | none =>
      rw [hp] at hends
      intro h
      obtain ⟨v, hmodels, hall⟩ := h
      exact hends v hmodels ((hassume v).2 ⟨hempty v, hall⟩)
    | some p =>
      rw [hp] at hends
      exact ⟨first, hends, fun v => (hassume v).trans (and_iff_right (hempty v))⟩

theorem decidedBy_solve? (f : Formula) : f.DecidedBy f.solve? :=
  decidedBy_of_completes fun _ hassumed => Position.completes_search f hassumed

section DecidedBy

variable {f : Formula} {assumptions : List Literal} {p : Position}

/-- The assignment of a position that is found is a model under the assumptions. -/
theorem Found.solves (h : f.Found assumptions p) :
    f.Models p.assignment ∧ ∀ l ∈ assumptions, Literal.Holds p.assignment l := by
  obtain ⟨first, hcomplete, hassumed⟩ := h
  refine ⟨hcomplete.models, (hassumed p.assignment).1 fun atom value hvalue => ?_⟩
  exact Position.extends_assignment p _ _ (hcomplete.justified.of_first hvalue)

variable {solve? : List Literal → Option Position}

theorem DecidedBy.found (h : f.DecidedBy solve?) (hp : solve? assumptions = some p) :
    f.Found assumptions p := by
  have hspec : f.Decided assumptions (solve? assumptions) := h assumptions
  rwa [hp] at hspec

theorem DecidedBy.eq_none_iff (h : f.DecidedBy solve?) (assumptions : List Literal) :
    solve? assumptions = none ↔ ¬ Satisfiable f.clauses assumptions := by
  cases hp : solve? assumptions with
  | none =>
    have hspec : f.Decided assumptions (solve? assumptions) := h assumptions
    rw [hp] at hspec
    exact iff_of_true rfl hspec
  | some p =>
    have hsat : Satisfiable f.clauses assumptions := ⟨p.assignment, (h.found hp).solves⟩
    constructor
    · simp
    · exact fun hnot => absurd hsat hnot

end DecidedBy

theorem found_of_solve? {f : Formula} {assumptions : List Literal} {p : Position}
    (h : f.solve? assumptions = some p) : f.Found assumptions p :=
  f.decidedBy_solve?.found h

theorem solve?_eq_none_iff (f : Formula) (assumptions : List Literal) :
    f.solve? assumptions = none ↔ ¬ Satisfiable f.clauses assumptions :=
  f.decidedBy_solve?.eq_none_iff assumptions

theorem refutes_iff (f : Formula) (assumptions : List Literal) :
    f.refutes assumptions = true ↔ ¬ Satisfiable f.clauses assumptions := by
  rw [refutes, Option.isNone_iff_eq_none, solve?_eq_none_iff]

end Formula

end Groundwork
