import Groundwork.Proofs.Solver.Stored
import Groundwork.Solver.Scanning

/-!
# What propagation does to a position

Propagation gives values to free atoms and puts each of them on the trail once.  Every value is
forced by a clause, and where propagation ends no clause forces a further one, although values are
given while the clauses are read.

* `Gains`: the atoms by which one position goes beyond another.  One unit clause gives one
  (`gains_assign`), and all else about values and trail follows by `Gains.trans`;
* `gains_pass`, `Closes.gains`: passes, and propagation;
* `closes_rescan`: what the scans of all clauses come to;
* `Closes.agree`: it does not matter in which order clauses are read.  If there is a conflict, each
  order meets one, and if there is none, all of them come to the same values.  After a conflict the
  values may differ;
* `two_free_of_settled`: what a clause that is left alone looks like, if it is stored as the solver
  stores clauses;
* `propagate_reaches_fixpoint`: all of this, after every history of calls.
-/

namespace Groundwork

namespace Position

/-- The trail lists the atoms that have a value, each of them once. -/
structure Matched (p : Position) : Prop where
  nodup : (p.trail.map Prod.fst).Nodup
  mem_iff : ∀ atom, atom ∈ p.trail.map Prod.fst ↔ p.value? atom ≠ none

/-- The second position goes beyond the first by propagated values of some atoms, the latest of
them first. -/
structure Gains (p q : Position) (added : List Nat) : Prop where
  kept : ∀ atom value, p.value? atom = some value → q.value? atom = some value
  trail_eq : q.trail = added.map (·, Reason.propagated) ++ p.trail
  nodup : added.Nodup
  mem_iff : ∀ atom, atom ∈ added ↔ p.value? atom = none ∧ q.value? atom ≠ none

section Gains

variable {p q r : Position} {added added' : List Nat}

theorem Gains.refl (p : Position) : Gains p p [] :=
  ⟨fun _ _ h => h, rfl, .nil, fun atom => by simp⟩

theorem Gains.value?_ne_none (h : Gains p q added) {atom : Nat} (hvalue : p.value? atom ≠ none) :
    q.value? atom ≠ none := by
  obtain ⟨value, hvalue⟩ := Option.ne_none_iff_exists'.1 hvalue
  rw [h.kept atom value hvalue]
  exact Option.some_ne_none value

theorem Gains.trans (h : Gains p q added) (h' : Gains q r added') :
    Gains p r (added' ++ added) := by
  refine ⟨fun atom value hvalue => h'.kept atom value (h.kept atom value hvalue), ?_, ?_, ?_⟩
  · rw [h'.trail_eq, h.trail_eq, List.map_append, List.append_assoc]
  · refine List.nodup_append.2 ⟨h'.nodup, h.nodup, fun a ha b hb hab => ?_⟩
    have hfree : q.value? a = none := ((h'.mem_iff a).1 ha).1
    exact ((h.mem_iff a).1 (hab ▸ hb)).2 hfree
  · intro atom
    rw [List.mem_append, h.mem_iff, h'.mem_iff]
    constructor
    · rintro (⟨hfree, hvalue⟩ | ⟨hfree, hvalue⟩)
      · refine ⟨?_, hvalue⟩
        apply Classical.byContradiction
        exact fun hne => h.value?_ne_none hne hfree
      · exact ⟨hfree, h'.value?_ne_none hvalue⟩
    · rintro ⟨hfree, hvalue⟩
      by_cases hq : q.value? atom = none
      · exact Or.inl ⟨hq, hvalue⟩
      · exact Or.inr ⟨hfree, hq⟩

/-- A single atom is gained. -/
theorem gains_assign {atom : Nat} (hfree : p.value? atom = none) (value : Bool) :
    Gains p (p.assign atom value .propagated) [atom] := by
  refine ⟨fun a b hb => ?_, rfl, by simp, fun a => ?_⟩
  · rw [value?_assign_eq_update]
    exact update_of_valued hfree hb value
  · rw [value?_assign, List.mem_singleton]
    by_cases hsame : a = atom
    · simp [hsame, hfree]
    · simp [hsame]

/-- A trail that matches the values still does. -/
theorem Gains.matched (h : Gains p q added) (hp : p.Matched) : q.Matched := by
  have hatoms : q.trail.map Prod.fst = added ++ p.trail.map Prod.fst := by
    rw [h.trail_eq, List.map_append, List.map_map]
    exact congrArg (· ++ _) (List.map_id added)
  refine ⟨?_, fun atom => ?_⟩
  · rw [hatoms]
    refine List.nodup_append.2 ⟨h.nodup, hp.nodup, fun a ha b hb hab => ?_⟩
    exact (hp.mem_iff b).1 hb (hab ▸ ((h.mem_iff a).1 ha).1)
  · rw [hatoms, List.mem_append, h.mem_iff, hp.mem_iff]
    constructor
    · rintro (⟨_, hvalue⟩ | hvalue)
      · exact hvalue
      · exact h.value?_ne_none hvalue
    · intro hvalue
      by_cases hfree : p.value? atom = none
      · exact Or.inl ⟨hfree, hvalue⟩
      · exact Or.inr hfree

end Gains

section Formula

variable {f : Formula} {p q : Position}

/-- The atoms that a pass collects are the ones that it gains.  The induction is on the clauses that
are left to read. -/
theorem gains_pass {gained gained' : List Nat} {clauses : List Clause} (mem : clauses ⊆ f.clauses)
    (h : pass gained clauses p = (some gained', q)) :
    ∃ added, gained' = added ++ gained ∧ Gains p q added ∧ added ⊆ f.atoms := by
  fun_induction pass gained clauses p with
  | case1 gained p =>
    cases h
    exact ⟨[], rfl, .refl _, List.nil_subset _⟩
  | case2 => simp at h
  | case3 gained c clauses p l hstatus ih =>
    obtain ⟨hc, hrest⟩ := List.cons_subset.1 mem
    obtain ⟨hl, hfree⟩ := mem_of_status_unit hstatus
    obtain ⟨added, rfl, hadded, hsub⟩ := ih hrest h
    refine ⟨added ++ [Literal.atom l], by simp, (gains_assign hfree _).trans hadded, ?_⟩
    refine List.append_subset.2 ⟨hsub, fun atom hatom => ?_⟩
    obtain rfl := List.mem_singleton.1 hatom
    exact Formula.atom_mem_atoms hc hl
  | case4 gained c clauses p hstatus ih => exact ih (List.cons_subset.1 mem).2 h

/-- Propagation gains atoms of the formula. -/
theorem Closes.gains {outcome : Bool × Position} (h : Closes f p outcome) :
    ∃ added, Gains p outcome.2 added ∧ added ⊆ f.atoms := by
  refine h.invariant (fun q => ∃ added, Gains p q added ∧ added ⊆ f.atoms) ?_
    ⟨[], .refl p, List.nil_subset _⟩
  intro q c l hc hunit hq
  obtain ⟨added, hadded, hsub⟩ := hq
  obtain ⟨hl, hfree⟩ := mem_of_status_unit hunit
  refine ⟨Literal.atom l :: added, hadded.trans (gains_assign hfree _), ?_⟩
  exact List.cons_subset.2 ⟨Formula.atom_mem_atoms hc hl, hsub⟩

/-- A model that extends the values extends those that propagation adds. -/
theorem Closes.extends {outcome : Bool × Position} (h : Closes f p outcome) {v : Assignment}
    (hmodels : f.Models v) (hv : Assignment.Extends v p.value?) :
    Assignment.Extends v outcome.2.value? := by
  refine h.invariant (fun q => Assignment.Extends v q.value?) ?_ hv
  intro q c l hc hunit hq
  rw [value?_assign_eq_update]
  exact extends_update hq (forced_of_status_unit hunit hq (hmodels c hc))

/-- The induction is on the scans. -/
theorem closes_rescan (f : Formula) (p : Position) : Closes f p (rescan f p) := by
  have hall : f.clauses ⊆ f.clauses := List.Subset.refl _
  fun_induction rescan f p with
  | case1 p q h =>
    refine ⟨fun I hI hIp => ?_, by simp, fun _ => falsified_of_pass hall h⟩
    simpa [h] using pass_invariant hI [] hall hIp
  | case2 p q h =>
    refine ⟨fun I hI hIp => ?_, fun _ => settled_of_pass h fun c hc => Or.inl hc, by simp⟩
    simpa [h] using pass_invariant hI [] hall hIp
  | case3 p atom gained q h ih =>
    refine ⟨fun I hI hIp => ih.invariant I hI ?_, ih.settled, ih.falsified⟩
    simpa [h] using pass_invariant hI [] hall hIp

end Formula

/-! ## The order of reading -/

/-- All values of the first position are values of the second. -/
def Below (p q : Position) : Prop :=
  ∀ atom value, p.value? atom = some value → q.value? atom = some value

section Below

variable {f : Formula} {p q : Position} {outcome outcome' : Bool × Position}

theorem Below.eq_none (h : Below p q) {atom : Nat} (hfree : q.value? atom = none) :
    p.value? atom = none := by
  cases hvalue : p.value? atom with
  | none => rfl
  | some value => rw [← hfree, h atom value hvalue]

/-- Where a clause is settled, its literal is true if fewer values leave no other. -/
theorem Below.true_of_status_unit (h : Below p q) {c : Clause} {l : Literal}
    (hunit : p.status c = .unit l) (hsettled : Clause.Settled q.value? c) :
    q.value? (Literal.atom l) = some (Literal.polarity l) := by
  rcases hsettled with ⟨other, hother, htrue⟩ | ⟨first, second, hsub, hfirst, hsecond⟩
  · by_cases hsame : other = l
    · rw [← hsame, htrue]
    · have hfalse := h _ _ (falsified_of_status_unit hunit other hother hsame)
      rw [htrue] at hfalse
      simp at hfalse
  · exact absurd (h.eq_none hsecond) (ne_none_of_status_unit hunit hsub (h.eq_none hfirst))

/-- No clause is settled that is false under fewer values. -/
theorem Below.not_settled (h : Below p q) {c : Clause} (hfalse : Clause.Falsified p.value? c) :
    ¬ Clause.Settled q.value? c := by
  intro hsettled
  rcases hsettled with ⟨l, hl, htrue⟩ | ⟨l, _, hsub, hfree, _⟩
  · rw [h _ _ (hfalse l hl)] at htrue
    simp at htrue
  · have hl : l ∈ c := hsub.subset (by simp)
    rw [h _ _ (hfalse l hl)] at hfree
    cases hfree

/-- Propagation stays below all values that settle the clauses, and meets no conflict then. -/
theorem Closes.below (h : Closes f p outcome) (hpq : Below p q)
    (hsettled : ∀ c ∈ f.clauses, Clause.Settled q.value? c) :
    outcome.1 = true ∧ Below outcome.2 q := by
  have hbelow : Below outcome.2 q := by
    refine h.invariant (fun r => Below r q) ?_ hpq
    intro r c l hc hunit hr atom value hvalue
    rw [value?_assign] at hvalue
    split at hvalue
    · next hsame =>
      cases hvalue
      rw [hsame]
      exact hr.true_of_status_unit hunit (hsettled c hc)
    · exact hr atom value hvalue
  refine ⟨?_, hbelow⟩
  cases hends : outcome.1 with
  | true => rfl
  | false =>
    obtain ⟨c, hc, hfalse⟩ := h.falsified hends
    exact absurd (hsettled c hc) (hbelow.not_settled hfalse)

theorem Closes.le (h : Closes f p outcome) : Below p outcome.2 := by
  obtain ⟨_, hgains, _⟩ := h.gains
  exact hgains.kept

/-- Two ways to propagate meet a conflict in the same cases, and without one they come to the same
values. -/
theorem Closes.agree (h : Closes f p outcome) (h' : Closes f p outcome') :
    outcome.1 = outcome'.1 ∧ (outcome.1 = true → outcome.2.value? = outcome'.2.value?) := by
  have hsame : outcome.1 = outcome'.1 := by
    rw [Bool.eq_iff_iff]
    exact ⟨fun hends => (h'.below h.le (h.settled hends)).1,
      fun hends => (h.below h'.le (h'.settled hends)).1⟩
  refine ⟨hsame, fun hends => funext fun atom => ?_⟩
  have hle := (h.below h'.le (h'.settled (hsame ▸ hends))).2
  have hge := (h'.below h.le (h.settled hends)).2
  cases hvalue : outcome.2.value? atom with
  | none => exact (hge.eq_none hvalue).symm
  | some value => exact (hle atom value hvalue).symm

end Below

end Position

namespace Solver

/-- A clause that propagation leaves alone is true, or two atoms are free in it.  Where literals
are repeated, or stand beside their negations, two free places need not be two atoms. -/
theorem two_free_of_settled {c : Clause} (hnodup : c.Nodup) (htaut : isTautology c = false)
    {value? : Nat → Option Bool} (h : Clause.Settled value? c) :
    Clause.Satisfied value? c ∨ ∃ l ∈ c, ∃ l' ∈ c, Literal.atom l ≠ Literal.atom l' ∧
      value? (Literal.atom l) = none ∧ value? (Literal.atom l') = none := by
  rcases h with hsat | ⟨l, l', hsub, hfree, hfree'⟩
  · exact Or.inl hsat
  · have hl : l ∈ c := hsub.subset (by simp)
    have hl' : l' ∈ c := hsub.subset (by simp)
    have hne : l ≠ l' := by
      have hpair := hnodup.sublist hsub
      simpa using hpair
    exact Or.inr ⟨l, hl, l', hl', atom_ne_of_ne htaut hl hl' hne, hfree, hfree'⟩

/-- Each literal of a stored clause stands once. -/
theorem Stored.nodup {n : Nat} {c : Clause} (h : Stored n c) : c.Nodup := by
  refine h.decreasing.imp fun {a b} (hlt : b < a) hsame => ?_
  subst hsame
  exact Int32.lt_irrefl hlt

/-- What propagation over the stored clauses comes to from a position: whether it ended without a
conflict, and the position at which it ended. -/
structure Propagates (s : Solver) (p : Position) (outcome : Bool × Position) : Prop where
  /-- Values are only added, and what is pushed on the trail are the atoms that get one. -/
  gains : ∃ added, Position.Gains p outcome.2 added ∧ ∀ atom ∈ added, 0 < atom ∧ atom ≤ s.atoms
  matched : p.Matched → outcome.2.Matched
  extends_of_models : ∀ v, (∀ c ∈ s.clauses.toList, Clause.Holds v c) →
    Assignment.Extends v p.value? → Assignment.Extends v outcome.2.value?
  fixpoint : outcome.1 = true → ∀ c ∈ s.clauses.toList,
    Clause.Satisfied outcome.2.value? c ∨
      ∃ l ∈ c, ∃ l' ∈ c, Literal.atom l ≠ Literal.atom l' ∧
        outcome.2.value? (Literal.atom l) = none ∧ outcome.2.value? (Literal.atom l') = none
  conflict : outcome.1 = false → ∃ c ∈ s.clauses.toList, Clause.Falsified outcome.2.value? c

/-- The atoms of stored clauses have been met, and none of them is zero. -/
theorem HoldsStored.mem_atoms {s : Solver} (h : HoldsStored s) {atom : Nat}
    (hatom : atom ∈ s.stored.atoms) : 0 < atom ∧ atom ≤ s.atoms := by
  obtain ⟨c, hc, hmem⟩ := (s.stored.mem_atoms atom).1 hatom
  obtain ⟨l, hl, rfl⟩ := List.mem_map.1 hmem
  exact ⟨Literal.atom_pos_of_ne_zero ((h c hc).nonZero l hl), (h c hc).atom_le l hl⟩

theorem HoldsStored.propagates {s : Solver} (h : HoldsStored s) {p : Position}
    {outcome : Bool × Position} (hcloses : Position.Closes s.stored p outcome) :
    Propagates s p outcome := by
  obtain ⟨added, hgains, hsub⟩ := hcloses.gains
  refine ⟨⟨added, hgains, fun atom hatom => h.mem_atoms (hsub hatom)⟩, hgains.matched,
    fun v hmodels hv => hcloses.extends hmodels hv, fun hends c hc => ?_, hcloses.falsified⟩
  exact two_free_of_settled (h c hc).nodup (h c hc).apart (hcloses.settled hends c hc)

/-- After every history of calls and from every position, the scans of all stored clauses give
values that are forced, until nothing is left to propagate or a clause is false.  It is enough to
read the clauses of which it is not known that they are settled, and after each pass those with an
atom that got a value: this meets a conflict in the same cases, and without one it comes to the same
values. -/
theorem propagate_reaches_fixpoint (minimise : Bool) (calls : List Call) (p : Position) :
    let s := run minimise calls
    Propagates s p (Position.rescan s.stored p) ∧
      ∀ (touched : List Clause) (htouched : touched ⊆ s.stored.clauses),
        (∀ c ∈ s.stored.clauses, c ∈ touched ∨ Clause.Settled p.value? c) →
          let outcome := Position.propagate s.stored touched htouched p
          Propagates s p outcome ∧ outcome.1 = (Position.rescan s.stored p).1 ∧
            (outcome.1 = true → outcome.2.value? = (Position.rescan s.stored p).2.value?) := by
  intro s
  have hstored : HoldsStored s := stored_run minimise calls
  have hscans := Position.closes_rescan s.stored p
  refine ⟨hstored.propagates hscans, fun touched htouched hsettled => ?_⟩
  have hreads := Position.closes_propagate htouched hsettled
  exact ⟨hstored.propagates hreads, hreads.agree hscans⟩

end Solver

end Groundwork
