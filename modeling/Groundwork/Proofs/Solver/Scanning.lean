import Groundwork.Proofs.Solver.Content
import Groundwork.Proofs.Solver.Propagation

/-!
# The solver answers like the plain procedure

The plain procedure scans all clauses after each decision and each flip, and decides every atom up
to the greatest one.  The solver reads few clauses and decides only atoms that occur.  On the way
the two differ: values are propagated in another order, and after a conflict other values may be
left behind.  Their answers are the same, for both of them come to the first model, or show that
there is none.

* `Scanning` is what holds at every call of `scanFrom`, and `scanFrom_spec` is the induction on the
  calls;
* `decidedBy_scan?`: the plain procedure decides the clauses, as the solver does;
* `shrink_eq_prune`: an index into a core stands between what is kept and what has not been tried;
* `scan_eq_solve`: verdict, model and core are the same after every history of calls.
-/

namespace Groundwork

namespace Position

variable {f : Formula} {first p : Position} {atoms next : Nat}

/-- The atoms that are passed over have a value. -/
theorem value?_ne_none_of_lt_nextFrom {a : Nat} (hge : next ≤ a)
    (hlt : a < p.nextFrom atoms next) : p.value? a ≠ none := by
  fun_induction nextFrom p atoms next with
  | case1 next hvalued ih =>
    rcases Nat.eq_or_lt_of_le hge with rfl | hgt
    · exact Option.isSome_iff_ne_none.1 hvalued.2
    · exact ih hgt hlt
  | case2 next _ => omega

/-- What holds whenever the plain procedure goes on from a position. -/
structure Scanning (f : Formula) (first : Position) (next : Nat) (p : Position) : Prop where
  justified : Justified f first p.value? p.trail
  valued : ∀ a, 0 < a → a < next → p.value? a ≠ none

/-- The scans keep this, and it reaches up to the next atom that is free. -/
theorem Scanning.rescan (h : Scanning f first next p) {q : Position}
    (hq : Closes f p (true, q)) : Scanning f first (q.nextFrom atoms next) q := by
  refine ⟨hq.justified h.justified, fun a hpos hlt => ?_⟩
  rcases Nat.lt_or_ge a next with hbefore | hge
  · exact hq.value?_ne_none (h.valued a hpos hbefore)
  · exact value?_ne_none_of_lt_nextFrom hge hlt

/-- The next call after a decision. -/
theorem Scanning.decide (h : Scanning f first next p) (hfree : p.value? next = none)
    (hsettled : ∀ c ∈ f.clauses, Clause.Settled p.value? c) (hpos : ∀ a ∈ f.atoms, 0 < a) :
    Scanning f first next (p.assign next false (.decided false)) := by
  have hready : Ready f p.value? next :=
    ⟨hsettled, fun a ha hlt => h.valued a (hpos a ha) hlt⟩
  refine ⟨?_, fun a hpos hlt => ?_⟩
  · rw [value?_assign_eq_update]
    exact .decided h.justified hfree hready
  · rw [value?_assign, if_neg (Nat.ne_of_lt hlt)]
    exact h.valued a hpos hlt

/-- The induction is on the calls, and `Scanning` holds at each of them. -/
theorem scanFrom_spec (hassumed : ∀ step ∈ first.trail, step.2 = .assumed)
    (hatoms : ∀ a ∈ f.atoms, 0 < a ∧ a ≤ atoms) (h : Scanning f first next p) :
    Completes f first (scanFrom f atoms next p) := by
  fun_induction scanFrom f atoms next p with
  | case1 next p q hq hback =>
    rcases backtrack_of_closes (hq ▸ closes_rescan f p) h.justified hassumed with
      ⟨_, hnone⟩ | ⟨atom, r, hr, _⟩
    · exact hnone
    · rw [hback] at hr
      cases hr
  | case2 next p q hq atom r hback _ ih =>
    rcases backtrack_of_closes (hq ▸ closes_rescan f p) h.justified hassumed with
      ⟨hend, _⟩ | ⟨atom', r', hr, hjustified, _⟩
    · rw [hback] at hend
      cases hend
    · rw [hback] at hr
      cases hr
      exact ih ⟨hjustified, fun a hpos hlt => by omega⟩
  | case3 next p q hq hnext _ ih =>
    have hcloses : Closes f p (true, q) := hq ▸ closes_rescan f p
    refine ih ((h.rescan hcloses).decide (value?_nextFrom hnext) (hcloses.settled rfl) ?_)
    exact fun a ha => (hatoms a ha).1
  | case4 next p q hq hnext =>
    have hcloses : Closes f p (true, q) := hq ▸ closes_rescan f p
    have hdone : Scanning f first (q.nextFrom atoms next) q := h.rescan hcloses
    refine ⟨hdone.justified, hcloses.settled rfl, fun a ha => ?_⟩
    obtain ⟨hpos, hle⟩ := hatoms a ha
    exact hdone.valued a hpos (by omega)

end Position

namespace Solver

variable {s : Solver}

theorem formula_eq_stored (h : s.hasEmpty = false) : s.formula = s.stored := by
  rw [formula, stored, h]
  rfl

/-- The plain procedure decides what the solver decides. -/
theorem HoldsStored.decidedBy_scan? (h : HoldsStored s) : s.formula.DecidedBy s.scan? := by
  cases hempty : s.hasEmpty with
  | true =>
    intro assumptions
    rw [scan?, if_pos hempty]
    intro hsat
    obtain ⟨v, hclauses, _⟩ := hsat
    obtain ⟨l, hl, _⟩ := hclauses [] (mem_formula_iff.2 (Or.inl ⟨hempty, rfl⟩))
    cases hl
  | false =>
    have hscan : s.scan? = fun assumptions =>
        (Position.assume {} assumptions).bind (Position.scanFrom s.stored s.atoms 1) := by
      funext assumptions
      rw [scan?, hempty]
      rfl
    rw [formula_eq_stored hempty, hscan]
    refine Formula.decidedBy_of_completes fun first hassumed => ?_
    have hatoms : ∀ a ∈ s.stored.atoms, 0 < a ∧ a ≤ s.atoms := fun a ha => h.mem_atoms ha
    exact Position.scanFrom_spec hassumed hatoms ⟨.first, fun a hpos hlt => by omega⟩

theorem HoldsStored.isNone_scan? (h : HoldsStored s) (assumptions : List Literal) :
    (s.scan? assumptions).isNone = s.formula.refutes assumptions := by
  rw [Bool.eq_iff_iff, Formula.refutes_iff, Option.isNone_iff_eq_none,
    h.decidedBy_scan?.eq_none_iff]

/-- What stands before the index has been tried and is kept.  The induction is on what has not been
tried. -/
theorem HoldsStored.shrink_eq_prune (h : HoldsStored s) (kept rest : List Literal) :
    s.shrink (kept ++ rest) kept.length = prune s.formula kept rest := by
  induction rest generalizing kept with
  | nil =>
    rw [shrink, prune, List.append_nil, if_neg (Nat.lt_irrefl _)]
  | cons l rest ih =>
    have hlt : kept.length < (kept ++ l :: rest).length := by simp
    have herase : (kept ++ l :: rest).eraseIdx kept.length = kept ++ rest := by
      rw [List.eraseIdx_append_of_length_le (Nat.le_refl _), Nat.sub_self]
      rfl
    rw [shrink, if_pos hlt, herase, h.isNone_scan?, prune, ih kept]
    split
    · rfl
    · have hkept := ih (kept ++ [l])
      rwa [List.append_assoc, List.length_append] at hkept

theorem HoldsStored.scanCore_eq (h : HoldsStored s) (assumptions : List Literal) :
    s.scanCore assumptions = coreOf s.formula s.minimise assumptions := by
  rw [scanCore, coreOf, h.isNone_scan?, ← h.shrink_eq_prune [] assumptions]
  rfl

theorem HoldsStored.scan_eq (h : HoldsStored s) (assumptions : List Literal) :
    s.scan assumptions = s.solve assumptions := by
  have hnoted := h.noteAtoms assumptions
  rw [scan, Solver.solve]
  cases hnote : s.noteAtoms assumptions with
  | mk answer t =>
    rw [hnote] at hnoted
    cases answer with
    | error e => rfl
    | ok _ =>
      have hsame : t.scan? assumptions = none ↔ t.formula.solve? assumptions = none := by
        rw [hnoted.decidedBy_scan?.eq_none_iff, Formula.solve?_eq_none_iff]
      dsimp only
      cases hp : t.scan? assumptions with
      | none => rw [hsame.1 hp, hnoted.scanCore_eq]
      | some p =>
        cases hq : t.formula.solve? assumptions with
        | none =>
          rw [hsame.2 hq] at hp
          cases hp
        | some q =>
          have hassignment : p.assignment = q.assignment :=
            Formula.Found.assignment_congr (fun _ => Iff.rfl) (hnoted.decidedBy_scan?.found hp)
              (Formula.found_of_solve? hq)
          simp only [Position.model, hassignment]

/-- After every history of calls, the plain procedure gives the same verdict, the same model and the
same core as the solver. -/
theorem scan_eq_solve (minimise : Bool) (calls : List Call) (assumptions : List Literal) :
    (run minimise calls).scan assumptions = (run minimise calls).solve assumptions :=
  (stored_run minimise calls).scan_eq assumptions

end Solver

end Groundwork
