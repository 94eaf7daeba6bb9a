import Groundwork.Proofs.Solver.History

/-!
# Clauses as they are stored

Whatever was asked of a solver before, calls with a zero included, each clause that it stores is
in decreasing order without repetitions, has no literal together with its negation, and is about
atoms that the solver has met.

* `pairwise_gt_normalise`: the order in which a clause is stored;
* `atom_ne_of_ne`: in a clause that is no tautology, different literals have different atoms.  So
  two free literals are as good as two free atoms, and this is why it is right to count them;
* `noteAtoms_snd`: of literals with a zero, those before the zero are noted all the same;
* `stored_run`: the invariant, after every history of calls.
-/

namespace Groundwork

/-! ## Order and repetitions -/

/-- In a loop that has reached `first`, everything before is greater, and everything behind is not.
The induction is on what is behind. -/
theorem pairwise_gt_eraseReps_loop {first : Literal} {l acc : List Literal}
    (hdone : (acc.reverse ++ [first]).Pairwise (· > ·)) (hrest : (first :: l).Pairwise (· ≥ ·)) :
    (List.eraseRepsBy.loop (· == ·) first l acc).Pairwise (· > ·) := by
  induction l generalizing first acc with
  | nil => simpa [List.eraseRepsBy.loop] using hdone
  | cons next l ih =>
    obtain ⟨hfirst, htail⟩ := List.pairwise_cons.1 hrest
    rw [List.eraseRepsBy.loop]
    cases hsame : first == next with
    | true =>
      obtain rfl : first = next := by simpa using hsame
      exact ih hdone htail
    | false =>
      have hge : next ≤ first := hfirst next List.mem_cons_self
      have hlt : next < first := Int32.lt_of_le_of_ne hge (Ne.symm (by simpa using hsame))
      refine ih ?_ htail
      rw [List.reverse_cons, List.pairwise_append]
      refine ⟨hdone, List.pairwise_singleton _ _, fun a ha b hb => ?_⟩
      obtain rfl := List.mem_singleton.1 hb
      rcases List.mem_append.1 ha with ha | ha
      · have habove : first < a := (List.pairwise_append.1 hdone).2.2 a ha first (by simp)
        exact Int32.lt_trans hlt habove
      · obtain rfl := List.mem_singleton.1 ha
        exact hlt

theorem pairwise_gt_eraseReps {l : List Literal} (h : l.Pairwise (· ≥ ·)) :
    l.eraseReps.Pairwise (· > ·) := by
  cases l with
  | nil => exact .nil
  | cons first l => exact pairwise_gt_eraseReps_loop (List.pairwise_singleton _ _) h

namespace Literal

theorem atom_pos_of_ne_zero {l : Literal} (h : l ≠ 0) : 0 < atom l := by
  have hne : l.toInt ≠ (0 : Int32).toInt := fun hint => h (Int32.toInt_inj.1 hint)
  have hzero : (0 : Int32).toInt = 0 := rfl
  rw [hzero] at hne
  simp only [atom]
  omega

/-- There are two literals of an atom. -/
theorem eq_or_eq_negate_of_atom_eq {l l' : Literal} (h : atom l' = atom l) :
    l' = l ∨ l' = negate l := by
  have hlower := l.le_toInt
  have hupper := l.toInt_lt
  have hlower' := l'.le_toInt
  have hupper' := l'.toInt_lt
  simp only [atom] at h
  by_cases hsame : l'.toInt = l.toInt
  · exact Or.inl (Int32.toInt_inj.1 hsame)
  · refine Or.inr (Int32.toInt_inj.1 ?_)
    rw [negate, Int32.toInt_neg, Int.bmod_def]
    omega

end Literal

namespace Solver

theorem pairwise_gt_normalise (c : Clause) : (normalise c).Pairwise (· > ·) := by
  have hsorted : (c.mergeSort fun a b => b ≤ a).Pairwise fun a b => decide (b ≤ a) = true := by
    refine List.pairwise_mergeSort (fun a b d hab hbd => ?_) (fun a b => ?_) c
    · exact decide_eq_true (Int32.le_trans (of_decide_eq_true hbd) (of_decide_eq_true hab))
    · simpa using Int32.le_total b a
  exact pairwise_gt_eraseReps (hsorted.imp of_decide_eq_true)

/-- Different literals have different atoms, unless one is the negation of the other. -/
theorem atom_ne_of_ne {c : Clause} (hc : isTautology c = false) {l l' : Literal} (hl : l ∈ c)
    (hl' : l' ∈ c) (hne : l ≠ l') : Literal.atom l ≠ Literal.atom l' := by
  intro hatom
  have htaut : isTautology c = true := by
    rw [isTautology, meets_iff]
    refine ⟨Literal.negate l', List.mem_map_of_mem hl', ?_⟩
    rcases Literal.eq_or_eq_negate_of_atom_eq hatom with hsame | hopposite
    · exact absurd hsame hne
    · exact hopposite ▸ hl
  rw [hc] at htaut
  cases htaut

/-! ## Calls with a zero -/

/-- The literals before the first zero. -/
def beforeZero (literals : List Literal) : List Literal :=
  literals.takeWhile (· != 0)

/-- Literals are noted up to the first zero.  The induction is on the literals. -/
theorem noteAtoms_snd (literals : List Literal) (s : Solver) :
    (s.noteAtoms literals).2 = { s with
      atoms := (beforeZero literals).foldl (fun n l => max n (Literal.atom l)) s.atoms } := by
  induction literals generalizing s with
  | nil => rfl
  | cons l literals ih =>
    rw [noteAtoms, beforeZero]
    split
    · next hzero => simp [hzero]
    · next hne =>
      rw [ih, List.takeWhile_cons_of_pos (by simpa using hne)]
      rfl

/-! ## The invariant -/

/-- What is known of a clause that is stored, where atoms up to a bound have been met. -/
structure Stored (atoms : Nat) (c : Clause) : Prop where
  ne_nil : c ≠ []
  decreasing : c.Pairwise (· > ·)
  apart : isTautology c = false
  nonZero : ∀ l ∈ c, l ≠ 0
  atom_le : ∀ l ∈ c, Literal.atom l ≤ atoms

theorem Stored.mono {m n : Nat} {c : Clause} (h : Stored m c) (hle : m ≤ n) : Stored n c :=
  ⟨h.ne_nil, h.decreasing, h.apart, h.nonZero, fun l hl => Nat.le_trans (h.atom_le l hl) hle⟩

/-- Everything that a solver holds is stored in this way. -/
def HoldsStored (s : Solver) : Prop :=
  ∀ c ∈ s.clauses.toList, Stored s.atoms c

variable {s : Solver}

theorem stored_normalise {c : Clause} (hc : ∀ l ∈ c, l ≠ 0)
    (htaut : isTautology (normalise c) = false) (hne : (normalise c).isEmpty = false) (n : Nat) :
    Stored (c.foldl (fun n l => max n (Literal.atom l)) n) (normalise c) := by
  refine ⟨?_, pairwise_gt_normalise c, htaut, fun l hl => hc l (mem_normalise.1 hl), fun l hl => ?_⟩
  · rintro hnil
    rw [hnil] at hne
    cases hne
  · exact (le_foldl_max c n).2 l (mem_normalise.1 hl)

/-- More atoms do no harm. -/
theorem HoldsStored.noteAtoms (h : HoldsStored s) (literals : List Literal) :
    HoldsStored (s.noteAtoms literals).2 := by
  rw [noteAtoms_snd]
  exact fun c hc => (h c hc).mono (le_foldl_max _ s.atoms).1

theorem HoldsStored.add (h : HoldsStored s) (c : Clause) : HoldsStored (s.add c).2 := by
  by_cases hzero : 0 ∈ c
  · rw [add_of_zero hzero]
    exact h.noteAtoms c
  have hc : ∀ l ∈ c, l ≠ 0 := fun l hl hl0 => hzero (hl0 ▸ hl)
  have hkept : ∀ d ∈ s.clauses.toList,
      Stored (c.foldl (fun n l => max n (Literal.atom l)) s.atoms) d := fun d hd =>
    (h d hd).mono (le_foldl_max c s.atoms).1
  rw [add_eq hc]
  dsimp only
  split
  · exact hkept
  · next htaut =>
    split
    · exact hkept
    · next hne =>
      intro d hd
      rw [Array.toList_push, List.mem_append, List.mem_singleton] at hd
      rcases hd with hd | rfl
      · exact hkept d hd
      · exact stored_normalise hc (by simpa using htaut) (by simpa using hne) s.atoms

theorem HoldsStored.solve (h : HoldsStored s) (assumptions : List Literal) :
    HoldsStored (s.solve assumptions).2 := by
  by_cases hzero : 0 ∈ assumptions
  · rw [solve_of_zero hzero]
    exact h.noteAtoms assumptions
  have hkept : ∀ d ∈ s.clauses.toList,
      Stored (assumptions.foldl (fun n l => max n (Literal.atom l)) s.atoms) d := fun d hd =>
    (h d hd).mono (le_foldl_max assumptions s.atoms).1
  rw [solve_eq fun l hl hl0 => hzero (hl0 ▸ hl)]
  dsimp only
  split <;> exact hkept

theorem HoldsStored.after (h : HoldsStored s) (call : Call) : HoldsStored (s.after call) := by
  cases call with
  | add c => exact h.add c
  | solve assumptions => exact h.solve assumptions
  | reset =>
    intro c hc
    simp [Solver.after, Solver.reset] at hc

/-- The induction is on the calls. -/
theorem stored_run (minimise : Bool) (calls : List Call) : HoldsStored (run minimise calls) := by
  have hfoldl : ∀ s : Solver, HoldsStored s → HoldsStored (calls.foldl Solver.after s) := by
    induction calls with
    | nil => exact fun s hs => hs
    | cons call calls ih => exact fun s hs => ih (s.after call) (hs.after call)
  refine hfoldl { minimise } fun c hc => ?_
  simp at hc

/-- The clauses of the formula are the stored ones, and the empty clause if it was given. -/
theorem mem_formula_iff {c : Clause} :
    c ∈ s.formula.clauses ↔ s.hasEmpty = true ∧ c = [] ∨ c ∈ s.clauses.toList := by
  have hclauses : s.formula.clauses = (if s.hasEmpty then [[]] else []) ++ s.clauses.toList := rfl
  rw [hclauses, List.mem_append]
  cases s.hasEmpty <;> simp

/-- All atoms of the formula have been met. -/
theorem HoldsStored.le_atoms (h : HoldsStored s) : ∀ atom ∈ s.formula.atoms, atom ≤ s.atoms := by
  intro atom hatom
  obtain ⟨c, hc, hmem⟩ := (s.formula.mem_atoms atom).1 hatom
  obtain ⟨l, hl, rfl⟩ := List.mem_map.1 hmem
  rcases mem_formula_iff.1 hc with ⟨_, rfl⟩ | hc
  · cases hl
  · exact (h c hc).atom_le l hl

end Solver

end Groundwork
