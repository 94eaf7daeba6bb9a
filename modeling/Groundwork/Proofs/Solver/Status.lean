import Groundwork.Solver.Search

/-!
# What a position makes of a clause

The search looks at a clause through `Position.status`, which reads the literals one
after the other.  This module says what the answer means for the values alone, and
what it means for the assignments that extend them.

* `Assignment.Extends`: an assignment agrees with the values given so far.
* `Clause.Satisfied`, `Clause.Falsified` and `Clause.Settled`: the three ways in which
  values can decide a clause, or leave it alone.
* `Position.status_eq_falsified_iff`, `Position.settled_of_status` and
  `Position.forced_of_status_unit`: what each status says.  The literal of a unit clause
  is forced on every assignment that makes the clause true.
* `Clause.Settled.congr`: only the values of the atoms of a clause matter, so a clause
  stays settled while none of its atoms gets a value.
-/

namespace Groundwork

/-- The assignment gives to each atom the value that the atom has. -/
def Assignment.Extends (v : Assignment) (value? : Nat → Option Bool) : Prop :=
  ∀ atom value, value? atom = some value → v atom = value

/-- The assignment makes every clause of the formula true. -/
def Formula.Models (f : Formula) (v : Assignment) : Prop :=
  ∀ c ∈ f.clauses, Clause.Holds v c

namespace Clause

/-- Some literal of the clause is true. -/
def Satisfied (value? : Nat → Option Bool) (c : Clause) : Prop :=
  ∃ l ∈ c, value? (Literal.atom l) = some (Literal.polarity l)

/-- All literals of the clause are false. -/
def Falsified (value? : Nat → Option Bool) (c : Clause) : Prop :=
  ∀ l ∈ c, value? (Literal.atom l) = some (!Literal.polarity l)

/-- The clause is true, or its literals are free at two places at least. -/
def Settled (value? : Nat → Option Bool) (c : Clause) : Prop :=
  Satisfied value? c ∨
    ∃ l l', [l, l'].Sublist c ∧
      value? (Literal.atom l) = none ∧ value? (Literal.atom l') = none

theorem Satisfied.holds {v : Assignment} {value? : Nat → Option Bool} {c : Clause}
    (h : Satisfied value? c) (hv : Assignment.Extends v value?) : Clause.Holds v c := by
  obtain ⟨l, hl, htrue⟩ := h
  exact ⟨l, hl, hv _ _ htrue⟩

/-- No assignment makes a clause true of which it makes every literal false. -/
theorem Falsified.not_holds {v : Assignment} {value? : Nat → Option Bool} {c : Clause}
    (h : Falsified value? c) (hv : Assignment.Extends v value?) : ¬ Clause.Holds v c := by
  intro h
  obtain ⟨l, hl, hholds⟩ := h
  have hvalue := hv _ _ (h l hl)
  rw [Literal.Holds, hvalue] at hholds
  simp at hholds

theorem Settled.congr {u v : Nat → Option Bool} {c : Clause}
    (h : ∀ a ∈ Clause.atoms c, v a = u a) (hu : Settled u c) : Settled v c := by
  have hatom : ∀ l ∈ c, v (Literal.atom l) = u (Literal.atom l) := fun l hl =>
    h _ (List.mem_map_of_mem hl)
  rcases hu with ⟨l, hl, htrue⟩ | ⟨l, l', hsub, hfree, hfree'⟩
  · exact Or.inl ⟨l, hl, by rw [hatom l hl, htrue]⟩
  · refine Or.inr ⟨l, l', hsub, ?_, ?_⟩
    · rw [hatom l (hsub.subset (by simp)), hfree]
    · rw [hatom l' (hsub.subset (by simp)), hfree']

/-- Once all atoms have a value, a clause can only be settled by being true. -/
theorem Settled.satisfied {value? : Nat → Option Bool} {c : Clause} (h : Settled value? c)
    (hvalued : ∀ a ∈ Clause.atoms c, value? a ≠ none) : Satisfied value? c := by
  rcases h with hsat | ⟨l, l', hsub, hfree, _⟩
  · exact hsat
  · exact absurd hfree (hvalued _ (List.mem_map_of_mem (hsub.subset (by simp))))

end Clause

namespace Position

/-! ## The truth of a literal -/

theorem truth?_eq_none_iff {p : Position} {l : Literal} :
    p.truth? l = none ↔ p.value? (Literal.atom l) = none := by
  simp [truth?]

theorem truth?_eq_true_iff {p : Position} {l : Literal} :
    p.truth? l = some true ↔ p.value? (Literal.atom l) = some (Literal.polarity l) := by
  cases h : p.value? (Literal.atom l) <;> simp [truth?, h]

theorem truth?_eq_false_iff {p : Position} {l : Literal} :
    p.truth? l = some false ↔ p.value? (Literal.atom l) = some (!Literal.polarity l) := by
  cases h : p.value? (Literal.atom l) <;> simp [truth?, h, Bool.eq_not]

theorem falsifies_iff {p : Position} {c : Clause} :
    p.falsifies c = true ↔ Clause.Falsified p.value? c := by
  simp [falsifies, Clause.Falsified, truth?_eq_false_iff]

/-! ## The status of a clause -/

theorem status_eq_falsified_iff {p : Position} {c : Clause} :
    p.status c = .falsified ↔ Clause.Falsified p.value? c := by
  induction c with
  | nil => simp [status, Clause.Falsified]
  | cons l c ih =>
    have hcons : Clause.Falsified p.value? (l :: c) ↔
        p.truth? l = some false ∧ Clause.Falsified p.value? c := by
      rw [truth?_eq_false_iff]
      exact List.forall_mem_cons
    rw [hcons, status]
    cases htruth : p.truth? l with
    | none => by_cases hrest : p.falsifies c = true <;> simp [hrest]
    | some value =>
      cases value with
      | true => simp
      | false => simpa using ih

/-- The literals around that of a unit clause are false. -/
theorem falsified_of_status_unit {p : Position} {c : Clause} {l : Literal}
    (h : p.status c = .unit l) : ∀ other ∈ c, other ≠ l →
      p.value? (Literal.atom other) = some (!Literal.polarity other) := by
  induction c with
  | nil => simp
  | cons first c ih =>
    rw [status] at h
    split at h
    · simp at h
    · next hfalse =>
      intro other hother hne
      rcases List.mem_cons.1 hother with rfl | hother
      · exact truth?_eq_false_iff.1 hfalse
      · exact ih h other hother hne
    · next hfree =>
      split at h
      · next hrest =>
        obtain rfl : first = l := by simpa using h
        intro other hother hne
        rcases List.mem_cons.1 hother with rfl | hother
        · exact absurd rfl hne
        · exact falsifies_iff.1 hrest other hother
      · simp at h

/-- Of two places in a unit clause, one has a value. -/
theorem ne_none_of_status_unit {p : Position} {c : Clause} {l first second : Literal}
    (h : p.status c = .unit l) (hsub : [first, second].Sublist c)
    (hfirst : p.value? (Literal.atom first) = none) : p.value? (Literal.atom second) ≠ none := by
  induction c with
  | nil => simp [status] at h
  | cons other c ih =>
    rw [status] at h
    split at h
    · simp at h
    · next hfalse =>
      cases hsub with
      | cons _ hsub => exact ih h hsub
      | cons_cons _ _ =>
        rw [truth?_eq_false_iff, hfirst] at hfalse
        cases hfalse
    · split at h
      · next hrest =>
        have hmem : second ∈ c := by
          cases hsub with
          | cons _ hsub => exact hsub.subset (by simp)
          | cons_cons _ hsub => exact List.singleton_sublist.1 hsub
        rw [falsifies_iff.1 hrest second hmem]
        exact Option.some_ne_none _
      · simp at h

/-- A unit clause leaves no choice for its literal. -/
theorem forced_of_status_unit {p : Position} {c : Clause} {l : Literal} {v : Assignment}
    (h : p.status c = .unit l) (hv : Assignment.Extends v p.value?) (hc : Clause.Holds v c) :
    Literal.Holds v l := by
  obtain ⟨other, hother, hholds⟩ := hc
  by_cases hsame : other = l
  · exact hsame ▸ hholds
  · have hvalue := hv _ _ (falsified_of_status_unit h other hother hsame)
    rw [Literal.Holds, hvalue] at hholds
    simp at hholds

/-- A clause with a literal that is not false has a true one or a free one. -/
theorem satisfied_or_free_of_not_falsifies {p : Position} {c : Clause}
    (h : ¬ p.falsifies c = true) :
    Clause.Satisfied p.value? c ∨ ∃ l ∈ c, p.value? (Literal.atom l) = none := by
  rw [falsifies_iff] at h
  unfold Clause.Falsified at h
  simp only [Classical.not_forall] at h
  obtain ⟨l, hl, hnot⟩ := h
  cases hvalue : p.value? (Literal.atom l) with
  | none => exact Or.inr ⟨l, hl, hvalue⟩
  | some value =>
    refine Or.inl ⟨l, hl, ?_⟩
    rw [hvalue] at hnot ⊢
    simpa [Bool.eq_not] using hnot

/-- A clause that the search leaves alone is settled. -/
theorem settled_of_status {p : Position} {c : Clause} (h : p.status c = .settled) :
    Clause.Settled p.value? c := by
  induction c with
  | nil => simp [status] at h
  | cons l c ih =>
    rw [status] at h
    split at h
    · next htrue => exact Or.inl ⟨l, by simp, truth?_eq_true_iff.1 htrue⟩
    · rcases ih h with ⟨l', hl', htrue⟩ | ⟨l', l'', hsub, hfree⟩
      · exact Or.inl ⟨l', List.mem_cons_of_mem _ hl', htrue⟩
      · exact Or.inr ⟨l', l'', hsub.trans (List.sublist_cons_self l c), hfree⟩
    · next hfree =>
      split at h
      · simp at h
      · next hrest =>
        rcases satisfied_or_free_of_not_falsifies hrest with ⟨l', hl', htrue⟩ | ⟨l', hl', hfree'⟩
        · exact Or.inl ⟨l', List.mem_cons_of_mem _ hl', htrue⟩
        · refine Or.inr ⟨l, l', ?_, truth?_eq_none_iff.1 hfree, hfree'⟩
          exact (List.singleton_sublist.2 hl').cons_cons l

end Position

end Groundwork
