import Groundwork.Proofs.Solver.Status

/-!
# Justified trails

The search moves by giving values to free atoms, and moves back along its trail.  The
trail records how each value came about, and that is what makes the search complete: no
model is lost on the way.

* `Justified` says what each step of a trail has to show.  A propagated value is the only
  one in the models that extend the values below it.  A decision is made where all clauses
  are settled and all lesser atoms of the formula have a value.  A flipped decision also
  shows that its first choice has no model.
* `undo_of_justified`: where no model extends the values, undoing the trail either shows
  that no model extends the values the trail began with, or leads to a justified trail
  again.
* `Closes` says what propagation may come to, in whatever order it reads the clauses.  What
  every unit clause keeps is kept (`Closes.invariant`); justified trails are the first use.
* `closes_propagate`: propagation comes to this, if the clauses that it does not read at
  first are settled.
* `backtrack_of_closes`: a conflict shows that there is no model, or the latest decision that
  can be flipped is flipped.
-/

namespace Groundwork.Position

/-- The values with a further one. -/
def update (u : Nat → Option Bool) (atom : Nat) (value : Bool) : Nat → Option Bool := fun a =>
  if a = atom then some value else u a

theorem value?_assign_eq_update (p : Position) (atom : Nat) (value : Bool) (reason : Reason) :
    (p.assign atom value reason).value? = update p.value? atom value :=
  funext fun a => value?_assign p atom value reason a

theorem update_of_ne {u : Nat → Option Bool} {atom a : Nat} (h : a ≠ atom) (value : Bool) :
    update u atom value a = u a :=
  if_neg h

/-- A value that is given to a free atom changes no other value. -/
theorem update_of_valued {u : Nat → Option Bool} {atom a : Nat} {value : Bool}
    (hfree : u atom = none) (hvalue : u a = some value) (other : Bool) :
    update u atom other a = some value := by
  have hne : a ≠ atom := by
    rintro rfl
    rw [hfree] at hvalue
    simp at hvalue
  rw [update_of_ne hne, hvalue]

theorem extends_update {v : Assignment} {u : Nat → Option Bool} {atom : Nat} {value : Bool}
    (hv : Assignment.Extends v u) (hatom : v atom = value) :
    Assignment.Extends v (update u atom value) := by
  intro a b hb
  unfold update at hb
  split at hb
  · next hsame =>
    rw [hsame, hatom]
    exact Option.some.inj hb
  · exact hv a b hb

theorem extends_of_extends_update {v : Assignment} {u : Nat → Option Bool} {atom : Nat}
    {value : Bool} (hfree : u atom = none)
    (hv : Assignment.Extends v (update u atom value)) : Assignment.Extends v u := by
  intro a b hb
  exact hv a b (update_of_valued hfree hb value)

/-! ## What each step shows -/

/-- The values are ready for a decision on an atom: nothing is left to propagate, and the
atom is the least one that the search can choose. -/
structure Ready (f : Formula) (u : Nat → Option Bool) (atom : Nat) : Prop where
  settled : ∀ c ∈ f.clauses, Clause.Settled u c
  least : ∀ a ∈ f.atoms, a < atom → u a ≠ none

/-- The models that extend the values all give one value to an atom. -/
def Forces (f : Formula) (u : Nat → Option Bool) (atom : Nat) (value : Bool) : Prop :=
  ∀ v, f.Models v → Assignment.Extends v u → v atom = value

/-- The values and the trail came about from a first position by justified steps. -/
inductive Justified (f : Formula) (first : Position) :
    (Nat → Option Bool) → List (Nat × Reason) → Prop where
  | first : Justified f first first.value? first.trail
  | propagated {u : Nat → Option Bool} {trail : List (Nat × Reason)} {atom : Nat}
      {value : Bool} (below : Justified f first u trail) (free : u atom = none)
      (forced : Forces f u atom value) :
      Justified f first (update u atom value) ((atom, .propagated) :: trail)
  | decided {u : Nat → Option Bool} {trail : List (Nat × Reason)} {atom : Nat}
      (below : Justified f first u trail) (free : u atom = none)
      (ready : Ready f u atom) :
      Justified f first (update u atom false) ((atom, .decided false) :: trail)
  | flipped {u : Nat → Option Bool} {trail : List (Nat × Reason)} {atom : Nat}
      (below : Justified f first u trail) (free : u atom = none)
      (ready : Ready f u atom) (forced : Forces f u atom true) :
      Justified f first (update u atom true) ((atom, .decided true) :: trail)

/-- The values of the first position are never undone. -/
theorem Justified.of_first {f : Formula} {first : Position} {u : Nat → Option Bool}
    {trail : List (Nat × Reason)} (h : Justified f first u trail) {atom : Nat} {value : Bool}
    (hvalue : first.value? atom = some value) : u atom = some value := by
  induction h with
  | first => exact hvalue
  | propagated _ free _ ih => exact update_of_valued free ih _
  | decided _ free _ ih => exact update_of_valued free ih _
  | flipped _ free _ _ ih => exact update_of_valued free ih _

/-! ## Undoing a trail -/

theorem undo_propagated (values : Std.HashMap Nat Bool) (atom : Nat)
    (trail : List (Nat × Reason)) :
    undo values ((atom, .propagated) :: trail) = undo (values.erase atom) trail :=
  rfl

theorem undo_flipped (values : Std.HashMap Nat Bool) (atom : Nat)
    (trail : List (Nat × Reason)) :
    undo values ((atom, .decided true) :: trail) = undo (values.erase atom) trail :=
  rfl

theorem undo_of_assumed {trail : List (Nat × Reason)} (h : ∀ step ∈ trail, step.2 = .assumed)
    (values : Std.HashMap Nat Bool) : undo values trail = none := by
  cases trail with
  | nil => rfl
  | cons step rest =>
    have hstep := h step List.mem_cons_self
    obtain ⟨atom, reason⟩ := step
    obtain rfl : reason = .assumed := hstep
    rfl

theorem getElem?_erase_of_update {u : Nat → Option Bool} {atom : Nat} {value : Bool}
    {values : Std.HashMap Nat Bool} (hfree : u atom = none)
    (hvalues : ∀ a, values[a]? = update u atom value a) (a : Nat) :
    (values.erase atom)[a]? = u a := by
  rw [Std.HashMap.getElem?_erase, hvalues a]
  by_cases hsame : atom = a
  · subst hsame
    simp [hfree]
  · simp [hsame, update_of_ne (Ne.symm hsame)]

theorem getElem?_insert_of_update {u : Nat → Option Bool} {atom : Nat} {value : Bool}
    {values : Std.HashMap Nat Bool} (hvalues : ∀ a, values[a]? = update u atom value a)
    (value' : Bool) (a : Nat) : (values.insert atom value')[a]? = update u atom value' a := by
  rw [Std.HashMap.getElem?_insert, hvalues a]
  by_cases hsame : atom = a
  · simp [hsame, update]
  · simp [hsame, update_of_ne (Ne.symm hsame)]

/-- A value that is forced can be taken back where no model extends the values. -/
theorem no_model_below {f : Formula} {u : Nat → Option Bool} {atom : Nat} {value : Bool}
    (hforced : Forces f u atom value)
    (hnone : ∀ v, f.Models v → ¬ Assignment.Extends v (update u atom value)) :
    ∀ v, f.Models v → ¬ Assignment.Extends v u := by
  intro v hmodels hv
  exact hnone v hmodels (extends_update hv (hforced v hmodels hv))

/-- Where no model extends the values, either no model extends the values of the first
position, or the latest decision that can be flipped is flipped.  The induction is on the
trail, from its latest step down. -/
theorem undo_of_justified {f : Formula} {first : Position} {u : Nat → Option Bool}
    {trail : List (Nat × Reason)} (h : Justified f first u trail)
    (hassumed : ∀ step ∈ first.trail, step.2 = .assumed)
    (hnone : ∀ v, f.Models v → ¬ Assignment.Extends v u)
    {values : Std.HashMap Nat Bool} (hvalues : ∀ a, values[a]? = u a) :
    (undo values trail = none ∧ ∀ v, f.Models v → ¬ Assignment.Extends v first.value?) ∨
      ∃ atom q, undo values trail = some (atom, q) ∧ Justified f first q.value? q.trail ∧
        ∀ c ∈ f.clauses, atom ∉ Clause.atoms c → Clause.Settled q.value? c := by
  induction h generalizing values with
  | first => exact Or.inl ⟨undo_of_assumed hassumed values, hnone⟩
  | propagated below free forced ih =>
    rw [undo_propagated]
    exact ih (no_model_below forced hnone) (getElem?_erase_of_update free hvalues)
  | flipped below free ready forced ih =>
    rw [undo_flipped]
    exact ih (no_model_below forced hnone) (getElem?_erase_of_update free hvalues)
  | @decided u trail atom below free ready _ =>
    have hforced : Forces f u atom true := by
      intro v hmodels hv
      cases hatom : v atom with
      | true => rfl
      | false => exact absurd (extends_update hv hatom) (hnone v hmodels)
    refine Or.inr ⟨atom, ⟨values.insert atom true, (atom, .decided true) :: trail⟩, rfl, ?_⟩
    have hvalue? : value? ⟨values.insert atom true, (atom, .decided true) :: trail⟩ =
        update u atom true :=
      funext (getElem?_insert_of_update hvalues true)
    rw [hvalue?]
    refine ⟨.flipped below free ready hforced, ?_⟩
    -- Before the decision all clauses were settled, and only its atom has a value since.
    intro c hc hatom
    refine (ready.settled c hc).congr fun a ha => update_of_ne ?_ true
    rintro rfl
    exact hatom ha

/-! ## Propagation -/

/-- What is kept whenever a unit clause gives a value to its literal. -/
def UnitInvariant (f : Formula) (I : Position → Prop) : Prop :=
  ∀ (p : Position) (c : Clause) (l : Literal), c ∈ f.clauses → p.status c = .unit l → I p →
    I (p.assign (Literal.atom l) (Literal.polarity l) .propagated)

/-- What propagation may come to: whether it ended without a conflict, and the position at
which it ended.  All values that were added came from unit clauses. -/
structure Closes (f : Formula) (p : Position) (outcome : Bool × Position) : Prop where
  invariant : ∀ I, UnitInvariant f I → I p → I outcome.2
  settled : outcome.1 = true → ∀ c ∈ f.clauses, Clause.Settled outcome.2.value? c
  falsified : outcome.1 = false → ∃ c ∈ f.clauses, Clause.Falsified outcome.2.value? c

section Closes

variable {f : Formula} {first p : Position} {outcome : Bool × Position}

theorem Closes.justified (h : Closes f p outcome) (hp : Justified f first p.value? p.trail) :
    Justified f first outcome.2.value? outcome.2.trail := by
  refine h.invariant (fun q => Justified f first q.value? q.trail) ?_ hp
  intro q c l hc hunit hq
  rw [value?_assign_eq_update]
  refine .propagated hq (mem_of_status_unit hunit).2 fun v hmodels hv => ?_
  exact forced_of_status_unit hunit hv (hmodels c hc)

/-- Propagation takes no value back. -/
theorem Closes.value?_ne_none (h : Closes f p outcome) {atom : Nat} (hp : p.value? atom ≠ none) :
    outcome.2.value? atom ≠ none := by
  refine h.invariant (fun q => q.value? atom ≠ none) ?_ hp
  intro q c l _ _ hq
  rw [value?_assign]
  split
  · simp
  · exact hq

/-- A conflict shows that no model extends the values of the first position, or it leads to a
justified trail on which the latest decision is flipped.  Only clauses with the atom of that
decision may be left to propagate then. -/
theorem backtrack_of_closes {q : Position} (h : Closes f p (false, q))
    (hp : Justified f first p.value? p.trail)
    (hassumed : ∀ step ∈ first.trail, step.2 = .assumed) :
    (q.backtrack = none ∧ ∀ v, f.Models v → ¬ Assignment.Extends v first.value?) ∨
      ∃ atom r, q.backtrack = some (atom, r) ∧ Justified f first r.value? r.trail ∧
        ∀ c ∈ f.clauses, atom ∉ Clause.atoms c → Clause.Settled r.value? c := by
  have hnone : ∀ v, f.Models v → ¬ Assignment.Extends v q.value? := by
    obtain ⟨c, hc, hfalse⟩ := h.falsified rfl
    intro v hmodels hv
    exact hfalse.not_holds hv (hmodels c hc)
  have hvalues : ∀ a, q.values[a]? = q.value? a := fun _ => rfl
  exact undo_of_justified (h.justified hp) hassumed hnone hvalues

end Closes

section Propagation

variable {f : Formula}

/-- What every unit clause keeps is kept by a pass. -/
theorem pass_invariant {I : Position → Prop} (hI : UnitInvariant f I) (gained : List Nat)
    {clauses : List Clause} (mem : clauses ⊆ f.clauses) {p : Position} (hp : I p) :
    I (pass gained clauses p).2 := by
  fun_induction pass gained clauses p with
  | case1 => exact hp
  | case2 => exact hp
  | case3 gained c clauses p l hstatus ih =>
    obtain ⟨hc, hrest⟩ := List.cons_subset.1 mem
    exact ih hrest (hI _ _ _ hc hstatus hp)
  | case4 gained c clauses p hstatus ih => exact ih (List.cons_subset.1 mem).2 hp

/-- A pass stops early at a clause that is false. -/
theorem falsified_of_pass {gained : List Nat} {clauses : List Clause}
    (mem : clauses ⊆ f.clauses) {p q : Position} (h : pass gained clauses p = (none, q)) :
    ∃ c ∈ f.clauses, Clause.Falsified q.value? c := by
  fun_induction pass gained clauses p with
  | case1 => simp at h
  | case2 gained c clauses p hstatus =>
    obtain rfl : p = q := by simpa using h
    exact ⟨c, (List.cons_subset.1 mem).1, status_eq_falsified_iff.1 hstatus⟩
  | case3 gained c clauses p l hstatus ih => exact ih (List.cons_subset.1 mem).2 h
  | case4 gained c clauses p hstatus ih => exact ih (List.cons_subset.1 mem).2 h

/-- The clause is settled, or one of the atoms that got a value occurs in it. -/
def SettledOrGained (u : Nat → Option Bool) (gained : List Nat) (c : Clause) : Prop :=
  Clause.Settled u c ∨ ∃ a ∈ gained, a ∈ Clause.atoms c

theorem SettledOrGained.assign {p : Position} {gained : List Nat} {c : Clause}
    (h : SettledOrGained p.value? gained c) (atom : Nat) (value : Bool) (reason : Reason) :
    SettledOrGained (p.assign atom value reason).value? (atom :: gained) c := by
  by_cases hatom : atom ∈ Clause.atoms c
  · exact Or.inr ⟨atom, List.mem_cons_self, hatom⟩
  · rcases h with hsettled | ⟨a, ha, hac⟩
    · refine Or.inl (hsettled.congr fun a ha => ?_)
      rw [value?_assign_eq_update]
      refine update_of_ne ?_ value
      rintro rfl
      exact hatom ha
    · exact Or.inr ⟨a, List.mem_cons_of_mem _ ha, hac⟩

/-- After a whole pass, only clauses with an atom that got a value may be left to
propagate.  This holds of the clauses that were read, as a value given later in the pass
counts as well, and of all others that it held of before. -/
theorem settledOrGained_pass {gained gained' : List Nat} {clauses : List Clause}
    {p q : Position} (h : pass gained clauses p = (some gained', q))
    (hp : ∀ c ∈ f.clauses, c ∈ clauses ∨ SettledOrGained p.value? gained c) :
    ∀ c ∈ f.clauses, SettledOrGained q.value? gained' c := by
  fun_induction pass gained clauses p with
  | case1 gained p =>
    cases h
    intro c hc
    exact (hp c hc).resolve_left (by simp)
  | case2 => simp at h
  | case3 gained first clauses p l hstatus ih =>
    refine ih h fun c hc => ?_
    rcases hp c hc with hmem | hdone
    · rcases List.mem_cons.1 hmem with rfl | hmem
      · have hl := (mem_of_status_unit hstatus).1
        exact Or.inr (Or.inr ⟨_, List.mem_cons_self, List.mem_map_of_mem hl⟩)
      · exact Or.inl hmem
    · exact Or.inr (hdone.assign _ _ _)
  | case4 gained first clauses p hstatus ih =>
    refine ih h fun c hc => ?_
    rcases hp c hc with hmem | hdone
    · rcases List.mem_cons.1 hmem with rfl | hmem
      · exact Or.inr (Or.inl (settled_of_status hstatus))
      · exact Or.inl hmem
    · exact Or.inr hdone

/-- Where no atom got a value in a pass, it settles the clauses. -/
theorem settled_of_pass {clauses : List Clause} {p q : Position}
    (h : pass [] clauses p = (some [], q))
    (hp : ∀ c ∈ f.clauses, c ∈ clauses ∨ Clause.Settled p.value? c) :
    ∀ c ∈ f.clauses, Clause.Settled q.value? c := by
  intro c hc
  have hdone := settledOrGained_pass h (fun c hc => (hp c hc).imp id Or.inl) c hc
  exact hdone.resolve_right (by simp)

/-- What every unit clause keeps is kept by propagation.  The induction is on the passes. -/
theorem propagate_invariant {I : Position → Prop} (hI : UnitInvariant f I)
    {clauses : List Clause} (mem : clauses ⊆ f.clauses) {p : Position} (hp : I p) :
    I (propagate f clauses mem p).2 := by
  fun_induction propagate f clauses mem p with
  | case1 clauses mem p q h => simpa [h] using pass_invariant hI [] mem hp
  | case2 clauses mem p q h => simpa [h] using pass_invariant hI [] mem hp
  | case3 clauses mem p atom gained q h _ ih =>
    exact ih (by simpa [h] using pass_invariant hI [] mem hp)

theorem falsified_of_propagate {clauses : List Clause} (mem : clauses ⊆ f.clauses) {p : Position}
    (h : (propagate f clauses mem p).1 = false) :
    ∃ c ∈ f.clauses, Clause.Falsified (propagate f clauses mem p).2.value? c := by
  fun_induction propagate f clauses mem p with
  | case1 clauses mem p q hpass => exact falsified_of_pass mem hpass
  | case2 => simp at h
  | case3 clauses mem p atom gained q hpass _ ih => exact ih h

/-- Where propagation ends, no clause is left to propagate, if it has read all clauses of
which this was not known. -/
theorem settled_of_propagate {clauses : List Clause} (mem : clauses ⊆ f.clauses) {p : Position}
    (hp : ∀ c ∈ f.clauses, c ∈ clauses ∨ Clause.Settled p.value? c)
    (h : (propagate f clauses mem p).1 = true) :
    ∀ c ∈ f.clauses, Clause.Settled (propagate f clauses mem p).2.value? c := by
  fun_induction propagate f clauses mem p with
  | case1 => simp at h
  | case2 clauses mem p q hpass => exact settled_of_pass hpass hp
  | case3 clauses mem p atom gained q hpass _ ih =>
    refine ih (fun c hc => ?_) h
    rcases settledOrGained_pass hpass (fun c hc => (hp c hc).imp id Or.inl) c hc with
      hsettled | ⟨a, ha, hac⟩
    · exact Or.inr hsettled
    · exact Or.inl (List.mem_flatMap.2 ⟨a, ha, Formula.mem_clausesWith.2 ⟨hc, hac⟩⟩)

theorem closes_propagate {clauses : List Clause} (mem : clauses ⊆ f.clauses) {p : Position}
    (hp : ∀ c ∈ f.clauses, c ∈ clauses ∨ Clause.Settled p.value? c) :
    Closes f p (propagate f clauses mem p) :=
  ⟨fun _ hI hIp => propagate_invariant hI mem hIp, settled_of_propagate mem hp,
    falsified_of_propagate mem⟩

end Propagation

end Groundwork.Position
