import Groundwork.Proofs.Grounding.Instances
import Groundwork.Proofs.Grounding.Refusals
import Mathlib.Data.List.Forall2

/-!
# Grounding as substitution

What the ground clauses of a rule are, without the order in which bindings are made.  A
substitution says which constant takes the place of a name.  It is overridden by the values of
further names, of which the last counts where a name is repeated, and it is applied to all bases of
a relation at once (`Substitution.override`, `Substitution.apply`).

* `Product.pairwise_positions`, `Product.tuples_eq_positions`: tuples are enumerated in
  lexicographic order of the positions of their elements;
* `Grounder.substituted`: the ground clauses of a rule, or the cause for which there are none;
* `Grounder.ground_eq_substituted`: they are what grounding returns, if it is not stopped.
-/

namespace Groundwork

/-! ## Tuples in order -/

namespace Product

universe u

variable {α : Type u}

/-- The tuples of positions in the sequences of a product. -/
def positions (sequences : List (List α)) : List (List Nat) :=
  tuples (sequences.map fun choices => List.range choices.length)

theorem mem_positions_iff {sequences : List (List α)} {place : List Nat} :
    place ∈ positions sequences ↔
      List.Forall₂ (fun choices i => i < choices.length) sequences place := by
  rw [positions, mem_tuples_iff, List.forall₂_map_left_iff]
  simp only [List.mem_range]

/-- The later positions vary first. -/
theorem pairwise_positions (sequences : List (List α)) :
    (positions sequences).Pairwise (· < ·) := by
  induction sequences with
  | nil => simp [positions]
  | cons choices rest ih =>
    show (tuples (List.range choices.length :: _)).Pairwise (· < ·)
    rw [tuples_cons, List.pairwise_flatMap]
    constructor
    · intro i _
      rw [List.pairwise_map]
      exact ih.imp fun h => List.cons_lt_cons_iff.2 (Or.inr ⟨rfl, h⟩)
    · refine List.pairwise_lt_range.imp fun {i j} hij place hplace place' hplace' => ?_
      obtain ⟨tail, _, rfl⟩ := List.mem_map.1 hplace
      obtain ⟨tail', _, rfl⟩ := List.mem_map.1 hplace'
      exact List.cons_lt_cons_iff.2 (Or.inl hij)

/-- Each tuple is read off at its positions. -/
theorem tuples_eq_positions (sequences : List (List α)) :
    (tuples sequences).map (·.map some) =
      (positions sequences).map fun place =>
        List.zipWith (fun choices i => choices[i]?) sequences place := by
  induction sequences with
  | nil => simp [positions]
  | cons choices rest ih =>
    have hread : choices.map some = (List.range choices.length).map fun i => choices[i]? := by
      refine List.ext_getElem (by simp) fun i hi _ => ?_
      rw [List.length_map] at hi
      simp [hi]
    show _ = (tuples (List.range choices.length :: _)).map _
    rw [tuples_cons, tuples_cons, List.map_flatMap, List.map_flatMap]
    have hleft : (choices.flatMap fun a => ((tuples rest).map (a :: ·)).map (·.map some)) =
        (choices.map some).flatMap fun a => ((tuples rest).map (·.map some)).map (a :: ·) := by
      rw [List.flatMap_map]
      simp only [List.map_map, Function.comp_def, List.map_cons]
    rw [hleft, hread, ih, List.flatMap_map]
    simp only [positions, List.map_map, Function.comp_def, List.zipWith_cons_cons]

/-- The order of the tuples. -/
theorem tuples_lexicographic (sequences : List (List α)) :
    ∃ places : List (List Nat), places.Pairwise (· < ·) ∧
      (∀ place, place ∈ places ↔
        List.Forall₂ (fun choices i => i < choices.length) sequences place) ∧
      (tuples sequences).map (·.map some) =
        places.map fun place => List.zipWith (fun choices i => choices[i]?) sequences place :=
  ⟨positions sequences, pairwise_positions sequences, fun _ => mem_positions_iff,
    tuples_eq_positions sequences⟩

end Product

/-! ## Substitutions -/

/-- Which constant takes the place of a name, if one does. -/
abbrev Substitution := String → Option String

namespace Substitution

/-- The substitution with names sent to the values at the same positions.  The last position counts
where a name is repeated. -/
def override (σ : Substitution) (names values : List String) : Substitution :=
  fun name => ((names.zip values).reverse.lookup name).or (σ name)

/-- The relation with the bases of all its terms replaced at once. -/
def apply (σ : Substitution) (relation : Relation) : Relation :=
  relation.mapTerms fun term =>
    Term.apply ((σ (Term.base term)).getD (Term.base term)) (Term.functions term)

end Substitution

namespace Bindings

/-- The substitution that bindings stand for. -/
def substitution (b : Bindings) : Substitution :=
  fun name => b.lookup name

theorem substitution_bindEach (b : Bindings) (names values : List String) :
    (b.bindEach names values).substitution = b.substitution.override names values := by
  funext name
  rw [substitution, bindEach_eq, List.lookup_append]
  rfl

theorem bind_eq (b : Bindings) (relation : Relation) :
    b.bind relation = b.substitution.apply relation :=
  rfl

end Bindings

namespace Grounder

variable (g : Grounder) (r : Rule)

/-! ## Ground clauses of a rule -/

/-- The tuples of constants over which variables range. -/
def tuplesOf (vars : List Variable) : List (List String) :=
  Product.tuples (vars.map fun v => g.constantsOf v.sort)

/-- The relation under each tuple of just the `any` variables that it mentions. -/
def variants (σ : Substitution) (relation : Relation) : List Relation :=
  let mentioned := r.anyVariables.filter fun v => relation.mentions v.name
  (g.tuplesOf mentioned).map fun tuple =>
    (σ.override (mentioned.map (·.name)) tuple).apply relation

/-- The ground atoms of relations.  Of the variants of a relation that have the same encoding, only
the first has one. -/
def atomsUnder (σ : Substitution) (relations : List Relation) : Except GroundError (List String) :=
  (relations.flatMap fun relation =>
    (g.variants r σ relation).eraseDupsBy fun a b => a.encoding == b.encoding).mapM g.evaluate

/-- The clauses of a rule under a tuple of its plain variables. -/
def clausesUnder (tuple : List String) : Except GroundError (List GroundClause) := do
  let σ := r.bindings.substitution.override (r.plainVariables.map (·.name)) tuple
  let body ← g.atomsUnder r σ r.body
  let heads ← g.atomsUnder r σ r.heads
  match r.kind with
  | .implication => return heads.map fun head => .withHead head body
  | .contradiction | .disjunction => return [.headless body]
  | .assertion => return heads.map fun head => .withHead head []

/-- The clauses of a rule under all tuples of its plain variables, or the first error. -/
def substituted : Except GroundError Grounded :=
  match g.refusal? r with
  | some e => .error e
  | none => do
    let tuples := g.tuplesOf r.plainVariables
    let clauses ← tuples.mapM (g.clausesUnder r)
    return {
      kind := r.kind
      clauses := clauses.flatten.toArray
      bindings := tuples.length
      predicates := r.predicates }

/-! ## What grounding returns -/

/-- The ranges of a rule that is not refused. -/
def wholeRanges : Ranges where
  plain := r.plainVariables.map g.rangeOf
  any := r.anyVariables.map g.rangeOf

theorem tuples_wholeRanges : (g.wholeRanges r).tuples = g.tuplesOf r.plainVariables := by
  unfold wholeRanges Ranges.tuples tuplesOf
  rw [List.map_map]
  rfl

theorem instanceRelations_eq (b : Bindings) (relation : Relation) :
    instanceRelations (g.wholeRanges r).any b relation =
      (g.variants r b.substitution relation).eraseDupsBy fun a b => a.encoding == b.encoding := by
  have hexpand : expand (g.wholeRanges r).any b relation = g.variants r b.substitution relation := by
    unfold expand variants wholeRanges tuplesOf
    simp only [List.filter_map, List.map_map, Function.comp_def, Bindings.bind_eq,
      Bindings.substitution_bindEach, rangeOf]
  rw [← hexpand]
  rfl

theorem mapM_instances_eq (b : Bindings) (relations : List Relation) :
    List.flatten <$> relations.mapM (g.instances (g.wholeRanges r).any b) =
      g.atomsUnder r b.substitution relations := by
  have hinstances : g.instances (g.wholeRanges r).any b =
      (fun l => l.mapM g.evaluate) ∘ fun relation =>
        (g.variants r b.substitution relation).eraseDupsBy fun a b => a.encoding == b.encoding := by
    funext relation
    rw [instances_eq, instanceRelations_eq]
    rfl
  rw [atomsUnder, List.flatMap_def, ← mapM_flatten, List.mapM_map, hinstances]

theorem clausesAt_eq (tuple : List String) :
    g.clausesAt r (g.wholeRanges r) tuple = g.clausesUnder r tuple := by
  have hnames : (g.wholeRanges r).plain.map (·.name) = r.plainVariables.map (·.name) := by
    unfold wholeRanges
    rw [List.map_map]
    rfl
  unfold clausesAt clausesUnder groundBinding
  simp only [hnames, ← Bindings.substitution_bindEach, ← mapM_instances_eq]
  cases r.body.mapM (g.instances (g.wholeRanges r).any
      (r.bindings.bindEach (r.plainVariables.map (·.name)) tuple)) with
  | error e => rfl
  | ok body =>
    cases r.heads.mapM (g.instances (g.wholeRanges r).any
        (r.bindings.bindEach (r.plainVariables.map (·.name)) tuple)) with
    | error e => rfl
    | ok heads => cases r.kind <;> rfl

variable {g r}

/-- Where no limit strikes, grounding a rule that is not refused is a loop over its tuples. -/
theorem ground_of_ranges {ranges : Ranges} (hranges : g.ranges r = .ok ranges)
    (hlimits : ∀ bindings, g.checkLimits [r] bindings = .ok ()) :
    g.ground r = gather (start r) <$> ranges.tuples.mapM (g.clausesAt r ranges) := by
  have hstep : (fun (grounded : Grounded) tuple => do
      g.checkLimits [r] grounded.bindings
      g.extend r ranges grounded tuple) = g.extend r ranges := by
    funext grounded tuple
    rw [hlimits]
    rfl
  unfold ground
  rw [hranges]
  show Product.foldM _ (start r) (ranges.plain.map (·.elements)) = _
  rw [hstep, Product.foldM_eq_foldlM_tuples, foldlM_extend_eq]
  rfl

/-- Grounding that is neither cancelled nor late returns the clauses that substitution gives, or
the same error. -/
theorem ground_eq_substituted (hcancelled : ∀ bindings, g.cancelled r bindings = false)
    (hlate : ∀ bindings, g.late r bindings = false) (hlimit : g.bindingLimit ≤ Text.maxCount) :
    g.ground r = g.substituted r := by
  have hranges := ranges_eq (r := r) hlimit
  unfold substituted
  cases hrefusal : g.refusal? r with
  | some e =>
    rw [hrefusal] at hranges
    unfold ground
    rw [hranges]
    rfl
  | none =>
    rw [hrefusal] at hranges
    have hranges : g.ranges r = .ok (g.wholeRanges r) := hranges
    rw [ground_of_ranges hranges (checkLimits_eq_ok hcancelled hlate), tuples_wholeRanges,
      funext (clausesAt_eq g r)]
    dsimp only
    cases hfound : (g.tuplesOf r.plainVariables).mapM (g.clausesUnder r) with
    | error e => rfl
    | ok found =>
      show Except.ok (gather (start r) found) = Except.ok _
      rw [(Fallible.mapM_eq_ok_iff_forall₂.1 hfound).length_eq]
      simp [gather, start]

end Grounder

end Groundwork
