import Groundwork.Proofs.Distinct
import Groundwork.Proofs.Grounding.Alone
import Groundwork.Proofs.SortTable
import Groundwork.Session
import Groundwork.Text.Count
import Mathlib.Algebra.BigOperators.Group.List.Basic
import Mathlib.Data.List.Perm.Basic

/-!
# Rules that are refused

A rule is looked at as a whole before any of its variables is bound.  It is refused for a base
that is neither a variable nor a constant, for a variable over an unknown sort, and for too many
bindings, in this order.

The bindings are counted by multiplications that saturate, first over the plain variables and over
the `any` variables, and then both together.  All limits are below the count at which products
saturate, and a product that has a factor of zero is zero even if it saturated on the way, so what
is compared with the limit and what is reported are exact.

* `ranges_eq`: the ranges of a rule that is not refused, and the cause if it is;
* `refusal?_eq_none_iff`: which rules are not refused;
* `ranges_reports_count`: when a rule is refused for its count, and which count is reported.
-/

namespace Groundwork

namespace Rule

/-- The bases of all terms, in order of mention. -/
def bases (r : Rule) : List String :=
  r.relations.flatMap fun relation => relation.terms.map Term.base

theorem find?_constantTerms (r : Rule) (p : String → Bool) :
    r.constantTerms.find? p =
      r.bases.find? fun base => !(r.vars.map (·.name)).contains base && p base := by
  unfold constantTerms
  rw [distinct_eq_eraseDups, outside_eq_removeAll, find?_eraseDups, List.removeAll, List.find?_filter]
  simp only [Bool.decide_and, Bool.decide_eq_true]
  rfl

theorem mem_constantTerms_iff {r : Rule} {term : String} :
    term ∈ r.constantTerms ↔ term ∈ r.bases ∧ term ∉ r.vars.map (·.name) := by
  unfold constantTerms
  rw [distinct_eq_eraseDups, outside_eq_removeAll, List.mem_eraseDups, List.removeAll,
    List.mem_filter, Bool.not_eq_true', ← Bool.not_eq_true, List.elem_iff]
  rfl

end Rule

namespace Grounder

/-- The constants of a sort, and none if there is no such sort. -/
def constantsOf (g : Grounder) (sort : String) : List String :=
  (g.elements sort).toOption.getD []

/-- The range of a variable. -/
def rangeOf (g : Grounder) (x : Variable) : Range where
  name := x.name
  elements := g.constantsOf x.sort

variable (g : Grounder) (r : Rule)

/-! ## Ranges -/

/-- Whether a sort is declared, or restricted. -/
def knows (sort : String) : Bool :=
  (g.restrictions.lookup sort).isSome || (g.sorts.get? sort).isSome

/-- A restriction takes the place of the constants of the sort. -/
theorem constantsOf_eq (sort : String) :
    g.constantsOf sort = (g.restrictions.lookup sort).getD (g.sorts.elementsOf sort) := by
  unfold constantsOf elements SortTable.elementsOf
  cases g.restrictions.lookup sort with
  | some constants => rfl
  | none => cases g.sorts.get? sort <;> rfl

theorem elements_eq (sort : String) :
    g.elements sort =
      if g.knows sort then .ok (g.constantsOf sort) else .error (.unknownSort sort) := by
  unfold constantsOf knows elements
  cases g.restrictions.lookup sort with
  | some constants => rfl
  | none => cases g.sorts.get? sort <;> rfl

theorem rangesOf_eq (vars : List Variable) :
    g.rangesOf vars =
      match vars.find? fun v => !g.knows v.sort with
      | some v => .error (.unknownSort v.sort)
      | none => .ok (vars.map g.rangeOf) := by
  induction vars with
  | nil => rfl
  | cons v vars ih =>
    unfold rangesOf at ih ⊢
    rw [List.mapM_cons, ih, elements_eq, List.find?_cons]
    cases g.knows v.sort with
    | false => rfl
    | true => cases vars.find? fun v => !g.knows v.sort <;> rfl

/-- The number of bindings of all variables together, however large. -/
def bindingCount : Nat :=
  (r.vars.map fun v => (g.constantsOf v.sort).length).prod

/-- Why a rule is refused, if it is. -/
def refusal? : Option GroundError :=
  match r.bases.find? fun base => !(r.vars.map (·.name)).contains base && !g.sorts.isConstant base with
  | some base => some (.unknownVariableSort base)
  | none =>
    match (r.plainVariables ++ r.anyVariables).find? fun v => !g.knows v.sort with
    | some v => some (.unknownSort v.sort)
    | none =>
      if g.bindingLimit < g.bindingCount r then
        some (.bindingLimit (min (g.bindingCount r) (2 ^ 128 - 1)) g.bindingLimit)
      else none

/-- The variables that are bound in either way are all variables. -/
theorem plainVariables_append_perm : (r.plainVariables ++ r.anyVariables).Perm r.vars := by
  have hperm := List.filter_append_perm (fun v : Variable => !isAnyVariable v.name) r.vars
  simp only [Bool.not_not] at hperm
  exact hperm

theorem saturatingMul_count_rangeOf :
    Product.saturatingMul (Product.count ((r.plainVariables.map g.rangeOf).map (·.elements)))
        (Product.count ((r.anyVariables.map g.rangeOf).map (·.elements))) =
      min (g.bindingCount r) Product.maxTuples := by
  have hprod := ((plainVariables_append_perm r).map fun v => (g.constantsOf v.sort).length).prod_eq
  rw [List.map_append, List.prod_append] at hprod
  rw [Product.saturatingMul_count, Product.length_tuples, Product.length_tuples, bindingCount, ← hprod]
  simp only [rangeOf, List.map_map, Function.comp_def]

variable {g r}

/-- The saturated count exceeds a limit exactly if the count does. -/
theorem lt_min_maxTuples_iff (hlimit : g.bindingLimit ≤ Text.maxCount) (count : Nat) :
    g.bindingLimit < min count Product.maxTuples ↔ g.bindingLimit < count := by
  have hbelow : Text.maxCount < Product.maxTuples := by decide
  omega

/-- The ranges of a rule, or the cause for which it is refused. -/
theorem ranges_eq (hlimit : g.bindingLimit ≤ Text.maxCount) :
    g.ranges r =
      match g.refusal? r with
      | some e => .error e
      | none => .ok ⟨r.plainVariables.map g.rangeOf, r.anyVariables.map g.rangeOf⟩ := by
  unfold ranges refusal?
  rw [Rule.find?_constantTerms]
  cases r.bases.find? fun base =>
      !(r.vars.map (·.name)).contains base && !g.sorts.isConstant base with
  | some base => rfl
  | none =>
    dsimp only
    rw [rangesOf_eq, rangesOf_eq, List.find?_append]
    cases r.plainVariables.find? fun v => !g.knows v.sort with
    | some v => rfl
    | none =>
      cases r.anyVariables.find? fun v => !g.knows v.sort with
      | some v => rfl
      | none =>
        show (if g.bindingLimit < Product.saturatingMul _ _ then
            Except.error (GroundError.bindingLimit (Product.saturatingMul _ _) g.bindingLimit)
          else Except.ok _) = _
        rw [saturatingMul_count_rangeOf]
        simp only [lt_min_maxTuples_iff hlimit, Option.or_none]
        by_cases hcount : g.bindingLimit < g.bindingCount r
        · rw [if_pos hcount, if_pos hcount, Product.maxTuples_eq]
        · rw [if_neg hcount, if_neg hcount]

/-! ## Rules that are not refused -/

/-- What a rule has to meet. -/
structure Admits (g : Grounder) (r : Rule) : Prop where
  bases : ∀ base ∈ r.bases, base ∈ r.vars.map (·.name) ∨ g.sorts.isConstant base = true
  sorts : ∀ v ∈ r.vars, g.knows v.sort = true
  count : g.bindingCount r ≤ g.bindingLimit

theorem refusal?_eq_none_iff : g.refusal? r = none ↔ g.Admits r := by
  unfold refusal?
  constructor
  · intro h
    split at h
    · cases h
    · next hbases =>
      split at h
      · cases h
      · next hsorts =>
        split at h
        · cases h
        · next hcount =>
          refine ⟨fun base hbase => ?_, fun v hv => ?_, Nat.le_of_not_lt hcount⟩
          · have hbase := List.find?_eq_none.1 hbases base hbase
            simpa only [Bool.and_eq_true, Bool.not_eq_true', not_and_or, Bool.not_eq_false,
              List.contains_iff_mem] using hbase
          · have hv := List.find?_eq_none.1 hsorts v ((plainVariables_append_perm r).mem_iff.2 hv)
            simpa using hv
  · intro h
    have hbases : (r.bases.find? fun base =>
        !(r.vars.map (·.name)).contains base && !g.sorts.isConstant base) = none := by
      refine List.find?_eq_none.2 fun base hbase => ?_
      simpa only [Bool.and_eq_true, Bool.not_eq_true', not_and_or, Bool.not_eq_false,
        List.contains_iff_mem] using h.bases base hbase
    have hsorts : ((r.plainVariables ++ r.anyVariables).find? fun v => !g.knows v.sort) = none := by
      refine List.find?_eq_none.2 fun v hv => ?_
      simpa using h.sorts v ((plainVariables_append_perm r).mem_iff.1 hv)
    rw [hbases, hsorts]
    dsimp only
    rw [if_neg (Nat.not_lt_of_le h.count)]

/-- The constants and the sorts of a rule are declared. -/
structure Declares (g : Grounder) (r : Rule) : Prop where
  constants : ∀ term ∈ r.constantTerms, g.sorts.isConstant term = true
  sorts : ∀ v ∈ r.vars, ∃ elements, g.sorts.get? v.sort = some elements

/-- A rule with declared constants and sorts is refused for its count alone. -/
theorem Declares.refusal?_eq (h : g.Declares r) :
    g.refusal? r =
      if g.bindingLimit < g.bindingCount r then
        some (.bindingLimit (min (g.bindingCount r) (2 ^ 128 - 1)) g.bindingLimit)
      else none := by
  have hbases : (r.bases.find? fun base =>
      !(r.vars.map (·.name)).contains base && !g.sorts.isConstant base) = none := by
    rw [← Rule.find?_constantTerms]
    exact List.find?_eq_none.2 fun term hterm => by simp [h.constants term hterm]
  have hsorts : ((r.plainVariables ++ r.anyVariables).find? fun v => !g.knows v.sort) = none := by
    refine List.find?_eq_none.2 fun v hv => ?_
    obtain ⟨elements, helements⟩ := h.sorts v ((plainVariables_append_perm r).mem_iff.1 hv)
    simp [knows, helements]
  unfold refusal?
  rw [hbases, hsorts]

/-- The order of the variables plays no part. -/
theorem Declares.of_perm (h : g.Declares r) {r' : Rule} (hrelations : r'.relations = r.relations)
    (hvars : r'.vars.Perm r.vars) : g.Declares r' := by
  refine ⟨fun term hterm => h.constants term ?_, fun v hv => h.sorts v (hvars.mem_iff.1 hv)⟩
  obtain ⟨hbase, hfree⟩ := Rule.mem_constantTerms_iff.1 hterm
  refine Rule.mem_constantTerms_iff.2 ⟨?_, fun hvar => hfree ((hvars.map _).mem_iff.2 hvar)⟩
  rw [Rule.bases, ← hrelations]
  exact hbase

theorem Declares.ranges_eq_error_iff (h : g.Declares r) (hlimit : g.bindingLimit ≤ Text.maxCount)
    {required limit : Nat} :
    g.ranges r = .error (.bindingLimit required limit) ↔
      g.bindingLimit < g.bindingCount r ∧ required = min (g.bindingCount r) (2 ^ 128 - 1) ∧
        limit = g.bindingLimit := by
  rw [ranges_eq hlimit, h.refusal?_eq]
  by_cases hcount : g.bindingLimit < g.bindingCount r
  · rw [if_pos hcount]
    simp only [Except.error.injEq, GroundError.bindingLimit.injEq, hcount, true_and, eq_comm]
  · rw [if_neg hcount]
    simp [hcount]

/-- A rule with declared constants and sorts is refused exactly if its variables have more bindings
than the limit.  The count that is reported is their number, or the largest count that is told
apart if that is less, and it does not depend on the order of the variables. -/
theorem ranges_reports_count (hlimit : g.bindingLimit ≤ Text.maxCount) (h : g.Declares r) :
    (∀ required limit, g.ranges r = .error (.bindingLimit required limit) ↔
      g.bindingLimit < g.bindingCount r ∧ required = min (g.bindingCount r) (2 ^ 128 - 1) ∧
        limit = g.bindingLimit) ∧
    ((∃ ranges, g.ranges r = .ok ranges) ↔ g.bindingCount r ≤ g.bindingLimit) ∧
    ∀ r' : Rule, r'.relations = r.relations → r'.vars.Perm r.vars → ∀ required limit,
      (g.ranges r' = .error (.bindingLimit required limit) ↔
        g.ranges r = .error (.bindingLimit required limit)) := by
  refine ⟨fun required limit => h.ranges_eq_error_iff hlimit, ?_, ?_⟩
  · rw [ranges_eq hlimit, h.refusal?_eq]
    by_cases hcount : g.bindingLimit < g.bindingCount r
    · simp [hcount]
    · simp [hcount, Nat.le_of_not_lt hcount]
  · intro r' hrelations hvars required limit
    have hsame : g.bindingCount r' = g.bindingCount r := (hvars.map _).prod_eq
    rw [(h.of_perm hrelations hvars).ranges_eq_error_iff hlimit, h.ranges_eq_error_iff hlimit, hsame]

/-! ## Many variables -/

/-- A rule with so many variables over one sort, and one over another sort. -/
def wideRule (width : Nat) : Rule where
  kind := .disjunction
  heads := []
  body := [.predicate "p" []]
  vars := (List.range width).map (fun i => ⟨SortTable.numbered "x" i, "s"⟩) ++ [⟨"anyy", "t"⟩]

/-- Two constants of the sort of the many variables and one of the other, under the largest limit. -/
def wide (restrictions : List (String × List String)) : Grounder where
  sorts := ((Session.ofOptions {}).sorts.extend "s" ["a", "b"]).extend "t" ["c"]
  values := {}
  restrictions := restrictions
  bindingLimit := Text.maxCount

theorem elementsOf_wide (restrictions : List (String × List String)) :
    (wide restrictions).sorts.elementsOf "s" = ["a", "b"] ∧
      (wide restrictions).sorts.elementsOf "t" = ["c"] := by
  have hempty : ∀ sort, (Session.ofOptions {}).sorts.elementsOf sort = [] := by
    intro sort
    exact congrArg (fun found => (found.map Roster.toList).getD []) (SortTable.get?_empty sort)
  have hs : ∀ sort, ((Session.ofOptions {}).sorts.extend "s" ["a", "b"]).elementsOf sort =
      if sort = "s" then ["a", "b"] else [] := by
    intro sort
    rw [SortTable.elementsOf_extend (by decide) (by simp [hempty]), hempty, List.nil_append]
  constructor
  · show (((Session.ofOptions {}).sorts.extend "s" ["a", "b"]).extend "t" ["c"]).elementsOf "s" = _
    rw [SortTable.elementsOf_extend (by decide) (by simp [hs]), if_neg (by decide), hs,
      if_pos rfl]
  · show (((Session.ofOptions {}).sorts.extend "s" ["a", "b"]).extend "t" ["c"]).elementsOf "t" = _
    rw [SortTable.elementsOf_extend (by decide) (by simp [hs]), if_pos rfl, hs,
      if_neg (by decide), List.nil_append]

theorem get?_wide (restrictions : List (String × List String)) :
    (∃ elements, (wide restrictions).sorts.get? "s" = some elements) ∧
      ∃ elements, (wide restrictions).sorts.get? "t" = some elements :=
  ⟨⟨_, (SortTable.get?_extend_of_ne _ (by decide) _).trans (SortTable.get?_extend _ _ _)⟩,
    ⟨_, SortTable.get?_extend _ _ _⟩⟩

theorem declares_wideRule (restrictions : List (String × List String)) (width : Nat) :
    (wide restrictions).Declares (wideRule width) := by
  refine ⟨fun term hterm => ?_, fun v hv => ?_⟩
  · have hbase : term ∈ ([] : List String) := (Rule.mem_constantTerms_iff.1 hterm).1
    cases hbase
  · have hsort : v.sort = "s" ∨ v.sort = "t" := by
      rcases List.mem_append.1 hv with hv | hv
      · obtain ⟨i, _, rfl⟩ := List.mem_map.1 hv
        exact .inl rfl
      · rw [List.mem_singleton.1 hv]
        exact .inr rfl
    rcases hsort with hsort | hsort
    · rw [hsort]
      exact (get?_wide restrictions).1
    · rw [hsort]
      exact (get?_wide restrictions).2

theorem bindingCount_wideRule (restrictions : List (String × List String)) (width : Nat) :
    (wide restrictions).bindingCount (wideRule width) =
      ((wide restrictions).constantsOf "s").length ^ width *
        ((wide restrictions).constantsOf "t").length := by
  rw [bindingCount, wideRule, List.map_append, List.prod_append, List.map_map]
  simp [Function.comp_def]

/-- More bindings than can be counted are reported as the largest count, and if the last sort is
restricted to no constants there are none. -/
theorem ranges_reports_count_wide :
    (wide []).bindingLimit ≤ Text.maxCount ∧
    (wide []).Declares (wideRule 130) ∧ (wide [("t", [])]).Declares (wideRule 130) ∧
    (wide []).ranges (wideRule 130) = .error (.bindingLimit (2 ^ 128 - 1) Text.maxCount) ∧
    ∃ ranges, (wide [("t", [])]).ranges (wideRule 130) = .ok ranges := by
  have hlimit : Text.maxCount ≤ Text.maxCount := Nat.le_refl _
  refine ⟨hlimit, declares_wideRule _ _, declares_wideRule _ _, ?_, ?_⟩
  · have hcount : (wide []).bindingCount (wideRule 130) = 2 ^ 130 := by
      rw [bindingCount_wideRule, constantsOf_eq, constantsOf_eq]
      show ((wide []).sorts.elementsOf "s").length ^ 130 *
        ((wide []).sorts.elementsOf "t").length = 2 ^ 130
      rw [(elementsOf_wide []).1, (elementsOf_wide []).2]
      rfl
    refine ((ranges_reports_count hlimit (declares_wideRule [] 130)).1 _ _).2 ⟨?_, ?_, rfl⟩
    · rw [hcount]
      show Text.maxCount < 2 ^ 130
      decide
    · rw [hcount]
      decide
  · refine ((ranges_reports_count hlimit (declares_wideRule [("t", [])] 130)).2.1).2 ?_
    have hnone : (wide [("t", [])]).constantsOf "t" = [] := by
      rw [constantsOf_eq]
      rfl
    rw [bindingCount_wideRule, hnone, List.length_nil, Nat.mul_zero]
    exact Nat.zero_le _

end Grounder

end Groundwork
