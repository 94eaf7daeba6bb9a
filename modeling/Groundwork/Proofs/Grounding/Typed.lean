import Groundwork.Proofs.Grounding.Instances

/-!
# Typed terms

The typings of functions say from which sort to which they lead.  A term has a sort if typings lead
there from a sort of its base, one function after the other.  Where the values agree with the
typings, a term with a sort denotes a constant of that sort, whatever constants take the places of
the variables.

* `SortTable.Leads`, `Rule.TermSort`, `Rule.WellTyped`: the sorts of terms;
* `Checked`: the values of a grounder agree with its typings;
* `Checked.exists_evaluate`: a term with a sort has a value in it, under every binding;
* `Checked.exists_clausesAt`: so a rule with such terms has clauses under every tuple.
-/

namespace Groundwork

/-! ## Sorts of terms -/

namespace SortTable

/-- The constant belongs to the sort. -/
def Has (t : SortTable) (sort constant : String) : Prop :=
  ∃ roster, t.get? sort = some roster ∧ constant ∈ roster.toList

/-- The functions lead from one sort to another by their typings.  A function may have several
typings, of which any one counts. -/
inductive Leads (t : SortTable) : String → List String → String → Prop where
  | nil (sort : String) : Leads t sort [] sort
  | cons {domain function image sort : String} {functions : List String}
      (htyping : ⟨domain, function, image⟩ ∈ t.signatures.toList)
      (hrest : Leads t image functions sort) : Leads t domain (function :: functions) sort

end SortTable

namespace Rule

/-- The sort is that of the variable, or holds the constant. -/
def BaseSort (r : Rule) (t : SortTable) (base sort : String) : Prop :=
  match r.sortOf? base with
  | some own => sort = own
  | none => t.Has sort base

/-- The term has the sort: the functions lead there from a sort of the base. -/
def TermSort (r : Rule) (t : SortTable) (term sort : String) : Prop :=
  ∃ first, r.BaseSort t (Term.base term) first ∧ t.Leads first (Term.functions term) sort

/-- Every term of the rule has a sort. -/
def WellTyped (r : Rule) (t : SortTable) : Prop :=
  ∀ relation ∈ r.relations, ∀ term ∈ relation.terms, ∃ sort, r.TermSort t term sort

theorem Parsed.nodup_vars {r : Rule} (h : r.Parsed) : (r.vars.map (·.name)).Nodup := by
  refine h.of_read (P := fun r => (r.vars.map (·.name)).Nodup) fun typings text rule hread => ?_
  simp only [Statement.read, Fallible.bind_eq_ok_iff, Fallible.pure_eq_ok_iff] at hread
  obtain ⟨_, _, _, _, ⟨_, mentions⟩, _, rfl⟩ := hread
  exact mentions.nodup_vars typings

theorem sortOf?_eq_some {r : Rule} (hnodup : (r.vars.map (·.name)).Nodup) {v : Variable}
    (hv : v ∈ r.vars) : r.sortOf? v.name = some v.sort := by
  cases hfind : r.vars.find? fun other => other.name == v.name with
  | none =>
    have hnot := List.find?_eq_none.1 hfind v hv
    simp at hnot
  | some other =>
    have hname : other.name = v.name := by simpa using List.find?_some hfind
    have hsame := List.inj_on_of_nodup_map hnodup (List.mem_of_find?_eq_some hfind) hv hname
    rw [sortOf?, hfind, Option.map_some, hsame]

theorem sortOf?_eq_none {r : Rule} {name : String} (h : name ∉ r.vars.map (·.name)) :
    r.sortOf? name = none := by
  rw [sortOf?, Option.map_eq_none_iff, List.find?_eq_none]
  intro v hv hname
  exact h (List.mem_map.2 ⟨v, hv, by simpa using hname⟩)

end Rule

/-! ## Values -/

namespace ValueTable

/-- The value of a function, or the error that it has none. -/
def step (t : ValueTable) (image function : String) : Except GroundError String :=
  match t.get? image function with
  | some next => .ok next
  | none => .error (.unboundFunctionApplication image function)

theorem evaluate_eq (t : ValueTable) (term : String) :
    t.evaluate term = (Term.functions term).foldlM t.step (Term.base term) :=
  rfl

end ValueTable

namespace Grounder

variable {g : Grounder} {r : Rule} {ranges : Ranges} {tuple : List String} {relation : Relation}
  {b : Bindings} {term sort : String}

/-- The values agree with the typings, and the symbols are legal. -/
structure Checked (g : Grounder) : Prop where
  legal : g.Legal
  restricted : ∀ sort constants, (sort, constants) ∈ g.restrictions →
    ∀ constant ∈ constants, g.sorts.Has sort constant
  valued : ∀ signature ∈ g.sorts.signatures.toList, ∀ constant,
    g.sorts.Has signature.domain constant →
      ∃ image, g.values.get? constant signature.function = some image ∧
        g.sorts.Has signature.image image

/-- The induction is on the functions: each of them is defined on the whole sort which the ones
before it led to. -/
theorem Checked.exists_foldlM (h : g.Checked) {first : String} {functions : List String}
    (hleads : g.sorts.Leads first functions sort) {constant : String}
    (hconstant : g.sorts.Has first constant) :
    ∃ value, functions.foldlM g.values.step constant = .ok value ∧ g.sorts.Has sort value := by
  induction hleads generalizing constant with
  | nil sort => exact ⟨constant, rfl, hconstant⟩
  | cons htyping _ ih =>
    obtain ⟨image, hvalue, himage⟩ := h.valued _ htyping constant hconstant
    obtain ⟨value, hrest, hin⟩ := ih himage
    refine ⟨value, ?_, hin⟩
    rw [List.foldlM_cons, ValueTable.step, hvalue]
    exact hrest

/-! ## Bindings -/

/-- A binding for a relation of a rule: only variables of the rule have values, each of them one of
the constants over which it ranges, and all that the relation mentions have one. -/
structure Binds (g : Grounder) (r : Rule) (relation : Relation) (b : Bindings) : Prop where
  ranged : ∀ name value, b.lookup name = some value →
    ∃ v ∈ r.vars, v.name = name ∧ ∃ constants, g.elements v.sort = .ok constants ∧ value ∈ constants
  bound : ∀ term ∈ relation.terms, b.lookup (Term.base term) = none →
    Term.base term ∉ r.vars.map (·.name)

theorem exists_range_of_mem_zip {found : List Range} {chosen : List String}
    (hchosen : chosen ∈ Product.tuples (found.map (·.elements))) {name value : String}
    (h : (name, value) ∈ (found.map (·.name)).zip chosen) :
    ∃ range ∈ found, range.name = name ∧ value ∈ range.elements := by
  rw [Product.mem_tuples_iff, List.forall₂_map_left_iff] at hchosen
  induction hchosen with
  | nil => cases h
  | @cons range constant found chosen hmem _ ih =>
    rw [List.map_cons, List.zip_cons_cons, List.mem_cons] at h
    rcases h with heq | hrest
    · cases heq
      exact ⟨range, List.mem_cons_self, rfl, hmem⟩
    · obtain ⟨other, hother, hname, hvalue⟩ := ih hrest
      exact ⟨other, List.mem_cons_of_mem _ hother, hname, hvalue⟩

/-- The value of a name comes from a range with this name, or was there before. -/
theorem exists_range_of_lookup {found : List Range} {chosen : List String}
    (hchosen : chosen ∈ Product.tuples (found.map (·.elements))) {name value : String}
    (h : (b.bindEach (found.map (·.name)) chosen).lookup name = some value) :
    (∃ range ∈ found, range.name = name ∧ value ∈ range.elements) ∨ b.lookup name = some value := by
  rw [Bindings.bindEach_eq, List.lookup_append, Option.or_eq_some_iff] at h
  refine h.imp (fun hnew => ?_) And.right
  exact exists_range_of_mem_zip hchosen (List.mem_reverse.1 (mem_of_lookup hnew))

theorem exists_variable_of_mem_rangesOf {vars : List Variable} {found : List Range}
    (h : g.rangesOf vars = .ok found) {range : Range} (hrange : range ∈ found) :
    ∃ v ∈ vars, v.name = range.name ∧ g.elements v.sort = .ok range.elements := by
  obtain ⟨v, hv, heq⟩ := Fallible.exists_of_mem_results (Fallible.mapM_eq_ok_iff.1 h) hrange
  obtain ⟨elements, helements, hpure⟩ := Fallible.bind_eq_ok_iff.1 heq
  rw [Fallible.pure_eq_ok_iff] at hpure
  exact ⟨v, hv, by rw [hpure], by rw [hpure]; exact helements⟩

theorem Checked.has_of_elements (h : g.Checked) {constants : List String}
    (helements : g.elements sort = .ok constants) :
    ∀ constant ∈ constants, g.sorts.Has sort constant := by
  intro constant hconstant
  unfold elements at helements
  split at helements
  · next found hfound =>
    cases helements
    exact h.restricted _ _ (mem_of_lookup hfound) constant hconstant
  · split at helements
    · next roster hroster =>
      cases helements
      exact ⟨roster, hroster, hconstant⟩
    · cases helements

/-- Grounding replaces a relation under bindings of this kind: the plain variables take a tuple of
their ranges, and the `any` variables that the relation mentions take another one. -/
theorem binds_of_mem_tuples (hr : r.Parsed) (hranges : g.ranges r = .ok ranges)
    (htuple : tuple ∈ ranges.tuples) {chosen : List String}
    (hchosen : chosen ∈ Product.tuples
      ((ranges.any.filter fun range => relation.mentions range.name).map (·.elements))) :
    g.Binds r relation ((plainBindings r ranges tuple).bindEach
      ((ranges.any.filter fun range => relation.mentions range.name).map (·.name)) chosen) := by
  obtain ⟨_, hplain, hany, _⟩ := ranges_eq_ok_iff.1 hranges
  constructor
  · intro name value hlookup
    have hrange : ∃ vars found, (∀ v ∈ vars, v ∈ r.vars) ∧ g.rangesOf vars = .ok found ∧
        ∃ range ∈ found, range.name = name ∧ value ∈ range.elements := by
      rcases exists_range_of_lookup hchosen hlookup with ⟨range, hrange, hfound⟩ | hrest
      · exact ⟨_, _, fun _ => List.mem_of_mem_filter, hany, range, List.mem_of_mem_filter hrange,
          hfound⟩
      · rcases exists_range_of_lookup htuple hrest with ⟨range, hrange, hfound⟩ | hnone
        · exact ⟨_, _, fun _ => List.mem_of_mem_filter, hplain, range, hrange, hfound⟩
        · rw [hr.bindings_eq] at hnone
          cases hnone
    obtain ⟨vars, found, hvars, hfound, range, hrange, rfl, hvalue⟩ := hrange
    obtain ⟨v, hv, hname, helements⟩ := exists_variable_of_mem_rangesOf hfound hrange
    exact ⟨v, hvars v hv, hname, range.elements, helements, hvalue⟩
  · intro term hterm hlookup
    have hlength := (Product.mem_tuples_iff.1 htuple).length_eq
    have hlength' := (Product.mem_tuples_iff.1 hchosen).length_eq
    rw [List.length_map] at hlength hlength'
    exact notMem_vars_of_lookup_eq_none hranges hlength hlength' hterm hlookup

/-- What stands for the base of a term is a constant of every sort of the base. -/
theorem Checked.has_of_baseSort (h : g.Checked) (hr : r.Parsed) (hbinds : g.Binds r relation b)
    (hterm : term ∈ relation.terms) {first : String}
    (hbase : r.BaseSort g.sorts (Term.base term) first) :
    g.sorts.Has first ((b.lookup (Term.base term)).getD (Term.base term)) := by
  unfold Rule.BaseSort at hbase
  cases hlookup : b.lookup (Term.base term) with
  | some value =>
    obtain ⟨v, hv, hname, constants, helements, hvalue⟩ := hbinds.ranged _ _ hlookup
    rw [← hname, Rule.sortOf?_eq_some hr.nodup_vars hv] at hbase
    rw [Option.getD_some, show first = v.sort from hbase]
    exact h.has_of_elements helements value hvalue
  | none =>
    rw [Rule.sortOf?_eq_none (hbinds.bound term hterm hlookup)] at hbase
    exact hbase

/-! ## Evaluation -/

/-- A term with a sort denotes a constant of that sort under every binding. -/
theorem Checked.exists_evaluate (h : g.Checked) (hr : r.Parsed) (hbinds : g.Binds r relation b)
    (hterm : term ∈ relation.terms) (hlegal : Term.Legal term)
    (hsort : r.TermSort g.sorts term sort) :
    ∃ value, g.values.evaluate (b.replace term) = .ok value ∧ g.sorts.Has sort value := by
  obtain ⟨first, hbase, hleads⟩ := hsort
  have hhas := h.has_of_baseSort hr hbinds hterm hbase
  obtain ⟨roster, hroster, hmem⟩ := hhas
  have htoken : legalToken ((b.lookup (Term.base term)).getD (Term.base term)) = true :=
    h.legal.sorts _ ((SortTable.isConstant_iff _ _).2 ⟨first, roster, hroster, hmem⟩)
  obtain ⟨value, hvalue, hin⟩ := h.exists_foldlM hleads ⟨roster, hroster, hmem⟩
  refine ⟨value, ?_, hin⟩
  rw [ValueTable.evaluate_eq, Bindings.replace, Term.functions_apply htoken hlegal.functions,
    Term.base_apply htoken hlegal.functions]
  exact hvalue

/-- The instances of a relation have ground atoms, since all of their terms have values. -/
theorem Checked.exists_evaluate_of_mem_expand (h : g.Checked) (hr : r.Parsed)
    (htyped : r.WellTyped g.sorts) (hranges : g.ranges r = .ok ranges)
    (htuple : tuple ∈ ranges.tuples) (hrelation : relation ∈ r.relations) {inst : Relation}
    (hinst : inst ∈ expand ranges.any (plainBindings r ranges tuple) relation) :
    ∃ text, g.evaluate inst = .ok text := by
  obtain ⟨chosen, hchosen, rfl⟩ := List.mem_map.1 hinst
  have hover := (hr.over relation hrelation).terms fun _ hlegal => hlegal.isOperator
  have hvalued := hover.mapTerms (Q := fun term => Groundwork.isOperator term = false ∧
    ∃ value, g.values.evaluate term = .ok value) (fun _ hterm => hterm.1.isOperator)
    fun term hterm => by
      have hclosed := closed_replace h.legal hr.bindings_eq hranges htuple hrelation hchosen hterm
      obtain ⟨sort, hsort⟩ := htyped relation hrelation term hterm.2
      obtain ⟨value, hvalue, _⟩ :=
        h.exists_evaluate hr (binds_of_mem_tuples hr hranges htuple hchosen) hterm.2 hterm.1 hsort
      exact ⟨hclosed.legal.isOperator, value, hvalue⟩
  obtain ⟨fact, hfact⟩ := hvalued.exists_mapTermsM (fun _ hterm => hterm.1) fun _ hterm => hterm.2
  exact ⟨fact.groundAtom, Fallible.bind_eq_ok_iff.2 ⟨fact, hfact, rfl⟩⟩

theorem Checked.exists_instances (h : g.Checked) (hr : r.Parsed) (htyped : r.WellTyped g.sorts)
    (hranges : g.ranges r = .ok ranges) (htuple : tuple ∈ ranges.tuples)
    (hrelation : relation ∈ r.relations) :
    ∃ texts, g.instances ranges.any (plainBindings r ranges tuple) relation = .ok texts := by
  rw [instances_eq]
  refine Fallible.exists_mapM_eq_ok_iff.2 fun inst hinst => ?_
  exact h.exists_evaluate_of_mem_expand hr htyped hranges htuple hrelation
    (mem_of_mem_eraseDupsBy hinst)

/-- A rule whose terms have sorts has clauses under every tuple. -/
theorem Checked.exists_clausesAt (h : g.Checked) (hr : r.Parsed) (htyped : r.WellTyped g.sorts)
    (hranges : g.ranges r = .ok ranges) (htuple : tuple ∈ ranges.tuples) :
    ∃ clauses, g.clausesAt r ranges tuple = .ok clauses := by
  obtain ⟨body, hbody⟩ := Fallible.exists_mapM_eq_ok_iff.2 fun relation hrelation =>
    h.exists_instances hr htyped hranges htuple (List.mem_append_right r.heads hrelation)
  obtain ⟨heads, hheads⟩ := Fallible.exists_mapM_eq_ok_iff.2 fun relation hrelation =>
    h.exists_instances hr htyped hranges htuple (List.mem_append_left r.body hrelation)
  refine ⟨clausesOf r.kind body.flatten heads.flatten, ?_⟩
  unfold clausesAt groundBinding
  exact Fallible.bind_eq_ok_iff.2
    ⟨body, hbody, Fallible.bind_eq_ok_iff.2 ⟨heads, hheads, rfl⟩⟩

end Grounder

end Groundwork
