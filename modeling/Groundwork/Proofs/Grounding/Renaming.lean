import Groundwork.Proofs.Grounding.InPlace
import Groundwork.Proofs.Grounding.Typed
import Groundwork.Proofs.Session.Populating

/-!
# Names of variables

The variables of a rule can be given other names.  A new name has to be a token that is no other
base of the rule, different variables need different names, and `any` variables stay what they are
(`Rule.Renames`).  Nothing else is asked of a new name: it may be that of a predicate, of a function
or of a constant, also of one that takes the place of a variable.

To rename variables is to replace them (`Rule.newNames`), and to replace names twice is to replace
them once (`Substitution.Legal.apply_apply`).  So it is enough that what is bound to a name is what
was bound to it before it was renamed (`lookup_rename`), and that no other base is taken for a
variable or the other way round (`Renames.image_injective`).

* `Renames.constantTerms_rename`, `ranges_rename`: the ranges are those of the rule, with new names;
* `expand_rename`: under each tuple, a relation has the same relations in its place;
* `ground_rename`: the rule has the same clauses, or fails with the same error.
-/

namespace Groundwork

theorem filter_map_of {α β : Type} {f : α → β} {p : β → Bool} {q : α → Bool} {l : List α}
    (h : ∀ a ∈ l, p (f a) = q a) : (l.map f).filter p = (l.filter q).map f := by
  rw [List.filter_map]
  exact congrArg (List.map f) (List.filter_congr h)

/-! ## Replacing names twice -/

namespace Relation

variable {P : String → Prop} {f : String → String} {r : Relation}

theorem mapTerms_comparison (f : String → String) (left : String) (equal : Bool) (right : String) :
    (comparison left equal right).mapTerms f = comparison (f left) equal (f right) := by
  rw [mapTerms_eq, if_pos (isComparison_comparison left equal right)]
  rfl

theorem mapTerms_predicate (f : String → String) (name : String) {terms : List String}
    (h : ∀ term ∈ terms, isOperator term = false) :
    (predicate name terms).mapTerms f = predicate name (terms.map f) := by
  rw [mapTerms_eq, isComparison_predicate name h]
  rfl

theorem Over.terms_mapTerms (h : r.Over P) (hP : ∀ term, P term → isOperator term = false)
    (hf : ∀ term, P term → isOperator (f term) = false) :
    (r.mapTerms f).terms = r.terms.map f := by
  cases h with
  | comparison equal hleft hright =>
    rw [mapTerms_comparison, terms_comparison, terms_comparison]
    rfl
  | predicate hne hwords hterms =>
    have hoperators := fun term hterm => hP term (hterms term hterm)
    have hoperators' := fun term hterm => hf term (hterms term hterm)
    rw [mapTerms_predicate f _ hoperators, Relation.terms, Relation.terms,
      isComparison_predicate _ hoperators,
      isComparison_predicate _ (List.forall_mem_map.2 hoperators')]
    rfl

theorem Over.mapTerms_mapTerms (h : r.Over P) (hP : ∀ term, P term → isOperator term = false)
    (hf : ∀ term, P term → isOperator (f term) = false) (f' : String → String) :
    (r.mapTerms f).mapTerms f' = r.mapTerms fun term => f' (f term) := by
  cases h with
  | comparison equal hleft hright => simp only [mapTerms_comparison]
  | predicate hne hwords hterms =>
    have hoperators := fun term hterm => hP term (hterms term hterm)
    have hoperators' := fun term hterm => hf term (hterms term hterm)
    rw [mapTerms_predicate f _ hoperators,
      mapTerms_predicate f' _ (List.forall_mem_map.2 hoperators'), List.map_map,
      mapTerms_predicate _ _ hoperators]
    rfl

end Relation

namespace Substitution

/-- What takes the place of a name, which is the name itself if nothing else does. -/
def image (σ : Substitution) (name : String) : String :=
  (σ name).getD name

/-- What takes the place of tokens are tokens. -/
def Legal (σ : Substitution) : Prop :=
  ∀ name, legalToken name = true → legalToken (σ.image name) = true

variable {σ σ' τ : Substitution} {relation : Relation}

theorem Legal.isOperator (hτ : τ.Legal) {term : String} (h : Term.Legal term) :
    isOperator (Term.apply (τ.image (Term.base term)) (Term.functions term)) = false :=
  (Term.legal_apply (hτ _ h.base) h.functions).isOperator

theorem Legal.bases_apply (hτ : τ.Legal) (h : relation.Over Term.Legal) :
    (τ.apply relation).terms.map Term.base = (relation.terms.map Term.base).map τ.image := by
  have hterms := h.of_mem_terms fun _ hterm => hterm.isOperator
  have happly : (τ.apply relation).terms = relation.terms.map fun term =>
      Term.apply (τ.image (Term.base term)) (Term.functions term) :=
    h.terms_mapTerms (fun _ hterm => hterm.isOperator) fun _ => hτ.isOperator
  rw [happly, List.map_map, List.map_map]
  refine List.map_congr_left fun term hterm => ?_
  show Term.base (Term.apply (τ.image (Term.base term)) _) = τ.image (Term.base term)
  exact Term.base_apply (hτ _ (hterms term hterm).base) (hterms term hterm).functions

theorem Legal.name_apply (hτ : τ.Legal) (h : relation.Over Term.Legal) :
    (τ.apply relation).isComparison = relation.isComparison ∧
      (τ.apply relation).name = relation.name := by
  refine h.name_mapTermsM (fun _ hterm => hterm.isOperator) (fun term term' hterm heq => ?_)
    (Relation.mapTermsM_ok Unit _ relation)
  cases heq
  exact hτ.isOperator hterm

/-- Names that are replaced twice are replaced once, by what takes the place of what took theirs. -/
theorem Legal.apply_apply (hτ : τ.Legal) (h : relation.Over Term.Legal)
    (hσ : ∀ term ∈ relation.terms,
      σ'.image (τ.image (Term.base term)) = σ.image (Term.base term)) :
    σ'.apply (τ.apply relation) = σ.apply relation := by
  have hterms := h.of_mem_terms fun _ hterm => hterm.isOperator
  refine (h.mapTerms_mapTerms (fun _ hterm => hterm.isOperator) (fun _ => hτ.isOperator) _).trans ?_
  refine Relation.mapTerms_congr fun term hterm => ?_
  have hbase := hτ _ (hterms term hterm).base
  have hfunctions := (hterms term hterm).functions
  show Term.apply (σ'.image (Term.base (Term.apply (τ.image (Term.base term)) _)))
    (Term.functions (Term.apply (τ.image (Term.base term)) _)) = _
  rw [Term.base_apply hbase hfunctions, Term.functions_apply hbase hfunctions, hσ term hterm]
  rfl

end Substitution

/-! ## Renamed rules -/

/-- The variable under another name. -/
def Variable.rename (f : String → String) (v : Variable) : Variable :=
  { v with name := f v.name }

namespace Rule

/-- Each variable of the rule is replaced by its new name, and no other name is replaced. -/
def newNames (r : Rule) (ρ : String → String) : Substitution :=
  fun name => if name ∈ r.vars.map (·.name) then some (ρ name) else none

/-- The rule with new names for its variables, in the list of variables as in all terms. -/
def rename (r : Rule) (ρ : String → String) : Rule where
  kind := r.kind
  heads := r.heads.map (r.newNames ρ).apply
  body := r.body.map (r.newNames ρ).apply
  vars := r.vars.map (Variable.rename ρ)
  bindings := r.bindings

/-- The new names are tokens, tell the variables apart, and are not other bases of the rule.
Exactly the new names of `any` variables begin with `any`. -/
structure Renames (r : Rule) (ρ : String → String) : Prop where
  legal : ∀ v ∈ r.vars, legalToken (ρ v.name) = true
  injective : ∀ v ∈ r.vars, ∀ w ∈ r.vars, ρ v.name = ρ w.name → v.name = w.name
  avoids : ∀ v ∈ r.vars, ρ v.name ∉ r.constantTerms
  isAny : ∀ v ∈ r.vars, isAnyVariable (ρ v.name) = isAnyVariable v.name

variable {r : Rule} {ρ : String → String} {name other : String}

theorem image_newNames_of_mem (h : name ∈ r.vars.map (·.name)) :
    (r.newNames ρ).image name = ρ name := by
  rw [Substitution.image, newNames, if_pos h, Option.getD_some]

theorem image_newNames_of_notMem (h : name ∉ r.vars.map (·.name)) :
    (r.newNames ρ).image name = name := by
  rw [Substitution.image, newNames, if_neg h, Option.getD_none]

theorem vars_rename (r : Rule) (ρ : String → String) :
    (r.rename ρ).vars = r.vars.map (Variable.rename (r.newNames ρ).image) := by
  refine List.map_congr_left fun v hv => ?_
  rw [Variable.rename, Variable.rename, image_newNames_of_mem (List.mem_map_of_mem hv)]

theorem names_rename (r : Rule) (ρ : String → String) :
    (r.rename ρ).vars.map (·.name) = (r.vars.map (·.name)).map (r.newNames ρ).image := by
  rw [vars_rename, List.map_map, List.map_map]
  rfl

/-- The name of a variable, or the base of a term. -/
def Names (r : Rule) (name : String) : Prop :=
  name ∈ r.vars.map (·.name) ∨ name ∈ r.bases

theorem relations_rename (r : Rule) (ρ : String → String) :
    (r.rename ρ).relations = r.relations.map (r.newNames ρ).apply :=
  List.map_append.symm

namespace Renames

theorem legal_newNames (h : r.Renames ρ) : (r.newNames ρ).Legal := by
  intro name hname
  by_cases hvar : name ∈ r.vars.map (·.name)
  · obtain ⟨v, hv, rfl⟩ := List.mem_map.1 hvar
    rw [image_newNames_of_mem hvar]
    exact h.legal v hv
  · rwa [image_newNames_of_notMem hvar]

theorem isAny_image (h : r.Renames ρ) {v : Variable} (hv : v ∈ r.vars) :
    isAnyVariable ((r.newNames ρ).image v.name) = isAnyVariable v.name := by
  rw [image_newNames_of_mem (List.mem_map_of_mem hv)]
  exact h.isAny v hv

/-- Only a variable takes the name of a variable. -/
theorem image_ne (h : r.Renames ρ) (hname : name ∈ r.vars.map (·.name)) (hother : r.Names other)
    (hvar : other ∉ r.vars.map (·.name)) :
    (r.newNames ρ).image name ≠ (r.newNames ρ).image other := by
  obtain ⟨v, hv, rfl⟩ := List.mem_map.1 hname
  rw [image_newNames_of_mem hname, image_newNames_of_notMem hvar]
  intro heq
  exact h.avoids v hv (heq ▸ mem_constantTerms_iff.2 ⟨hother.resolve_left hvar, hvar⟩)

theorem image_injective (h : r.Renames ρ) (hname : r.Names name) (hother : r.Names other)
    (heq : (r.newNames ρ).image name = (r.newNames ρ).image other) : name = other := by
  by_cases hvar : name ∈ r.vars.map (·.name)
  · by_cases hvar' : other ∈ r.vars.map (·.name)
    · rw [image_newNames_of_mem hvar, image_newNames_of_mem hvar'] at heq
      obtain ⟨v, hv, rfl⟩ := List.mem_map.1 hvar
      obtain ⟨w, hw, rfl⟩ := List.mem_map.1 hvar'
      exact h.injective v hv w hw heq
    · exact absurd heq (h.image_ne hvar hother hvar')
  · by_cases hvar' : other ∈ r.vars.map (·.name)
    · exact absurd heq.symm (h.image_ne hvar' hname hvar)
    · rwa [image_newNames_of_notMem hvar, image_newNames_of_notMem hvar'] at heq

theorem mem_map_image_iff (h : r.Renames ρ) {names : List String}
    (hnames : ∀ other ∈ names, r.Names other) (hname : r.Names name) :
    (r.newNames ρ).image name ∈ names.map (r.newNames ρ).image ↔ name ∈ names := by
  constructor
  · intro hmem
    obtain ⟨other, hother, heq⟩ := List.mem_map.1 hmem
    exact h.image_injective (hnames other hother) hname heq ▸ hother
  · exact List.mem_map_of_mem

/-- Of the bases under their new names, those that are no variables stay as they are. -/
theorem removeAll_names (h : r.Renames ρ) :
    (r.bases.map (r.newNames ρ).image).removeAll ((r.vars.map (·.name)).map (r.newNames ρ).image) =
      r.bases.removeAll (r.vars.map (·.name)) := by
  have hvar : ∀ base ∈ r.bases, ((r.vars.map (·.name)).map (r.newNames ρ).image).elem
      ((r.newNames ρ).image base) = (r.vars.map (·.name)).elem base := by
    intro base hbase
    rw [Bool.eq_iff_iff, List.elem_iff, List.elem_iff]
    exact h.mem_map_image_iff (fun _ => .inl) (.inr hbase)
  have hkept : (r.bases.map (r.newNames ρ).image).removeAll
      ((r.vars.map (·.name)).map (r.newNames ρ).image) =
        (r.bases.removeAll (r.vars.map (·.name))).map (r.newNames ρ).image :=
    filter_map_of fun base hbase => congrArg not (hvar base hbase)
  rw [hkept]
  refine (List.map_congr_left fun base hbase => ?_).trans (List.map_id _)
  exact image_newNames_of_notMem (by simpa using (List.mem_filter.1 hbase).2)

theorem plainVariables_rename (h : r.Renames ρ) :
    (r.rename ρ).plainVariables = r.plainVariables.map (Variable.rename (r.newNames ρ).image) := by
  unfold plainVariables
  rw [vars_rename]
  exact filter_map_of fun v hv => congrArg not (h.isAny_image hv)

theorem anyVariables_rename (h : r.Renames ρ) :
    (r.rename ρ).anyVariables = r.anyVariables.map (Variable.rename (r.newNames ρ).image) := by
  unfold anyVariables
  rw [vars_rename]
  exact filter_map_of fun v hv => h.isAny_image hv

section Parsed

variable (h : r.Renames ρ) (hr : r.Parsed)
include h hr

theorem bases_rename : (r.rename ρ).bases = r.bases.map (r.newNames ρ).image := by
  unfold bases
  rw [relations_rename, List.flatMap_map, List.map_flatMap]
  exact List.flatMap_congr fun relation hrelation =>
    h.legal_newNames.bases_apply (hr.over relation hrelation)

/-- The bases that are no variables are the same, and stand in the same order. -/
theorem constantTerms_rename : (r.rename ρ).constantTerms = r.constantTerms := by
  unfold constantTerms
  rw [distinct_eq_eraseDups, distinct_eq_eraseDups, outside_eq_removeAll, outside_eq_removeAll]
  show ((r.rename ρ).bases.removeAll _).eraseDups = (r.bases.removeAll _).eraseDups
  rw [names_rename, h.bases_rename hr, h.removeAll_names]

theorem predicates_rename : (r.rename ρ).predicates = r.predicates := by
  have hsame := fun relation hrelation => h.legal_newNames.name_apply (hr.over relation hrelation)
  have hnames : ((r.rename ρ).relations.filter fun relation => !relation.isComparison).map
      Relation.name = (r.relations.filter fun relation => !relation.isComparison).map
        Relation.name := by
    have hfilter : ((r.relations.map (r.newNames ρ).apply).filter fun relation =>
        !relation.isComparison) = (r.relations.filter fun relation => !relation.isComparison).map
          (r.newNames ρ).apply :=
      filter_map_of fun relation hrelation => congrArg not (hsame relation hrelation).1
    rw [relations_rename, hfilter, List.map_map]
    exact List.map_congr_left fun relation hrelation =>
      (hsame relation (List.mem_of_mem_filter hrelation)).2
  unfold predicates
  rw [hnames]

/-- A variable is mentioned where it was mentioned by its old name. -/
theorem mentions_rename {relation : Relation} (hrelation : relation ∈ r.relations)
    (hname : r.Names name) :
    ((r.newNames ρ).apply relation).mentions ((r.newNames ρ).image name) =
      relation.mentions name := by
  have hmentions : ∀ (relation : Relation) (base : String),
      relation.mentions base = true ↔ base ∈ relation.terms.map Term.base := by
    intro relation base
    rw [Relation.mentions, List.any_eq_true, List.mem_map]
    simp only [beq_iff_eq]
  rw [Bool.eq_iff_iff, hmentions, hmentions, h.legal_newNames.bases_apply (hr.over _ hrelation)]
  exact h.mem_map_image_iff
    (fun _ hbase => .inr (List.mem_flatMap.2 ⟨relation, hrelation, hbase⟩)) hname

end Parsed

end Renames

end Rule

/-! ## Grounding under new names -/

/-- The range under another name. -/
def Range.rename (f : String → String) (range : Range) : Range :=
  { range with name := f range.name }

/-- The ranges under other names. -/
def Ranges.rename (f : String → String) (ranges : Ranges) : Ranges where
  plain := ranges.plain.map (Range.rename f)
  any := ranges.any.map (Range.rename f)

/-- A key is found where it was found by its old name. -/
theorem lookup_map_of {f : String → String} {pairs : List (String × String)} {name : String}
    (h : ∀ pair ∈ pairs, f name = f pair.1 → name = pair.1) :
    (pairs.map (Prod.map f id)).lookup (f name) = pairs.lookup name := by
  induction pairs with
  | nil => rfl
  | cons pair pairs ih =>
    obtain ⟨hpair, hpairs⟩ := List.forall_mem_cons.1 h
    have hsame : (f name == f pair.1) = (name == pair.1) := by
      rw [Bool.eq_iff_iff, beq_iff_eq, beq_iff_eq]
      exact ⟨hpair, congrArg f⟩
    rw [List.map_cons, List.lookup_cons, List.lookup_cons, ih hpairs]
    show (match f name == f pair.1 with | true => some pair.2 | false => _) = _
    rw [hsame]
    cases name == pair.1 <;> rfl

theorem Bindings.lookup_bindEach_map {f : String → String} {b b' : Bindings}
    {names values : List String} {name : String}
    (hnames : ∀ other ∈ names, f name = f other → name = other)
    (hb : b'.lookup (f name) = b.lookup name) :
    (b'.bindEach (names.map f) values).lookup (f name) = (b.bindEach names values).lookup name := by
  rw [bindEach_eq, bindEach_eq, List.lookup_append, List.lookup_append, hb, List.zip_map_left,
    ← List.map_reverse, lookup_map_of]
  intro pair hpair
  exact hnames pair.1 (List.of_mem_zip (List.mem_reverse.1 hpair)).1

namespace Grounder

variable {g : Grounder} {r : Rule} {ρ : String → String} {ranges : Ranges} {tuple : List String}
  {relation : Relation}

theorem namesOf_map_rename (f : String → String) (found : List Range) :
    namesOf (found.map (Range.rename f)) = (namesOf found).map f := by
  unfold namesOf
  rw [List.map_map, List.map_map]
  rfl

theorem elements_map_rename (f : String → String) (found : List Range) :
    (found.map (Range.rename f)).map (·.elements) = found.map (·.elements) :=
  List.map_map

theorem rangesOf_cons (g : Grounder) (v : Variable) (vars : List Variable) :
    g.rangesOf (v :: vars) = (do
      let elements ← g.elements v.sort
      let later ← g.rangesOf vars
      return { name := v.name, elements } :: later) := by
  unfold rangesOf
  rw [List.mapM_cons]
  cases g.elements v.sort <;> rfl

theorem rangesOf_rename (g : Grounder) (f : String → String) (vars : List Variable) :
    g.rangesOf (vars.map (Variable.rename f)) = List.map (Range.rename f) <$> g.rangesOf vars := by
  induction vars with
  | nil => rfl
  | cons v vars ih =>
    rw [List.map_cons, rangesOf_cons, rangesOf_cons, ih, Variable.rename]
    dsimp only
    cases g.elements v.sort with
    | error e => rfl
    | ok elements => cases g.rangesOf vars <;> rfl

/-- The names of ranges are those of variables. -/
theorem names_of_mem_ranges (hranges : g.ranges r = .ok ranges) :
    (∀ range ∈ ranges.plain, r.Names range.name) ∧ ∀ range ∈ ranges.any, r.Names range.name := by
  obtain ⟨_, hplain, hany, _⟩ := ranges_eq_ok_iff.1 hranges
  constructor
  · intro range hrange
    obtain ⟨v, hv, hname, _⟩ := exists_variable_of_mem_rangesOf hplain hrange
    exact .inl (hname ▸ List.mem_map_of_mem (List.mem_of_mem_filter hv))
  · intro range hrange
    obtain ⟨v, hv, hname, _⟩ := exists_variable_of_mem_rangesOf hany hrange
    exact .inl (hname ▸ List.mem_map_of_mem (List.mem_of_mem_filter hv))

/-- A variable that is bound has the same value under its new name, and another base stays. -/
theorem image_rename {b b' : Bindings} (hbinds : g.Binds r relation b) {term : String}
    (hterm : term ∈ relation.terms)
    (hlookup : b'.lookup ((r.newNames ρ).image (Term.base term)) = b.lookup (Term.base term)) :
    b'.substitution.image ((r.newNames ρ).image (Term.base term)) =
      b.substitution.image (Term.base term) := by
  show (b'.lookup _).getD _ = (b.lookup _).getD _
  rw [hlookup]
  cases hfound : b.lookup (Term.base term) with
  | some value => rfl
  | none =>
    -- A base without a value is no variable, and was not renamed.
    exact Rule.image_newNames_of_notMem (hbinds.bound term hterm hfound)

/-- The grounder that asks about every rule what it would ask about this one. -/
def askingFor (g : Grounder) (r : Rule) : Grounder :=
  { g with
    elapsed := fun _ => g.elapsed r
    cancelled := fun _ => g.cancelled r }

section Renamed

variable (h : r.Renames ρ) (hr : r.Parsed)
include h hr

theorem ranges_rename (g : Grounder) :
    g.ranges (r.rename ρ) = Ranges.rename (r.newNames ρ).image <$> g.ranges r := by
  unfold ranges
  rw [h.constantTerms_rename hr, h.plainVariables_rename, h.anyVariables_rename,
    rangesOf_rename, rangesOf_rename]
  cases r.constantTerms.find? fun term => !g.sorts.isConstant term with
  | some term => rfl
  | none =>
    cases g.rangesOf r.plainVariables with
    | error e => rfl
    | ok plain =>
      cases g.rangesOf r.anyVariables with
      | error e => rfl
      | ok any =>
        show (if g.bindingLimit < Product.saturatingMul
              (Product.count ((plain.map (Range.rename _)).map Range.elements))
              (Product.count ((any.map (Range.rename _)).map Range.elements)) then
            Except.error (GroundError.bindingLimit _ _) else Except.ok _) =
          Ranges.rename _ <$> (if g.bindingLimit < Product.saturatingMul
              (Product.count (plain.map Range.elements))
              (Product.count (any.map Range.elements)) then
            Except.error _ else Except.ok _)
        rw [elements_map_rename, elements_map_rename]
        split <;> rfl

theorem mentionedBy_rename (hranges : g.ranges r = .ok ranges)
    (hrelation : relation ∈ r.relations) :
    mentionedBy (ranges.any.map (Range.rename (r.newNames ρ).image))
        ((r.newNames ρ).apply relation) =
      (mentionedBy ranges.any relation).map (Range.rename (r.newNames ρ).image) :=
  filter_map_of fun range hrange =>
    h.mentions_rename hr hrelation ((names_of_mem_ranges hranges).2 range hrange)

/-- What is bound to a name is what was bound to its old name. -/
theorem lookup_rename (hranges : g.ranges r = .ok ranges) {name : String} (hname : r.Names name)
    (relation : Relation) (tuple chosen : List String) :
    ((plainBindings (r.rename ρ) (ranges.rename (r.newNames ρ).image) tuple).bindEach
      ((namesOf (mentionedBy ranges.any relation)).map (r.newNames ρ).image) chosen).lookup
        ((r.newNames ρ).image name) =
      ((plainBindings r ranges tuple).bindEach (namesOf (mentionedBy ranges.any relation))
        chosen).lookup name := by
  obtain ⟨hplain, hany⟩ := names_of_mem_ranges hranges
  have hnames : ∀ found : List Range, (∀ range ∈ found, r.Names range.name) →
      ∀ other ∈ namesOf found, (r.newNames ρ).image name = (r.newNames ρ).image other →
        name = other := by
    intro found hfound other hother
    obtain ⟨range, hrange, rfl⟩ := List.mem_map.1 hother
    exact h.image_injective hname (hfound range hrange)
  have hrenamed : (ranges.rename (r.newNames ρ).image).plain.map (·.name) =
      (namesOf ranges.plain).map (r.newNames ρ).image :=
    namesOf_map_rename _ _
  refine Bindings.lookup_bindEach_map
    (hnames _ fun range hrange => hany range (List.mem_of_mem_filter hrange)) ?_
  unfold plainBindings
  rw [hrenamed]
  refine Bindings.lookup_bindEach_map (hnames _ hplain) ?_
  -- A rule that was read has no bindings of its own, which would be under old names.
  show r.bindings.lookup _ = r.bindings.lookup _
  rw [hr.bindings_eq]
  rfl

theorem expand_rename (hranges : g.ranges r = .ok ranges) (htuple : tuple ∈ ranges.tuples)
    (hrelation : relation ∈ r.relations) :
    expand (ranges.any.map (Range.rename (r.newNames ρ).image))
        (plainBindings (r.rename ρ) (ranges.rename (r.newNames ρ).image) tuple)
        ((r.newNames ρ).apply relation) =
      expand ranges.any (plainBindings r ranges tuple) relation := by
  show (Product.tuples ((mentionedBy _ _).map (·.elements))).map (fun chosen =>
      (Bindings.bindEach _ (namesOf (mentionedBy _ _)) chosen).bind _) =
    (Product.tuples ((mentionedBy ranges.any relation).map (·.elements))).map fun chosen =>
      (Bindings.bindEach _ (namesOf (mentionedBy ranges.any relation)) chosen).bind relation
  rw [mentionedBy_rename h hr hranges hrelation, elements_map_rename, namesOf_map_rename]
  refine List.map_congr_left fun chosen hchosen => ?_
  have hbinds := binds_of_mem_tuples hr hranges htuple hchosen
  rw [Bindings.bind_eq, Bindings.bind_eq]
  refine h.legal_newNames.apply_apply (hr.over relation hrelation) fun term hterm => ?_
  have hbase : r.Names (Term.base term) :=
    .inr (List.mem_flatMap.2 ⟨relation, hrelation, List.mem_map_of_mem hterm⟩)
  exact image_rename hbinds hterm (lookup_rename h hr hranges hbase relation tuple chosen)

theorem instances_rename (hranges : g.ranges r = .ok ranges) (htuple : tuple ∈ ranges.tuples)
    (hrelation : relation ∈ r.relations) :
    g.instances (ranges.any.map (Range.rename (r.newNames ρ).image))
        (plainBindings (r.rename ρ) (ranges.rename (r.newNames ρ).image) tuple)
        ((r.newNames ρ).apply relation) =
      g.instances ranges.any (plainBindings r ranges tuple) relation := by
  rw [instances_eq, instances_eq, instanceRelations, instanceRelations,
    expand_rename h hr hranges htuple hrelation]

theorem clausesAt_rename (hranges : g.ranges r = .ok ranges) (htuple : tuple ∈ ranges.tuples) :
    g.clausesAt (r.rename ρ) (ranges.rename (r.newNames ρ).image) tuple =
      g.clausesAt r ranges tuple := by
  have hinstances : ∀ relations : List Relation, (∀ relation ∈ relations, relation ∈ r.relations) →
      (relations.map (r.newNames ρ).apply).mapM
          (g.instances (ranges.rename (r.newNames ρ).image).any
            (plainBindings (r.rename ρ) (ranges.rename (r.newNames ρ).image) tuple)) =
        relations.mapM (g.instances ranges.any (plainBindings r ranges tuple)) := by
    intro relations hrelations
    rw [List.mapM_map]
    exact Fallible.mapM_congr fun relation hrelation =>
      instances_rename h hr hranges htuple (hrelations relation hrelation)
  have hbody := hinstances r.body fun _ => List.mem_append_right r.heads
  have hheads := hinstances r.heads fun _ => List.mem_append_left r.body
  unfold plainBindings at hbody hheads
  unfold clausesAt groundBinding
  rw [← hbody, ← hheads]
  rfl

/-- The loop over the tuples is the same, as the tuples are. -/
theorem ground_eq_of_renames (g : Grounder) : (g.askingFor r).ground (r.rename ρ) = g.ground r := by
  show (do
    let ranges ← g.ranges (r.rename ρ)
    Product.foldM
      (fun grounded tuple => do
        g.checkLimits [r] grounded.bindings
        g.extend (r.rename ρ) ranges grounded tuple)
      (start (r.rename ρ)) (ranges.plain.map (·.elements))) = g.ground r
  unfold ground
  rw [ranges_rename h hr]
  cases hranges : g.ranges r with
  | error e => rfl
  | ok ranges =>
    have helements : (ranges.rename (r.newNames ρ).image).plain.map (·.elements) =
        ranges.plain.map (·.elements) :=
      elements_map_rename _ _
    have hstart : start (r.rename ρ) = start r := by
      unfold start
      rw [h.predicates_rename hr]
      rfl
    show Product.foldM _ (start (r.rename ρ))
        ((ranges.rename (r.newNames ρ).image).plain.map (·.elements)) = _
    rw [helements, hstart]
    refine Product.foldM_congr (fun tuple htuple grounded => ?_) _
    rw [extend_eq, extend_eq, clausesAt_rename h hr hranges htuple]

end Renamed

/-- The names of its variables make no difference to what a rule grounds to, or to how it fails,
whether each tuple has bindings of its own or all share one table.  The renamed rule is stopped
when the rule itself would be. -/
theorem ground_rename (hr : r.Parsed) (h : r.Renames ρ) (g : Grounder) :
    (g.askingFor r).ground (r.rename ρ) = g.ground r ∧
      (g.askingFor r).groundInPlace (r.rename ρ) = g.groundInPlace r := by
  have hground := ground_eq_of_renames h hr g
  exact ⟨hground, by rw [groundInPlace_eq, groundInPlace_eq, hground]⟩

/-! ### A name that is met everywhere -/

/-- A rule with a variable of either kind. -/
def namedRule : Rule where
  kind := .assertion
  heads := [.predicate "p" ["x", "b"], .predicate "a" ["anyx"]]
  body := []
  vars := [⟨"x", "s"⟩, ⟨"anyx", "s"⟩]

theorem parsed_namedRule : namedRule.Parsed :=
  Rule.parsed_of_unannotated "p (x, b), a (anyx)" ["x", "b", "anyx"] (fun _ => ⟨_, rfl⟩)
    [("x", "s"), ("anyx", "s")] rfl

/-- The plain variable is given the name of a constant over which both variables range, which is the
name of a predicate, too. -/
def metName (name : String) : String :=
  if name = "x" then "a" else "any"

theorem bases_namedRule : namedRule.bases = ["x", "b", "anyx"] := by
  decide +kernel

theorem renames_namedRule : namedRule.Renames metName := by
  have hvars : ∀ v ∈ namedRule.vars, v = ⟨"x", "s"⟩ ∨ v = ⟨"anyx", "s"⟩ := by
    simp [namedRule]
  refine ⟨?_, ?_, ?_, ?_⟩
  · intro v hv
    rcases hvars v hv with rfl | rfl <;> decide
  · intro v hv w hw
    rcases hvars v hv with rfl | rfl <;> rcases hvars w hw with rfl | rfl <;> decide
  · intro v hv hmem
    have hbase := (Rule.mem_constantTerms_iff.1 hmem).1
    rw [bases_namedRule] at hbase
    revert hbase
    rcases hvars v hv with rfl | rfl <;> decide
  · intro v hv
    rcases hvars v hv with rfl | rfl <;> decide

theorem rename_namedRule : namedRule.rename metName = { namedRule with
    heads := [.predicate "p" ["a", "b"], .predicate "a" ["any"]]
    vars := [⟨"a", "s"⟩, ⟨"any", "s"⟩] } := by
  decide +kernel

/-- Two constants, of which one has the new name of a variable. -/
def twoConstants : Grounder :=
  (Session.populated [("s", "a"), ("s", "b")]).grounder []

theorem populated_twoConstants : (Session.populated [("s", "a"), ("s", "b")]).Populated
    [("s", "a"), ("s", "b")] :=
  Session.populated_spec (by decide) (by decide) (by decide)

/-- The ranges of the rule under its own names. -/
def namedRanges : Ranges :=
  ⟨[⟨"x", ["a", "b"]⟩], [⟨"anyx", ["a", "b"]⟩]⟩

theorem ranges_namedRule : twoConstants.ranges namedRule = .ok namedRanges := by
  have hterms : ∀ term ∈ namedRule.constantTerms, term ∈ ["a", "b"] := by
    intro term hterm
    obtain ⟨hbase, hvar⟩ := Rule.mem_constantTerms_iff.1 hterm
    rw [bases_namedRule] at hbase
    simp only [namedRule, List.map_cons, List.map_nil, List.mem_cons, List.not_mem_nil, or_false,
      not_or] at hbase hvar
    simp only [List.mem_cons, List.not_mem_nil, or_false]
    tauto
  exact populated_twoConstants.ranges_eq hterms (by decide) (by decide)

/-- The clauses of the rule under one binding of its plain variable. -/
def namedClauses (x : String) : List GroundClause :=
  [.withHead ("p " ++ x ++ " b") [], .withHead "a a" [], .withHead "a b" []]

theorem clausesAt_namedRule {x : String} (hx : x = "a" ∨ x = "b") :
    twoConstants.clausesAt namedRule namedRanges [x] = .ok (namedClauses x) := by
  unfold clausesAt groundBinding
  simp only [funext (twoConstants.instances_eq _ _)]
  rcases hx with rfl | rfl
  · rfl
  · rfl

theorem ground_namedRule : twoConstants.ground namedRule =
    .ok (gather (start namedRule) [namedClauses "a", namedClauses "b"]) := by
  refine populated_twoConstants.ground_eq ranges_namedRule ?_
  show [twoConstants.clausesAt _ _ ["a"], twoConstants.clausesAt _ _ ["b"]] = [_, _]
  rw [clausesAt_namedRule (.inl rfl), clausesAt_namedRule (.inr rfl)]

/-- No host was set, which might tell rules apart. -/
theorem askingFor_twoConstants : twoConstants.askingFor namedRule = twoConstants := by
  unfold twoConstants
  rw [populated_twoConstants.rest_eq]
  rfl

/-- The constant that takes the place of the variable is not looked at again, although it has the
new name of the variable. -/
theorem ground_rename_namedRule :
    namedRule.Parsed ∧ namedRule.Renames metName ∧
      twoConstants.ground { namedRule with
          heads := [.predicate "p" ["a", "b"], .predicate "a" ["any"]]
          vars := [⟨"a", "s"⟩, ⟨"any", "s"⟩] } =
        .ok (gather (start namedRule) [namedClauses "a", namedClauses "b"]) := by
  have hrename := (ground_rename parsed_namedRule renames_namedRule twoConstants).1
  rw [rename_namedRule, ground_namedRule, askingFor_twoConstants] at hrename
  exact ⟨parsed_namedRule, renames_namedRule, hrename⟩

end Grounder

end Groundwork
