import Groundwork.Proofs.Grounding.Meeting
import Groundwork.Proofs.Program.RoundTrip

/-!
# Well-formed rules

The shape of a statement is decided by several searches through its text.  Whatever the text,
they agree on rules that are *well formed*: heads and body are such as go with the kind, each
relation is a comparison or has a name made of words, and each term is made of tokens with dots
between them.

Grounding relies on this.  The terms of a well-formed relation become constants, so that its
ground atoms are neither empty nor taken for comparisons where they are not.

* `Ground.isComparisonAtom_groundAtom`: comparisons are told apart by their ground atoms;
* `hasAtom_of_mem_expand`: whatever legal constants are bound, a relation leads to ground atoms of
  its own kind;
* `wellFormed_of_parse`: the rules of every program are well formed, and so are their ground atoms.
-/

namespace Groundwork

/-! ## Terms -/

/-- The term is made of tokens, with dots between them. -/
def Term.Dotted (term : String) : Prop :=
  ∃ tokens : List String, tokens ≠ [] ∧ (∀ token ∈ tokens, legalToken token = true) ∧
    term = ".".intercalate tokens

theorem Term.Legal.dotted {term : String} (h : Term.Legal term) : Term.Dotted term := by
  refine ⟨Term.base term :: Term.functions term, List.cons_ne_nil _ _,
    List.forall_mem_cons.2 ⟨h.base, h.functions⟩, String.toList_injective ?_⟩
  rw [String.toList_intercalate, List.map_cons]
  exact (congrArg String.toList h.apply_eq).symm.trans (Term.toList_apply _ _)

/-! ## Ground atoms -/

namespace Relation

/-- Whether there are three words, with an operator between the others. -/
def isComparisonWords : List String → Bool
  | [_, operator, _] => isOperator operator
  | _ => false

theorem isComparisonAtom_intercalate {words : List String} (hne : words ≠ [])
    (hwords : ∀ word ∈ words, ' ' ∉ word.toList) :
    isComparisonAtom (" ".intercalate words) = isComparisonWords words := by
  have hsplit := splitOn_intercalate_words hne hwords
  unfold isComparisonAtom
  generalize (" ".intercalate words).toList.splitOn ' ' = pieces at hsplit
  subst hsplit
  match pieces with
  | [] | [_] | [_, _] | [_, _, _] | _ :: _ :: _ :: _ :: _ => rfl

/-- Legal tokens are no operators, so that only a comparison has an operator for its second word. -/
theorem Ground.isComparisonAtom_groundAtom {r : Relation} (h : r.Ground) :
    isComparisonAtom r.groundAtom = r.isComparison := by
  rw [h.groundAtom_eq, isComparisonAtom_intercalate h.words_ne_nil h.notMem_words]
  cases h with
  | comparison equal hleft hright =>
    rw [words_comparison equal hleft hright, isComparison_comparison]
    cases equal <;> rfl
  | @predicate words terms hne hwords hterms =>
    rw [words_predicate hne hwords hterms, isComparison_predicate_of_legal hterms]
    have hlegal : ∀ word ∈ words ++ terms, isOperator word = false := fun word hword =>
      isOperator_of_legalToken ((List.mem_append.1 hword).elim (hwords word) (hterms word))
    unfold isComparisonWords
    split
    · next operator _ heq => exact hlegal operator (heq ▸ by simp)
    · rfl

theorem Over.isComparison_iff {P : String → Prop} {r : Relation} (h : r.Over P)
    (hP : ∀ term, P term → isOperator term = false) :
    r.isComparison = true ↔ ∃ left equal right, r = .comparison left equal right := by
  constructor
  · intro hcomparison
    cases h with
    | comparison equal _ _ => exact ⟨_, equal, _, rfl⟩
    | predicate _ _ hterms =>
      rw [isComparison_predicate _ fun term hterm => hP term (hterms term hterm)] at hcomparison
      cases hcomparison
  · rintro ⟨left, equal, right, rfl⟩
    exact isComparison_comparison left equal right

/-- The text can be a ground atom of the relation: it is not empty, and it is that of a comparison
exactly if the relation is one. -/
def HasAtom (r : Relation) (atom : String) : Prop :=
  atom ≠ "" ∧ isComparisonAtom atom = r.isComparison

/-- Constants in the place of terms lead to ground atoms of the same kind. -/
theorem Over.hasAtom_of_mapTermsM {P : String → Prop} {r fact : Relation} {ε : Type}
    {f : String → Except ε String} (h : r.Over P) (hnamed : r.Named)
    (hP : ∀ term, P term → isOperator term = false)
    (hf : ∀ term value, P term → f term = .ok value → legalToken value = true)
    (hmap : r.mapTermsM f = .ok fact) : r.HasAtom fact.groundAtom := by
  have hground : fact.Ground := h.mapTermsM hP hf hmap
  obtain ⟨hkind, _⟩ := h.name_mapTermsM hP
    (fun term value hterm heq => isOperator_of_legalToken (hf term value hterm heq)) hmap
  exact ⟨(hnamed.mapTermsM hmap).groundAtom_ne_empty,
    hground.isComparisonAtom_groundAtom.trans hkind⟩

theorem Over.hasAtom_mapTerms {r : Relation} (h : r.Over Term.Legal) (hnamed : r.Named)
    {f : String → String} (hf : ∀ term ∈ r.terms, legalToken (f term) = true) :
    r.HasAtom (r.mapTerms f).groundAtom := by
  refine (h.terms fun _ hterm => hterm.isOperator).hasAtom_of_mapTermsM hnamed
    (fun _ hterm => hterm.1.isOperator) (fun term value hterm heq => ?_) (mapTermsM_ok Unit f r)
  cases heq
  exact hf term hterm.2

end Relation

namespace Grounder

variable {g : Grounder} {any : List Range} {bindings : Bindings} {relation : Relation}

/-- Only legal constants take the place of variables. -/
structure BindsLegal (any : List Range) (bindings : Bindings) : Prop where
  bound : ∀ pair ∈ bindings, legalToken pair.2 = true
  elements : ∀ range ∈ any, ∀ constant ∈ range.elements, legalToken constant = true

/-- Grounding binds legal constants only. -/
theorem Legal.bindsLegal (hg : g.Legal) {r : Rule} (hr : r.bindings = []) {ranges : Ranges}
    (hranges : g.ranges r = .ok ranges) {tuple : List String} (htuple : tuple ∈ ranges.tuples) :
    BindsLegal ranges.any (plainBindings r ranges tuple) := by
  obtain ⟨_, hplain, hany, _⟩ := ranges_eq_ok_iff.1 hranges
  have htoken := fun {vars : List Variable} {found : List Range}
    (hfound : g.rangesOf vars = .ok found) range (hrange : range ∈ found) constant
    (hconstant : constant ∈ range.elements) =>
      hg.sorts _ (hg.isConstant_of_rangesOf hfound range hrange constant hconstant)
  refine ⟨?_, htoken hany⟩
  refine Bindings.forall_bindEach (P := fun constant => legalToken constant = true) ?_
    (forall_of_mem_tuples (htoken hplain) htuple).1
  simp [hr]

/-- Terms stay terms, as what is not bound is a token itself. -/
theorem legal_replace (hbound : ∀ pair ∈ bindings, legalToken pair.2 = true) {term : String}
    (hterm : Term.Legal term) : Term.Legal (bindings.replace term) := by
  refine (bindings.replace_legal hterm ?_).1
  cases hlookup : bindings.lookup (Term.base term) with
  | none => exact hterm.base
  | some constant => exact hbound (_, constant) (mem_of_lookup hlookup)

/-- The instances of a relation are over legal terms, and are of the same kind. -/
theorem legal_of_mem_expand (hbinds : BindsLegal any bindings)
    (hover : relation.Over Term.Legal) (hnamed : relation.Named) {inst : Relation}
    (hinst : inst ∈ expand any bindings relation) :
    inst.Over Term.Legal ∧ inst.Named ∧ inst.isComparison = relation.isComparison := by
  obtain ⟨chosen, hchosen, rfl⟩ := List.mem_map.1 hinst
  have hmentioned := fun range (hrange : range ∈ any.filter fun range =>
    relation.mentions range.name) => hbinds.elements range (List.mem_of_mem_filter hrange)
  have hbound : ∀ pair ∈ bindings.bindEach
      ((any.filter fun range => relation.mentions range.name).map (·.name)) chosen,
        legalToken pair.2 = true :=
    Bindings.forall_bindEach (P := fun constant => legalToken constant = true) hbinds.bound
      (forall_of_mem_tuples hmentioned hchosen).1
  refine ⟨hover.mapTerms (fun _ hterm => hterm.isOperator) fun _ hterm => legal_replace hbound hterm,
    hnamed.mapTerms _, (hover.name_mapTermsM (fun _ hterm => hterm.isOperator) ?_
      (Relation.mapTermsM_ok Unit _ relation)).1⟩
  intro term replaced hterm heq
  cases heq
  exact (legal_replace hbound hterm).isOperator

/-- Functions lead from legal constants to legal constants, and so to ground atoms. -/
theorem hasAtom_of_mem_expand (hvalues : g.values.Legal) (hbinds : BindsLegal any bindings)
    (hover : relation.Over Term.Legal) (hnamed : relation.Named) {inst fact : Relation}
    (hinst : inst ∈ expand any bindings relation)
    (hfact : inst.mapTermsM g.values.evaluate = .ok fact) : relation.HasAtom fact.groundAtom := by
  obtain ⟨hinstOver, hinstNamed, hkind⟩ := legal_of_mem_expand hbinds hover hnamed hinst
  obtain ⟨hne, hcomparison⟩ := hinstOver.hasAtom_of_mapTermsM hinstNamed
    (fun _ hterm => hterm.isOperator) (fun _ _ hterm heq => hvalues.evaluate hterm.base heq) hfact
  exact ⟨hne, hcomparison.trans hkind⟩

theorem hasAtom_of_instances (hvalues : g.values.Legal) (hbinds : BindsLegal any bindings)
    (hover : relation.Over Term.Legal) (hnamed : relation.Named) {atoms : List String}
    (h : g.instances any bindings relation = .ok atoms) :
    ∀ atom ∈ atoms, relation.HasAtom atom := by
  intro atom hatom
  rw [instances_eq, Fallible.mapM_eq_ok_iff] at h
  obtain ⟨inst, hinst, hevaluate⟩ := Fallible.exists_of_mem_results h hatom
  obtain ⟨fact, hfact, htext⟩ := Fallible.bind_eq_ok_iff.1 hevaluate
  rw [Fallible.pure_eq_ok_iff] at htext
  rw [htext]
  exact hasAtom_of_mem_expand hvalues hbinds hover hnamed (mem_of_mem_eraseDupsBy hinst) hfact

/-- Every atom in the clauses of a parsed rule comes from one of its relations. -/
theorem Legal.exists_hasAtom (hg : g.Legal) {r : Rule} (hr : r.Parsed) {grounded : Grounded}
    (h : g.ground r = .ok grounded) {clause : GroundClause}
    (hclause : clause ∈ grounded.clauses.toList) {signed : String × Bool}
    (hsigned : signed ∈ clause.signedAtoms r.kind) :
    ∃ relation ∈ r.relations, relation.HasAtom signed.1 := by
  obtain ⟨fact, ⟨ranges, tuple, relation, inst, hranges, htuple, hrelation, hinst, hfact⟩, htext⟩ :=
    exists_met_of_mem_clauses h hclause hsigned
  refine ⟨relation, hrelation, htext ▸ ?_⟩
  exact hasAtom_of_mem_expand hg.values (hg.bindsLegal hr.bindings_eq hranges htuple)
    (hr.over relation hrelation) (hr.named relation hrelation) (mem_of_mem_eraseDupsBy hinst) hfact

end Grounder

/-! ## Rules -/

namespace Rule

/-- Heads and body go with the kind, and relations are over dotted terms. -/
structure WellFormed (r : Rule) : Prop where
  arranged : Statement.Arranged r.kind r.heads r.body
  dotted : ∀ relation ∈ r.relations, relation.Over Term.Dotted
  /-- No predicate is taken for a comparison. -/
  isComparison_iff : ∀ relation ∈ r.relations, relation.isComparison = true ↔
    ∃ left equal right, relation = .comparison left equal right

/-- There is a relation for each atom of the statement, so that they are arranged alike. -/
theorem Parsed.arranged {r : Rule} (h : r.Parsed) :
    Statement.Arranged r.kind r.heads r.body := by
  refine h.of_read (P := fun r => Statement.Arranged r.kind r.heads r.body) ?_
  intro typings text rule hread
  simp only [Statement.read, Fallible.bind_eq_ok_iff, Fallible.pure_eq_ok_iff,
    Statement.orDefect_eq_ok_iff] at hread
  obtain ⟨shape, hshape, ⟨body, met⟩, hbody, ⟨heads, later⟩, hheads, rfl⟩ := hread
  exact (Statement.arranged_of_readShape hshape).of_length
    (Statement.bases_of_readAtoms hheads).1 (Statement.bases_of_readAtoms hbody).1

theorem Parsed.wellFormed {r : Rule} (h : r.Parsed) : r.WellFormed := by
  refine ⟨h.arranged, fun relation hrelation => ?_, fun relation hrelation => ?_⟩
  · exact (h.over relation hrelation).imp fun _ hterm => hterm.dotted
  · exact (h.over relation hrelation).isComparison_iff fun _ hterm => hterm.isOperator

end Rule

namespace Program

/-- The rules of every program are well formed, and over legal constants their ground atoms are
neither empty nor taken for comparisons where they are not: if constants take the place of whole
terms, if they are bound to bases to which functions are then applied, and in the clauses. -/
theorem wellFormed_of_parse {typings later : Typings} {text : String} {program : Program}
    (h : parse typings text = .ok (program, later)) {rule : Rule} (hrule : rule ∈ program.rules) :
    rule.WellFormed ∧
      (∀ relation ∈ rule.relations,
        (∀ f : String → String, (∀ term ∈ relation.terms, legalToken (f term) = true) →
          relation.HasAtom (relation.mapTerms f).groundAtom) ∧
        ∀ (g : Grounder) (any : List Range) (bindings : Bindings) (atoms : List String),
          g.values.Legal → Grounder.BindsLegal any bindings →
            g.instances any bindings relation = .ok atoms →
              ∀ atom ∈ atoms, relation.HasAtom atom) ∧
      ∀ (g : Grounder) (grounded : Grounded), g.Legal → g.ground rule = .ok grounded →
        ∀ clause ∈ grounded.clauses.toList, ∀ signed ∈ clause.signedAtoms rule.kind,
          ∃ relation ∈ rule.relations, relation.HasAtom signed.1 := by
  have hparsed : rule.Parsed := ⟨typings, later, text, program, h, hrule⟩
  refine ⟨hparsed.wellFormed, fun relation hrelation => ?_, ?_⟩
  · have hover := hparsed.over relation hrelation
    have hnamed := hparsed.named relation hrelation
    refine ⟨fun f hf => hover.hasAtom_mapTerms hnamed hf, ?_⟩
    intro g any bindings atoms hvalues hbinds hatoms
    exact Grounder.hasAtom_of_instances hvalues hbinds hover hnamed hatoms
  · intro g grounded hg hground clause hclause signed hsigned
    exact hg.exists_hasAtom hparsed hground hclause hsigned

/-! ### A statement over two lines -/

/-- A rule with all kinds of relations and terms. -/
def spacedRule : Rule where
  kind := .implication
  heads := [.predicate "p" ["x.f", "v"], .comparison "x" true "c"]
  body := [.predicate "in room" ["x"], .predicate "q" [], .comparison "x" false "v.f"]
  vars := []

theorem parse_spacedRule : ∃ bases diagnostics,
    parse ∅ " in  room( x ),q() ,x!=v . f\n=>p(x .f,v),\tx=c" = .ok
      (⟨[], [{ spacedRule with vars := (⟨∅, bases⟩ : Statement.Mentions).vars ∅ }], diagnostics⟩,
        ∅) :=
  ⟨_, _, rfl⟩

theorem wellFormed_of_parse_spacedRule :
    ∃ (program : Program) (later : Typings) (rule : Rule),
      parse ∅ " in  room( x ),q() ,x!=v . f\n=>p(x .f,v),\tx=c" = .ok (program, later) ∧
        rule ∈ program.rules ∧ rule.heads = spacedRule.heads ∧ rule.body = spacedRule.body ∧
        rule.WellFormed ∧
        (Relation.predicate "in room" ["x"]).HasAtom "in room a" ∧
        (Relation.comparison "x" true "c").HasAtom "a = c" := by
  obtain ⟨bases, diagnostics, hparse⟩ := parse_spacedRule
  obtain ⟨hformed, hatoms, _⟩ := wellFormed_of_parse hparse (List.mem_singleton.2 rfl)
  refine ⟨_, _, _, hparse, List.mem_singleton.2 rfl, rfl, rfl, hformed, ?_, ?_⟩
  · exact (hatoms (.predicate "in room" ["x"]) (by simp [Rule.relations, spacedRule])).1
      (fun _ => "a") fun _ _ => by decide
  · have hbinds : Grounder.BindsLegal [] [("x", "a")] := ⟨by decide, by simp⟩
    exact (hatoms (.comparison "x" true "c") (by simp [Rule.relations, spacedRule])).2
      { sorts := {}, values := {}, bindingLimit := 0 } [] [("x", "a")] ["a = c"]
      ValueTable.legal_empty hbinds rfl "a = c" (List.mem_singleton.2 rfl)

end Program

end Groundwork
