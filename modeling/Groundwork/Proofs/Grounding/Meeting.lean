import Groundwork.Proofs.Grounding.Instances
import Groundwork.Proofs.Relation.Words

/-!
# What the grounding of a rule meets

A *fact* is a ground relation to which an instance of a rule evaluates.  Every instance yields a
fact, and those that are not left out are *met*: the clauses of the rule are over their ground
atoms.

* `Rule.longest_of_find?`: the longest predicate that fits a text is found;
* `Yields.ground`, `Yields.name_mem`: the facts of a parsed rule are over constants, and are named
  as the relations of the rule are;
* `exists_met_of_mem_clauses`: what a clause is over was met.
-/

namespace Groundwork

/-! ## The predicates of a rule -/

namespace Rule

variable {r : Rule} {name : String}

theorem mem_predicates_iff : name ∈ r.predicates ↔
    ∃ relation ∈ r.relations, relation.isComparison = false ∧ relation.name = name := by
  unfold predicates
  dsimp only
  rw [mem_eraseReps, List.mem_mergeSort, List.mem_map]
  simp only [List.mem_filter, Bool.not_eq_true', and_assoc]

/-- Longer names come first. -/
theorem pairwise_predicates (r : Rule) :
    r.predicates.Pairwise fun a b => b.utf8ByteSize ≤ a.utf8ByteSize := by
  unfold predicates
  dsimp only
  refine List.Pairwise.sublist (eraseReps_sublist _)
    ((List.pairwise_mergeSort (fun a b c hab hbc => ?_) (fun a b => ?_) _).imp fun {a b} h => ?_)
  · simp only [Bool.or_eq_true, Bool.and_eq_true, Bool.not_eq_true', decide_eq_true_eq, beq_iff_eq,
      decide_eq_false_iff_not, String.not_lt] at hab hbc ⊢
    rcases hab with hab | ⟨hab, hle⟩
    · exact Or.inl (by omega)
    · rcases hbc with hbc | ⟨hbc, hle'⟩
      · exact Or.inl (by omega)
      · exact Or.inr ⟨hab.trans hbc, String.le_trans hle hle'⟩
  · simp only [Bool.or_eq_true, Bool.and_eq_true, Bool.not_eq_true', decide_eq_true_eq, beq_iff_eq,
      decide_eq_false_iff_not, String.not_lt]
    rcases Nat.lt_trichotomy a.utf8ByteSize b.utf8ByteSize with hlt | heq | hgt
    · exact Or.inr (Or.inl hlt)
    · exact (String.le_total a b).imp (fun hle => Or.inr ⟨heq, hle⟩) fun hle => Or.inr ⟨heq.symm, hle⟩
    · exact Or.inl (Or.inl hgt)
  · simp only [Bool.or_eq_true, Bool.and_eq_true, decide_eq_true_eq, beq_iff_eq] at h
    omega

/-- The first predicate that fits a text is the longest one. -/
theorem longest_of_find? {text name other : String}
    (h : r.predicates.find? (AtomTable.fits text) = some name) (hother : other ∈ r.predicates)
    (hfits : AtomTable.fits text other = true) : other.utf8ByteSize ≤ name.utf8ByteSize := by
  obtain ⟨_, before, after, hsplit, hnone⟩ := List.find?_eq_some_iff_append.1 h
  have hsorted := r.pairwise_predicates
  rw [hsplit] at hother hsorted
  rcases List.mem_append.1 hother with hbefore | hafter
  · have hnot := hnone other hbefore
    rw [hfits] at hnot
    cases hnot
  · rcases List.mem_cons.1 hafter with rfl | hafter
    · exact Nat.le_refl _
    · exact (List.pairwise_cons.1 (List.pairwise_append.1 hsorted).2.1).1 other hafter

/-- The names of the predicates of a parsed rule are made of words. -/
theorem Parsed.exists_words (hr : r.Parsed) (h : name ∈ r.predicates) :
    ∃ words, words ≠ [] ∧ (∀ word ∈ words, legalToken word = true) ∧ name = " ".intercalate words := by
  obtain ⟨relation, hrelation, hcomparison, rfl⟩ := mem_predicates_iff.1 h
  rw [Relation.name, hcomparison]
  cases hr.over relation hrelation with
  | comparison equal _ _ =>
    rw [Relation.isComparison_comparison] at hcomparison
    cases hcomparison
  | predicate hne hwords _ => exact ⟨_, hne, hwords, rfl⟩

end Rule

namespace Grounder

variable {g : Grounder} {r : Rule} {fact : Relation}

/-! ## Facts -/

/-- Some instance of a relation of the rule, under some tuple of its plain variables, evaluates to
the fact. -/
def Yields (g : Grounder) (r : Rule) (fact : Relation) : Prop :=
  ∃ ranges tuple relation inst, g.ranges r = .ok ranges ∧ tuple ∈ ranges.tuples ∧
    relation ∈ r.relations ∧ inst ∈ expand ranges.any (plainBindings r ranges tuple) relation ∧
    inst.mapTermsM g.values.evaluate = .ok fact

/-- Grounding the rule meets the fact: an instance of one of its relations, under some tuple of
its plain variables, evaluates to it. -/
def Meets (g : Grounder) (r : Rule) (fact : Relation) : Prop :=
  ∃ ranges tuple relation inst, g.ranges r = .ok ranges ∧ tuple ∈ ranges.tuples ∧
    relation ∈ r.relations ∧
    inst ∈ instanceRelations ranges.any (plainBindings r ranges tuple) relation ∧
    inst.mapTermsM g.values.evaluate = .ok fact

/-- Instances may be left out, but none are added. -/
theorem Meets.yields (h : g.Meets r fact) : g.Yields r fact := by
  obtain ⟨ranges, tuple, relation, inst, hranges, htuple, hrelation, hinst, hfact⟩ := h
  exact ⟨ranges, tuple, relation, inst, hranges, htuple, hrelation,
    mem_of_mem_eraseDupsBy hinst, hfact⟩

/-- The facts of a parsed rule are over constants. -/
theorem Yields.ground (hg : g.Legal) (hr : r.Parsed) (h : g.Yields r fact) : fact.Ground := by
  obtain ⟨ranges, tuple, relation, inst, hranges, htuple, hrelation, hinst, hfact⟩ := h
  have hover := over_of_mem_expand hg hr hranges htuple hrelation hinst
  exact hover.mapTermsM (fun _ hterm => hterm.legal.isOperator)
    (fun _ _ hterm heq => hg.values.evaluate hterm.legal.base heq) hfact

theorem Meets.ground (hg : g.Legal) (hr : r.Parsed) (h : g.Meets r fact) : fact.Ground :=
  h.yields.ground hg hr

/-- A fact has the name of the relation that it comes from. -/
theorem Yields.name_mem (hg : g.Legal) (hr : r.Parsed) (h : g.Yields r fact)
    (hcomparison : fact.isComparison = false) : fact.name ∈ r.predicates := by
  obtain ⟨ranges, tuple, relation, inst, hranges, htuple, hrelation, hinst, hfact⟩ := h
  have hover := over_of_mem_expand hg hr hranges htuple hrelation hinst
  obtain ⟨hkind, hname⟩ := name_of_mem_expand hg hr hranges htuple hrelation hinst
  obtain ⟨hkind', hname'⟩ := hover.name_mapTermsM (fun _ hterm => hterm.legal.isOperator)
    (fun _ _ hterm heq => isOperator_of_legalToken (hg.values.evaluate hterm.legal.base heq)) hfact
  refine Rule.mem_predicates_iff.2 ⟨relation, hrelation, ?_, (hname'.trans hname).symm⟩
  rw [← hkind, ← hkind', hcomparison]

end Grounder

/-! ## Clauses -/

namespace GroundClause

theorem mem_of_mem_signedAtoms {c : GroundClause} {kind : RuleKind} {signed : String × Bool}
    (h : signed ∈ c.signedAtoms kind) : c.head = some signed.1 ∨ signed.1 ∈ c.body := by
  rw [signedAtoms, distinct_eq_eraseDups, List.mem_eraseDups, List.mem_append] at h
  rcases h with h | h
  · obtain ⟨text, htext, rfl⟩ := List.mem_map.1 h
    exact Or.inl (Option.mem_toList.1 htext)
  · obtain ⟨atom, hatom, rfl⟩ := List.mem_map.1 h
    exact Or.inr hatom

theorem eq_of_head_withHead {head text : String} {body : List String}
    (h : (withHead head body).head = some text) : text = head := by
  unfold withHead at h
  dsimp only at h
  split at h
  · cases h
  · exact (Option.some.inj h).symm

end GroundClause

namespace Grounder

variable {g : Grounder} {r : Rule}

theorem mem_of_mem_clausesOf {kind kind' : RuleKind} {body heads : List String}
    {clause : GroundClause} (h : clause ∈ clausesOf kind body heads) {signed : String × Bool}
    (hsigned : signed ∈ clause.signedAtoms kind') : signed.1 ∈ body ∨ signed.1 ∈ heads := by
  have hmem := GroundClause.mem_of_mem_signedAtoms hsigned
  cases kind with
  | implication =>
    obtain ⟨head, hhead, rfl⟩ := List.mem_map.1 h
    refine hmem.symm.imp_right fun heq => ?_
    rw [GroundClause.eq_of_head_withHead heq]
    exact hhead
  | assertion =>
    obtain ⟨head, hhead, rfl⟩ := List.mem_map.1 h
    refine Or.inr ?_
    rw [GroundClause.eq_of_head_withHead (hmem.resolve_right List.not_mem_nil)]
    exact hhead
  | disjunction =>
    rw [List.mem_singleton.1 h] at hmem
    exact Or.inl (hmem.resolve_left (by simp [GroundClause.headless]))
  | contradiction =>
    rw [List.mem_singleton.1 h] at hmem
    exact Or.inl (hmem.resolve_left (by simp [GroundClause.headless]))

/-- The clauses of a rule are over the ground atoms of what was met. -/
theorem exists_met_of_mem_clauses {grounded : Grounded} (h : g.ground r = .ok grounded)
    {clause : GroundClause} (hclause : clause ∈ grounded.clauses.toList) {kind : RuleKind}
    {signed : String × Bool} (hsigned : signed ∈ clause.signedAtoms kind) :
    ∃ fact, g.Meets r fact ∧ fact.groundAtom = signed.1 := by
  obtain ⟨ranges, found, hranges, _, hfound, rfl⟩ := ground_eq_ok_iff.1 h
  have hclause : clause ∈ found.flatten := by simpa [gather, start] using hclause
  obtain ⟨clauses, hclauses, hclause⟩ := List.mem_flatten.1 hclause
  obtain ⟨tuple, htuple, hat⟩ := Fallible.exists_of_mem_results hfound hclauses
  unfold clausesAt groundBinding at hat
  simp only [Fallible.bind_eq_ok_iff, Fallible.pure_eq_ok_iff] at hat
  obtain ⟨body, hbody, heads, hheads, rfl⟩ := hat
  have hmet : ∀ (relations : List Relation) (texts : List (List String)),
      (∀ relation ∈ relations, relation ∈ r.relations) →
      relations.mapM (g.instances ranges.any (plainBindings r ranges tuple)) = .ok texts →
      signed.1 ∈ texts.flatten → ∃ fact, g.Meets r fact ∧ fact.groundAtom = signed.1 := by
    intro relations texts hrelations htexts hmem
    obtain ⟨inst, hinst, hevaluate⟩ :=
      Fallible.exists_of_mem_results (Fallible.mapM_eq_ok_iff.1 (mapM_instances htexts)) hmem
    obtain ⟨relation, hrelation, hinst⟩ := List.mem_flatMap.1 hinst
    obtain ⟨fact, hfact, htext⟩ := Fallible.bind_eq_ok_iff.1 hevaluate
    rw [Fallible.pure_eq_ok_iff] at htext
    exact ⟨fact, ⟨ranges, tuple, relation, inst, hranges, htuple, hrelations relation hrelation,
      hinst, hfact⟩, htext.symm⟩
  rcases mem_of_mem_clausesOf hclause hsigned with hmem | hmem
  · exact hmet r.body body (fun _ h => List.mem_append_right _ h) hbody hmem
  · exact hmet r.heads heads (fun _ h => List.mem_append_left _ h) hheads hmem

end Grounder

end Groundwork
