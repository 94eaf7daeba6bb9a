import Groundwork.Proofs.Grounding.Refusals
import Groundwork.Proofs.Program.Rules
import Groundwork.Proofs.Session.Strategies

/-!
# The meaning of the rules of a session

A rule says something for every choice of constants for its plain variables, of the sorts
of these variables.  Under such a choice each relation of the rule stands for its
instances, one for each choice of constants for the `any` variables that it mentions,
where instances with the same encoding are taken once.

`Says` writes this down with no clause in it.  The lemmas go from the clauses of one choice
(`forall_clausesOf_iff`) over the clauses of one rule (`says_iff_of_ground`) to a session:
`solve_decides_rules` says that a session which was unfolded decides what its rules say.
-/

namespace Groundwork

/-! ## What a rule says -/

namespace Grounder

/-- The instance evaluates to a ground atom with the truth value. -/
def HasValue (g : Grounder) (v : String → Bool) (value : Bool) (inst : Relation) : Prop :=
  ∃ text, g.evaluate inst = .ok text ∧ v text = value

/-- The instances of relations under one choice of constants for the plain variables. -/
def instancesAt (g : Grounder) (r : Rule) (constants : List String)
    (relations : List Relation) : List Relation :=
  relations.flatMap
    (instanceRelations (r.anyVariables.map g.rangeOf)
      (r.bindings.bindEach (r.plainVariables.map (·.name)) constants))

/-- What a rule says under one choice of constants for its plain variables. -/
def SaysAt (g : Grounder) (v : String → Bool) (r : Rule) (constants : List String) : Prop :=
  match r.kind with
  | .implication =>
    (∀ i ∈ g.instancesAt r constants r.body, g.HasValue v true i) →
      ∀ i ∈ g.instancesAt r constants r.heads, g.HasValue v true i
  | .assertion => ∀ i ∈ g.instancesAt r constants r.heads, g.HasValue v true i
  | .disjunction => ∃ i ∈ g.instancesAt r constants r.body, g.HasValue v true i
  | .contradiction => ∃ i ∈ g.instancesAt r constants r.body, g.HasValue v false i

/-- What a rule says: the same under every choice. -/
def Says (g : Grounder) (v : String → Bool) (r : Rule) : Prop :=
  ∀ constants, List.Forall₂ (fun x c => c ∈ g.constantsOf x.sort) r.plainVariables constants →
    g.SaysAt v r constants

end Grounder

/-! ## The clauses of one choice -/

theorem signedHolds_signedAtoms {v : String → Bool} {c : GroundClause} {kind : RuleKind} :
    SignedHolds v (c.signedAtoms kind) ↔
      (∃ head ∈ c.head, v head = true) ∨ ∃ atom ∈ c.body, v atom = (kind == .disjunction) := by
  unfold SignedHolds GroundClause.signedAtoms
  simp only [distinct_eq_eraseDups, List.mem_eraseDups, List.mem_append, List.mem_map,
    Option.mem_toList, Option.mem_def, or_and_right, exists_or, exists_exists_and_eq_and]

theorem signedHolds_withHead {v : String → Bool} {head : String} (hhead : head ≠ "")
    (body : List String) (kind : RuleKind) :
    SignedHolds v ((GroundClause.withHead head body).signedAtoms kind) ↔
      v head = true ∨ ∃ atom ∈ body, v atom = (kind == .disjunction) := by
  have hempty : ¬ head.isEmpty = true := by simpa using hhead
  rw [signedHolds_signedAtoms, GroundClause.withHead, if_neg hempty]
  simp

theorem signedHolds_headless {v : String → Bool} (body : List String) (kind : RuleKind) :
    SignedHolds v ((GroundClause.headless body).signedAtoms kind) ↔
      ∃ atom ∈ body, v atom = (kind == .disjunction) := by
  rw [signedHolds_signedAtoms, GroundClause.headless]
  simp

namespace Grounder

/-- The clauses of one choice say what the rule says, if every head is a ground atom. -/
theorem forall_clausesOf_iff {v : String → Bool} {kind : RuleKind} {body heads : List String}
    (hheads : ∀ head ∈ heads, head ≠ "") :
    (∀ c ∈ clausesOf kind body heads, SignedHolds v (c.signedAtoms kind)) ↔
      match kind with
      | .implication => (∀ atom ∈ body, v atom = true) → ∀ head ∈ heads, v head = true
      | .assertion => ∀ head ∈ heads, v head = true
      | .disjunction => ∃ atom ∈ body, v atom = true
      | .contradiction => ∃ atom ∈ body, v atom = false := by
  cases kind with
  | implication =>
    simp only [clausesOf, List.forall_mem_map]
    constructor
    · intro h hbody head hhead
      rcases (signedHolds_withHead (hheads head hhead) _ _).1 (h head hhead) with htrue | hfalse
      · exact htrue
      · obtain ⟨atom, hatom, hvalue⟩ := hfalse
        rw [hbody atom hatom] at hvalue
        cases hvalue
    · intro h head hhead
      rw [signedHolds_withHead (hheads head hhead)]
      by_cases hbody : ∀ atom ∈ body, v atom = true
      · exact Or.inl (h hbody head hhead)
      · simp only [not_forall, Bool.not_eq_true] at hbody
        obtain ⟨atom, hatom, hvalue⟩ := hbody
        exact Or.inr ⟨atom, hatom, hvalue⟩
  | assertion =>
    simp only [clausesOf, List.forall_mem_map]
    refine forall₂_congr fun head hhead => ?_
    rw [signedHolds_withHead (hheads head hhead)]
    simp
  | disjunction =>
    simp only [clausesOf, List.forall_mem_singleton]
    exact signedHolds_headless body _
  | contradiction =>
    simp only [clausesOf, List.forall_mem_singleton]
    exact signedHolds_headless body _

/-! ## The clauses of one rule -/

section Rules

variable {g : Grounder} {r : Rule}

theorem rangesOf_eq_map {vars : List Variable} {found : List Range}
    (h : g.rangesOf vars = .ok found) : found = vars.map g.rangeOf := by
  rw [rangesOf_eq] at h
  split at h
  · cases h
  · cases h
    rfl

/-- The tuples of a rule are the choices of constants for its plain variables. -/
theorem mem_tuples_iff {ranges : Ranges} (h : g.ranges r = .ok ranges) {constants : List String} :
    constants ∈ ranges.tuples ↔
      List.Forall₂ (fun x c => c ∈ g.constantsOf x.sort) r.plainVariables constants := by
  rw [Ranges.tuples, rangesOf_eq_map (ranges_eq_ok_iff.1 h).2.1, Product.mem_tuples_iff,
    List.map_map, List.forall₂_map_left_iff]
  rfl

theorem forall_hasValue_iff {insts : List Relation} {texts : List String}
    (h : insts.mapM g.evaluate = .ok texts) (v : String → Bool) (value : Bool) :
    (∀ i ∈ insts, g.HasValue v value i) ↔ ∀ text ∈ texts, v text = value := by
  have hevaluate := Fallible.mapM_eq_ok_iff.1 h
  have hmap : (∀ i ∈ insts, g.HasValue v value i) ↔
      ∀ e ∈ insts.map g.evaluate, ∃ text, e = .ok text ∧ v text = value := by
    rw [List.forall_mem_map]
    rfl
  rw [hmap, hevaluate, List.forall_mem_map]
  simp

theorem exists_hasValue_iff {insts : List Relation} {texts : List String}
    (h : insts.mapM g.evaluate = .ok texts) (v : String → Bool) (value : Bool) :
    (∃ i ∈ insts, g.HasValue v value i) ↔ ∃ text ∈ texts, v text = value := by
  have hevaluate := Fallible.mapM_eq_ok_iff.1 h
  have hmap : (∃ i ∈ insts, g.HasValue v value i) ↔
      ∃ e ∈ insts.map g.evaluate, ∃ text, e = .ok text ∧ v text = value := by
    simp only [List.mem_map, exists_exists_and_eq_and]
    rfl
  rw [hmap, hevaluate]
  simp

/-- No instance of a named relation evaluates to the empty text, which would be no head. -/
theorem ne_empty_of_instances {any : List Range} {bindings : Bindings} {relations : List Relation}
    (hnamed : ∀ relation ∈ relations, relation.Named) {texts : List String}
    (h : (relations.flatMap (instanceRelations any bindings)).mapM g.evaluate = .ok texts) :
    ∀ text ∈ texts, text ≠ "" := by
  intro text htext
  obtain ⟨inst, hinst, hevaluate⟩ :=
    Fallible.exists_of_mem_results (Fallible.mapM_eq_ok_iff.1 h) htext
  obtain ⟨relation, hrelation, hinst⟩ := List.mem_flatMap.1 hinst
  obtain ⟨tuple, _, rfl⟩ := List.mem_map.1 (mem_of_mem_eraseDupsBy hinst)
  obtain ⟨evaluated, hmap, htext⟩ := Fallible.bind_eq_ok_iff.1 hevaluate
  rw [Fallible.pure_eq_ok_iff] at htext
  rw [htext]
  exact (((hnamed relation hrelation).mapTerms _).mapTermsM hmap).groundAtom_ne_empty

theorem saysAt_iff {ranges : Ranges} (hranges : g.ranges r = .ok ranges)
    (hnamed : ∀ relation ∈ r.heads, relation.Named) {constants : List String}
    {clauses : List GroundClause} (h : g.clausesAt r ranges constants = .ok clauses)
    (v : String → Bool) :
    (∀ c ∈ clauses, SignedHolds v (c.signedAtoms r.kind)) ↔ g.SaysAt v r constants := by
  obtain ⟨_, hplain, hany, _⟩ := ranges_eq_ok_iff.1 hranges
  obtain ⟨body, hbody, hrest⟩ := Fallible.bind_eq_ok_iff.1 h
  obtain ⟨heads, hheads, hclauses⟩ := Fallible.bind_eq_ok_iff.1 hrest
  rw [Fallible.pure_eq_ok_iff] at hclauses
  have hbody := mapM_instances hbody
  have hheads := mapM_instances hheads
  rw [hclauses, forall_clausesOf_iff (ne_empty_of_instances hnamed hheads)]
  rw [rangesOf_eq_map hany, (rangesOf_eq_ok hplain).1] at hbody hheads
  unfold SaysAt instancesAt
  cases r.kind with
  | implication =>
    exact imp_congr (forall_hasValue_iff hbody v true).symm (forall_hasValue_iff hheads v true).symm
  | assertion => exact (forall_hasValue_iff hheads v true).symm
  | disjunction => exact (exists_hasValue_iff hbody v true).symm
  | contradiction => exact (exists_hasValue_iff hbody v false).symm

/-- The clauses of a rule say what the rule says. -/
theorem says_iff_of_ground {grounded : Grounded} (h : g.ground r = .ok grounded)
    (hnamed : ∀ relation ∈ r.heads, relation.Named) (v : String → Bool) :
    (∀ c ∈ grounded.signed, SignedHolds v c) ↔ g.Says v r := by
  obtain ⟨ranges, found, hranges, _, hfound, rfl⟩ := ground_eq_ok_iff.1 h
  have hsigned : (gather (start r) found).signed =
      found.flatten.map fun clause => clause.signedAtoms r.kind := by
    simp [Grounded.signed, gather, start]
  rw [hsigned, List.forall_mem_map]
  unfold Says
  simp only [← mem_tuples_iff hranges]
  constructor
  · intro hall constants hconstants
    obtain ⟨clauses, hclauses, heq⟩ := Fallible.exists_result_of_mem hfound hconstants
    refine (saysAt_iff hranges hnamed heq v).1 fun c hc => hall c ?_
    exact List.mem_flatten.2 ⟨clauses, hclauses, hc⟩
  · intro hall c hc
    obtain ⟨clauses, hclauses, hc⟩ := List.mem_flatten.1 hc
    obtain ⟨constants, hconstants, heq⟩ := Fallible.exists_of_mem_results hfound hclauses
    exact (saysAt_iff hranges hnamed heq v).2 (hall constants hconstants) c hc

end Rules

end Grounder

/-! ## The rules of a session -/

namespace Session

theorem says_iff_of_groundAll {g : Grounder} {rules : List Rule} {grounded : List Grounded}
    (h : List.Forall₂ (fun r result => ∃ alone, g.ground r = .ok alone ∧ alone.Rearranges result)
      rules grounded)
    (hnamed : ∀ r ∈ rules, ∀ relation ∈ r.heads, relation.Named) (v : String → Bool) :
    (∀ c ∈ signedOfAll grounded, SignedHolds v c) ↔ ∀ r ∈ rules, g.Says v r := by
  induction h with
  | nil => simp [signedOfAll]
  | cons hrule _ ih =>
    obtain ⟨alone, halone, hrearranges⟩ := hrule
    rw [signedOfAll_cons]
    simp only [List.mem_append, or_imp, forall_and, List.forall_mem_cons,
      ih fun r hr => hnamed r (List.mem_cons_of_mem _ hr)]
    refine and_congr_left' ?_
    rw [← Grounder.says_iff_of_ground halone (hnamed _ List.mem_cons_self)]
    simp only [hrearranges.signed_perm.mem_iff]

/-- A session without clauses that was unfolded has a model exactly if some truth values of
ground atoms make all that its rules say true. -/
theorem solve_decides_rules {s : Session Solver} (hs : Reached s) (hempty : s.clauses = #[])
    (hparsed : ∀ r ∈ s.rules.toList, r.Parsed) {n : Nat} {t : Session Solver}
    (hunfold : exec unfoldInstance s = (.ok n, t)) :
    ∃ answer model, (exec solve t).1 = .ok (answer, model) ∧
      (answer = true ↔ ∃ v : String → Bool, ∀ r ∈ s.rules.toList, (s.grounder []).Says v r) := by
  have hcoherent := hs.coherent
  have ht := keeps_unfoldInstance Solver.follows s hcoherent
  obtain ⟨grounded, hunfolds, _⟩ :=
    hcoherent.unfoldInstance_eq_ok_iff.1 (congrArg Prod.fst hunfold)
  rw [hunfold] at ht hunfolds
  have hknown : ∀ a ∈ ([] : List String).map readAssumption, (t.atoms.get? a.1).isSome := by simp
  obtain ⟨answer, model, hanswer, hright⟩ := ht.solveWith_decides hknown
  refine ⟨answer, model, hanswer, hright.trans (exists_congr fun v => ?_)⟩
  have hstart : s.Models v := by
    intro c hc
    simp [hempty] at hc
  have hnamed : ∀ r ∈ s.rules.toList, ∀ relation ∈ r.heads, relation.Named := fun r hr relation h =>
    (hparsed r hr).named relation (List.mem_append_left _ h)
  rw [hunfolds.models_iff hcoherent, and_iff_right hstart,
    says_iff_of_groundAll (Grounder.groundAll_rearranges hunfolds.grounded_eq) hnamed]
  exact and_iff_left (by simp [Assumed])

theorem parsed_eitherRule : eitherRule.Parsed :=
  Rule.parsed_of_unannotated "p (x, y) v q (y, anyx)" ["x", "y", "y", "anyx"] (fun _ => ⟨_, rfl⟩)
    [("x", "s"), ("y", "t"), ("anyx", "s")] rfl

theorem parsed_notRule : notRule.Parsed :=
  Rule.parsed_of_unannotated "q (y, anyx), p (x, y) => False" ["y", "anyx", "x", "y"]
    (fun _ => ⟨_, rfl⟩) [("x", "s"), ("y", "t"), ("anyx", "s")] rfl

/-- The facts of `p` are true, and no other ones. -/
def onlyP (text : String) : Bool :=
  text.toList.head? == some 'p'

theorem says_eitherRule : ((populated corners).grounder []).Says onlyP eitherRule := by
  refine (Grounder.says_iff_of_ground ground_eitherRule (List.forall_mem_nil _) onlyP).1 ?_
  unfold SignedHolds
  decide

theorem says_notRule : ((populated corners).grounder []).Says onlyP notRule := by
  refine (Grounder.says_iff_of_ground ground_notRule (List.forall_mem_nil _) onlyP).1 ?_
  unfold SignedHolds
  decide

/-- One fact of `p` or of `q` holds for each two constants, and one does not. -/
theorem solve_decides_rules_choice :
    ∃ model, (exec solve (exec unfoldInstance
      (choice.after (.setOption (.groupRules false)))).2).1 = .ok (true, model) := by
  have hparsed : ∀ r ∈ [eitherRule, notRule], r.Parsed := by
    simp [parsed_eitherRule, parsed_notRule]
  have hrules : (choice.after (.setOption (.groupRules false))).rules.toList =
      [eitherRule, notRule] := by
    rw [after_groupRules_choice]
  have hempty : (choice.after (.setOption (.groupRules false))).clauses = #[] := by
    rw [after_groupRules_choice]
    rfl
  obtain ⟨answer, model, hanswer, hright⟩ :=
    solve_decides_rules (reached_choice.after (.setOption (.groupRules false))) hempty
      (hrules ▸ hparsed) (Prod.ext unfoldInstance_choice rfl)
  rw [hrules, grounder_choice] at hright
  have hsays : ∀ r ∈ [eitherRule, notRule], ((populated corners).grounder []).Says onlyP r :=
    List.forall_mem_cons.2 ⟨says_eitherRule, List.forall_mem_singleton.2 says_notRule⟩
  exact ⟨model, hright.2 ⟨onlyP, hsays⟩ ▸ hanswer⟩

end Session

end Groundwork
