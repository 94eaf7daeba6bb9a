import Groundwork.Proofs.Grounding.Shared
import Groundwork.Proofs.Session.Committed
import Groundwork.Proofs.Session.Deciding
import Groundwork.Proofs.Session.Populating

/-!
# Strategies within a session

Two strategies ground the same rules to the same clauses, though in different orders, and
so ground atoms are met in different orders and get different numbers.  None of what is
known of a session under the names of its ground atoms depends on this.

* `Grounded.Rearranges.signed_perm`, `firstFitting_mentionsOf`: what a rule gives to a
  pass, up to the order;
* `Unfolds.agrees`: two sessions that differ in their strategies alone still agree after a
  pass;
* `shared_refines_serial`: shared enumeration against rules grounded alone.
-/

namespace Groundwork

/-! ## Rearranged rules -/

theorem Grounded.Rearranges.symm {a b : Grounded} (h : a.Rearranges b) : b.Rearranges a :=
  ⟨h.kind_eq.symm, h.bindings_eq.symm, h.predicates_eq.symm, h.clauses_perm.symm⟩

theorem Grounded.Rearranges.trans {a b c : Grounded} (hab : a.Rearranges b)
    (hbc : b.Rearranges c) : a.Rearranges c :=
  ⟨hbc.kind_eq.trans hab.kind_eq, hbc.bindings_eq.trans hab.bindings_eq,
    hbc.predicates_eq.trans hab.predicates_eq, hbc.clauses_perm.trans hab.clauses_perm⟩

theorem Grounded.Rearranges.signed_perm {a b : Grounded} (h : a.Rearranges b) :
    b.signed.Perm a.signed := by
  rw [Grounded.signed, Grounded.signed, h.kind_eq]
  exact h.clauses_perm.map _

namespace AtomTable

theorem texts_mentionsOf (grounded : Grounded) :
    (mentionsOf grounded).map Mention.text =
      grounded.signed.flatMap fun c => c.map Prod.fst := by
  rw [mentionsOf, Grounded.signed, List.map_flatMap, List.flatMap_map]
  refine List.flatMap_congr fun clause _ => ?_
  rw [mentionsOfClause, List.map_map]
  rfl

/-- A rule looks for the predicate of every ground atom among the same ones, so it does not
matter where in the rule the ground atom is met first. -/
theorem firstFitting_mentionsOf (grounded : Grounded) (text : String) :
    firstFitting (mentionsOf grounded) text =
      if text ∈ (mentionsOf grounded).map Mention.text
      then grounded.predicates.find? (fits text) else none := by
  have hpredicates : ∀ m ∈ mentionsOf grounded, m.predicates = grounded.predicates := by
    intro m hm
    obtain ⟨clause, _, hm⟩ := List.mem_flatMap.1 hm
    obtain ⟨signed, _, rfl⟩ := List.mem_map.1 hm
    rfl
  generalize mentionsOf grounded = mentions at hpredicates
  induction mentions with
  | nil => rfl
  | cons m mentions ih =>
    have ih := ih fun m' hm' => hpredicates m' (List.mem_cons_of_mem _ hm')
    unfold firstFitting at ih ⊢
    rw [List.findSome?_cons, ih, hpredicates m List.mem_cons_self, List.map_cons]
    by_cases hsame : text = m.text
    · have hmem : text ∈ m.text :: mentions.map Mention.text := List.mem_cons.2 (Or.inl hsame)
      rw [if_pos hsame, if_pos hmem]
      cases grounded.predicates.find? (fits text) <;> simp
    · rw [if_neg hsame]
      simp only [List.mem_cons, hsame, false_or]

theorem firstFitting_append (mentions later : List Mention) (text : String) :
    firstFitting (mentions ++ later) text =
      (firstFitting mentions text).or (firstFitting later text) :=
  List.findSome?_append

end AtomTable

namespace Session

open AtomTable

section Rearranged

variable {first second : List Grounded}

theorem signedOfAll_perm (h : List.Forall₂ Grounded.Rearranges first second) :
    (signedOfAll second).Perm (signedOfAll first) := by
  induction h with
  | nil => exact .refl _
  | cons hrule _ ih =>
    rw [signedOfAll_cons, signedOfAll_cons]
    exact hrule.signed_perm.append ih

theorem texts_mentionsOfAll (grounded : List Grounded) :
    (mentionsOfAll grounded).map Mention.text =
      (signedOfAll grounded).flatMap fun c => c.map Prod.fst := by
  induction grounded with
  | nil => rfl
  | cons first grounded ih =>
    rw [signedOfAll_cons, List.flatMap_append, ← ih, ← texts_mentionsOf, ← List.map_append]
    rfl

theorem mem_texts_iff (h : List.Forall₂ Grounded.Rearranges first second) (text : String) :
    text ∈ (mentionsOfAll second).map Mention.text ↔
      text ∈ (mentionsOfAll first).map Mention.text := by
  rw [texts_mentionsOfAll, texts_mentionsOfAll]
  exact ((signedOfAll_perm h).flatMap_right _).mem_iff

/-- The rules are in the same order, and within a rule the order does not matter. -/
theorem firstFitting_mentionsOfAll (h : List.Forall₂ Grounded.Rearranges first second)
    (text : String) :
    firstFitting (mentionsOfAll second) text = firstFitting (mentionsOfAll first) text := by
  induction h with
  | nil => rfl
  | @cons a b first second hrule _ ih =>
    have hmem : text ∈ (mentionsOf b).map Mention.text ↔ text ∈ (mentionsOf a).map Mention.text := by
      rw [texts_mentionsOf, texts_mentionsOf]
      exact (hrule.signed_perm.flatMap_right _).mem_iff
    show firstFitting (mentionsOf b ++ mentionsOfAll second) text =
      firstFitting (mentionsOf a ++ mentionsOfAll first) text
    rw [firstFitting_append, firstFitting_append, ih, firstFitting_mentionsOf,
      firstFitting_mentionsOf, hrule.predicates_eq]
    simp only [hmem]

end Rearranged

/-! ## Passes over an instance -/

/-- What the instance says after a pass. -/
theorem Unfolds.models_iff {s t : Session Solver} {grounded : List Grounded}
    (h : s.Unfolds t grounded) (hs : s.Coherent Solver.Holds) (v : String → Bool) :
    t.Models v ↔ s.Models v ∧ ∀ c ∈ signedOfAll grounded, SignedHolds v c :=
  models_of_commit hs h.room h.atoms_eq h.clauses_eq v

/-! ## Sessions that agree -/

/-- The sessions know the same ground atoms with the same predicates, and decide alike. -/
structure Agrees (t u : Session Solver) : Prop where
  known : ∀ text, (t.atoms.get? text).isSome = (u.atoms.get? text).isSome
  predicateOf : ∀ text, t.atoms.predicateOf text = u.atoms.predicateOf text
  verdicts : ∀ assumptions, (exec (solveWith assumptions) t).1.map Prod.fst =
    (exec (solveWith assumptions) u).1.map Prod.fst

/-- Decisions depend on the known ground atoms and on what the clauses say of them. -/
theorem verdicts_eq {t u : Session Solver} (ht : t.Coherent Solver.Holds)
    (hu : u.Coherent Solver.Holds)
    (hknown : ∀ text, (t.atoms.get? text).isSome = (u.atoms.get? text).isSome)
    (hmodels : ∀ v, t.Models v ↔ u.Models v) (assumptions : List String) :
    (exec (solveWith assumptions) t).1.map Prod.fst =
      (exec (solveWith assumptions) u).1.map Prod.fst := by
  have hreadt := mapM_assumptionLiteral t.atoms assumptions
  have hreadu := mapM_assumptionLiteral u.atoms assumptions
  simp only [hknown] at hreadt
  cases hfind : assumptions.find? fun a => !(u.atoms.get? (readAssumption a).1).isSome with
  | some a =>
    rw [hfind] at hreadt hreadu
    rw [exec_solveWith_error hreadt, exec_solveWith_error hreadu]
  | none =>
    have hassumed := find?_unknown_eq_none_iff.1 hfind
    obtain ⟨answer, model, hanswer, hright⟩ := hu.solveWith_decides hassumed
    simp only [← hknown] at hassumed
    obtain ⟨answer', model', hanswer', hright'⟩ := ht.solveWith_decides hassumed
    have hsame : answer' = answer := by
      rw [Bool.eq_iff_iff, hright', hright]
      simp only [hmodels]
    rw [hanswer, hanswer', hsame]
    rfl

theorem forall₂_rearranges {g : Grounder} {rules : List Rule} {first second : List Grounded}
    (hfirst : List.Forall₂ (fun r result => ∃ alone, g.ground r = .ok alone ∧
      alone.Rearranges result) rules first)
    (hsecond : List.Forall₂ (fun r result => ∃ alone, g.ground r = .ok alone ∧
      alone.Rearranges result) rules second) :
    List.Forall₂ Grounded.Rearranges first second := by
  induction hfirst generalizing second with
  | nil =>
    cases hsecond
    exact .nil
  | cons hrule _ ih =>
    cases hsecond with
    | cons hrule' hrest =>
      obtain ⟨alone, halone, hrearranges⟩ := hrule
      obtain ⟨alone', halone', hrearranges'⟩ := hrule'
      rw [halone, Except.ok.injEq] at halone'
      subst halone'
      exact .cons (hrearranges.symm.trans hrearranges') (ih hrest)

section Agreeing

variable {s₁ s₂ : Session Solver}

/-- Rules that can be grounded by one strategy can be grounded by the other, and need as many
numbers. -/
theorem Unfolds.exists_other {t₁ : Session Solver} {first : List Grounded}
    (hunfolds : s₁.Unfolds t₁ first) (h₂ : s₂.Coherent Solver.Holds)
    (hgrounder : s₂.grounder [] = s₁.grounder []) (hrules : s₂.rules = s₁.rules)
    (hatoms : s₂.atoms = s₁.atoms) :
    ∃ second, s₂.Unfolds (exec unfoldInstance s₂).2 second ∧
      List.Forall₂ Grounded.Rearranges first second := by
  obtain ⟨second, hsecond⟩ : ∃ second,
      (s₂.grounder []).groundAll s₂.strategy s₂.rules.toList = .ok second := by
    rw [hgrounder, hrules]
    exact Grounder.exists_groundAll_iff.2 (Grounder.exists_groundAll_iff.1 ⟨_, hunfolds.grounded_eq⟩)
  have hrearranges : List.Forall₂ Grounded.Rearranges first second := by
    refine forall₂_rearranges (Grounder.groundAll_rearranges hunfolds.grounded_eq) ?_
    rw [← hgrounder, ← hrules]
    exact Grounder.groundAll_rearranges hsecond
  have hroom : (s₂.atoms.meetAll (mentionsOfAll second)).largest ≤ maxAtom := by
    rw [hatoms, largest_meetAll_congr _ (mem_texts_iff hrearranges)]
    exact hunfolds.room
  exact ⟨second, (h₂.unfolds hsecond hroom).2, hrearranges⟩

theorem Unfolds.agrees {t₁ t₂ : Session Solver} {first second : List Grounded}
    (hfirst : s₁.Unfolds t₁ first) (hsecond : s₂.Unfolds t₂ second)
    (h₁ : s₁.Coherent Solver.Holds) (h₂ : s₂.Coherent Solver.Holds)
    (ht₁ : t₁.Coherent Solver.Holds) (ht₂ : t₂.Coherent Solver.Holds)
    (hatoms : s₂.atoms = s₁.atoms) (hclauses : s₂.clauses = s₁.clauses)
    (hrearranges : List.Forall₂ Grounded.Rearranges first second) : t₂.Agrees t₁ := by
  have hknown : ∀ text, (t₂.atoms.get? text).isSome = (t₁.atoms.get? text).isSome := by
    intro text
    rw [Bool.eq_iff_iff, hsecond.atoms_eq, hfirst.atoms_eq, known_meetAll, known_meetAll,
      hatoms, mem_texts_iff hrearranges]
  have hmodels : ∀ v, t₂.Models v ↔ t₁.Models v := by
    intro v
    have hold : s₂.Models v ↔ s₁.Models v := by
      rw [Models, Models, hatoms, hclauses]
    rw [hsecond.models_iff h₂, hfirst.models_iff h₁, hold]
    simp only [(signedOfAll_perm hrearranges).mem_iff]
  refine ⟨hknown, fun text => ?_, verdicts_eq ht₂ ht₁ hknown hmodels⟩
  rw [hsecond.atoms_eq, hfirst.atoms_eq, predicateOf_meetAll h₂.sound, predicateOf_meetAll h₁.sound,
    hatoms, firstFitting_mentionsOfAll hrearranges]

end Agreeing

/-- Shared enumeration succeeds exactly if each rule can be grounded alone, and has the same
results then.  In a session it leads to the same count of clauses, the same ground atoms with
the same predicates, and the same decisions. -/
theorem shared_refines_serial :
    (∀ (g : Grounder) (rules : List Rule),
      ((∃ shared, g.groundShared rules = .ok shared) ↔
        ∀ r ∈ rules, ∃ alone, g.ground r = .ok alone) ∧
      ∀ shared, g.groundShared rules = .ok shared →
        List.Forall₂ (fun r result => ∃ alone, g.ground r = .ok alone ∧ alone.Rearranges result)
          rules shared) ∧
    ∀ s : Session Solver, Reached s →
      let grouped := s.after (.setOption (.groupRules true))
      let ungrouped := s.after (.setOption (.groupRules false))
      (∀ n, (exec unfoldInstance grouped).1 = .ok n ↔ (exec unfoldInstance ungrouped).1 = .ok n) ∧
      ∀ n, (exec unfoldInstance ungrouped).1 = .ok n →
        (exec unfoldInstance grouped).2.Agrees (exec unfoldInstance ungrouped).2 := by
  refine ⟨fun g rules => ⟨Grounder.exists_groundShared_iff,
    fun shared => Grounder.groundShared_rearranges⟩, fun s hs => ?_⟩
  have hgrouped := (hs.after (.setOption (.groupRules true))).coherent
  have hungrouped := (hs.after (.setOption (.groupRules false))).coherent
  refine ⟨fun n => ?_, fun n hn => ?_⟩
  · rw [hgrouped.unfoldInstance_eq_ok_iff, hungrouped.unfoldInstance_eq_ok_iff]
    constructor
    · intro h
      obtain ⟨first, hunfolds, rfl⟩ := h
      obtain ⟨second, hunfolds', hrearranges⟩ := hunfolds.exists_other hungrouped rfl rfl rfl
      exact ⟨second, hunfolds', (signedOfAll_perm hrearranges).length_eq.symm⟩
    · intro h
      obtain ⟨first, hunfolds, rfl⟩ := h
      obtain ⟨second, hunfolds', hrearranges⟩ := hunfolds.exists_other hgrouped rfl rfl rfl
      exact ⟨second, hunfolds', (signedOfAll_perm hrearranges).length_eq.symm⟩
  · obtain ⟨first, hunfolds, _⟩ := hungrouped.unfoldInstance_eq_ok_iff.1 hn
    obtain ⟨second, hunfolds', hrearranges⟩ := hunfolds.exists_other hgrouped rfl rfl rfl
    exact hunfolds.agrees hunfolds' hungrouped hgrouped
      (keeps_unfoldInstance Solver.follows _ hungrouped)
      (keeps_unfoldInstance Solver.follows _ hgrouped) rfl rfl hrearranges

/-! ### A choice between facts -/

open Grounder

/-- A rule by which one of some facts holds. -/
def eitherRule : Rule where
  kind := .disjunction
  heads := []
  body := [.predicate "p" ["x", "y"], .predicate "q" ["y", "anyx"]]
  vars := [⟨"x", "s"⟩, ⟨"y", "t"⟩, ⟨"anyx", "s"⟩]

/-- A rule by which one of the same facts does not hold.  It has its plain variables in another
order. -/
def notRule : Rule where
  kind := .contradiction
  heads := []
  body := [.predicate "q" ["y", "anyx"], .predicate "p" ["x", "y"]]
  vars := [⟨"y", "t"⟩, ⟨"anyx", "s"⟩, ⟨"x", "s"⟩]

/-- Two constants of each of two sorts. -/
def corners : List (String × String) :=
  [("s", "a"), ("s", "b"), ("t", "c"), ("t", "d")]

theorem populated_corners : (populated corners).Populated corners :=
  populated_spec (by decide) (by decide) (by decide)

/-- A session with these constants and with both rules. -/
def choice : Session Solver :=
  ((populated corners).after (.addRule eitherRule)).after (.addRule notRule)

theorem reached_choice : Reached choice :=
  ((reached_populated corners).after _).after _

theorem choice_eq : choice = { ofOptions {} with
    sorts := (populated corners).sorts, stage := .input, rules := #[eitherRule, notRule] } := by
  unfold choice
  rw [populated_corners.rest_eq]
  rfl

theorem after_groupRules_choice (value : Bool) : choice.after (.setOption (.groupRules value)) =
    { ofOptions { groupRules := value } with
      sorts := (populated corners).sorts, stage := .input, rules := #[eitherRule, notRule] } := by
  rw [choice_eq]
  rfl

theorem grounder_choice (value : Bool) :
    (choice.after (.setOption (.groupRules value))).grounder [] =
      (populated corners).grounder [] := by
  rw [after_groupRules_choice, populated_corners.rest_eq]
  rfl

/-- One of the facts holds. -/
def eitherAt (x y : String) : GroundClause :=
  .headless [groundAtom ["p", x, y], groundAtom ["q", y, "a"], groundAtom ["q", y, "b"]]

/-- One of the facts does not hold. -/
def notAt (y x : String) : GroundClause :=
  .headless [groundAtom ["q", y, "a"], groundAtom ["q", y, "b"], groundAtom ["p", x, y]]

theorem ground_eitherRule : ((populated corners).grounder []).ground eitherRule =
    .ok (gather (Grounder.start eitherRule)
      [[eitherAt "a" "c"], [eitherAt "a" "d"], [eitherAt "b" "c"], [eitherAt "b" "d"]]) := by
  refine populated_corners.ground_eq
    (populated_corners.ranges_eq (by decide +kernel) (by decide) (by decide)) ?_
  unfold clausesAt groundBinding
  simp only [funext (instances_eq _ _ _)]
  rfl

theorem ground_notRule : ((populated corners).grounder []).ground notRule =
    .ok (gather (Grounder.start notRule)
      [[notAt "c" "a"], [notAt "c" "b"], [notAt "d" "a"], [notAt "d" "b"]]) := by
  refine populated_corners.ground_eq
    (populated_corners.ranges_eq (by decide +kernel) (by decide) (by decide)) ?_
  unfold clausesAt groundBinding
  simp only [funext (instances_eq _ _ _)]
  rfl

/-- What the rules ground to one after the other. -/
def choiceGrounded : List Grounded :=
  [gather (Grounder.start eitherRule)
      [[eitherAt "a" "c"], [eitherAt "a" "d"], [eitherAt "b" "c"], [eitherAt "b" "d"]],
    gather (Grounder.start notRule)
      [[notAt "c" "a"], [notAt "c" "b"], [notAt "d" "a"], [notAt "d" "b"]]]

theorem pass_choice : (choice.after (.setOption (.groupRules false))).pass .unfoldInstance =
    .ok choiceGrounded := by
  have hserial : ((populated corners).grounder []).groundAll .serial [eitherRule, notRule] =
      .ok choiceGrounded := by
    refine Fallible.mapM_eq_ok_iff.2 ?_
    rw [List.map_cons, List.map_singleton, ground_eitherRule, ground_notRule]
    rfl
  rw [← hserial, ← grounder_choice false, after_groupRules_choice]
  rfl

theorem unfoldInstance_choice :
    (exec unfoldInstance (choice.after (.setOption (.groupRules false)))).1 = .ok 8 := by
  refine ((reached_choice.after _).coherent.unfolds pass_choice ?_).1.trans ?_
  · rw [after_groupRules_choice]
    exact Nat.le_trans (largest_meetAll_le _ _) (by decide)
  · rfl

/-- Both rules are in one group, and the clauses of the second come in another order there. -/
theorem shared_refines_serial_choice :
    (exec unfoldInstance (choice.after (.setOption (.groupRules false)))).1 = .ok 8 ∧
      (exec unfoldInstance (choice.after (.setOption (.groupRules true)))).2.Agrees
        (exec unfoldInstance (choice.after (.setOption (.groupRules false)))).2 :=
  ⟨unfoldInstance_choice, (shared_refines_serial.2 choice reached_choice).2 8 unfoldInstance_choice⟩

end Session

end Groundwork
