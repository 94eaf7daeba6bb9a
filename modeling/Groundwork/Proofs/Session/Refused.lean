import Groundwork.Proofs.Grounding.Substitution
import Groundwork.Proofs.Session.Forwarding
import Groundwork.Proofs.Session.Populating

/-!
# Constants that are refused

A constant is refused for the limit of its sort, for its name or the name of the sort, or because
the sort has it already.  The limit is looked at first.  Then the sort is declared, if it was not,
and only then is the name of the constant looked at.

* `refused_leaves_sorts`: a call that is refused leaves the sorts as they were, and all that
  follows is as if it had not been made, unless the name of the constant is illegal and the sort
  was not declared.  In this case the sort stays declared, and is empty;
* `refused_declares_sort`: a rule over such a sort is grounded to nothing, where it was refused
  before.
-/

namespace Groundwork

namespace SortTable

variable {t : SortTable}

/-- The table after a constant was refused: as it was, or with an undeclared sort declared. -/
theorem addElement_error {sort constant : String} {e : SortError}
    (h : (t.addElement sort constant).1 = .error e) :
    (t.get? sort = none ∧ legalToken sort = true ∧ e = .illegalName constant ∧
        (t.addElement sort constant).2 = t.extend sort []) ∨
      ¬ (t.get? sort = none ∧ legalToken sort = true ∧ e = .illegalName constant) ∧
        (t.addElement sort constant).2 = t := by
  rcases t.addElement_cases sort constant with
    ⟨hsort, hadd⟩ | ⟨hsort, hconstant, hadd⟩ | ⟨hsort, hconstant, hmem, hadd⟩ |
      ⟨hsort, hconstant, hmem, hadd⟩
  · rw [hadd]
    exact .inr ⟨fun hnew => by simp [hsort] at hnew, rfl⟩
  · rw [hadd] at h ⊢
    cases h
    cases hget : t.get? sort with
    | none => exact .inl ⟨rfl, hsort, rfl, declared_of_get?_eq_none hget⟩
    | some roster => exact .inr ⟨fun hnew => by simp at hnew, declared_of_get? hget⟩
  · rw [hadd] at h ⊢
    cases h
    refine .inr ⟨fun hnew => by simp at hnew, ?_⟩
    cases hget : t.get? sort with
    | none => simp [elementsOf, hget] at hmem
    | some roster => exact declared_of_get? hget
  · rw [hadd] at h
    cases h

theorem fill_error {sort : String} {count : Nat} {e : SortError}
    (h : (t.fill sort count).1 = .error e) : (t.fill sort count).2 = t := by
  rcases t.fill_cases sort count with ⟨hsort, hfill⟩ | ⟨hsort, hfill⟩
  · rw [hfill]
  · rw [hfill] at h
    cases h

theorem appendTo_of_notMem {sort : String} {new : List String} {l : List (String × List String)}
    (h : sort ∉ l.map Prod.fst) : appendTo sort new l = l ++ [(sort, new)] := by
  induction l with
  | nil => rfl
  | cons entry rest ih =>
    rw [List.map_cons, List.mem_cons, not_or] at h
    rw [appendTo, if_neg (Ne.symm h.1), ih h.2, List.cons_append]

/-- A sort that is declared comes last and is empty. -/
theorem listed_extend_nil {sort : String} (h : t.get? sort = none) :
    (t.extend sort []).listed = t.listed ++ [(sort, [])] := by
  rw [← declared_of_get?_eq_none h, listed_declared, appendTo_of_notMem]
  rw [listed_eq, List.map_map]
  intro hmem
  obtain ⟨name, hname, rfl⟩ := List.mem_map.1 hmem
  obtain ⟨roster, hroster⟩ := mem_names_iff.1 hname
  rw [show t.get? name = none from h] at hroster
  cases hroster

end SortTable

namespace Session

variable {β : Type}

/-- A call on the sorts fails at the limit, before anything is changed, or in the table. -/
theorem exec_checked {α : Type} (change : SortTable → Except SortError α × SortTable)
    (sort : String) (count : Nat) (s : Session β) :
    exec (do checkSortLimit sort count; noteInput; onSorts change) s =
      if s.options.sortLimit.value < min (s.sorts.sizeOf sort + count) Text.maxCount then
        (.error (.sort (.sortLimit sort (min (s.sorts.sizeOf sort + count) Text.maxCount)
          s.options.sortLimit.value)), s)
      else
        ((change s.sorts).1.mapError .sort,
          { s with stage := .input, sorts := (change s.sorts).2 }) := by
  unfold checkSortLimit noteInput onSorts
  rw [exec_bind, exec_bind, exec_get]
  dsimp only
  by_cases hlimit : s.options.sortLimit.value < min (s.sorts.sizeOf sort + count) Text.maxCount
  · rw [if_pos hlimit, if_pos hlimit]
    rfl
  · rw [if_neg hlimit, if_neg hlimit, exec_pure]
    dsimp only
    rw [exec_bind, exec_modify]
    dsimp only
    rw [exec_bind, exec_modifyGet]
    cases (change s.sorts).1 <;> rfl

theorem exec_checked_error {α : Type} {change : SortTable → Except SortError α × SortTable}
    {sort : String} {count : Nat} {s t : Session β} {failure : Failure}
    (h : exec (do checkSortLimit sort count; noteInput; onSorts change) s = (.error failure, t)) :
    (∃ required limit, failure = .sort (.sortLimit sort required limit)) ∧ t = s ∨
      ∃ e, (change s.sorts).1 = .error e ∧ failure = .sort e ∧
        t = { s with stage := .input, sorts := (change s.sorts).2 } := by
  rw [exec_checked] at h
  split at h
  · cases h
    exact .inl ⟨⟨_, _, rfl⟩, rfl⟩
  · cases hchange : (change s.sorts).1 with
    | ok a =>
      rw [hchange] at h
      cases h
    | error e =>
      rw [hchange] at h
      cases h
      exact .inr ⟨e, rfl, rfl, rfl⟩

variable [Backend β]

/-- Nothing that follows can tell the session from the one before, unless it asks what was put in
or decided last. -/
structure Unaffected (s t : Session β) : Prop where
  sorts : t.sorts = s.sorts
  run : ∀ ops : List Operation, ∃ stage,
    ops.foldl Session.after t = { ops.foldl Session.after s with stage := stage }

theorem unaffected_self (s : Session β) : Unaffected s s :=
  ⟨rfl, fun ops => ⟨(ops.foldl Session.after s).stage, rfl⟩⟩

theorem unaffected_noteInput (s : Session β) : Unaffected s { s with stage := .input } :=
  ⟨rfl, run_noteInput s⟩

/-- A call that is refused leaves the sorts as they were, and what follows is as if it had not been
made, unless the name of the constant is illegal and its sort was not declared.  In this case the
sort is declared, comes last, and has no constants. -/
theorem refused_leaves_sorts (s : Session β) (sort : String) :
    (∀ count failure t, exec (fillSort sort count) s = (.error failure, t) → Unaffected s t) ∧
    ∀ constant failure t, exec (addElement sort constant) s = (.error failure, t) →
      (¬ (s.sorts.get? sort = none ∧ legalToken sort = true ∧
          failure = .sort (.illegalName constant)) → Unaffected s t) ∧
      (s.sorts.get? sort = none ∧ legalToken sort = true ∧
          failure = .sort (.illegalName constant) →
        t = { s with stage := .input, sorts := s.sorts.extend sort [] } ∧
        t.sorts.listed = s.sorts.listed ++ [(sort, [])]) := by
  constructor
  · intro count failure t h
    rcases exec_checked_error h with ⟨_, rfl⟩ | ⟨e, he, _, rfl⟩
    · exact unaffected_self t
    · rw [SortTable.fill_error he]
      exact unaffected_noteInput s
  · intro constant failure t h
    rcases exec_checked_error h with ⟨⟨required, limit, rfl⟩, rfl⟩ | ⟨e, he, rfl, rfl⟩
    · exact ⟨fun _ => unaffected_self t, fun hnew => by simp at hnew⟩
    · rcases SortTable.addElement_error he with ⟨hget, hsort, rfl, hadd⟩ | ⟨hold, hadd⟩
      · refine ⟨fun hold => absurd ⟨hget, hsort, rfl⟩ hold, fun _ => ?_⟩
        rw [hadd]
        exact ⟨rfl, SortTable.listed_extend_nil hget⟩
      · rw [hadd]
        refine ⟨fun _ => unaffected_noteInput s, fun hnew => absurd ?_ hold⟩
        simpa using hnew

/-- A constant that is put in twice is refused the second time. -/
theorem refused_leaves_sorts_duplicate :
    (exec (addElement "s" "a") (populated [("s", "a")])).1 =
        .error (.sort (.duplicateConstant "s" "a")) ∧
      Unaffected (populated [("s", "a")])
        (exec (addElement "s" "a") (populated [("s", "a")])).2 := by
  have hspec : (populated [("s", "a")]).Populated [("s", "a")] :=
    populated_spec (by decide) (by decide) (by decide)
  have helements : (populated [("s", "a")]).sorts.elementsOf "s" = ["a"] := by
    rw [SortTable.elementsOf, hspec.get?_eq]
    rfl
  have hroom : ¬ (populated [("s", "a")]).options.sortLimit.value <
      min ((populated [("s", "a")]).sorts.sizeOf "s" + 1) Text.maxCount := by
    have hsize : (populated [("s", "a")]).sorts.sizeOf "s" ≤ 1 := hspec.sizeOf_le "s"
    have hlimit : (populated [("s", "a")]).options.sortLimit.value = 1000000 := by
      rw [hspec.rest_eq]
      rfl
    omega
  have hrefused : (exec (addElement "s" "a") (populated [("s", "a")])).1 =
      .error (.sort (.duplicateConstant "s" "a")) := by
    unfold addElement
    rw [exec_checked, if_neg hroom]
    rcases (populated [("s", "a")]).sorts.addElement_cases "s" "a" with
      ⟨hsort, _⟩ | ⟨_, hconstant, _⟩ | ⟨_, _, _, hadd⟩ | ⟨_, _, hfresh, _⟩
    · exact absurd hsort (by decide)
    · exact absurd hconstant (by decide)
    · rw [hadd]
      rfl
    · rw [helements] at hfresh
      exact absurd (List.mem_singleton.2 rfl) hfresh
  refine ⟨hrefused, ((refused_leaves_sorts _ "s").2 "a" _ _ (Prod.ext hrefused rfl)).1 ?_⟩
  intro hnew
  simp at hnew

/-! ## A sort that was not to be declared -/

/-- A rule over one sort. -/
def oneSortRule : Rule where
  kind := .assertion
  heads := [.predicate "p" ["x"]]
  body := []
  vars := [⟨"x", "s"⟩]

theorem after_refused :
    exec (addElement "s" "a.b") (ofOptions {}) =
      (.error (.sort (.illegalName "a.b")),
        { ofOptions {} with
          stage := .input
          sorts := (ofOptions {}).sorts.extend "s" [] }) := by
  have hsize : (ofOptions {}).sorts.sizeOf "s" = 0 := by
    unfold SortTable.sizeOf
    rw [get?_sorts_ofOptions]
    rfl
  have hadd : (ofOptions {}).sorts.addElement "s" "a.b" =
      (.error (.illegalName "a.b"), (ofOptions {}).sorts.extend "s" []) := by
    rcases (ofOptions {}).sorts.addElement_cases "s" "a.b" with
      ⟨hsort, _⟩ | ⟨_, _, hadd⟩ | ⟨_, hconstant, _⟩ | ⟨_, hconstant, _⟩
    · exact absurd hsort (by decide)
    · rw [hadd, SortTable.declared_of_get?_eq_none (get?_sorts_ofOptions {} "s")]
    · exact absurd hconstant (by decide)
    · exact absurd hconstant (by decide)
  unfold addElement
  rw [exec_checked, hsize, if_neg (by decide), hadd]
  rfl

theorem refusal?_oneSortRule (g : Grounder) :
    g.refusal? oneSortRule =
      if g.knows "s" = false then some (.unknownSort "s")
      else if g.bindingLimit < (g.constantsOf "s").length then
        some (.bindingLimit (min (g.constantsOf "s").length (2 ^ 128 - 1)) g.bindingLimit)
      else none := by
  have hbases : oneSortRule.bases = ["x"] := by decide +kernel
  have hvars : oneSortRule.plainVariables ++ oneSortRule.anyVariables = [⟨"x", "s"⟩] := by
    decide +kernel
  have hcount : g.bindingCount oneSortRule = (g.constantsOf "s").length := by
    show ([(g.constantsOf "s").length] : List Nat).prod = _
    rw [List.prod_singleton]
  unfold Grounder.refusal?
  rw [hbases, hvars, hcount, List.find?_cons_of_neg (by simp [oneSortRule]), List.find?_nil]
  dsimp only
  cases hknows : g.knows "s" with
  | false => simp [hknows]
  | true => simp [hknows]

theorem substituted_oneSortRule {g : Grounder} (hknows : g.knows "s" = true)
    (hempty : g.constantsOf "s" = []) : g.substituted oneSortRule = .ok (Grounder.start oneSortRule) := by
  have hplain : oneSortRule.plainVariables = [⟨"x", "s"⟩] := by decide +kernel
  unfold Grounder.substituted
  rw [refusal?_oneSortRule, hknows, hempty]
  dsimp only [List.length_nil]
  rw [if_neg (by simp), if_neg (Nat.not_lt_zero _), hplain, Grounder.tuplesOf, List.map_cons,
    hempty]
  rfl

/-- A rule over an undeclared sort is refused, and over an empty one it has no instances. -/
theorem ground_oneSortRule :
    ((ofOptions {}).grounder []).ground oneSortRule = .error (.unknownSort "s") ∧
      (({ ofOptions {} with
          stage := .input
          sorts := (ofOptions {}).sorts.extend "s" [] } : Session Solver).grounder []).ground
        oneSortRule = .ok (Grounder.start oneSortRule) := by
  constructor
  · rw [Grounder.ground_eq_substituted (fun _ => rfl) (fun _ => rfl) (by decide)]
    have hknows : ((ofOptions {}).grounder []).knows "s" = false := by
      show ((ofOptions {}).sorts.get? "s").isSome = false
      rw [get?_sorts_ofOptions]
      rfl
    unfold Grounder.substituted
    rw [refusal?_oneSortRule, if_pos hknows]
  · rw [Grounder.ground_eq_substituted (fun _ => rfl) (fun _ => rfl) (by decide)]
    refine substituted_oneSortRule ?_ ?_
    · show (((ofOptions {}).sorts.extend "s" []).get? "s").isSome = true
      rw [SortTable.get?_extend]
      rfl
    · rw [Grounder.constantsOf_eq]
      show ((ofOptions {}).sorts.extend "s" []).elementsOf "s" = []
      rw [← SortTable.declared_of_get?_eq_none (get?_sorts_ofOptions {} "s"),
        SortTable.elementsOf_declared, SortTable.elementsOf, get?_sorts_ofOptions]
      rfl

/-- Before the call the rule is refused for its sort.  After the call, which fails, it is grounded
to nothing. -/
theorem refused_declares_sort :
    Reached (ofOptions {}) ∧
    (exec (addElement "s" "a.b") (ofOptions {})).1 = .error (.sort (.illegalName "a.b")) ∧
    (ofOptions {}).sorts.listed = [] ∧
    ((ofOptions {}).after (.addElement "s" "a.b")).sorts.listed = [("s", [])] ∧
    ((ofOptions {}).grounder []).ground oneSortRule = .error (.unknownSort "s") ∧
    (((ofOptions {}).after (.addElement "s" "a.b")).grounder []).ground oneSortRule =
      .ok (Grounder.start oneSortRule) := by
  have hafter : (ofOptions {}).after (.addElement "s" "a.b") =
      { ofOptions {} with
        stage := .input
        sorts := (ofOptions {}).sorts.extend "s" [] } := congrArg Prod.snd after_refused
  rw [hafter, after_refused]
  refine ⟨Reached.ofOptions {}, rfl, rfl, ?_, ground_oneSortRule⟩
  exact SortTable.listed_extend_nil (get?_sorts_ofOptions {} "s")

end Session

end Groundwork
