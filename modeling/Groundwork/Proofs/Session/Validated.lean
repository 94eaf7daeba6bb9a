import Groundwork.Proofs.Grounding.Failing
import Groundwork.Proofs.Session.Mirror
import Groundwork.Proofs.Session.Populating
import Groundwork.Proofs.Session.Rebuilding

/-!
# Functions that are checked

A session can check the typings of its functions against its values.  The check looks at whole
sorts, and so at every constant that a variable may stand for.  If it finds no fault, rules whose
terms have sorts are safe to ground: `validated_grounding_safe`.

The session may be over any backend, and may have been reached in any way (`Arises`), as long as
it passes the check in the end.
-/

namespace Groundwork

namespace Session

variable {β : Type}

/-! ## Sessions over any backend -/

/-- The sessions that operations lead to, over some backend. -/
inductive Arises [Backend β] : Session β → Prop where
  | start (options : Options) (b : β) : Arises (start options b)
  | ofDocument {d : Document} {options : Options} {t : Session Solver}
      (h : ofDocument d options = .ok t) (b : β) : Arises (t.mapBackend fun _ => b)
  | after {s : Session β} (h : Arises s) (op : Operation) : Arises (s.after op)

theorem Arises.legal [Backend β] {s : Session β} (h : s.Arises) : s.Legal := by
  induction h with
  | start options b =>
    have hlegal := legal_ofOptions options
    exact ⟨hlegal.sorts, hlegal.values⟩
  | ofDocument h b =>
    have hlegal := legal_ofDocument h
    exact ⟨hlegal.sorts, hlegal.values⟩
  | after _ op ih => exact ih.after op

/-- The solver of the library is a backend like any other. -/
theorem Reached.arises {s : Session Solver} (h : Reached s) : s.Arises := by
  induction h with
  | ofOptions options => exact Arises.start options (Session.ofOptions options).backend
  | @ofDocument _ _ s h => exact Arises.ofDocument h s.backend
  | after _ op ih => exact ih.after op

/-- The table of atoms and the clauses belong together, whatever the backend does. -/
theorem Arises.coherent [Backend β] {s : Session β} (h : s.Arises) :
    s.Coherent fun _ _ => True := by
  induction h with
  | start options b =>
    have hstart := coherent_ofOptions options
    exact ⟨hstart.sound, hstart.largest_le, hstart.named, trivial⟩
  | ofDocument h b =>
    have hcoherent := coherent_ofDocument h
    exact ⟨hcoherent.sound, hcoherent.largest_le, hcoherent.named, trivial⟩
  | after _ op ih => exact ih.after Backend.follows_any op

/-! ## The check -/

section Check

variable {s : Session β} {signature : Signature}

theorem validateAt_eq_ok_iff {image : Roster String} {constant : String} :
    s.validateAt signature image constant = .ok () ↔
      ∃ value, s.values.get? constant signature.function = some value ∧ value ∈ image.toList := by
  unfold validateAt
  cases s.values.get? constant signature.function with
  | none => simp
  | some value =>
    simp only [Option.some.injEq, exists_eq_left', ← image.contains_iff]
    by_cases hcontains : image.contains value = true <;> simp [hcontains]

theorem validateSignature_eq_ok_iff : s.validateSignature signature = .ok () ↔
    ∃ domain image, s.sorts.get? signature.domain = some domain ∧
      s.sorts.get? signature.image = some image ∧
        ∀ constant ∈ domain.toList, ∃ value,
          s.values.get? constant signature.function = some value ∧ value ∈ image.toList := by
  unfold validateSignature
  cases s.sorts.get? signature.domain with
  | none => simp
  | some domain =>
    cases s.sorts.get? signature.image with
    | none => simp
    | some image =>
      dsimp only
      rw [Fallible.forM_eq_ok_iff]
      simp only [validateAt_eq_ok_iff, Option.some.injEq, exists_and_left, exists_eq_left']

/-- After a check without a fault, values agree with typings under all accepted restrictions. -/
theorem Legal.checked (h : s.Legal) (hvalid : s.validateFunctions = .ok ())
    {restrictions accepted : List (String × List String)}
    (haccepted : s.restrict restrictions = .ok accepted) : (s.grounder accepted).Checked := by
  refine ⟨h.grounder haccepted, mem_sort_of_mem_restrict haccepted, ?_⟩
  intro signature hsignature constant hhas
  obtain ⟨domain, image, hdomain, himage, hvalues⟩ :=
    validateSignature_eq_ok_iff.1 (Fallible.forM_eq_ok_iff.1 hvalid signature hsignature)
  obtain ⟨roster, hroster, hconstant⟩ := hhas
  have hsame : domain = roster := Option.some.inj (hdomain.symm.trans hroster)
  obtain ⟨value, hvalue, hin⟩ := hvalues constant (hsame ▸ hconstant)
  exact ⟨value, hvalue, image, himage, hin⟩

end Check

theorem avoids_restrict (s : Session β) (restrictions : List (String × List String)) :
    Fallible.Avoids GroundError.IsUnbound (s.restrict restrictions) := by
  induction restrictions with
  | nil => exact Fallible.avoids_ok _
  | cons restriction rest ih =>
    obtain ⟨sort, constants⟩ := restriction
    unfold restrict
    split
    · exact Fallible.avoids_error (by rintro ⟨_, _, h⟩; cases h)
    · split
      · exact Fallible.avoids_error (by rintro ⟨_, _, h⟩; cases h)
      · exact ih.bind fun _ _ => Fallible.avoids_ok _

/-- In a session that passes the check, rules whose terms have sorts never meet a function without
a value, by any strategy and under any restrictions, and under every binding each of their terms
denotes a constant of its sort. -/
theorem validated_grounding_safe [Backend β] {s : Session β} (hs : s.Arises)
    (hvalid : s.validateFunctions = .ok ()) {rules : List Rule} (hparsed : ∀ r ∈ rules, r.Parsed)
    (htyped : ∀ r ∈ rules, r.WellTyped s.sorts) (restrictions : List (String × List String)) :
    (∀ strategy domain function,
      (do (s.grounder (← s.restrict restrictions)).groundAll strategy rules) ≠
        .error (.unboundFunctionApplication domain function)) ∧
    (∀ r ∈ rules, ∀ domain function,
      (do (s.grounder (← s.restrict restrictions)).ground r) ≠
        .error (.unboundFunctionApplication domain function)) ∧
    ∀ accepted, s.restrict restrictions = .ok accepted → ∀ r ∈ rules, ∀ relation ∈ r.relations,
      ∀ b, (s.grounder accepted).Binds r relation b →
        ∀ term ∈ relation.terms, ∀ sort, r.TermSort s.sorts term sort →
          ∃ value, s.values.evaluate (b.replace term) = .ok value ∧ s.sorts.Has sort value := by
  have hrestrict := avoids_restrict s restrictions
  refine ⟨fun strategy domain function => ?_, fun r hr domain function => ?_,
    fun accepted haccepted r hr relation hrelation b hbinds term hterm sort hsort => ?_⟩
  · refine hrestrict.bind (fun accepted haccepted => ?_) _ ⟨domain, function, rfl⟩
    exact (hs.legal.checked hvalid haccepted).avoids_groundAll hparsed htyped strategy
  · refine hrestrict.bind (fun accepted haccepted => ?_) _ ⟨domain, function, rfl⟩
    exact (hs.legal.checked hvalid haccepted).avoids_ground (hparsed r hr) (htyped r hr)
  · have hlegal : Term.Legal term :=
      ((hparsed r hr).over relation hrelation).of_mem_terms (fun _ h => h.isOperator) term hterm
    exact (hs.legal.checked hvalid haccepted).exists_evaluate (hparsed r hr) hbinds hterm hlegal hsort

/-! ## A function from a sort to itself -/

/-- A session with one sort of one constant, which a function maps to itself. -/
def looped : Session Solver :=
  ((populated [("s", "a")]).after (.addSignature ⟨"s", "f", "s"⟩)).after (.setValue "a" "f" "a")

/-- A rule in which the function is applied twice. -/
def loopRule : Rule where
  kind := .assertion
  heads := [.predicate "p" ["x.f.f"]]
  body := []
  vars := [⟨"x", "s"⟩]

theorem parsed_loopRule : loopRule.Parsed :=
  Rule.parsed_of_unannotated "p (x.f.f)" ["x"] (fun _ => ⟨_, rfl⟩) [("x", "s")] rfl

theorem arises_looped : looped.Arises :=
  ((((Arises.start {} (ofOptions {}).backend).after (.addElement "s" "a")).after
    (.addSignature ⟨"s", "f", "s"⟩)).after (.setValue "a" "f" "a"))

theorem sorts_looped : looped.sorts =
    (((ofOptions {}).sorts.declared "s").extend "s" ["a"]).addSignature ⟨"s", "f", "s"⟩ := by
  have hpopulated : populated [("s", "a")] = { ofOptions {} with
      sorts := ((ofOptions {}).sorts.declared "s").extend "s" ["a"], stage := .input } :=
    after_addElement (by decide) (by decide) (by simp [get?_sorts_ofOptions])
      (by rw [SortTable.sizeOf, get?_sorts_ofOptions]; decide)
  show (exec (setValue "a" "f" "a") _).2.sorts = _
  rw [exec_setValue (by decide) (by decide) (by decide)]
  show (exec (addSignature ⟨"s", "f", "s"⟩) _).2.sorts = _
  rw [hpopulated]
  rfl

theorem get?_sorts_looped : ∃ roster, looped.sorts.get? "s" = some roster ∧ roster.toList = ["a"] := by
  have hget : looped.sorts.get? "s" =
      (((ofOptions {}).sorts.declared "s").extend "s" ["a"]).get? "s" := by
    rw [sorts_looped]
    rfl
  rw [hget, SortTable.get?_extend, SortTable.get?_declared, if_pos rfl, get?_sorts_ofOptions]
  exact ⟨_, rfl, Roster.toList_insert ∅ "a"⟩

theorem signatures_looped : looped.sorts.signatures.toList = [⟨"s", "f", "s"⟩] := by
  rw [sorts_looped]
  show (((ofOptions {}).sorts.declared "s").signatures.insert ⟨"s", "f", "s"⟩).toList = _
  rw [SortTable.signatures_declared]
  exact Roster.toList_insert ∅ _

theorem get?_values_looped : looped.values.get? "a" "f" = some "a" := by
  show (exec (setValue "a" "f" "a") _).2.values.get? "a" "f" = _
  rw [exec_setValue (by decide) (by decide) (by decide)]
  exact (ValueTable.get?_set _ _ _ _ _ _).trans (if_pos rfl)

theorem validateFunctions_looped : looped.validateFunctions = .ok () := by
  obtain ⟨roster, hroster, hlist⟩ := get?_sorts_looped
  refine Fallible.forM_eq_ok_iff.2 fun signature hsignature => ?_
  rw [signatures_looped, List.mem_singleton] at hsignature
  subst hsignature
  refine validateSignature_eq_ok_iff.2 ⟨roster, roster, hroster, hroster, fun constant hconstant => ?_⟩
  rw [hlist, List.mem_singleton] at hconstant
  subst hconstant
  exact ⟨"a", get?_values_looped, by simp [hlist]⟩

theorem termSort_loopRule : loopRule.TermSort looped.sorts "x.f.f" "s" := by
  have htyping : (⟨"s", "f", "s"⟩ : Signature) ∈ looped.sorts.signatures.toList := by
    rw [signatures_looped]
    exact List.mem_singleton.2 rfl
  exact ⟨"s", rfl, .cons htyping (.cons htyping (.nil "s"))⟩

/-- The rule is grounded with its sort restricted to its one constant. -/
theorem validated_grounding_safe_looped :
    (∀ strategy domain function,
      (do (looped.grounder (← looped.restrict [("s", ["a"])])).groundAll strategy [loopRule]) ≠
        .error (.unboundFunctionApplication domain function)) ∧
    looped.restrict [("s", ["a"])] = .ok [("s", ["a"])] ∧
    ∃ value, looped.values.evaluate (Bindings.replace [("x", "a")] "x.f.f") = .ok value ∧
      looped.sorts.Has "s" value := by
  obtain ⟨roster, hroster, hlist⟩ := get?_sorts_looped
  have hrestrict : looped.restrict [("s", ["a"])] = .ok [("s", ["a"])] := by
    have hnone : (["a"].find? fun constant => !roster.contains constant) = none := by
      simp [Roster.contains_iff, hlist]
    unfold restrict
    rw [hroster]
    dsimp only
    rw [hnone]
    rfl
  have hrelation : ∀ relation ∈ loopRule.relations, relation = .predicate "p" ["x.f.f"] := by
    intro relation hrelation
    exact List.mem_singleton.1 hrelation
  have htyped : ∀ r ∈ [loopRule], r.WellTyped looped.sorts := by
    intro r hr relation hmem term hterm
    rw [List.mem_singleton] at hr
    subst hr
    rw [hrelation relation hmem] at hterm
    rw [show term = "x.f.f" from List.mem_singleton.1 hterm]
    exact ⟨"s", termSort_loopRule⟩
  have hparsed : ∀ r ∈ [loopRule], r.Parsed := by
    intro r hr
    rw [List.mem_singleton.1 hr]
    exact parsed_loopRule
  have hbinds : (looped.grounder [("s", ["a"])]).Binds loopRule (.predicate "p" ["x.f.f"])
      [("x", "a")] := by
    constructor
    · intro name value hlookup
      cases List.mem_singleton.1 (mem_of_lookup hlookup)
      exact ⟨⟨"x", "s"⟩, List.mem_cons_self, rfl, ["a"], rfl, List.mem_cons_self⟩
    · intro term hterm hlookup
      rw [show term = "x.f.f" from List.mem_singleton.1 hterm] at hlookup
      cases hlookup
  obtain ⟨hall, _, hvalue⟩ := validated_grounding_safe arises_looped validateFunctions_looped
    hparsed htyped [("s", ["a"])]
  exact ⟨hall, hrestrict, hvalue _ hrestrict loopRule List.mem_cons_self _ List.mem_cons_self _ hbinds
    _ List.mem_cons_self _ termSort_loopRule⟩

end Session

end Groundwork
