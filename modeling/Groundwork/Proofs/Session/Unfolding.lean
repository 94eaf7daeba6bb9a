import Groundwork.Proofs.Session.Strategies

/-!
# Unfolding is all or nothing

A call that unfolds rules grounds all of them before it changes anything, so that a rule that
cannot be grounded leaves the session as it was.  If the call succeeds, each ground clause
has become a clause that says the same through the table of atoms, in the order of the rules,
and only ground atoms that were new have got new numbers (`unfold_all_or_nothing`).

The table is rewritten while clauses are translated.  What was met keeps its number, so all
clauses can be read off the table that the whole pass leaves (`exec_encodeAll_ok`).
-/

namespace Groundwork

/-- The signed ground atoms of a clause of a rule, each once: the head positive and first, and
the body negative unless the rule is a disjunction. -/
def GroundClause.spelled (kind : RuleKind) (c : GroundClause) : List (String × Bool) :=
  (c.head.toList.map (·, true) ++ c.body.map (·, kind == .disjunction)).eraseDups

theorem GroundClause.signedAtoms_eq (c : GroundClause) (kind : RuleKind) :
    c.signedAtoms kind = c.spelled kind :=
  distinct_eq_eraseDups _

/-- The ground clauses of rules, one rule after the other, as signed ground atoms. -/
def spelledOfAll (grounded : List Grounded) : List (List (String × Bool)) :=
  grounded.flatMap fun g => g.clauses.toList.map (GroundClause.spelled g.kind)

/-- The literal says, through the table, what the signed ground atom does. -/
def AtomTable.Says (t : AtomTable) (signed : String × Bool) (l : Literal) : Prop :=
  t.text? (Literal.atom l) = some signed.1 ∧ Literal.polarity l = signed.2

/-- The ground atoms of clauses that the table does not know, in order of first occurrence. -/
def AtomTable.unknown (t : AtomTable) (clauses : List (List (String × Bool))) : List String :=
  ((clauses.flatMap fun c => c.map Prod.fst).filter fun text => (t.get? text).isNone).eraseDups

/-- A call that grounds rules. -/
inductive Unfolding where
  | rule (rule : Rule)
  | restricted (rule : Rule) (restrictions : List (String × List String))
  | allRules

namespace Unfolding

variable {β : Type}

/-- The call on a session. -/
def run [Backend β] : Unfolding → SessionM β Nat
  | rule r => Session.unfoldRule r
  | restricted r restrictions => Session.unfoldRestricted r restrictions
  | allRules => Session.unfoldInstance

/-- The rules that are grounded. -/
def rules (s : Session β) : Unfolding → List Rule
  | rule r | restricted r _ => [r]
  | allRules => s.rules.toList

/-- The sorts that are restricted for this once. -/
def restrictions : Unfolding → List (String × List String)
  | restricted _ restrictions => restrictions
  | rule _ | allRules => []

/-- The ground clauses of each rule, by the strategy of the session if there are several. -/
def grounded (s : Session β) : Unfolding → Except GroundError (List Grounded)
  | rule r => s.pass (.unfoldRule r)
  | restricted r restrictions => s.pass (.unfoldRestricted r restrictions)
  | allRules => s.pass .unfoldInstance

end Unfolding

namespace Session

theorem signedOfAll_eq (grounded : List Grounded) :
    signedOfAll grounded = spelledOfAll grounded := by
  refine List.flatMap_congr fun g _ => List.map_congr_left fun c _ => ?_
  exact c.signedAtoms_eq g.kind

/-- The second session has the clauses of the first one, and then clauses that say the same as
the given ones.  Only their unknown ground atoms have got numbers, the next ones in order. -/
structure Appends (s t : Session Solver) (clauses : List (List (String × Bool))) : Prop where
  clauses_eq : ∃ added, t.clauses.toList = s.clauses.toList ++ added ∧
    List.Forall₂ (List.Forall₂ t.atoms.Says) clauses added
  get?_iff : ∀ text atom, t.atoms.get? text = some atom ↔
    s.atoms.get? text = some atom ∨
      ∃ i, (s.atoms.unknown clauses)[i]? = some text ∧ atom = s.atoms.largest + 1 + i

/-! ## Grounding leaves the session alone -/

theorem exec_run (s : Session Solver) (u : Unfolding) :
    exec u.run s = exec (unfoldGrounded (u.grounded s)) s := by
  cases u with
  | rule r => exact exec_unfoldRestricted s r []
  | restricted r restrictions => exact exec_unfoldRestricted s r restrictions
  | allRules => exact exec_unfoldInstance s

/-- Each rule is grounded as if it were alone, but for the order of its clauses. -/
theorem rearranges_of_grounded {s : Session Solver} {u : Unfolding} {grounded : List Grounded}
    (h : u.grounded s = .ok grounded) :
    ∃ restrictions, s.restrict u.restrictions = .ok restrictions ∧
      List.Forall₂ (fun r g => ∃ alone, (s.grounder restrictions).ground r = .ok alone ∧
        alone.Rearranges g) (u.rules s) grounded := by
  have hone : ∀ (r : Rule) (given : List (String × List String)),
      s.pass (.unfoldRestricted r given) = .ok grounded →
        ∃ restrictions, s.restrict given = .ok restrictions ∧
          List.Forall₂ (fun r g => ∃ alone, (s.grounder restrictions).ground r = .ok alone ∧
            alone.Rearranges g) [r] grounded := by
    intro r given h
    obtain ⟨restrictions, hrestrict, h⟩ := Fallible.bind_eq_ok_iff.1 h
    obtain ⟨alone, halone, h⟩ := Fallible.bind_eq_ok_iff.1 h
    cases h
    exact ⟨restrictions, hrestrict, .cons ⟨alone, halone, ⟨rfl, rfl, rfl, .refl _⟩⟩ .nil⟩
  cases u with
  | rule r => exact hone r [] h
  | restricted r given => exact hone r given h
  | allRules => exact ⟨[], rfl, Grounder.groundAll_rearranges h⟩

/-! ## The clauses of a pass -/

theorem fresh_mentionsOfAll (t : AtomTable) (grounded : List Grounded) :
    t.fresh (mentionsOfAll grounded) = t.unknown (spelledOfAll grounded) := by
  rw [AtomTable.fresh, AtomTable.unknown, texts_mentionsOfAll, signedOfAll_eq]

/-- Every clause is read off the table that the pass leaves. -/
theorem says_clausesOfAll {t : AtomTable} (hsound : t.Sound) {grounded : List Grounded}
    (hroom : (t.meetAll (mentionsOfAll grounded)).largest ≤ maxAtom) :
    List.Forall₂ (List.Forall₂ (t.meetAll (mentionsOfAll grounded)).Says) (spelledOfAll grounded)
      (clausesOfAll (t.meetAll (mentionsOfAll grounded)) grounded) := by
  rw [clausesOfAll, ← signedOfAll_eq, List.forall₂_map_right_iff, List.forall₂_same]
  intro c hc
  rw [List.forall₂_map_right_iff, List.forall₂_same]
  intro signed hsigned
  exact (hsound.meetAll _).literalOf hroom (known_of_mem_signedOfAll hc hsigned t)

theorem Coherent.exec_commit_appends {s : Session Solver} (h : s.Coherent Solver.Holds)
    {grounded : List Grounded}
    (hroom : (s.atoms.meetAll (mentionsOfAll grounded)).largest ≤ maxAtom) :
    ∃ t, exec (Session.commit grounded) s = (.ok (spelledOfAll grounded).length, t) ∧
      s.Appends t (spelledOfAll grounded) := by
  obtain ⟨t, hcommit, hatoms, hclauses, _⟩ :=
    h.exec_commit Solver.accepts Solver.follows hroom
  refine ⟨t, ?_, ⟨_, hclauses, ?_⟩, fun text atom => ?_⟩
  · rw [hcommit, signedOfAll_eq]
  · rw [hatoms]
    exact says_clausesOfAll h.sound hroom
  · rw [hatoms, ← fresh_mentionsOfAll]
    exact AtomTable.get?_meetAll_eq_some_iff _ _ _ _

/-- Unfolding is all or nothing, and faithful.  Only when the numbers of atoms run out is
something left behind by a call that fails. -/
theorem unfold_all_or_nothing (s : Session Solver) (hs : Reached s) (u : Unfolding) :
    (∀ e t, exec u.run s = (.error e, t) → e ≠ .ground .atomsExhausted → t = s) ∧
    ∀ n t, exec u.run s = (.ok n, t) → ∃ grounded restrictions,
      u.grounded s = .ok grounded ∧
      s.restrict u.restrictions = .ok restrictions ∧
      List.Forall₂ (fun r g => ∃ alone, (s.grounder restrictions).ground r = .ok alone ∧
        alone.Rearranges g) (u.rules s) grounded ∧
      n = (spelledOfAll grounded).length ∧
      s.Appends t (spelledOfAll grounded) := by
  have hcoherent := hs.coherent
  rw [exec_run]
  cases hgrounded : u.grounded s with
  | error e =>
    have hfails : exec (unfoldGrounded (.error e)) s = (.error (.ground e), s) := rfl
    rw [hfails]
    refine ⟨fun e t h _ => ?_, fun n t h => ?_⟩
    · cases h
      rfl
    · cases h
  | ok grounded =>
    rw [exec_unfoldGrounded_ok]
    by_cases hroom : (s.atoms.meetAll (mentionsOfAll grounded)).largest ≤ maxAtom
    · obtain ⟨later, hcommit, happends⟩ :=
        (hcoherent.unfolded grounded.length).exec_commit_appends hroom
      rw [hcommit]
      refine ⟨fun e t h _ => ?_, fun n t h => ?_⟩
      · cases h
      · cases h
        obtain ⟨restrictions, hrestrict, hrules⟩ := rearranges_of_grounded hgrounded
        exact ⟨grounded, restrictions, rfl, hrestrict, hrules, rfl,
          happends.clauses_eq, happends.get?_iff⟩
    -- The bindings have been counted by then, so this is the one error that leaves a trace.
    · obtain ⟨_, _, _, hcommit, _⟩ := (hcoherent.unfolded grounded.length).exec_commit_error hroom
      rw [hcommit]
      refine ⟨fun e t h hne => ?_, fun n t h => ?_⟩
      · cases h
        exact absurd rfl hne
      · cases h

/-- The clauses of the two rules, each for all pairs of constants. -/
def choiceSpelled : List (List (String × Bool)) :=
  [("a", "c"), ("a", "d"), ("b", "c"), ("b", "d")].map (fun (x, y) =>
    [(groundAtom ["p", x, y], true), (groundAtom ["q", y, "a"], true),
      (groundAtom ["q", y, "b"], true)]) ++
  [("c", "a"), ("c", "b"), ("d", "a"), ("d", "b")].map fun (y, x) =>
    [(groundAtom ["q", y, "a"], false), (groundAtom ["q", y, "b"], false),
      (groundAtom ["p", x, y], false)]

/-- The clauses share their ground atoms.  A restriction of a sort that is not there fails. -/
theorem unfold_all_or_nothing_choice :
    (exec (Unfolding.restricted eitherRule [("u", [])]).run choice).1 =
        .error (.ground (.unknownSort "u")) ∧
      (exec (Unfolding.restricted eitherRule [("u", [])]).run choice).2 = choice ∧
      (exec Unfolding.allRules.run choice).1 = .ok 8 ∧
      choice.Appends (exec Unfolding.allRules.run choice).2 choiceSpelled := by
  have hsort : choice.sorts.get? "u" = none := by
    rw [choice_eq]
    exact Option.map_eq_none_iff.1 ((populated_corners.get?_eq "u").trans (if_neg (by decide)))
  have hrestrict : choice.restrict [("u", [])] = .error (.unknownSort "u") := by
    rw [restrict, hsort]
  have hfails : (exec (Unfolding.restricted eitherRule [("u", [])]).run choice).1 =
      .error (.ground (.unknownSort "u")) := by
    rw [exec_run, Unfolding.grounded, pass, hrestrict]
    rfl
  have hungrouped : choice.after (.setOption (.groupRules false)) = choice := by
    rw [after_groupRules_choice, choice_eq]
  have hgrounded : Unfolding.allRules.grounded choice = .ok choiceGrounded := by
    rw [← pass_choice, hungrouped]
    rfl
  have hcount : (exec Unfolding.allRules.run choice).1 = .ok 8 := by
    rw [← unfoldInstance_choice, hungrouped]
    rfl
  refine ⟨hfails, ?_, hcount, ?_⟩
  · exact (unfold_all_or_nothing choice reached_choice _).1 _ _ (Prod.ext hfails rfl) (by decide)
  · obtain ⟨grounded, _, hsame, _, _, _, happends⟩ :=
      (unfold_all_or_nothing choice reached_choice .allRules).2 8 _ (Prod.ext hcount rfl)
    rw [hgrounded, Except.ok.injEq] at hsame
    rwa [← hsame] at happends

end Session

end Groundwork
