import Groundwork.Proofs.Grounding.Meeting
import Groundwork.Proofs.Relation.Fitting
import Groundwork.Proofs.Session.UniqueNames

/-!
# Where atoms and their predicates come from

In a session that is only given rules, and the assumption that names are unique, every ground atom
is that of a fact.  Its predicate is one of the rule that first named it, though not always that
of the fact: among the predicates of the rule it is looked for by the text alone.

* `groundingsOf`: the rules that were grounded, each with the tables and limits of its time;
* `Explained`: what a table records is explained by what these rules met;
* `Explained.after`, `explained_run`: the step and the run.
-/

namespace Groundwork

/-- The operation hands over nothing but what rules are grounded to, and that names are unique. -/
def Operation.OfRules : Operation → Prop
  | .addGroundClause _ _ | .assertAtom _ _ => False
  | _ => True

/-- Facts that explain a mention: its ground atom is that of a fact, whose name is among those that
come with it, and these, if there are any, are the predicates of a rule that met the fact. -/
def Mention.Stems (m : Mention) (G : List (Grounder × Rule)) : Prop :=
  ∃ fact : Relation, fact.Ground ∧ fact.groundAtom = m.text ∧
    (fact.isComparison = false → fact.name ∈ m.predicates) ∧
    (m.predicates ≠ [] → ∃ gr ∈ G, m.predicates = gr.2.predicates ∧ gr.1.Meets gr.2 fact)

theorem Mention.Stems.mono {m : Mention} {G G' : List (Grounder × Rule)} (h : m.Stems G)
    (hG : G ⊆ G') : m.Stems G' := by
  obtain ⟨fact, hfact, htext, hname, hstems⟩ := h
  refine ⟨fact, hfact, htext, hname, fun hne => ?_⟩
  obtain ⟨gr, hgr, hrest⟩ := hstems hne
  exact ⟨gr, hG hgr, hrest⟩

namespace AtomTable

variable {t : AtomTable} {G : List (Grounder × Rule)}

/-- The rules explain what is recorded. -/
structure Explained (G : List (Grounder × Rule)) (t : AtomTable) : Prop where
  /-- A ground atom is that of a fact, and has a predicate unless it is a comparison. -/
  stated : ∀ text, (t.get? text).isSome → ∃ fact : Relation, fact.Ground ∧ fact.groundAtom = text ∧
    (fact.isComparison = false → (t.predicateOf text).isSome)
  /-- A predicate is the first that fits among those of a rule that met a fact with this ground
  atom. -/
  named : ∀ text predicate, t.predicateOf text = some predicate →
    ∃ gr ∈ G, gr.2.predicates.find? (fits text) = some predicate ∧
      ∃ fact, gr.1.Meets gr.2 fact ∧ fact.groundAtom = text

theorem explained_empty : Explained G {} := by
  have hnone : ∀ text, ({} : AtomTable).get? text = none := fun _ => Std.HashMap.getElem?_empty
  refine ⟨fun text hknown => ?_, fun text predicate h => ?_⟩
  · rw [hnone] at hknown
    cases hknown
  · rw [predicateOf_eq_none (hnone text)] at h
    cases h

theorem Explained.mono {G' : List (Grounder × Rule)} (h : Explained G t) (hG : G ⊆ G') :
    Explained G' t := by
  refine ⟨h.stated, fun text predicate hpredicate => ?_⟩
  obtain ⟨gr, hgr, hrest⟩ := h.named text predicate hpredicate
  exact ⟨gr, hG hgr, hrest⟩

/-- The name of a fact fits, so some predicate of its rule is found. -/
theorem isSome_firstFitting {mentions : List Mention} {m : Mention} (hm : m ∈ mentions)
    {fact : Relation} (hfact : fact.Ground) (htext : fact.groundAtom = m.text)
    (hcomparison : fact.isComparison = false) (hname : fact.name ∈ m.predicates) :
    (firstFitting mentions m.text).isSome := by
  refine List.findSome?_isSome_iff.2 ⟨m, hm, ?_⟩
  rw [if_pos rfl, List.find?_isSome]
  exact ⟨fact.name, hname, htext ▸ hfact.fits_name hcomparison⟩

theorem Explained.meetAll (h : Explained G t) (hsound : t.Sound) {mentions : List Mention}
    (hmentions : ∀ m ∈ mentions, m.Stems G) : Explained G (t.meetAll mentions) := by
  refine ⟨fun text hknown => ?_, fun text predicate hpredicate => ?_⟩
  · simp only [predicateOf_meetAll hsound, Option.isSome_or, Bool.or_eq_true]
    rcases (known_meetAll _ _ _).1 hknown with hold | hnew
    · obtain ⟨fact, hfact, htext, hsome⟩ := h.stated text hold
      exact ⟨fact, hfact, htext, fun hcomparison => Or.inl (hsome hcomparison)⟩
    · obtain ⟨m, hm, rfl⟩ := List.mem_map.1 hnew
      obtain ⟨fact, hfact, htext, hname, _⟩ := hmentions m hm
      exact ⟨fact, hfact, htext, fun hcomparison =>
        Or.inr (isSome_firstFitting hm hfact htext hcomparison (hname hcomparison))⟩
  · rw [predicateOf_meetAll hsound, Option.or_eq_some_iff] at hpredicate
    rcases hpredicate with hold | ⟨_, hnew⟩
    · exact h.named text predicate hold
    · obtain ⟨m, hm, hfound⟩ := List.exists_of_findSome?_eq_some hnew
      split at hfound
      · next htext =>
        obtain ⟨fact, _, hatom, _, hstems⟩ := hmentions m hm
        obtain ⟨gr, hgr, heq, hmeets⟩ :=
          hstems (List.ne_nil_of_mem (List.mem_of_find?_eq_some hfound))
        exact ⟨gr, hgr, heq ▸ hfound, fact, hmeets, hatom.trans htext.symm⟩
      · cases hfound

theorem Explained.rollback (h : Explained G t) (hsound : t.Sound) (bound : Nat) :
    Explained G (t.rollback bound) := by
  refine ⟨fun text hknown => ?_, fun text predicate hpredicate => ?_⟩
  · rw [predicateOf_rollback hsound hknown]
    obtain ⟨atom, hget⟩ := Option.isSome_iff_exists.1 hknown
    exact h.stated text (Option.isSome_iff_exists.2 ⟨atom, ((get?_rollback_iff hsound).1 hget).1⟩)
  · rw [predicateOf_rollback hsound (known_of_predicateOf hpredicate)] at hpredicate
    exact h.named text predicate hpredicate

end AtomTable

/-! ## Rules that are grounded -/

namespace Grounder

variable {g : Grounder} {r : Rule}

/-- What a parsed rule is grounded to mentions what it meets, with its predicates. -/
theorem stems_of_mem_mentionsOf (hg : g.Legal) (hr : r.Parsed) {alone result : Grounded}
    (halone : g.ground r = .ok alone) (hrearranges : alone.Rearranges result) {m : Mention}
    (hm : m ∈ AtomTable.mentionsOf result) : m.Stems [(g, r)] := by
  obtain ⟨clause, hclause, hm⟩ := List.mem_flatMap.1 hm
  obtain ⟨signed, hsigned, rfl⟩ := List.mem_map.1 hm
  rw [hrearranges.clauses_perm.mem_iff] at hclause
  obtain ⟨fact, hmeets, htext⟩ := exists_met_of_mem_clauses halone hclause hsigned
  have hpredicates : result.predicates = r.predicates :=
    hrearranges.predicates_eq.trans (predicates_of_ground halone)
  refine ⟨fact, hmeets.ground hg hr, htext, fun hcomparison => ?_, fun _ => ?_⟩
  · rw [hpredicates]
    exact hmeets.yields.name_mem hg hr hcomparison
  · exact ⟨(g, r), List.mem_singleton.2 rfl, hpredicates, hmeets⟩

end Grounder

namespace Session

open AtomTable

section Groundings

variable {β : Type}

/-- The rules that an operation is to ground, each with the tables and limits for it. -/
def attempts (s : Session β) : Operation → List (Grounder × Rule)
  | .unfoldRule rule => [(s.grounder [], rule)]
  | .unfoldRestricted rule restrictions =>
    (s.restrict restrictions).toOption.toList.map fun accepted => (s.grounder accepted, rule)
  | .unfoldInstance => s.rules.toList.map fun rule => (s.grounder [], rule)
  | _ => []

/-- The rules that an operation grounds, which are none if one of them cannot be grounded. -/
def groundings (s : Session β) (op : Operation) : List (Grounder × Rule) :=
  if (s.pass op).toOption.isSome then s.attempts op else []

/-- The rules that are grounded in a run of operations. -/
def groundingsOf [Backend β] (s : Session β) : List Operation → List (Grounder × Rule)
  | [] => []
  | op :: ops => s.groundings op ++ (s.after op).groundingsOf ops

theorem groundings_eq {s : Session β} {op : Operation} {grounded : List Grounded}
    (h : s.pass op = .ok grounded) : s.groundings op = s.attempts op := by
  rw [groundings, h]
  rfl

/-- Rules are grounded over legal symbols. -/
theorem Legal.of_mem_attempts {s : Session β} (h : s.Legal) {op : Operation} {gr : Grounder × Rule}
    (hgr : gr ∈ s.attempts op) : gr.1.Legal := by
  cases op with
  | unfoldRule rule =>
    rw [List.mem_singleton.1 hgr]
    exact h.grounder (show s.restrict [] = .ok [] from rfl)
  | unfoldRestricted rule restrictions =>
    obtain ⟨accepted, haccepted, rfl⟩ := List.mem_map.1 hgr
    rw [Option.mem_toList] at haccepted
    cases hrestrict : s.restrict restrictions with
    | error e =>
      rw [hrestrict] at haccepted
      cases haccepted
    | ok found =>
      rw [hrestrict] at haccepted
      cases haccepted
      exact h.grounder hrestrict
  | unfoldInstance =>
    obtain ⟨rule, _, rfl⟩ := List.mem_map.1 hgr
    exact h.grounder (show s.restrict [] = .ok [] from rfl)
  | _ => cases hgr

/-- What an operation hands over was a rule, but for the uniqueness of names. -/
theorem exists_alone_of_mem_pass {s : Session β} {op : Operation} (hop : op.OfRules)
    {grounded : List Grounded} (h : s.pass op = .ok grounded) {result : Grounded}
    (hresult : result ∈ grounded) :
    (∃ gr ∈ s.attempts op, ∃ alone, gr.1.ground gr.2 = .ok alone ∧ alone.Rearranges result) ∨
      result = uniqueNames s.sorts := by
  have hone : ∀ {g : Grounder} {rule : Rule}, (do return [← g.ground rule]) = Except.ok grounded →
      ∃ alone, g.ground rule = .ok alone ∧ alone.Rearranges result := by
    intro g rule hgrounded
    obtain ⟨alone, halone, hpure⟩ := Fallible.bind_eq_ok_iff.1 hgrounded
    rw [Fallible.pure_eq_ok_iff.1 hpure, List.mem_singleton] at hresult
    rw [hresult]
    exact ⟨alone, halone, rfl, rfl, rfl, .refl _⟩
  cases op with
  | unfoldRule rule => exact Or.inl ⟨_, List.mem_singleton.2 rfl, hone h⟩
  | unfoldRestricted rule restrictions =>
    obtain ⟨accepted, haccepted, hground⟩ := Fallible.bind_eq_ok_iff.1 h
    refine Or.inl ⟨(s.grounder accepted, rule), List.mem_map.2 ⟨accepted, ?_, rfl⟩, hone hground⟩
    rw [haccepted]
    exact List.mem_singleton.2 rfl
  | unfoldInstance =>
    obtain ⟨rule, hrule, halone⟩ := Grounder.exists_alone_of_mem_groundAll h hresult
    exact Or.inl ⟨_, List.mem_map_of_mem hrule, halone⟩
  | assumeUniqueNames =>
    cases h
    exact Or.inr (List.mem_singleton.1 hresult)
  | addGroundClause kind clause => exact hop.elim
  | assertAtom text polarity => exact hop.elim
  | _ =>
    cases h
    cases hresult

/-- The comparisons of constants are facts, which no rule has to have met. -/
theorem Legal.stems_of_mem_uniqueNames {s : Session β} (h : s.Legal) (G : List (Grounder × Rule))
    {m : Mention} (hm : m ∈ mentionsOf (uniqueNames s.sorts)) : m.Stems G := by
  have hpredicates : m.predicates = [] := by
    obtain ⟨_, _, hm⟩ := List.mem_flatMap.1 hm
    obtain ⟨_, _, rfl⟩ := List.mem_map.1 hm
    rfl
  have htext := List.mem_map_of_mem (f := Mention.text) hm
  rw [texts_mentionsOf, signed_uniqueNames] at htext
  simp only [List.flatMap_map, List.map_cons, List.map_nil, List.flatMap_singleton'] at htext
  obtain ⟨sort, elements, helements, left, hleft, right, hright, heq⟩ :=
    mem_uniqueNameAtoms_iff.1 htext
  have hlegal : ∀ constant ∈ elements.toList, legalToken constant = true := fun constant hmem =>
    h.sorts constant ((SortTable.isConstant_iff _ _).2 ⟨sort, elements, helements, hmem⟩)
  refine ⟨.comparison left (left == right) right,
    .comparison _ (hlegal left hleft) (hlegal right hright), heq, fun hcomparison => ?_, ?_⟩
  · rw [Relation.isComparison_comparison] at hcomparison
    cases hcomparison
  · exact fun hne => absurd hpredicates hne

/-- So all that an operation hands over is explained by the rules that it grounds. -/
theorem Legal.stems_of_mem_pass {s : Session β} (hlegal : s.Legal) {op : Operation}
    (hop : op.OfRules) (hparsed : ∀ gr ∈ s.groundings op, gr.2.Parsed) {grounded : List Grounded}
    (hpass : s.pass op = .ok grounded) :
    ∀ m ∈ mentionsOfAll grounded, m.Stems (s.groundings op) := by
  intro m hm
  rw [groundings_eq hpass] at hparsed ⊢
  obtain ⟨result, hresult, hm⟩ := List.mem_flatMap.1 hm
  rcases exists_alone_of_mem_pass hop hpass hresult with ⟨gr, hgr, alone, halone, hrearranges⟩ | rfl
  · exact (Grounder.stems_of_mem_mentionsOf (hlegal.of_mem_attempts hgr) (hparsed gr hgr) halone
      hrearranges hm).mono (by simpa using hgr)
  · exact hlegal.stems_of_mem_uniqueNames _ hm

end Groundings

/-! ## All operations -/

section Run

variable {β : Type} [Backend β] {holds : β → List Clause → Prop} {s : Session β}
  {G : List (Grounder × Rule)}

/-- If the numbers run out, what was met on the way may still have found its predicate. -/
theorem Coherent.explained_commit (hfollows : Backend.Follows holds) (h : s.Coherent holds)
    (hexplained : Explained G s.atoms) {grounded : List Grounded}
    (hstems : ∀ m ∈ mentionsOfAll grounded, m.Stems G) :
    Explained G (exec (Session.commit grounded) s).2.atoms := by
  by_cases hroom : (s.atoms.meetAll (mentionsOfAll grounded)).largest ≤ maxAtom
  · rw [(h.commit_of_room hfollows hroom).2]
    exact hexplained.meetAll h.sound hstems
  · obtain ⟨met, counters, hbegins, hcommit, _⟩ := h.exec_commit_error hroom
    rw [hcommit]
    have hmet : Explained G (s.atoms.meetAll met) :=
      hexplained.meetAll h.sound fun m hm => hstems m (hbegins.subset hm)
    exact hmet.rollback (h.sound.meetAll met) _

theorem Coherent.explained_after (hfollows : Backend.Follows holds) (h : s.Coherent holds)
    (hlegal : s.Legal) {op : Operation} (hop : op.OfRules)
    (hparsed : ∀ gr ∈ s.groundings op, gr.2.Parsed) (hexplained : Explained G s.atoms) :
    Explained (G ++ s.groundings op) (s.after op).atoms := by
  have hexplained := hexplained.mono (List.subset_append_left G (s.groundings op))
  cases s.acts_after op with
  | leaves hsame =>
    rw [hsame.atoms_eq]
    exact hexplained
  | @commits t hsame grounded hpass heq =>
    rw [heq]
    rw [← hsame.atoms_eq] at hexplained
    refine (ofInstance_coherent holds _ _ hsame h).explained_commit hfollows hexplained fun m hm => ?_
    exact (hlegal.stems_of_mem_pass hop hparsed hpass m hm).mono (List.subset_append_right _ _)
  | asserts text polarity heq _ =>
    rw [heq] at hop
    exact hop.elim
  | decides assumptions heq =>
    rw [heq, show (exec (solveWith assumptions) s).2.atoms = s.atoms from
      (s.after_solveWith assumptions).1]
    exact hexplained
  | resets heq =>
    rw [heq]
    exact explained_empty

/-- The induction is on the operations, from the first on. -/
theorem Coherent.explained_run (hfollows : Backend.Follows holds) (h : s.Coherent holds)
    (hlegal : s.Legal) {ops : List Operation} (hops : ∀ op ∈ ops, op.OfRules)
    (hparsed : ∀ gr ∈ s.groundingsOf ops, gr.2.Parsed) (hexplained : Explained G s.atoms) :
    Explained (G ++ s.groundingsOf ops) (ops.foldl Session.after s).atoms := by
  induction ops generalizing s G with
  | nil => exact hexplained.mono (List.subset_append_left _ _)
  | cons op ops ih =>
    obtain ⟨hop, hops⟩ := List.forall_mem_cons.1 hops
    obtain ⟨hfirst, hrest⟩ := List.forall_mem_append.1 hparsed
    have hnext := ih (h.after hfollows op) (hlegal.after op) hops hrest
      (h.explained_after hfollows hlegal hop hfirst hexplained)
    rwa [List.append_assoc] at hnext

/-- All these rules are grounded over legal symbols. -/
theorem Legal.of_mem_groundingsOf (h : s.Legal) {ops : List Operation} {gr : Grounder × Rule}
    (hgr : gr ∈ s.groundingsOf ops) : gr.1.Legal := by
  induction ops generalizing s with
  | nil => cases hgr
  | cons op ops ih =>
    rcases List.mem_append.1 hgr with hgr | hgr
    · unfold groundings at hgr
      split at hgr
      · exact h.of_mem_attempts hgr
      · cases hgr
    · exact ih (h.after op) hgr

end Run

end Session

end Groundwork
