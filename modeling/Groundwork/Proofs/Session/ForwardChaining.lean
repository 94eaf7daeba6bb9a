import Groundwork.Proofs.Session.Growing
import Groundwork.Proofs.Session.MinimalModel
import Groundwork.Proofs.Solver.Least

/-!
# Decisions by forward chaining

A rule that is no disjunction gives clauses with one positive ground atom at most.  A session
that has such clauses alone is decided by forward chaining: some ground atoms have to be true,
and these are all that are true in the model.

* `HornReached` says of a session where its clauses come from, and `HornReached.horn` is what
  holds of the clauses then;
* `Derived.holds`: derived ground atoms are true in every model;
* `models_derived`: unless they refute something, they make up a model;
* `solveWith_forward_chains`: as the model of a decision is minimal, it is that one.
-/

namespace Groundwork

/-! ## Horn clauses -/

/-- One of the signed ground atoms is asserted at most. -/
def HornSigned (c : List (String × Bool)) : Prop :=
  ∀ a ∈ c, ∀ a' ∈ c, a.2 = true → a'.2 = true → a = a'

theorem hornSigned_singleton (signed : String × Bool) : HornSigned [signed] := by
  intro a ha a' ha' _ _
  rw [List.mem_singleton.1 ha, List.mem_singleton.1 ha']

/-- Unless the body is one of alternatives, only the head is asserted. -/
theorem hornSigned_signedAtoms {kind : RuleKind} (hkind : kind ≠ .disjunction)
    (c : GroundClause) : HornSigned (c.signedAtoms kind) := by
  have hbody : (kind == .disjunction) = false := by simpa using hkind
  have hhead : ∀ a ∈ c.signedAtoms kind, a.2 = true → c.head.map (·, true) = some a := by
    intro a ha htrue
    unfold GroundClause.signedAtoms at ha
    rw [distinct_eq_eraseDups, List.mem_eraseDups, hbody, List.mem_append] at ha
    rcases ha with ha | ha
    · cases hsome : c.head with
      | none => simp [hsome] at ha
      | some head => simpa [hsome, eq_comm] using ha
    · obtain ⟨atom, _, rfl⟩ := List.mem_map.1 ha
      cases htrue
  intro a ha a' ha' htrue htrue'
  have hsame := hhead a ha htrue
  rw [hhead a' ha' htrue', Option.some.injEq] at hsame
  exact hsame.symm

theorem Grounded.hornSigned {grounded : Grounded}
    (h : grounded.kind = .disjunction → grounded.clauses = #[]) :
    ∀ c ∈ grounded.signed, HornSigned c := by
  intro c hc
  obtain ⟨clause, hclause, rfl⟩ := List.mem_map.1 hc
  apply hornSigned_signedAtoms
  intro hkind
  rw [h hkind] at hclause
  cases hclause

theorem AtomTable.Sound.horn_literalOf {t : AtomTable} (h : t.Sound) (hle : t.largest ≤ maxAtom)
    {c : List (String × Bool)} (hknown : ∀ signed ∈ c, (t.get? signed.1).isSome)
    (hc : HornSigned c) : Clause.Horn (c.map t.literalOf) := by
  intro l hl l' hl' htrue htrue'
  obtain ⟨a, ha, rfl⟩ := List.mem_map.1 hl
  obtain ⟨a', ha', rfl⟩ := List.mem_map.1 hl'
  rw [(h.literalOf hle (hknown a ha)).2] at htrue
  rw [(h.literalOf hle (hknown a' ha')).2] at htrue'
  rw [hc a ha a' ha' htrue htrue']

namespace Session

section Provenance

variable {β : Type}

/-- The operation adds no clause of a disjunction. -/
def FreeOfDisjunctions (s : Session β) : Operation → Prop
  | .unfoldRule rule | .unfoldRestricted rule _ => rule.kind ≠ .disjunction
  | .unfoldInstance => ∀ r ∈ s.rules.toList, r.kind = .disjunction →
      ∀ grounded, (s.grounder []).ground r = .ok grounded → grounded.clauses = #[]
  | .addGroundClause kind _ => kind ≠ .disjunction
  | _ => True

/-- Rules that add no clause of a disjunction alone add none together. -/
theorem clauses_eq_of_groundAll {g : Grounder} {strategy : Strategy} {rules : List Rule}
    {results : List Grounded} (h : g.groundAll strategy rules = .ok results)
    (hrules : ∀ r ∈ rules, r.kind = .disjunction →
      ∀ grounded, g.ground r = .ok grounded → grounded.clauses = #[]) :
    ∀ grounded ∈ results, grounded.kind = .disjunction → grounded.clauses = #[] := by
  intro grounded hgrounded hkind
  obtain ⟨r, hr, alone, halone, hrearranges⟩ := Grounder.exists_alone_of_mem_groundAll h hgrounded
  rw [hrearranges.kind_eq, Grounder.kind_of_ground halone] at hkind
  have hperm := hrearranges.clauses_perm
  rw [hrules r hr hkind alone halone] at hperm
  exact Array.toList_eq_nil_iff.1 hperm.eq_nil

theorem clauses_eq_of_pass {s : Session β} {op : Operation} (hop : s.FreeOfDisjunctions op)
    {results : List Grounded} (h : s.pass op = .ok results) :
    ∀ grounded ∈ results, grounded.kind = .disjunction → grounded.clauses = #[] := by
  have hone : ∀ {g : Grounder} {rule : Rule} {results : List Grounded}, rule.kind ≠ .disjunction →
      (do return [← g.ground rule]) = Except.ok results →
      ∀ grounded ∈ results, grounded.kind = .disjunction → grounded.clauses = #[] := by
    intro g rule results hrule hresults grounded hgrounded hkind
    obtain ⟨alone, halone, hpure⟩ := Fallible.bind_eq_ok_iff.1 hresults
    rw [Fallible.pure_eq_ok_iff.1 hpure, List.mem_singleton] at hgrounded
    rw [hgrounded, Grounder.kind_of_ground halone] at hkind
    exact absurd hkind hrule
  have hnone : (Except.ok [] : Except GroundError (List Grounded)) = .ok results →
      ∀ grounded ∈ results, grounded.kind = .disjunction → grounded.clauses = #[] := by
    intro hresults
    cases hresults
    simp
  cases op with
  | unfoldRule rule =>
    obtain ⟨_, _, hrest⟩ := Fallible.bind_eq_ok_iff.1 h
    exact hone hop hrest
  | unfoldRestricted rule restrictions =>
    obtain ⟨_, _, hrest⟩ := Fallible.bind_eq_ok_iff.1 h
    exact hone hop hrest
  | unfoldInstance =>
    exact clauses_eq_of_groundAll h hop
  | assumeUniqueNames =>
    cases h
    intro grounded hgrounded hkind
    rw [List.mem_singleton.1 hgrounded] at hkind
    cases hkind
  | addGroundClause kind clause =>
    cases h
    intro grounded hgrounded hkind
    rw [List.mem_singleton.1 hgrounded] at hkind
    exact absurd hkind hop
  | _ => exact hnone h

/-- Whatever such an operation adds, it asserts one ground atom of a clause at most. -/
theorem hornSigned_additions {s : Session β} {op : Operation} (hop : s.FreeOfDisjunctions op) :
    ∀ c ∈ s.additions op, HornSigned c := by
  unfold additions
  split
  · intro c hc
    rw [List.mem_singleton.1 hc]
    exact hornSigned_singleton _
  · intro c hc
    cases hpass : s.pass op with
    | error e =>
      rw [hpass] at hc
      cases hc
    | ok results =>
      rw [hpass] at hc
      obtain ⟨grounded, hgrounded, hc⟩ := List.mem_flatMap.1 hc
      exact Grounded.hornSigned (clauses_eq_of_pass hop hpass grounded hgrounded) c hc

/-- The sessions all of whose clauses were added by operations without disjunctions. -/
inductive HornReached : Session Solver → Prop where
  | start {s : Session Solver} (h : Reached s) (hempty : s.clauses = #[]) : HornReached s
  | after {s : Session Solver} (h : HornReached s) (op : Operation)
      (hop : (s.after op).clauses = s.clauses ∨ s.FreeOfDisjunctions op) : HornReached (s.after op)

theorem HornReached.reached {s : Session Solver} (h : HornReached s) : Reached s := by
  induction h with
  | start h _ => exact h
  | after _ op _ ih => exact ih.after op

theorem HornReached.horn {s : Session Solver} (h : HornReached s) :
    ∀ c ∈ s.clauses.toList, Clause.Horn c := by
  induction h with
  | start _ hempty => simp [hempty]
  | @after s h op hop ih =>
    rcases hop with hsame | hfree
    · rwa [hsame]
    rcases op.isInput_or with hinput | ⟨assumptions, rfl⟩ | rfl
    · have hcoherent := h.reached.coherent
      obtain ⟨added, hadded, hgrows⟩ :=
        hcoherent.grows_after Solver.accepts Solver.follows hinput
      have hkept := hcoherent.after Solver.follows op
      intro c hc
      rw [hgrows.clauses_eq, List.mem_append] at hc
      rcases hc with hc | hc
      · exact ih c hc
      · obtain ⟨signed, hsigned, rfl⟩ := List.mem_map.1 hc
        apply hkept.sound.horn_literalOf hkept.largest_le (hgrows.known signed hsigned)
        rcases hadded with rfl | rfl
        · cases hsigned
        · exact hornSigned_additions hfree signed hsigned
    · rwa [(s.after_solveWith assumptions).2]
    · show ∀ c ∈ ([] : List Clause), Clause.Horn c
      simp

end Provenance

/-! ## Derived ground atoms -/

variable {β : Type}

/-- The ground atoms that have to be true: those that are assumed to be, and the positive one
of each clause whose negative ones all have to be true. -/
inductive Derived (s : Session β) (assumptions : List String) : String → Prop where
  | assumed {a : String} (ha : a ∈ assumptions) (htrue : (readAssumption a).2 = true) :
      Derived s assumptions (readAssumption a).1
  | chained {c : Clause} {text : String} (hc : c ∈ s.clauses.toList)
      (hhead : s.atoms.Occurs c text true)
      (hbody : ∀ other, s.atoms.Occurs c other false → Derived s assumptions other) :
      Derived s assumptions text

/-- What forward chaining has to leave alone for a model: some ground atom of each clause
without a positive one, and those that are assumed to be false. -/
structure Unrefuted (s : Session β) (assumptions : List String) : Prop where
  clauses : ¬ ∃ c ∈ s.clauses.toList, (∀ text, ¬ s.atoms.Occurs c text true) ∧
    ∀ text, s.atoms.Occurs c text false → s.Derived assumptions text
  assumptions : ¬ ∃ a ∈ assumptions, (readAssumption a).2 = false ∧
    s.Derived assumptions (readAssumption a).1

section Chaining

variable {s : Session β} {assumptions : List String}

/-- Derived ground atoms are true in each model.  The induction is on the derivation, and a
clause whose negative ground atoms are true has to hold by its only positive one. -/
theorem Derived.holds (hhorn : ∀ c ∈ s.clauses.toList, Clause.Horn c) {v : String → Bool}
    (hmodels : s.Models v) (hassumed : Assumed v assumptions) {text : String}
    (h : s.Derived assumptions text) : v text = true := by
  induction h with
  | assumed ha htrue => rw [hassumed _ ha, htrue]
  | @chained c text hc hhead _ ih =>
    obtain ⟨l, hl, htext, hpositive⟩ := hhead
    obtain ⟨l', hl', text', htext', hvalue⟩ := hmodels c hc
    cases hpolarity : Literal.polarity l' with
    | true =>
      rw [hhorn c hc l' hl' l hl hpolarity hpositive, htext, Option.some.injEq] at htext'
      rw [htext', hvalue, hpolarity]
    | false =>
      have htrue := ih text' ⟨l', hl', htext', hpolarity⟩
      rw [hvalue, hpolarity] at htrue
      cases htrue

/-- Unless they refute something, the derived ground atoms make up a model. -/
theorem models_derived (h : s.Unrefuted assumptions) {v : String → Bool}
    (hv : ∀ text, v text = true ↔ s.Derived assumptions text) :
    s.Models v ∧ Assumed v assumptions := by
  constructor
  · intro c hc
    rw [AtomTable.clauseHolds_iff]
    by_cases hbody : ∀ text, s.atoms.Occurs c text false → s.Derived assumptions text
    · have hhead : ∃ text, s.atoms.Occurs c text true := by
        by_contra hnone
        exact h.clauses ⟨c, hc, not_exists.1 hnone, hbody⟩
      obtain ⟨text, htext⟩ := hhead
      refine ⟨text, ?_⟩
      rwa [(hv text).2 (.chained hc htext hbody)]
    · simp only [not_forall] at hbody
      obtain ⟨text, htext, hnot⟩ := hbody
      refine ⟨text, ?_⟩
      rwa [Bool.eq_false_iff.2 fun htrue => hnot ((hv text).1 htrue)]
  · intro a ha
    cases hpolarity : (readAssumption a).2 with
    | true => exact (hv _).2 (.assumed ha hpolarity)
    | false =>
      rw [Bool.eq_false_iff]
      exact fun htrue => h.assumptions ⟨a, ha, hpolarity, (hv _).1 htrue⟩

/-- A session of Horn clauses has a model exactly if forward chaining refutes nothing. -/
theorem exists_model_iff_unrefuted (hhorn : ∀ c ∈ s.clauses.toList, Clause.Horn c) :
    (∃ v, s.Models v ∧ Assumed v assumptions) ↔ s.Unrefuted assumptions := by
  constructor
  · intro h
    obtain ⟨v, hmodels, hassumed⟩ := h
    have hderived : ∀ {text : String}, s.Derived assumptions text → v text = true :=
      Derived.holds hhorn hmodels hassumed
    constructor
    · intro h
      obtain ⟨c, hc, hhead, hbody⟩ := h
      obtain ⟨text, hoccurs⟩ := AtomTable.clauseHolds_iff.1 (hmodels c hc)
      cases hvalue : v text with
      | true => exact hhead text (hvalue ▸ hoccurs)
      | false =>
        rw [hvalue] at hoccurs
        rw [hderived (hbody text hoccurs)] at hvalue
        cases hvalue
    · intro h
      obtain ⟨a, ha, hpolarity, htrue⟩ := h
      have hvalue := hassumed a ha
      rw [hderived htrue, hpolarity] at hvalue
      cases hvalue
  · intro h
    classical
    exact ⟨fun text => decide (s.Derived assumptions text),
      models_derived h fun text => decide_eq_true_iff⟩

end Chaining

/-- A session whose clauses come from no disjunction is decided by forward chaining, and the
derived ground atoms are those that are true in the model. -/
theorem solveWith_forward_chains {s : Session Solver} (hs : HornReached s)
    (assumptions : List String)
    (hknown : ∀ a ∈ assumptions.map readAssumption, (s.atoms.get? a.1).isSome) :
    ∃ answer model, (exec (solveWith assumptions) s).1 = .ok (answer, model) ∧
      (answer = true ↔ s.Unrefuted assumptions) ∧
      (answer = true → (∀ l ∈ model, Literal.polarity l = true → s.atoms.Names l) ∧
        ∀ text, (text, true) ∈ s.modelAtoms model ↔ s.Derived assumptions text) := by
  have hcoherent := hs.reached.coherent
  obtain ⟨answer, model, hanswer, hdecides⟩ := hcoherent.solveWith_decides hknown
  have hunrefuted := hdecides.trans (exists_model_iff_unrefuted hs.horn)
  refine ⟨answer, model, hanswer, hunrefuted, fun htrue => ?_⟩
  subst htrue
  have hminimal := hcoherent.solveWith_minimal hknown hanswer
  have hderived : ∀ {text : String}, s.Derived assumptions text →
      s.modelValue model text = true := Derived.holds hs.horn hminimal.models hminimal.assumed
  refine ⟨hminimal.named, fun text => ?_⟩
  rw [mem_modelAtoms_iff, ← modelValue_eq_true_iff]
  constructor
  · -- The derived ground atoms make up a model, and the given one has no fewer than they.
    intro htext
    classical
    obtain ⟨hmodels, hassumed⟩ := models_derived (hunrefuted.1 rfl)
      (v := fun other => decide (s.Derived assumptions other)) fun _ => decide_eq_true_iff
    apply of_decide_eq_true
    exact hminimal.least _ hmodels hassumed (fun _ hother => hderived (of_decide_eq_true hother))
      text htext
  · exact hderived

/-- One fact from another. -/
def chainRule : Grounded where
  kind := .implication
  clauses := #[⟨some "q", ["p"]⟩]

/-- A session in which the second fact follows from the first. -/
def chain : Session Solver :=
  (ofOptions {}).after (.addGroundClause .implication ⟨some "q", ["p"]⟩)

theorem hornReached_chain : HornReached chain := by
  have hfree : (ofOptions {}).FreeOfDisjunctions
      (.addGroundClause .implication ⟨some "q", ["p"]⟩) := by
    show RuleKind.implication ≠ .disjunction
    decide
  exact (HornReached.start (.ofOptions {}) rfl).after _ (Or.inr hfree)

theorem chain_eq : chain.atoms = ({} : AtomTable).meetAll (mentionsOfAll [chainRule]) ∧
    chain.clauses.toList = [[("q", true), ("p", false)].map chain.atoms.literalOf] := by
  have hroom : (({} : AtomTable).meetAll (mentionsOfAll [chainRule])).largest ≤ maxAtom :=
    Nat.le_trans (AtomTable.largest_meetAll_le _ _) (by decide)
  obtain ⟨t, hcommit, hatoms, hclauses, _⟩ :=
    (coherent_ofOptions {}).exec_commit Solver.accepts Solver.follows hroom
  have hchain : chain = t := congrArg Prod.snd hcommit
  rw [hchain]
  exact ⟨hatoms, hclauses⟩

theorem known_chain (text : String) :
    (chain.atoms.get? text).isSome ↔ text = "q" ∨ text = "p" := by
  rw [chain_eq.1, AtomTable.known_meetAll,
    show (mentionsOfAll [chainRule]).map Mention.text = ["q", "p"] from rfl]
  simp [show ({} : AtomTable).get? text = none from Std.HashMap.getElem?_empty]

theorem occurs_chain {c : Clause} (hc : c ∈ chain.clauses.toList) {text : String}
    {polarity : Bool} :
    chain.atoms.Occurs c text polarity ↔ (text, polarity) ∈ [("q", true), ("p", false)] := by
  have hcoherent := hornReached_chain.reached.coherent
  rw [chain_eq.2, List.mem_singleton] at hc
  rw [hc]
  exact hcoherent.sound.occurs_literalOf_iff hcoherent.largest_le (by simp [known_chain])

/-- If the first fact is assumed, both are true in the model, and nothing else is. -/
theorem solveWith_forward_chains_chain :
    ∃ model, (exec (solveWith ["p"]) chain).1 = .ok (true, model) ∧
      ∀ text, (text, true) ∈ chain.modelAtoms model ↔ text = "p" ∨ text = "q" := by
  have hread : readAssumption "p" = ("p", true) := rfl
  have hknown : ∀ a ∈ ["p"].map readAssumption, (chain.atoms.get? a.1).isSome := by
    simp [hread, known_chain]
  obtain ⟨answer, model, hanswer, hunrefuted, hmodel⟩ :=
    solveWith_forward_chains hornReached_chain ["p"] hknown
  have htrue : answer = true := by
    refine hunrefuted.2 ⟨fun h => ?_, fun h => ?_⟩
    · obtain ⟨c, hc, hhead, _⟩ := h
      exact hhead "q" ((occurs_chain hc).2 (by decide))
    · obtain ⟨a, ha, hpolarity, _⟩ := h
      rw [List.mem_singleton.1 ha] at hpolarity
      cases hpolarity
  subst htrue
  refine ⟨model, hanswer, fun text => ?_⟩
  rw [(hmodel rfl).2]
  have hp : chain.Derived ["p"] "p" := .assumed List.mem_cons_self rfl
  constructor
  · intro hderived
    cases hderived with
    | assumed ha _ => exact Or.inl (by rw [List.mem_singleton.1 ha, hread])
    | chained hc hhead _ =>
      have hmem := (occurs_chain hc).1 hhead
      exact Or.inr (by simpa using hmem)
  · intro hcase
    rcases hcase with rfl | rfl
    · exact hp
    · have hc : _ ∈ chain.clauses.toList := chain_eq.2 ▸ List.mem_cons_self
      refine .chained hc ((occurs_chain hc).2 (by decide)) fun other hother => ?_
      have hmem := (occurs_chain hc).1 hother
      have hsame : other = "p" := by simpa using hmem
      rw [hsame]
      exact hp

end Session

end Groundwork
