import Groundwork.Proofs.Session.Reached

/-!
# Deciding a session

The clauses of a session say something of ground atoms, whatever the numbers of the
atoms.  This module reads them so.

* `Sound.satisfiable_iff`: truth values of numbers and of ground atoms come to the same;
* `models_of_append`, `models_of_commit`: further clauses, and so a pass, add to the session
  what they say;
* `Coherent.exec_solveWith`: what a decision does to the session, and what its outcome says;
* `Coherent.solveWith_decides`: a decision answers whether some truth values make all
  clauses and all assumptions true.
-/

namespace Groundwork

/-! ## Truth values of ground atoms -/

/-- The truth values make some signed ground atom of the clause true. -/
def SignedHolds (v : String → Bool) (c : List (String × Bool)) : Prop :=
  ∃ signed ∈ c, v signed.1 = signed.2

namespace AtomTable

/-- The truth values make some literal of the clause true. -/
def ClauseHolds (t : AtomTable) (v : String → Bool) (c : Clause) : Prop :=
  ∃ l ∈ c, ∃ text, t.text? (Literal.atom l) = some text ∧ v text = Literal.polarity l

theorem Sound.clauseHolds_literalOf {t : AtomTable} (h : t.Sound) (hle : t.largest ≤ maxAtom)
    {c : List (String × Bool)} (hknown : ∀ signed ∈ c, (t.get? signed.1).isSome)
    (v : String → Bool) : t.ClauseHolds v (c.map t.literalOf) ↔ SignedHolds v c := by
  constructor
  · intro h
    obtain ⟨l, hl, text, htext, hvalue⟩ := h
    obtain ⟨signed, hsigned, rfl⟩ := List.mem_map.1 hl
    obtain ⟨hsame, hpolarity⟩ := h.literalOf hle (hknown signed hsigned)
    rw [hsame, Option.some.injEq] at htext
    refine ⟨signed, hsigned, ?_⟩
    rw [htext, hvalue, hpolarity]
  · intro h
    obtain ⟨signed, hsigned, hvalue⟩ := h
    obtain ⟨hsame, hpolarity⟩ := h.literalOf hle (hknown signed hsigned)
    exact ⟨_, List.mem_map_of_mem hsigned, _, hsame, by rw [hvalue, hpolarity]⟩

/-- Truth values of numbers and of ground atoms come to the same. -/
theorem Sound.satisfiable_iff {t : AtomTable} (h : t.Sound) (hle : t.largest ≤ maxAtom)
    {clauses : List Clause} (hclauses : ∀ c ∈ clauses, ∀ l ∈ c, t.Names l)
    {assumed : List (String × Bool)} (hassumed : ∀ a ∈ assumed, (t.get? a.1).isSome) :
    Satisfiable clauses (assumed.map t.literalOf) ↔
      ∃ v : String → Bool, (∀ c ∈ clauses, t.ClauseHolds v c) ∧ ∀ a ∈ assumed, v a.1 = a.2 := by
  constructor
  · intro h
    obtain ⟨v, hmodels, hholds⟩ := h
    have hvalue : ∀ {atom : Nat} {text : String}, t.text? atom = some text →
        v ((t.get? text).getD 0) = v atom := by
      intro atom text htext
      rw [(h.get?_iff text atom).2 htext, Option.getD_some]
    refine ⟨fun text => v ((t.get? text).getD 0), fun c hc => ?_, fun a ha => ?_⟩
    · obtain ⟨l, hl, htrue⟩ := hmodels c hc
      obtain ⟨text, htext⟩ := Option.isSome_iff_exists.1 (hclauses c hc l hl)
      exact ⟨l, hl, text, htext, (hvalue htext).trans htrue⟩
    · have htrue : v (Literal.atom (t.literalOf a)) = Literal.polarity (t.literalOf a) :=
        hholds _ (List.mem_map_of_mem ha)
      obtain ⟨htext, hpolarity⟩ := h.literalOf hle (hassumed a ha)
      exact (hvalue htext).trans (htrue.trans hpolarity)
  · intro h
    obtain ⟨v, hmodels, hvalues⟩ := h
    refine ⟨fun atom => v ((t.text? atom).getD ""), fun c hc => ?_, fun l hl => ?_⟩
    · obtain ⟨l, hl, text, htext, htrue⟩ := hmodels c hc
      refine ⟨l, hl, ?_⟩
      show v ((t.text? (Literal.atom l)).getD "") = _
      rw [htext, Option.getD_some, htrue]
    · obtain ⟨a, ha, rfl⟩ := List.mem_map.1 hl
      obtain ⟨htext, hpolarity⟩ := h.literalOf hle (hassumed a ha)
      show v ((t.text? (Literal.atom (t.literalOf a))).getD "") = _
      rw [htext, Option.getD_some, hvalues a ha, hpolarity]

end AtomTable

namespace Session

variable {β : Type} {holds : β → List Clause → Prop}

/-- The truth values make all clauses of the session true. -/
def Models (s : Session β) (v : String → Bool) : Prop :=
  ∀ c ∈ s.clauses.toList, s.atoms.ClauseHolds v c

/-- The truth values are those that the assumptions ask for. -/
def Assumed (v : String → Bool) (assumptions : List String) : Prop :=
  ∀ a ∈ assumptions, v (readAssumption a).1 = (readAssumption a).2

/-- Further clauses add what they say, if the ground atoms of the others stay known. -/
theorem models_of_append {s t : Session β} (h : s.Coherent holds) (hsound : t.atoms.Sound)
    (hle : t.atoms.largest ≤ maxAtom)
    (htext : ∀ atom text, s.atoms.text? atom = some text → t.atoms.text? atom = some text)
    {new : List (List (String × Bool))}
    (hknown : ∀ c ∈ new, ∀ signed ∈ c, (t.atoms.get? signed.1).isSome)
    (hclauses : t.clauses.toList = s.clauses.toList ++ new.map fun c => c.map t.atoms.literalOf)
    (v : String → Bool) :
    t.Models v ↔ s.Models v ∧ ∀ c ∈ new, SignedHolds v c := by
  have hold : ∀ c ∈ s.clauses.toList, (t.atoms.ClauseHolds v c ↔ s.atoms.ClauseHolds v c) := by
    intro c hc
    refine exists_congr fun l => and_congr_right fun hl => ?_
    obtain ⟨text, hl⟩ := Option.isSome_iff_exists.1 (h.named c hc l hl)
    rw [htext _ _ hl, hl]
  have hnew : ∀ c ∈ new, (t.atoms.ClauseHolds v (c.map t.atoms.literalOf) ↔ SignedHolds v c) :=
    fun c hc => hsound.clauseHolds_literalOf hle (hknown c hc) v
  unfold Models
  rw [hclauses]
  simp only [List.mem_append, or_imp, forall_and, List.forall_mem_map]
  exact and_congr (forall₂_congr hold) (forall₂_congr hnew)

/-- A pass adds what its ground clauses say. -/
theorem models_of_commit {s t : Session β} (h : s.Coherent holds) {grounded : List Grounded}
    (hroom : (s.atoms.meetAll (mentionsOfAll grounded)).largest ≤ maxAtom)
    (hatoms : t.atoms = s.atoms.meetAll (mentionsOfAll grounded))
    (hclauses : t.clauses.toList = s.clauses.toList ++ clausesOfAll t.atoms grounded)
    (v : String → Bool) :
    t.Models v ↔ s.Models v ∧ ∀ c ∈ signedOfAll grounded, SignedHolds v c := by
  refine models_of_append h ?_ ?_ (fun atom text htext => ?_) (fun c hc signed hsigned => ?_)
    hclauses v
  · rw [hatoms]
    exact h.sound.meetAll _
  · rwa [hatoms]
  · rw [hatoms]
    exact h.sound.text?_meetAll htext _
  · rw [hatoms]
    exact known_of_mem_signedOfAll hc hsigned s.atoms

/-! ## Decisions of the solver -/

/-- What the literals of assumptions say of numbers, the assumptions say of ground atoms. -/
theorem Coherent.satisfiable_iff {s : Session β} (h : s.Coherent holds) {assumptions : List String}
    (hknown : ∀ a ∈ assumptions.map readAssumption, (s.atoms.get? a.1).isSome) :
    Satisfiable s.clauses.toList ((assumptions.map readAssumption).map s.atoms.literalOf) ↔
      ∃ v, s.Models v ∧ Assumed v assumptions := by
  rw [h.sound.satisfiable_iff h.largest_le h.named hknown]
  simp only [Models, Assumed, List.forall_mem_map]

/-- If all assumptions are known, a decision finds a model, or there is none. -/
theorem Coherent.exec_solveWith {s : Session Solver} (h : s.Coherent Solver.Holds)
    {assumptions : List String}
    (hknown : ∀ a ∈ assumptions.map readAssumption, (s.atoms.get? a.1).isSome)
    {outcome : Except BackendError Verdict × Solver}
    (houtcome : s.backend.solve ((assumptions.map readAssumption).map s.atoms.literalOf) =
      outcome) :
    (∃ model, exec (solveWith assumptions) s =
        (.ok (true, model), s.decided assumptions outcome.2 .satisfiable) ∧
        outcome.1 = .ok .satisfiable ∧ outcome.2.model? = .ok model ∧
        ∃ v, s.Models v ∧ Assumed v assumptions) ∨
      exec (solveWith assumptions) s =
        (.ok (false, []), s.decided assumptions outcome.2 .unsatisfiable) ∧
        ¬ ∃ v, s.Models v ∧ Assumed v assumptions := by
  have hread := mapM_assumptionLiteral s.atoms assumptions
  rw [find?_unknown_eq_none_iff.2 hknown] at hread
  obtain ⟨g, hrecords, hclauses⟩ := h.holds
  have hdecides := hrecords.decides (h.proper_literals hknown)
  rw [houtcome] at hdecides
  rw [exec_solveWith_ok hread, ← h.satisfiable_iff hknown, ← hclauses, ← hdecides.satisfiable_iff]
  by_cases hsat : outcome.1 = .ok .satisfiable
  · obtain ⟨model, hmodel, _⟩ := hdecides.model hsat
    refine Or.inl ⟨model, ?_, hsat, hmodel, hsat⟩
    rw [show Backend.solve s.backend _ = (.ok .satisfiable, outcome.2) from
      houtcome.trans (Prod.ext hsat rfl)]
    dsimp only
    rw [show Backend.model outcome.2 = .ok model from hmodel]
    rfl
  · refine Or.inr ⟨?_, hsat⟩
    rw [show Backend.solve s.backend _ = (.ok .unsatisfiable, outcome.2) from
      houtcome.trans (Prod.ext (hdecides.noModel hsat).1 rfl)]

/-- A decision answers whether the clauses and the assumptions can be true together. -/
theorem Coherent.solveWith_decides {s : Session Solver} (h : s.Coherent Solver.Holds)
    {assumptions : List String}
    (hknown : ∀ a ∈ assumptions.map readAssumption, (s.atoms.get? a.1).isSome) :
    ∃ answer model, (exec (solveWith assumptions) s).1 = .ok (answer, model) ∧
      (answer = true ↔ ∃ v, s.Models v ∧ Assumed v assumptions) := by
  rcases h.exec_solveWith hknown rfl with ⟨model, hexec, _, _, hsat⟩ | ⟨hexec, hunsat⟩
  · exact ⟨true, model, congrArg Prod.fst hexec, iff_of_true rfl hsat⟩
  · exact ⟨false, [], congrArg Prod.fst hexec, iff_of_false (by decide) hunsat⟩

end Session

end Groundwork
