import Groundwork.Proofs.Session.Current
import Groundwork.Proofs.Session.Exporting
import Groundwork.Proofs.Session.MinimalModel
import Groundwork.Proofs.Solver.Again

/-!
# What a decision finds, assumed

A decision that fails reports a core, and one that succeeds reports a model.  Both can be given
back as assumptions.  A core always means what it meant, since its elements were read off
assumptions.  The ground atoms of a model need not mean themselves: an assumption is read without
the blanks around it, and a dash in front says that it is negative, also where the dash is part of
the ground atom.

* `Coherent.of_solveWith`: what is known after a decision;
* `exec_solveWith_units`: where every clause is a single literal, these are the model;
* `core_assumed_back`: a core is refuted again, and is its own core;
* `assumptionText`: how a signed ground atom is written;
* `model_assumed_back`: a model is found again exactly if everything written is read as part of it.
-/

namespace Groundwork.Session

variable {s t : Session Solver} {assumptions : List String}

/-! ## After a decision -/

/-- What a decision leaves behind. -/
structure DecidedBy (assumptions : List String) (verdict : Verdict) (s t : Session Solver) :
    Prop where
  known : ∀ a ∈ assumptions.map readAssumption, (s.atoms.get? a.1).isSome
  coherent : t.Coherent Solver.Holds
  atoms_eq : t.atoms = s.atoms
  backed : t.Backed assumptions
  solve_eq : s.backend.solve ((assumptions.map readAssumption).map s.atoms.literalOf) =
    (.ok verdict, t.backend)

theorem Coherent.of_solveWith (h : s.Coherent Solver.Holds) {answer : Bool} {model : List Literal}
    (hrun : exec (solveWith assumptions) s = (.ok (answer, model), t)) :
    answer = true ∧ t.backend.model? = .ok model ∧ DecidedBy assumptions .satisfiable s t ∨
      answer = false ∧ model = [] ∧ t.stage = .unsatisfiable ∧
        DecidedBy assumptions .unsatisfiable s t := by
  have hread := mapM_assumptionLiteral s.atoms assumptions
  have hkept := keeps_solveWith Solver.follows assumptions s h
  have hbacked : t.Backed assumptions := by
    rcases h.backed_solveWith assumptions with ⟨e, herror⟩ | ⟨_, u, hok, hu⟩
    · rw [hrun] at herror
      cases herror
    · rw [hrun] at hok
      cases hok
      exact hu
  rw [hrun] at hkept
  cases hfind : assumptions.find? fun a => !(s.atoms.get? (readAssumption a).1).isSome with
  | some a =>
    rw [hfind] at hread
    rw [exec_solveWith_error hread] at hrun
    cases hrun
  | none =>
    have hknown := find?_unknown_eq_none_iff.1 hfind
    rcases h.exec_solveWith hknown rfl with ⟨found, hexec, hsat, hmodel, _⟩ | ⟨hexec, hunsat⟩
    · rw [hrun] at hexec
      cases hexec
      exact .inl ⟨rfl, hmodel, hknown, hkept, rfl, hbacked, Prod.ext hsat rfl⟩
    · rw [hrun] at hexec
      cases hexec
      obtain ⟨g, hrecords, hclauses⟩ := h.holds
      rw [← h.satisfiable_iff hknown, ← hclauses,
        ← Solver.solve_eq_unsatisfiable_iff hrecords (h.proper_literals hknown)] at hunsat
      exact .inr ⟨rfl, rfl, rfl, hknown, hkept, rfl, hbacked, Prod.ext hunsat rfl⟩

/-- If the assumptions are known, a decision is that of the solver about their literals. -/
theorem exec_solveWith_of_solve {more : List String} {verdict : Verdict} {backend : Solver}
    (hknown : ∀ a ∈ more.map readAssumption, (t.atoms.get? a.1).isSome)
    (hsolve : t.backend.solve ((more.map readAssumption).map t.atoms.literalOf) =
      (.ok verdict, backend)) :
    exec (solveWith more) t =
      match verdict with
      | .satisfiable =>
        ((backend.model?.mapError .backend).map (true, ·), t.decided more backend .satisfiable)
      | .unsatisfiable => (.ok (false, []), t.decided more backend .unsatisfiable)
      | .unknown => (.ok (false, []), t.decided more backend .input) := by
  have hread := mapM_assumptionLiteral t.atoms more
  rw [find?_unknown_eq_none_iff.2 hknown] at hread
  rw [exec_solveWith_ok hread, show Backend.solve t.backend _ = _ from hsolve]
  cases verdict <;> rfl

/-! ## Single literals -/

/-- If two lists give each atom one literal, and one is part of the other, they are the same. -/
theorem eq_of_map_atom_eq {literals model : List Literal}
    (hatoms : model.map Literal.atom = literals.map Literal.atom)
    (hnodup : (literals.map Literal.atom).Nodup) (hsub : literals ⊆ model) : model = literals := by
  have hlength : model.length = literals.length := by
    simpa using congrArg List.length hatoms
  refine List.ext_getElem hlength fun i hi hi' => ?_
  have hsame : Literal.atom model[i] = Literal.atom literals[i] := by
    have := List.getElem_of_eq hatoms (i := i) (by simpa using hi)
    simpa using this
  exact List.inj_on_of_nodup_map (hatoms ▸ hnodup) (List.getElem_mem hi)
    (hsub (List.getElem_mem hi')) hsame

/-- If the clauses are single literals, one for each atom, these are the whole model. -/
theorem exec_solveWith_units {minimise : Bool} (h : Recorded minimise s) (literals : List Literal)
    (hclauses : s.clauses.toList = literals.map fun l => [l])
    (hproper : ∀ l ∈ literals, Literal.Proper l)
    (hatoms : literals.map Literal.atom = List.range' 1 (greatestAtom literals))
    (hmodels : ∃ v, s.Models v) :
    ∃ t, exec (solveWith []) s = (.ok (true, literals), t) ∧ t.atoms = s.atoms := by
  have hcalls : ∀ call ∈ s.clauses.toList.map Solver.Call.add, call.Proper := by
    rw [hclauses]
    intro call hcall
    obtain ⟨_, hc, rfl⟩ := List.mem_map.1 hcall
    obtain ⟨l, hl, rfl⟩ := List.mem_map.1 hc
    exact List.forall_mem_singleton.2 (hproper l hl)
  have hgiven : Solver.given (s.clauses.toList.map Solver.Call.add) =
      { clauses := literals.map fun l => [l], literals } := by
    rw [Solver.given, Solver.given_map_add, hclauses]
    exact congrArg _ (List.flatMap_singleton' literals)
  have hdecides := (Solver.records_run minimise hcalls).decides (List.forall_mem_nil Literal.Proper)
  rw [hgiven] at hdecides
  have hsolver : s.backend.solve [] = (Solver.ofClauses minimise s.clauses.toList).solve [] := by
    rw [← Solver.solve_forget (by simp), h.backend_eq]
  have hknown : ∀ a ∈ ([] : List String).map readAssumption, (s.atoms.get? a.1).isSome := by simp
  rcases h.coherent.exec_solveWith hknown hsolver with ⟨model, hrun, hsat, hmodel, _⟩ | ⟨_, hunsat⟩
  · obtain ⟨found, hfound, hrange, hholds, _⟩ := hdecides.model hsat
    cases hmodel.symm.trans hfound
    rw [List.append_nil, ← hatoms] at hrange
    have hsub : literals ⊆ model := by
      intro l hl
      obtain ⟨l', hl', hmem⟩ := hholds [l] (List.mem_map_of_mem (f := fun l => [l]) hl)
      rwa [← List.mem_singleton.1 hl']
    have hnodup : (literals.map Literal.atom).Nodup := by
      rw [hatoms]
      exact List.nodup_range'
    rw [eq_of_map_atom_eq hrange hnodup hsub] at hrun
    exact ⟨_, hrun, rfl⟩
  · obtain ⟨v, hv⟩ := hmodels
    exact absurd ⟨v, hv, by simp [Assumed]⟩ hunsat

/-! ## One ground atom -/

variable {text : String}

theorem reached_asserted (text : String) (polarity : Bool) : Reached (asserted text polarity) :=
  (Reached.ofOptions {}).after (.assertAtom text polarity)

theorem text?_asserted {polarity : Bool} {atom : Nat} {other : String} :
    (asserted text polarity).atoms.text? atom = some other ↔ atom = 1 ∧ other = text := by
  rw [AtomTable.text?_eq_some_iff]
  simp only [← AtomTable.mem_toList_iff, (asserted_spec text polarity).1, List.mem_singleton,
    Prod.mk.injEq]
  constructor
  · intro h
    obtain ⟨_, ⟨rfl, rfl⟩, rfl⟩ := h
    exact ⟨rfl, rfl⟩
  · intro h
    obtain ⟨rfl, rfl⟩ := h
    exact ⟨_, ⟨rfl, rfl⟩, rfl⟩

theorem isSome_get?_asserted {polarity : Bool} {other : String} :
    ((asserted text polarity).atoms.get? other).isSome ↔ other = text := by
  have hsound := (reached_asserted text polarity).coherent.sound
  simp only [Option.isSome_iff_exists, hsound.get?_iff, text?_asserted, exists_and_right,
    exists_eq, true_and]

theorem models_asserted {v : String → Bool} : (asserted text true).Models v ↔ v text = true := by
  rw [Models, (asserted_spec text true).2, List.forall_mem_singleton]
  constructor
  · intro h
    obtain ⟨l, hl, other, hother, hvalue⟩ := h
    obtain rfl := List.mem_singleton.1 hl
    rw [← (text?_asserted.1 hother).2, hvalue]
    decide
  · intro hvalue
    exact ⟨_, List.mem_singleton.2 rfl, text, text?_asserted.2 ⟨by decide, rfl⟩,
      hvalue.trans (by decide)⟩

/-- The asserted ground atom is the whole model. -/
theorem exec_solveWith_asserted (text : String) : ∃ t,
    exec (solveWith []) (asserted text true) = (.ok (true, [1]), t) ∧
      t.modelAtoms [1] = [(text, true)] := by
  obtain ⟨t, hrun, hatoms⟩ := exec_solveWith_units (recorded_run {} [.assertAtom text true]) [1]
    (asserted_spec text true).2 (by decide) (by decide) ⟨fun _ => true, models_asserted.2 rfl⟩
  refine ⟨t, hrun, ?_⟩
  have htext : t.atoms.text? (Literal.atom 1) = some text := by
    rw [hatoms]
    exact text?_asserted.2 ⟨by decide, rfl⟩
  have hpolarity : Literal.polarity 1 = true := by decide
  unfold modelAtoms
  rw [List.filterMap_cons, htext, Option.map_some, hpolarity]
  rfl

/-! ## Two ground atoms -/

/-- A session in which one ground atom was asserted and another one denied. -/
def opposed : Session Solver :=
  (asserted "p a" true).after (.assertAtom "q b" false)

theorem reached_opposed : Reached opposed :=
  (reached_asserted "p a" true).after (.assertAtom "q b" false)

theorem opposed_spec : opposed.clauses.toList = [[1], [-2]] ∧
    ∀ {atom : Nat} {text : String}, opposed.atoms.text? atom = some text ↔
      atom = 1 ∧ text = "p a" ∨ atom = 2 ∧ text = "q b" := by
  have hcoherent := (reached_asserted "p a" true).coherent
  have hlargest : (asserted "p a" true).atoms.largest = 1 := by
    have hrecorded : Recorded true (asserted "p a" true) :=
      recorded_run {} [.assertAtom "p a" true]
    have hnumbers := hrecorded.dense.map_fst_toList
    rw [(asserted_spec "p a" true).1] at hnumbers
    simpa using (congrArg List.length hnumbers).symm
  have hfresh : (asserted "p a" true).atoms.fresh [⟨"q b", []⟩] = ["q b"] := by
    have hunknown : (asserted "p a" true).atoms.get? "q b" = none := by
      rw [← Option.not_isSome_iff_eq_none, isSome_get?_asserted]
      decide
    simp only [AtomTable.fresh, List.map_cons, List.map_nil, List.filter_cons, hunknown]
    rfl
  have hroom : ((asserted "p a" true).atoms.meetAll [⟨"q b", []⟩]).largest ≤ maxAtom := by
    rw [AtomTable.largest_meetAll, hfresh, hlargest]
    decide
  obtain ⟨hatoms, hclauses⟩ := hcoherent.after_assertAtom hroom false
  have hget : ∀ {text : String} {atom : Nat},
      ((asserted "p a" true).atoms.meetAll [⟨"q b", []⟩]).get? text = some atom ↔
        atom = 1 ∧ text = "p a" ∨ atom = 2 ∧ text = "q b" := by
    intro text atom
    rw [AtomTable.get?_meetAll_eq_some_iff, hcoherent.sound.get?_iff, text?_asserted, hfresh,
      hlargest]
    refine or_congr_right ⟨?_, ?_⟩
    · rintro ⟨i, hi, rfl⟩
      obtain ⟨hlt, rfl⟩ := List.getElem?_eq_some_iff.1 hi
      obtain rfl : i = 0 := by simpa using hlt
      exact ⟨rfl, rfl⟩
    · rintro ⟨rfl, rfl⟩
      exact ⟨0, rfl, rfl⟩
  constructor
  · have hsecond := hget.2 (Or.inr ⟨rfl, rfl⟩)
    rw [opposed, hclauses, (asserted_spec "p a" true).2, AtomTable.literalOf, hsecond]
    rfl
  · intro atom text
    rw [← reached_opposed.coherent.sound.get?_iff, opposed, hatoms, hget]

theorem models_opposed : opposed.Models fun text => text = "p a" := by
  obtain ⟨hclauses, htexts⟩ := opposed_spec
  rw [Models, hclauses]
  intro c hc
  rcases List.mem_pair.1 hc with rfl | rfl
  · exact ⟨1, List.mem_singleton.2 rfl, "p a", htexts.2 (by decide), by decide⟩
  · exact ⟨-2, List.mem_singleton.2 rfl, "q b", htexts.2 (by decide), by decide⟩

/-! ## Cores -/

/-- The strings of a core stand for the literals of the core.  If they are assumed, the instance is
refuted again, and the core is the same. -/
theorem core_assumed_back (hs : Reached s) {model : List Literal}
    (h : exec (solveWith assumptions) s = (.ok (false, model), t)) :
    ∃ core u, t.core = .ok core ∧
      core.mapM (assumptionLiteral t.atoms) = .ok t.backend.core ∧
      exec (solveWith core) t = (.ok (false, []), u) ∧ u.core = .ok core := by
  obtain ⟨hanswer, _⟩ | ⟨_, _, hstage, hdecided⟩ := hs.coherent.of_solveWith h
  · cases hanswer
  obtain ⟨kept, hkept⟩ := hdecided.backed.unsatisfiable hstage
  have hread : (kept.map normalForm).map readAssumption = kept.map readAssumption := by
    simp only [List.map_map, Function.comp_def, readAssumption_normalForm]
  have hwritten : t.backend.core.filterMap (literalText? t.atoms) = kept.map normalForm := by
    rw [hkept.core_eq]
    exact filterMap_literalText? hdecided.coherent.sound hdecided.coherent.largest_le hkept.known
  have hknown : ∀ a ∈ (kept.map normalForm).map readAssumption, (t.atoms.get? a.1).isSome := by
    rw [hread]
    exact hkept.known
  have hsolve : t.backend.solve (((kept.map normalForm).map readAssumption).map
      t.atoms.literalOf) = (.ok .unsatisfiable, t.backend) := by
    rw [hread, ← hkept.core_eq]
    exact Solver.solve_core hdecided.solve_eq
  have hagain : exec (solveWith (kept.map normalForm)) t =
      (.ok (false, []), t.decided (kept.map normalForm) t.backend .unsatisfiable) :=
    exec_solveWith_of_solve hknown hsolve
  have hcore : (t.decided (kept.map normalForm) t.backend .unsatisfiable).core =
      .ok (kept.map normalForm) := core_eq_ok_iff.2 ⟨rfl, hwritten⟩
  refine ⟨kept.map normalForm, _, core_eq_ok_iff.2 ⟨hstage, hwritten⟩, ?_, hagain, hcore⟩
  rw [mapM_assumptionLiteral, find?_unknown_eq_none_iff.2 hknown, hread, hkept.core_eq]

/-- The core is written without the blanks of the assumption. -/
theorem core_assumed_back_blanks : ∃ t u,
    exec (solveWith [" - p "]) (asserted "p" true) = (.ok (false, []), t) ∧
      t.core = .ok ["-p"] ∧ exec (solveWith ["-p"]) t = (.ok (false, []), u) ∧
      u.core = .ok ["-p"] := by
  have hreached := reached_asserted "p" true
  have hread : readAssumption " - p " = ("p", false) := by decide
  have hknown : ∀ a ∈ [" - p "].map readAssumption,
      ((asserted "p" true).atoms.get? a.1).isSome := by
    rw [List.forall_mem_map, List.forall_mem_singleton, hread, isSome_get?_asserted]
  rcases hreached.coherent.exec_solveWith hknown rfl with ⟨_, _, _, _, v, hv, hassumed⟩ | ⟨hrun, _⟩
  · have hfalse := hassumed _ (List.mem_singleton.2 rfl)
    rw [hread, models_asserted.1 hv] at hfalse
    cases hfalse
  obtain ⟨core, u, hcore, _, hagain, hsame⟩ := core_assumed_back hreached hrun
  obtain ⟨hanswer, _⟩ | ⟨_, _, _, hdecided⟩ := hreached.coherent.of_solveWith hrun
  · cases hanswer
  have hcurrent := hdecided.backed.current hdecided.coherent
  have hsub : core.Sublist ["-p"] := hcurrent.core_sublist core hcore
  rcases List.sublist_singleton.1 hsub with rfl | rfl
  · refine absurd ⟨fun _ => true, ?_, by simp [Assumed]⟩ (hcurrent.core_refuted [] hcore)
    exact models_asserted.2 rfl
  · exact ⟨_, u, hrun, hcore, hagain, hsame⟩

/-! ## Models -/

/-- A signed ground atom, written as an assumption. -/
def assumptionText (entry : String × Bool) : String :=
  if entry.2 then entry.1 else "-" ++ entry.1

/-- A ground atom means itself if there are no blanks around it and, where it is true, no dash in
front of it. -/
theorem readAssumption_assumptionText {entry : String × Bool}
    (htrim : Text.trim entry.1.toList = entry.1.toList)
    (hdash : entry.2 = true → ∀ rest, entry.1.toList ≠ '-' :: rest) :
    readAssumption (assumptionText entry) = entry := by
  obtain ⟨text, polarity⟩ := entry
  cases polarity with
  | true =>
    show readAssumption text = _
    rw [readAssumption_of_not_dash (by rw [htrim]; exact hdash rfl), htrim, String.ofList_toList]
  | false =>
    have htext : Text.trim text.toList = text.toList := htrim
    have hdashed := Text.trim_cons_trim (c := '-') (by decide) text.toList
    rw [htext] at hdashed
    show readAssumption ("-" ++ text) = _
    rw [readAssumption_of_dash (by rw [String.toList_append]; exact hdashed), htext,
      String.ofList_toList]

theorem known_of_mem_modelAtoms (h : t.Coherent Solver.Holds) {model : List Literal}
    {entry : String × Bool} (hmem : entry ∈ t.modelAtoms model) :
    (t.atoms.get? entry.1).isSome := by
  obtain ⟨l, _, htext, _⟩ := mem_modelAtoms_iff.1 hmem
  rw [(h.sound.get?_iff _ _).2 htext]
  rfl

/-- The literals of a model are those of its ground atoms. -/
theorem literalOf_mem_iff (h : t.Coherent Solver.Holds) {model : List Literal}
    {entry : String × Bool} (hknown : (t.atoms.get? entry.1).isSome) :
    t.atoms.literalOf entry ∈ model ↔ entry ∈ t.modelAtoms model := by
  constructor
  · intro hmem
    exact mem_modelAtoms_iff.2 ⟨_, hmem, h.sound.literalOf h.largest_le hknown⟩
  · intro hmem
    obtain ⟨l, hl, htext, hpolarity⟩ := mem_modelAtoms_iff.1 hmem
    have hproper : Literal.Proper l :=
      AtomTable.Sound.proper h.largest_le (Option.isSome_iff_exists.2 ⟨_, htext⟩)
    rw [AtomTable.literalOf, (h.sound.get?_iff _ _).2 htext, Option.getD_some, ← hpolarity,
      Literal.ofAtom_atom hproper.2]
    exact hl

/-- The assumptions of a decision are part of its model, as they were read. -/
theorem DecidedBy.readAssumption_mem (h : DecidedBy assumptions .satisfiable s t)
    (hs : s.Coherent Solver.Holds) {model : List Literal} (hmodel : t.backend.model? = .ok model) :
    ∀ a ∈ assumptions, readAssumption a ∈ t.modelAtoms model := by
  obtain ⟨g, hrecords, _⟩ := hs.holds
  have hdecides := hrecords.decides (hs.proper_literals h.known)
  rw [h.solve_eq] at hdecides
  obtain ⟨found, hfound, _, _, hall⟩ := hdecides.model rfl
  cases hmodel.symm.trans hfound
  intro a ha
  have hknown := h.known _ (List.mem_map_of_mem ha)
  rw [← literalOf_mem_iff h.coherent (by rwa [h.atoms_eq]), h.atoms_eq]
  exact hall _ (List.mem_map_of_mem (List.mem_map_of_mem ha))

/-- A model is found again under parts of it, if the assumptions that led to it are among them. -/
theorem DecidedBy.exec_solveWith_part (h : DecidedBy assumptions .satisfiable s t)
    {model : List Literal} (hmodel : t.backend.model? = .ok model) {more : List String}
    (hmore : ∀ a ∈ more, readAssumption a ∈ t.modelAtoms model)
    (hsub : ∀ a ∈ assumptions, readAssumption a ∈ more.map readAssumption) :
    (exec (solveWith more) t).1 = .ok (true, model) := by
  have hknown : ∀ a ∈ more.map readAssumption, (t.atoms.get? a.1).isSome :=
    List.forall_mem_map.2 fun a ha => known_of_mem_modelAtoms h.coherent (hmore a ha)
  have hgiven : (assumptions.map readAssumption).map s.atoms.literalOf ⊆
      (more.map readAssumption).map t.atoms.literalOf := by
    rw [h.atoms_eq]
    exact List.map_subset _ fun a ha => by
      obtain ⟨assumption, hassumption, rfl⟩ := List.mem_map.1 ha
      exact hsub assumption hassumption
  have hpart : (more.map readAssumption).map t.atoms.literalOf ⊆ model := by
    intro l hl
    obtain ⟨entry, hentry, rfl⟩ := List.mem_map.1 hl
    obtain ⟨a, ha, rfl⟩ := List.mem_map.1 hentry
    exact (literalOf_mem_iff h.coherent (hknown _ hentry)).2 (hmore a ha)
  have hatoms : t.backend.atoms ≤ maxAtom + 1 := by
    obtain ⟨g, hrecords, _⟩ := h.coherent.holds
    rw [hrecords.atoms]
    exact greatestAtom_le_succ _
  have hsolve := Solver.solve_model h.solve_eq hmodel hatoms (h.coherent.proper_literals hknown)
    hgiven hpart
  rw [exec_solveWith_of_solve hknown hsolve, hmodel]
  rfl

/-- The ground atoms of a model are written as assumptions and assumed.  The same model is found
exactly if each of them is read as part of the model.  This is so if they are written without
blanks around them, and those that are true without a dash in front. -/
theorem model_assumed_back (hs : Reached s) {model : List Literal}
    (h : exec (solveWith assumptions) s = (.ok (true, model), t)) :
    ((exec (solveWith ((t.modelAtoms model).map assumptionText)) t).1 = .ok (true, model) ↔
      ∀ entry ∈ t.modelAtoms model,
        readAssumption (assumptionText entry) ∈ t.modelAtoms model) ∧
    ((∀ entry ∈ t.modelAtoms model, Text.trim entry.1.toList = entry.1.toList ∧
        (entry.2 = true → ∀ rest, entry.1.toList ≠ '-' :: rest)) →
      (exec (solveWith ((t.modelAtoms model).map assumptionText)) t).1 = .ok (true, model)) := by
  obtain ⟨_, hmodel, hdecided⟩ | ⟨hanswer, _⟩ := hs.coherent.of_solveWith h
  swap
  · cases hanswer
  have hcoherent := hdecided.coherent
  have hiff : (exec (solveWith ((t.modelAtoms model).map assumptionText)) t).1 =
      .ok (true, model) ↔
        ∀ entry ∈ t.modelAtoms model,
          readAssumption (assumptionText entry) ∈ t.modelAtoms model := by
    constructor
    · intro hagain entry hentry
      obtain ⟨_, hmodel', hdecided'⟩ | ⟨hanswer, _⟩ := hcoherent.of_solveWith (Prod.ext hagain rfl)
      · have hmem := hdecided'.readAssumption_mem hcoherent hmodel' _ (List.mem_map_of_mem hentry)
        rwa [modelAtoms, hdecided'.atoms_eq] at hmem
      · cases hanswer
    · intro hread
      refine hdecided.exec_solveWith_part hmodel (List.forall_mem_map.2 hread) fun a ha => ?_
      -- an assumption that was read is written in its normal form
      have hmem := hdecided.readAssumption_mem hs.coherent hmodel a ha
      rw [← readAssumption_normalForm a]
      exact List.mem_map_of_mem (List.mem_map_of_mem hmem)
  refine ⟨hiff, fun hplain => hiff.2 fun entry hentry => ?_⟩
  obtain ⟨htrim, hdash⟩ := hplain entry hentry
  rwa [readAssumption_assumptionText htrim hdash]

theorem model_assumed_back_plain : ∃ t,
    exec (solveWith []) opposed = (.ok (true, [1, -2]), t) ∧
      t.modelAtoms [1, -2] = [("p a", true), ("q b", false)] ∧
      (exec (solveWith ["p a", "-q b"]) t).1 = .ok (true, [1, -2]) := by
  obtain ⟨hclauses, htexts⟩ := opposed_spec
  obtain ⟨t, hrun, hsame⟩ := exec_solveWith_units
    (recorded_run {} [.assertAtom "p a" true, .assertAtom "q b" false]) [1, -2]
    hclauses (by decide) (by decide) ⟨_, models_opposed⟩
  have hatoms : t.modelAtoms [1, -2] = [("p a", true), ("q b", false)] := by
    have hfirst : t.atoms.text? (Literal.atom 1) = some "p a" := by
      rw [hsame]
      exact htexts.2 (by decide)
    have hsecond : t.atoms.text? (Literal.atom (-2)) = some "q b" := by
      rw [hsame]
      exact htexts.2 (by decide)
    simp only [modelAtoms, List.filterMap_cons, hfirst, hsecond, Option.map_some,
      List.filterMap_nil]
    decide
  have hback := (model_assumed_back reached_opposed hrun).2 (by
    rw [hatoms]
    intro entry hentry
    rcases List.mem_pair.1 hentry with rfl | rfl
    · exact ⟨by decide, by simp⟩
    · exact ⟨by decide, by simp⟩)
  rw [hatoms] at hback
  exact ⟨t, hrun, hatoms, hback⟩

/-- The dash of the ground atom is read as a sign, and the ground atom without it is not known. -/
theorem dashed_model_not_assumed_back : ∃ t, Reached (asserted "-p" true) ∧
    exec (solveWith []) (asserted "-p" true) = (.ok (true, [1]), t) ∧
      (t.modelAtoms [1]).map assumptionText = ["-p"] ∧
      (exec (solveWith ["-p"]) t).1 = .error (.model (.unknownAtom "p")) := by
  obtain ⟨t, hrun, hatoms⟩ := exec_solveWith_asserted "-p"
  refine ⟨t, reached_asserted "-p" true, hrun, by rw [hatoms]; rfl, ?_⟩
  have hsame : t.atoms = (asserted "-p" true).atoms := by
    rcases (reached_asserted "-p" true).coherent.of_solveWith hrun with
      ⟨_, _, hdecided⟩ | ⟨hanswer, _⟩
    · exact hdecided.atoms_eq
    · cases hanswer
  have hunknown : (t.atoms.get? "p").isSome = false := by
    rw [Bool.eq_false_iff, hsame, ne_eq, isSome_get?_asserted]
    decide
  have hread : readAssumption "-p" = ("p", false) := by decide
  have hfail : ["-p"].mapM (assumptionLiteral t.atoms) = .error (.unknownAtom "p") := by
    rw [mapM_assumptionLiteral, List.find?_cons_of_pos (by rw [hread, hunknown]; rfl)]
    dsimp only
    rw [hread]
  rw [exec_solveWith_error hfail]

end Groundwork.Session
