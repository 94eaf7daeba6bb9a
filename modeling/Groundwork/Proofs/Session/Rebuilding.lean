import Groundwork.Proofs.Session.Installing
import Groundwork.Proofs.Session.Recorded
import Groundwork.Proofs.Session.Symbols

/-!
# Sessions that are rebuilt from their documents

A session that was made from options can be rebuilt from its document under the same options,
whatever was done to it.  The two sessions meet in what a document records: the entries of the
table of atoms, the list of clauses and the list of values.  The solvers are the same up to what
was found last, so that the sessions decide alike from there.

* `exists_setValues`, `exec_installClauses`: values and clauses go in as they are listed;
* `Recorded.exists_ofDocument`: what a session is rebuilt to;
* `document_rebuilds`: every session that is reached from options is rebuilt.
-/

namespace Groundwork

/-! ## Values -/

namespace ValueTable

variable {t : ValueTable}

theorem mem_toList_iff {domain function image : String} :
    (domain, function, image) ∈ t.toList ↔
      (domain, function) ∈ t.order.toList ∧ t.get? domain function = some image := by
  rw [toList, List.mem_filterMap]
  constructor
  · rintro ⟨⟨other, name⟩, hmem, hvalue⟩
    obtain ⟨value, hget, heq⟩ := Option.map_eq_some_iff.1 hvalue
    cases heq
    exact ⟨hmem, hget⟩
  · rintro ⟨hmem, hget⟩
    exact ⟨_, hmem, Option.map_eq_some_iff.2 ⟨image, hget, rfl⟩⟩

/-- The pair of a constant and a function, of a triple with its value. -/
def pairOf (triple : String × String × String) : String × String :=
  (triple.1, triple.2.1)

theorem Legal.map_toList (h : t.Legal) : t.toList.map pairOf = t.order.toList := by
  have hall : ∀ pair ∈ t.order.toList,
      Option.map pairOf ((t.get? pair.1 pair.2).map fun image => (pair.1, pair.2, image)) =
        some pair := by
    intro pair hpair
    obtain ⟨image, himage⟩ := Option.isSome_iff_exists.1 ((h.mem_order_iff pair.1 pair.2).1 hpair)
    rw [himage]
    rfl
  rw [toList, List.map_filterMap, List.filterMap_congr hall, List.filterMap_some]

/-- The value of a new pair is listed last. -/
theorem Legal.toList_set (h : t.Legal) {domain function : String} (image : String)
    (hfresh : t.get? domain function = none) :
    (t.set domain function image).2.toList = t.toList ++ [(domain, function, image)] := by
  have hnew : (domain, function) ∉ t.order.toList := by
    rw [h.mem_order_iff, hfresh]
    simp
  rw [toList, toList, order_set, if_neg (by simp [hfresh]), List.filterMap_append]
  congr 1
  · refine List.filterMap_congr fun pair hpair => ?_
    have hne : (pair.1, pair.2) ≠ (domain, function) := fun hsame => hnew (hsame ▸ hpair)
    show ((t.set domain function image).2.get? pair.1 pair.2).map _ = _
    rw [get?_set, if_neg hne]
  · simp [get?_set]

end ValueTable

namespace Session

theorem exec_setValue {β : Type} {domain function image : String}
    (hdomain : legalToken domain = true) (hfunction : legalToken function = true)
    (himage : legalToken image = true) (s : Session β) :
    exec (setValue domain function image) s =
      (.ok (s.values.get? domain function),
        { s with stage := .input, values := (s.values.set domain function image).2 }) := by
  have hnone : ([domain, function, image].find? fun name => !legalToken name) = none := by
    simp [hdomain, hfunction, himage]
  unfold setValue
  rw [hnone]
  rfl

/-- Values of distinct pairs go in as they are listed. -/
theorem exists_setValues (listed : List (String × String × String))
    (hlegal : ∀ x ∈ listed, legalToken x.1 = true ∧ legalToken x.2.1 = true ∧
      legalToken x.2.2 = true)
    (hnodup : (listed.map ValueTable.pairOf).Nodup) {s : Session Solver} (hs : s.values.Legal)
    (hfresh : ∀ x ∈ listed, s.values.get? x.1 x.2.1 = none) :
    ∃ t, exec (listed.forM fun (domain, function, image) =>
        discard (setValue domain function image)) s = (.ok (), t) ∧ SameInstance s t ∧
      t.values.toList = s.values.toList ++ listed := by
  induction listed generalizing s with
  | nil => exact ⟨s, rfl, SameInstance.refl s, (List.append_nil _).symm⟩
  | cons x listed ih =>
    obtain ⟨domain, function, image⟩ := x
    obtain ⟨hdomain, hfunction, himage⟩ := hlegal _ List.mem_cons_self
    have hnew : s.values.get? domain function = none := hfresh _ List.mem_cons_self
    obtain ⟨hnot, hnodup⟩ := List.nodup_cons.1 hnodup
    obtain ⟨t, hrest, hsame, hlist⟩ := ih (fun y hy => hlegal y (List.mem_cons_of_mem _ hy)) hnodup
      (s := { s with stage := .input, values := (s.values.set domain function image).2 })
      (hs.set hdomain hfunction himage) fun y hy => by
        have hne : (y.1, y.2.1) ≠ (domain, function) := fun hpair =>
          hnot (List.mem_map.2 ⟨y, hy, hpair⟩)
        show (s.values.set domain function image).2.get? y.1 y.2.1 = none
        rw [ValueTable.get?_set, if_neg hne]
        exact hfresh y (List.mem_cons_of_mem _ hy)
    have hfirst : exec (discard (setValue domain function image)) s =
        (.ok (), { s with stage := .input, values := (s.values.set domain function image).2 }) := by
      rw [exec_discard, exec_setValue hdomain hfunction himage]
      rfl
    refine ⟨t, (exec_bind_ok hfirst).trans hrest, ?_, ?_⟩
    · have hset : SameInstance s
          { s with stage := .input, values := (s.values.set domain function image).2 } :=
        ⟨rfl, rfl, rfl, Or.inr rfl⟩
      exact hset.trans hsame
    · rw [hlist, hs.toList_set image hnew, List.append_assoc, List.singleton_append]

/-! ## Clauses -/

/-- Clauses over known ground atoms go in as any other clauses do. -/
theorem exec_installClauses {clauses : List Clause} {s : Session Solver}
    (hproper : ∀ c ∈ clauses, ∀ l ∈ c, Literal.Proper l)
    (hnames : ∀ c ∈ clauses, ∀ l ∈ c, s.atoms.Names l) :
    exec (clauses.forM installClause) s = exec (clauses.forM handClause) s := by
  induction clauses generalizing s with
  | nil => rfl
  | cons c clauses ih =>
    obtain ⟨admission, backend, hadd⟩ :=
      Solver.accepts s.backend c (hproper c List.mem_cons_self)
    have hhand := exec_handClause_ok hadd
    have hknown : (c.find? fun l => (s.atoms.text? (Literal.atom l)).isNone) = none := by
      refine List.find?_eq_none.2 fun l hl => ?_
      rw [Option.isNone_iff_eq_none, ← ne_eq, ← Option.isSome_iff_ne_none]
      exact hnames c List.mem_cons_self l hl
    have hinstall : exec (installClause c) s = exec (handClause c) s := by
      unfold installClause
      rw [exec_bind, exec_get]
      dsimp only
      rw [hknown]
    have hrest := ih (s := s.taken c admission backend)
      (fun c' hc' => hproper c' (List.mem_cons_of_mem _ hc'))
      (fun c' hc' => hnames c' (List.mem_cons_of_mem _ hc'))
    show exec (installClause c >>= fun _ => clauses.forM installClause) s =
      exec (handClause c >>= fun _ => clauses.forM handClause) s
    rw [exec_bind_ok (hinstall.trans hhand), exec_bind_ok hhand, hrest]

/-! ## Documents -/

variable {s t : Session Solver}

/-- What a session is rebuilt to from its document. -/
theorem Recorded.exists_ofDocument {options : Options}
    (h : Recorded options.minimiseCore s) (hvalues : s.values.Legal) :
    ∃ t, ofDocument s.document options = .ok t ∧ t.atoms.Sound ∧
      t.atoms.entries = s.atoms.entries ∧ t.clauses = s.clauses ∧
      t.values.toList = s.values.toList ∧ t.backend = s.backend.forget := by
  obtain ⟨atoms, hatoms, hsound, hentries⟩ := AtomTable.exists_ofDocument h.coherent.sound h.dense
    h.coherent.largest_le h.fitting (d := s.document) rfl rfl
  have hnames : ∀ c ∈ s.clauses.toList, ∀ l ∈ c, atoms.Names l := by
    intro c hc l hl
    have hname := h.coherent.named c hc l hl
    rwa [AtomTable.Names, AtomTable.text?_eq hentries]
  obtain ⟨counters, hhand⟩ :=
    exec_handClauses_solver h.coherent.proper { ofOptions options with atoms }
  have hinstall := exec_installClauses (s := { ofOptions options with atoms })
    h.coherent.proper hnames
  obtain ⟨t, hset, hsame, hlist⟩ := exists_setValues
    (s := withClauses { ofOptions options with atoms } s.clauses.toList counters) s.values.toList
    (fun x hx => hvalues.tokens x.1 x.2.1 x.2.2 (ValueTable.mem_toList_iff.1 hx).2)
    (hvalues.map_toList ▸ hvalues.nodup) ValueTable.legal_empty
    (fun _ _ => Std.HashMap.getElem?_empty)
  refine ⟨t, ofDocument_eq_ok_iff.2 ?_, ?_, ?_, ?_, ?_, ?_⟩
  · unfold installDocument
    rw [hatoms, exec_bind, exec_orFail_ok]
    dsimp only
    rw [exec_bind, exec_modify]
    dsimp only
    exact (exec_bind_ok (hinstall.trans hhand)).trans hset
  · rw [hsame.atoms_eq]
    exact hsound
  · rw [hsame.atoms_eq]
    exact hentries
  · rw [hsame.clauses_eq]
    exact Array.ext' ((clauses_withClauses _ _ _).trans (List.nil_append _))
  · exact hlist
  · rw [hsame.backend_eq, h.backend_eq]
    rfl

/-- The second session has the record of the first, and the two decide alike. -/
structure Restates (s t : Session Solver) : Prop where
  /-- The same ground atoms have the same numbers and the same predicates. -/
  atoms_eq : t.atoms.toList = s.atoms.toList
  get?_eq : ∀ text, t.atoms.get? text = s.atoms.get? text
  clauses_eq : t.clauses = s.clauses
  values_eq : t.values.toList = s.values.toList
  document_eq : t.document = s.document
  /-- Decisions answer with the same verdict and the same model, or with the same error. -/
  solveWith_eq : ∀ assumptions,
    (exec (solveWith assumptions) t).1 = (exec (solveWith assumptions) s).1
  core_eq : ∀ assumptions answer, (exec (solveWith assumptions) s).1 = .ok answer →
    (exec (solveWith assumptions) t).2.core = (exec (solveWith assumptions) s).2.core

theorem document_eq (hatoms : t.atoms.toList = s.atoms.toList) (hclauses : t.clauses = s.clauses)
    (hvalues : t.values.toList = s.values.toList) : t.document = s.document := by
  unfold document
  rw [hatoms, hclauses, hvalues]

theorem decided_core_eq (htext : literalText? t.atoms = literalText? s.atoms)
    (assumptions : List String) (backend : Solver) (stage : Stage) :
    (t.decided assumptions backend stage).core = (s.decided assumptions backend stage).core := by
  unfold core
  show (if stage = _ then _ else _) = if stage = _ then _ else _
  rw [show (t.decided assumptions backend stage).atoms = t.atoms from rfl, htext]
  rfl

/-- A solver does not decide by what it found before. -/
theorem Coherent.solveWith_alike {holds : Solver → List Clause → Prop} (h : s.Coherent holds)
    (hget : ∀ text, t.atoms.get? text = s.atoms.get? text)
    (htext : literalText? t.atoms = literalText? s.atoms) (hbackend : t.backend = s.backend.forget)
    (assumptions : List String) :
    (exec (solveWith assumptions) t).1 = (exec (solveWith assumptions) s).1 ∧
      ∀ answer, (exec (solveWith assumptions) s).1 = .ok answer →
        (exec (solveWith assumptions) t).2.core = (exec (solveWith assumptions) s).2.core := by
  have hread := mapM_assumptionLiteral s.atoms assumptions
  have hread' : assumptions.mapM (assumptionLiteral t.atoms) =
      assumptions.mapM (assumptionLiteral s.atoms) := by
    congr 1
    funext assumption
    rw [assumptionLiteral_eq, assumptionLiteral_eq, AtomTable.literalOf, AtomTable.literalOf, hget]
  cases hfind : assumptions.find? fun a => !(s.atoms.get? (readAssumption a).1).isSome with
  | some a =>
    rw [hfind] at hread
    rw [hread] at hread'
    rw [exec_solveWith_error hread, exec_solveWith_error hread']
    refine ⟨rfl, fun answer hanswer => ?_⟩
    cases hanswer
  | none =>
    rw [hfind] at hread
    rw [hread] at hread'
    have hproper := h.proper_literals (find?_unknown_eq_none_iff.1 hfind)
    have hsolve : Backend.solve t.backend ((assumptions.map readAssumption).map s.atoms.literalOf) =
        Backend.solve s.backend ((assumptions.map readAssumption).map s.atoms.literalOf) := by
      rw [hbackend]
      exact Solver.solve_forget hproper s.backend
    rw [exec_solveWith_ok hread, exec_solveWith_ok hread', hsolve]
    split
    · exact ⟨rfl, fun _ _ => decided_core_eq htext _ _ _⟩
    · exact ⟨rfl, fun _ _ => decided_core_eq htext _ _ _⟩
    · exact ⟨rfl, fun _ _ => decided_core_eq htext _ _ _⟩
    · refine ⟨rfl, fun answer hanswer => ?_⟩
      cases hanswer

/-- Every session that is reached from options is rebuilt from its document under the same
options, to one that has the same record and decides alike. -/
theorem document_rebuilds (options : Options) (ops : List Operation) :
    ∃ t, ofDocument (ops.foldl Session.after (ofOptions options)).document options = .ok t ∧
      (ops.foldl Session.after (ofOptions options)).Restates t := by
  have hrecorded := recorded_run options ops
  have hlegal : (ops.foldl Session.after (ofOptions options)).Legal :=
    ((Reached.ofOptions options).run ops).legal
  generalize ops.foldl Session.after (ofOptions options) = s at hrecorded hlegal
  obtain ⟨t, hdocument, hsound, hentries, hclauses, hvalues, hbackend⟩ :=
    hrecorded.exists_ofDocument hlegal.values
  have hget := hrecorded.coherent.sound.get?_eq hsound hentries
  have htext : literalText? t.atoms = literalText? s.atoms := by
    funext l
    rw [literalText?, literalText?, AtomTable.text?_eq hentries]
  have hatoms := AtomTable.toList_eq hentries
  have halike := hrecorded.coherent.solveWith_alike hget htext hbackend
  exact ⟨t, hdocument, hatoms, hget, hclauses, hvalues, document_eq hatoms hclauses hvalues,
    fun assumptions => (halike assumptions).1, fun assumptions => (halike assumptions).2⟩

end Session

end Groundwork
