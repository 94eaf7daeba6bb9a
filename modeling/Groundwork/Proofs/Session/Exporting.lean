import Groundwork.Proofs.AtomTable.Bijection
import Groundwork.Proofs.Dictionary
import Groundwork.Proofs.Dimacs
import Groundwork.Proofs.Session.Recorded

/-!
# Exported sessions

The export of a session in DIMACS form is read back as the clauses of the session, under the
largest of its atoms, as long as every ground atom stays in its comment.

* `mem_entries_document`: the ground atoms of the document are those of the table;
* `Recorded.toInt_lastLiteral`: the header gives the largest atom, as the literals are exported
  in order;
* `toDimacs_reads`: what is read after every run of operations, whatever the ground atoms say.
-/

namespace Groundwork

namespace Session

section

variable {β : Type} {s : Session β}

theorem mem_entries_document (hsound : s.atoms.Sound) {entry : String × Literal} :
    entry ∈ s.document.literals.entries ↔
      ∃ listed ∈ s.atoms.toList, (listed.2.text, Literal.ofAtom listed.1 true) = entry := by
  have hnodup : ((s.atoms.toList.map fun listed =>
      (listed.2.text, Literal.ofAtom listed.1 true)).map Prod.fst).Nodup := by
    rw [List.map_map]
    exact hsound.nodup_texts
  rw [← List.mem_map]
  exact (Dictionary.perm_ofList hnodup).mem_iff

/-- The literals are exported in increasing order. -/
theorem pairwise_exported (d : Document) :
    (Dimacs.exported d).Pairwise fun a b => a.2.toInt ≤ b.2.toInt := by
  refine (List.pairwise_mergeSort (fun a b c hab hbc => ?_) (fun a b => ?_) _).imp fun hle =>
    Int32.le_iff_toInt_le.1 (of_decide_eq_true hle)
  · exact decide_eq_true (Int32.le_trans (of_decide_eq_true hab) (of_decide_eq_true hbc))
  · simpa using Int32.le_total a.2 b.2

/-- No literal is greater than the one that the header gives. -/
theorem toInt_le_lastLiteral {d : Document} {entry : String × Literal}
    (h : entry ∈ d.literals.entries) :
    (∃ last ∈ d.literals.entries, last.2 = Dimacs.lastLiteral d) ∧
      entry.2.toInt ≤ (Dimacs.lastLiteral d).toInt := by
  have hmem : entry ∈ Dimacs.exported d := List.mem_mergeSort.2 h
  have hne : Dimacs.exported d ≠ [] := List.ne_nil_of_mem hmem
  have hlast : Dimacs.lastLiteral d = ((Dimacs.exported d).getLast hne).2 := by
    rw [Dimacs.lastLiteral, List.getLast?_eq_some_getLast hne]
    rfl
  refine ⟨⟨_, List.mem_mergeSort.1 (List.getLast_mem hne), hlast.symm⟩, ?_⟩
  rw [hlast]
  have hpairwise := pairwise_exported d
  rw [← List.dropLast_append_getLast hne] at hmem hpairwise
  rcases List.mem_append.1 hmem with hfront | hback
  · exact (List.pairwise_append.1 hpairwise).2.2 entry hfront _ List.mem_cons_self
  · exact Int.le_of_eq (by rw [List.mem_singleton.1 hback])

end

variable {minimise : Bool} {s : Session Solver}

theorem Recorded.toInt_lastLiteral (h : Recorded minimise s) :
    (Dimacs.lastLiteral s.document).toInt = s.atoms.largest := by
  have hsound := h.coherent.sound
  have hnumbers := h.dense.map_fst_toList
  have hword : ∀ listed ∈ s.atoms.toList, listed.1 ≤ s.atoms.largest ∧
      (Literal.ofAtom listed.1 true).toInt = listed.1 := by
    intro listed hlisted
    have hle : listed.1 ≤ s.atoms.largest := by
      have hmem := hnumbers ▸ List.mem_map_of_mem hlisted
      have := (List.mem_range'_1.1 hmem).2
      omega
    exact ⟨hle, Literal.toInt_ofAtom (Nat.le_trans hle h.coherent.largest_le) true⟩
  rcases Nat.eq_zero_or_pos s.atoms.largest with hzero | hpos
  · have hnil : Dimacs.exported s.document = [] := by
      refine List.eq_nil_iff_forall_not_mem.2 fun entry hentry => ?_
      obtain ⟨listed, hlisted, _⟩ := (mem_entries_document hsound).1 (List.mem_mergeSort.1 hentry)
      rw [hzero] at hnumbers
      have hmem := hnumbers ▸ List.mem_map_of_mem hlisted
      cases hmem
    rw [Dimacs.lastLiteral, hnil, hzero]
    rfl
  · have hmem : s.atoms.largest ∈ s.atoms.toList.map Prod.fst := by
      rw [hnumbers]
      exact List.mem_range'_1.2 (by omega)
    obtain ⟨listed, hlisted, heq⟩ := List.mem_map.1 hmem
    obtain ⟨⟨last, hlast, hsame⟩, hle⟩ :=
      toInt_le_lastLiteral ((mem_entries_document hsound).2 ⟨listed, hlisted, rfl⟩)
    obtain ⟨other, hother, rfl⟩ := (mem_entries_document hsound).1 hlast
    rw [← hsame] at hle ⊢
    have hbound := (hword other hother).1
    rw [(hword listed hlisted).2, (hword other hother).2] at hle
    rw [(hword other hother).2]
    omega

theorem Recorded.read?_toDimacs (h : Recorded minimise s) :
    Dimacs.read? s.document.toDimacs =
      if s.atoms.toList.all fun listed => Dimacs.quiet listed.2.text then
        some { atoms := s.atoms.largest, clauses := s.clauses.toList.map (·.map Int32.toInt) }
      else none := by
  have hliterals : ∀ c ∈ s.document.clauses, ∀ l ∈ c,
      l ≠ 0 ∧ Literal.atom l ≤ s.atoms.largest := by
    intro c hc l hl
    have hnamed := h.coherent.named c hc l hl
    obtain ⟨text, htext⟩ := Option.isSome_iff_exists.1 hnamed
    obtain ⟨entry, hentry, _⟩ := AtomTable.text?_eq_some_iff.1 htext
    exact ⟨(h.coherent.proper c hc l hl).1, (AtomTable.le_largest_of_entry? hentry).2⟩
  have hquiet : (s.document.literals.entries.all fun entry => Dimacs.quiet entry.1) =
      s.atoms.toList.all fun listed => Dimacs.quiet listed.2.text := by
    rw [Bool.eq_iff_iff, List.all_eq_true, List.all_eq_true]
    simp only [mem_entries_document h.coherent.sound]
    constructor
    · intro hall listed hlisted
      exact hall (listed.2.text, Literal.ofAtom listed.1 true) ⟨listed, hlisted, rfl⟩
    · rintro hall entry ⟨listed, hlisted, rfl⟩
      exact hall listed hlisted
  rw [Dimacs.read?_toDimacs h.toInt_lastLiteral hliterals, hquiet]
  rfl

/-- A ground atom without a newline stays in its comment. -/
theorem Recorded.read?_toDimacs_of_notMem (h : Recorded minimise s)
    (hlines : ∀ listed ∈ s.atoms.toList, '\n' ∉ listed.2.text.toList) :
    Dimacs.read? s.document.toDimacs =
      some { atoms := s.atoms.largest, clauses := s.clauses.toList.map (·.map Int32.toInt) } := by
  rw [h.read?_toDimacs, if_pos]
  exact List.all_eq_true.2 fun listed hlisted => Dimacs.quiet_of_notMem (hlines listed hlisted)

/-- After every run of operations, the export of the session says what the clauses of the session
are, under the largest of its atoms, if no ground atom says anything behind its first line.
Otherwise it is no text in DIMACS form. -/
theorem toDimacs_reads (options : Options) (ops : List Operation) :
    let s : Session Solver := ops.foldl Session.after (ofOptions options)
    Dimacs.read? s.document.toDimacs =
      if s.atoms.toList.all fun listed => Dimacs.quiet listed.2.text then
        some { atoms := s.atoms.largest, clauses := s.clauses.toList.map (·.map Int32.toInt) }
      else none :=
  (recorded_run options ops).read?_toDimacs

/-! ## A ground atom of two lines -/

/-- A session in which one ground atom was asserted. -/
def asserted (text : String) (polarity : Bool) : Session Solver :=
  (ofOptions {}).after (.assertAtom text polarity)

theorem meetAll_single (text : String) : ({} : AtomTable).meetAll [⟨text, []⟩] =
    { entries := #[some { text }], index := (∅ : Std.HashMap String Nat).insert text 1 } := by
  have hnone : ({} : AtomTable).get? text = none := Std.HashMap.getElem?_empty
  have hrecord : ({} : AtomTable).record text =
      { entries := #[some { text }], index := (∅ : Std.HashMap String Nat).insert text 1 } := by
    rw [AtomTable.record, hnone]
    rfl
  show (({} : AtomTable).record text).adoptPredicate (({} : AtomTable).numberOf text) [] = _
  rw [hrecord, AtomTable.numberOf, hnone]
  rfl

/-- An asserted ground atom is met, and its literal is handed over as a clause. -/
theorem Coherent.after_assertAtom {s : Session Solver} (h : s.Coherent Solver.Holds)
    {text : String} (hroom : (s.atoms.meetAll [⟨text, []⟩]).largest ≤ maxAtom) (polarity : Bool) :
    (s.after (.assertAtom text polarity)).atoms = s.atoms.meetAll [⟨text, []⟩] ∧
      (s.after (.assertAtom text polarity)).clauses.toList = s.clauses.toList ++
        [[(s.atoms.meetAll [⟨text, []⟩]).literalOf (text, polarity)]] := by
  have hencode := (AtomTable.encodes_encodeAtom [] (text, polarity)).run s.atoms h.sound
    h.largest_le hroom
  have hknown : ((s.atoms.meetAll [⟨text, []⟩]).get? text).isSome :=
    (AtomTable.known_meetAll _ _ _).2 (Or.inr List.mem_cons_self)
  have hnames : (s.atoms.meetAll [⟨text, []⟩]).Names
      ((s.atoms.meetAll [⟨text, []⟩]).literalOf (text, polarity)) :=
    (h.sound.meetAll _).names_literalOf hroom hknown
  obtain ⟨admission, backend, hadd⟩ := Solver.accepts s.backend
    [(s.atoms.meetAll [⟨text, []⟩]).literalOf (text, polarity)] fun l hl =>
      List.mem_singleton.1 hl ▸ AtomTable.Sound.proper hroom hnames
  have heq : s.after (.assertAtom text polarity) =
      Session.taken { s with atoms := s.atoms.meetAll [⟨text, []⟩] }
        [(s.atoms.meetAll [⟨text, []⟩]).literalOf (text, polarity)] admission backend := by
    show (exec (assertAtom text polarity) s).2 = _
    unfold assertAtom
    rw [exec_bind, exec_onAtoms, hencode]
    exact congrArg Prod.snd
      (exec_handClause_ok (s := { s with atoms := s.atoms.meetAll [⟨text, []⟩] }) hadd)
  rw [heq]
  exact ⟨rfl, Array.toList_push⟩

theorem asserted_spec (text : String) (polarity : Bool) :
    (asserted text polarity).atoms.toList = [(1, { text })] ∧
      (asserted text polarity).clauses.toList = [[Literal.ofAtom 1 polarity]] := by
  have hmet := meetAll_single text
  have hroom : (({} : AtomTable).meetAll [⟨text, []⟩]).largest ≤ maxAtom := by
    rw [hmet]
    show 1 ≤ maxAtom
    decide
  have hliteral : (({} : AtomTable).meetAll [⟨text, []⟩]).literalOf (text, polarity) =
      Literal.ofAtom 1 polarity := by
    rw [hmet, AtomTable.literalOf, AtomTable.get?, Std.HashMap.getElem?_insert_self]
    rfl
  obtain ⟨hatoms, hclauses⟩ := (Reached.ofOptions {}).coherent.after_assertAtom hroom polarity
  rw [asserted, hatoms, hclauses]
  constructor
  · show (({} : AtomTable).meetAll [⟨text, []⟩]).toList = _
    rw [hmet]
    rfl
  · show [] ++ [[(({} : AtomTable).meetAll [⟨text, []⟩]).literalOf (text, polarity)]] = _
    rw [hliteral]
    rfl

/-- The second line of the ground atom stands where the header is expected. -/
theorem toDimacs_unreadable :
    (asserted "p\n1 0" false).clauses.toList = [[-1]] ∧
      (asserted "p\n1 0" false).document.toDimacs = "c 1 p\n1 0\np cnf 1 1\n-1 0\n" ∧
      Dimacs.read? (asserted "p\n1 0" false).document.toDimacs = none := by
  obtain ⟨hatoms, hclauses⟩ := asserted_spec "p\n1 0" false
  refine ⟨hclauses, ?_, ?_⟩
  · have hentries : (asserted "p\n1 0" false).document.literals.entries = [("p\n1 0", 1)] := by
      unfold document
      rw [hatoms]
      simp [Dictionary.ofList, Dictionary.sortEntries, Dictionary.keepLast, Literal.ofAtom]
    have hlisted : (asserted "p\n1 0" false).document.clauses = [[-1]] := hclauses
    unfold Document.toDimacs
    rw [hentries, hlisted, List.mergeSort_singleton]
    rfl
  · have hrecorded : Recorded true (asserted "p\n1 0" false) :=
      recorded_run {} [.assertAtom "p\n1 0" false]
    rw [hrecorded.read?_toDimacs, hatoms]
    decide

end Session

end Groundwork
