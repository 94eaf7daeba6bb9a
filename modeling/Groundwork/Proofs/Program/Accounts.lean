import Groundwork.Proofs.Program.Joining
import Groundwork.Proofs.Program.Separators

/-!
# What becomes of a program

Reading a program stops without a result exactly if some statement has separators that
overlap.  Otherwise every declaration and every statement of the program is read or noted with
its line, and so is a comment that is never closed (`parse_accounts`).

A paragraph adds to what has been read and takes nothing away (`readParagraph_spec`), so what
it leaves is still there at the end.
-/

namespace Groundwork.Program

/-- The lines of a paragraph that make up its statement. -/
def statementLines (lines : List Line) : List Line :=
  lines.filter fun line => !Declaration.isDeclaration line.text

/-- The statement of a paragraph. -/
def statementText (lines : List Line) : List Char :=
  [' '].intercalate ((statementLines lines).map (·.text))

/-- The declaration on a line is in the program, or its fault is, with the line. -/
structure CoversDeclaration (program : Program) (line : Line) : Prop where
  read : ∀ d, Declaration.read? line.text = some d → d ∈ program.declarations
  noted : Declaration.read? line.text = none →
    .malformedDeclaration line.number (String.ofList line.text) ∈ program.diagnostics

/-- The statement of a paragraph is in the program, or its fault is, with its first line.
Typings decide which variables a rule has, but not whether it can be read. -/
structure CoversStatement (program : Program) (lines : List Line) : Prop where
  read : statementLines lines ≠ [] →
    (∃ known rule, Statement.read known (statementText lines) = .ok rule) →
      ∃ known, ∃ rule ∈ program.rules, Statement.read known (statementText lines) = .ok rule
  noted : ∀ first rest, statementLines lines = first :: rest → ∀ known defect,
    Statement.read known (statementText lines) = .error (.defect defect) →
      .malformedRule first.number defect ∈ program.diagnostics

theorem coversStatement_of_nil {program : Program} {lines : List Line}
    (hstated : statementLines lines = []) : program.CoversStatement lines := by
  refine ⟨fun hne _ => absurd hstated hne, fun first rest heq => ?_⟩
  rw [hstated] at heq
  cases heq

theorem coversStatement_of_rule {program : Program} {lines : List Line} {known : Typings}
    {rule : Rule} (hread : Statement.read known (statementText lines) = .ok rule)
    (hrule : rule ∈ program.rules) : program.CoversStatement lines := by
  refine ⟨fun _ _ => ⟨known, rule, hrule, hread⟩, fun first rest _ known' defect hread' => ?_⟩
  rw [Statement.read_eq_error_congr _ known hread'] at hread
  cases hread

theorem coversStatement_of_defect {program : Program} {lines rest : List Line} {first : Line}
    (hstated : statementLines lines = first :: rest) {known : Typings} {defect : RuleDefect}
    (hread : Statement.read known (statementText lines) = .error (.defect defect))
    (hnoted : .malformedRule first.number defect ∈ program.diagnostics) :
    program.CoversStatement lines := by
  refine ⟨fun _ hok => ?_, fun first' rest' heq known' defect' hread' => ?_⟩
  · obtain ⟨known', rule, hok⟩ := hok
    rw [Statement.read_eq_error_congr _ known' hread] at hok
    cases hok
  · rw [hstated, List.cons.injEq] at heq
    rw [Statement.read_eq_error_congr _ known' hread] at hread'
    cases hread'
    rwa [← heq.1]

/-- All of a paragraph is in the program, or its faults are. -/
structure Covers (program : Program) (lines : List Line) : Prop where
  declarations : ∀ line ∈ lines, Declaration.isDeclaration line.text = true →
    program.CoversDeclaration line
  statement : program.CoversStatement lines

namespace Progress

variable {p p' p'' : Progress} {lines : List Line}

theorem mem_declarations_toProgram {d : Declaration} :
    d ∈ p.toProgram.declarations ↔ d ∈ p.declarations :=
  Array.mem_toList_iff

theorem mem_rules_toProgram {r : Rule} : r ∈ p.toProgram.rules ↔ r ∈ p.rules :=
  Array.mem_toList_iff

theorem mem_diagnostics_toProgram {e : ParseError} :
    e ∈ p.toProgram.diagnostics ↔ e ∈ p.diagnostics := by
  rw [toProgram, List.mem_mergeSort, Array.mem_toList_iff]

/-- Nothing that was read or noted is lost. -/
structure Extends (p p' : Progress) : Prop where
  declarations : ∀ d ∈ p.declarations, d ∈ p'.declarations
  rules : ∀ r ∈ p.rules, r ∈ p'.rules
  diagnostics : ∀ e ∈ p.diagnostics, e ∈ p'.diagnostics

theorem Extends.refl (p : Progress) : p.Extends p :=
  ⟨fun _ h => h, fun _ h => h, fun _ h => h⟩

theorem Extends.trans (h : p.Extends p') (h' : p'.Extends p'') : p.Extends p'' :=
  ⟨fun d hd => h'.declarations d (h.declarations d hd), fun r hr => h'.rules r (h.rules r hr),
    fun e he => h'.diagnostics e (h.diagnostics e he)⟩

theorem extends_note (p : Progress) (e : ParseError) : p.Extends (p.note e) :=
  ⟨fun _ h => h, fun _ h => h, fun _ h => Array.mem_push_of_mem _ h⟩

theorem extends_addRule (p : Progress) (r : Rule) : p.Extends (p.addRule r) :=
  ⟨fun _ h => h, fun _ h => Array.mem_push_of_mem _ h, fun _ h => h⟩

theorem extends_readDeclaration (p : Progress) (line : Line) :
    p.Extends (p.readDeclaration line) := by
  unfold readDeclaration
  split
  · exact ⟨fun _ h => Array.mem_push_of_mem _ h, fun _ h => h, fun _ h => h⟩
  · exact p.extends_note _

theorem extends_foldl_readDeclaration (p : Progress) (lines : List Line) :
    p.Extends (lines.foldl readDeclaration p) := by
  induction lines generalizing p with
  | nil => exact .refl p
  | cons line lines ih => exact (p.extends_readDeclaration line).trans (ih _)

/-- What is covered stays covered when more is read. -/
theorem Extends.coversDeclaration (h : p.Extends p') {line : Line}
    (hcovers : p.toProgram.CoversDeclaration line) : p'.toProgram.CoversDeclaration line := by
  refine ⟨fun d hd => ?_, fun hnone => ?_⟩
  · have hmem := hcovers.read d hd
    rw [mem_declarations_toProgram] at hmem ⊢
    exact h.declarations d hmem
  · have hmem := hcovers.noted hnone
    rw [mem_diagnostics_toProgram] at hmem ⊢
    exact h.diagnostics _ hmem

theorem Extends.coversStatement (h : p.Extends p') (hcovers : p.toProgram.CoversStatement lines) :
    p'.toProgram.CoversStatement lines := by
  refine ⟨fun hne hread => ?_, fun first rest heq known defect hread => ?_⟩
  · obtain ⟨known, rule, hrule, hread⟩ := hcovers.read hne hread
    rw [mem_rules_toProgram] at hrule
    exact ⟨known, rule, mem_rules_toProgram.2 (h.rules rule hrule), hread⟩
  · have hmem := hcovers.noted first rest heq known defect hread
    rw [mem_diagnostics_toProgram] at hmem ⊢
    exact h.diagnostics _ hmem

theorem Extends.covers (h : p.Extends p') (hcovers : p.toProgram.Covers lines) :
    p'.toProgram.Covers lines :=
  ⟨fun line hline his => h.coversDeclaration (hcovers.declarations line hline his),
    h.coversStatement hcovers.statement⟩

/-! ## What a paragraph leaves -/

theorem covers_readDeclaration (p : Progress) (line : Line) :
    (p.readDeclaration line).toProgram.CoversDeclaration line := by
  refine ⟨fun d hd => mem_declarations_toProgram.2 ?_,
    fun hnone => mem_diagnostics_toProgram.2 ?_⟩
  · rw [readDeclaration, hd]
    exact Array.mem_push_self
  · rw [readDeclaration, hnone]
    exact Array.mem_push_self

theorem covers_foldl_readDeclaration (p : Progress) {line : Line} (hline : line ∈ lines) :
    (lines.foldl readDeclaration p).toProgram.CoversDeclaration line := by
  induction lines generalizing p with
  | nil => cases hline
  | cons first lines ih =>
    rcases List.mem_cons.1 hline with rfl | hline
    · exact (extends_foldl_readDeclaration _ lines).coversDeclaration (p.covers_readDeclaration line)
    · exact ih (p.readDeclaration first) hline

/-- A statement is read, noted, or stops the reading. -/
theorem readStatement_spec (p : Progress) (first : Line) (rest : List Line) :
    let text := [' '].intercalate ((first :: rest).map (·.text))
    (Statement.read p.typings text = .error .overlap ∧
        p.readStatement (first :: rest) = .error .overlappingSeparators) ∨
      (∃ defect, Statement.read p.typings text = .error (.defect defect) ∧
        p.readStatement (first :: rest) = .ok (p.note (.malformedRule first.number defect))) ∨
      ∃ rule, Statement.read p.typings text = .ok rule ∧
        p.readStatement (first :: rest) = .ok (p.addRule rule) := by
  intro text
  unfold readStatement
  dsimp only
  cases hread : Statement.read p.typings text with
  | ok rule => exact Or.inr (Or.inr ⟨rule, rfl, rfl⟩)
  | error fault =>
    cases fault with
    | overlap => exact Or.inl ⟨rfl, rfl⟩
    | defect defect => exact Or.inr (Or.inl ⟨defect, rfl, rfl⟩)

/-- A statement that has a reading is covered once it is read. -/
theorem readStatement_covers (p : Progress) (lines : List Line) :
    (Statement.Overlapping (statementText lines) ∧
        p.readStatement (statementLines lines) = .error .overlappingSeparators) ∨
      (¬ Statement.Overlapping (statementText lines) ∧
        ∃ p', p.readStatement (statementLines lines) = .ok p' ∧ p.Extends p' ∧
          p'.toProgram.CoversStatement lines) := by
  cases hstated : statementLines lines with
  | nil =>
    refine Or.inr ⟨fun h => ?_, p, rfl, .refl p, coversStatement_of_nil hstated⟩
    obtain ⟨before, _, after, htext⟩ := h.shared
    rw [statementText, hstated] at htext
    simp at htext
  | cons first rest =>
    have hspec := p.readStatement_spec first rest
    rw [← hstated, ← statementText, hstated] at hspec
    dsimp only at hspec
    rcases hspec with ⟨hread, hfails⟩ | ⟨defect, hread, hnotes⟩ | ⟨rule, hread, hadds⟩
    · exact Or.inl ⟨Statement.read_eq_overlap_iff.1 hread, hfails⟩
    · refine Or.inr ⟨Statement.not_overlapping_of_read (by rw [hread]; nofun), _, hnotes,
        p.extends_note _, coversStatement_of_defect hstated hread ?_⟩
      exact mem_diagnostics_toProgram.2 Array.mem_push_self
    · refine Or.inr ⟨Statement.not_overlapping_of_read (by rw [hread]; nofun), _, hadds,
        p.extends_addRule rule, coversStatement_of_rule hread ?_⟩
      exact mem_rules_toProgram.2 Array.mem_push_self

/-- A paragraph is covered once it is read, unless its statement has no reading. -/
theorem readParagraph_spec (p : Progress) (lines : List Line) :
    (Statement.Overlapping (statementText lines) ∧
        p.readParagraph lines = .error .overlappingSeparators) ∨
      (¬ Statement.Overlapping (statementText lines) ∧
        ∃ p', p.readParagraph lines = .ok p' ∧ p.Extends p' ∧ p'.toProgram.Covers lines) := by
  have hbefore := p.extends_foldl_readDeclaration
    (lines.filter fun line => Declaration.isDeclaration line.text)
  rcases readStatement_covers ((lines.filter fun line =>
      Declaration.isDeclaration line.text).foldl readDeclaration p) lines with
    ⟨hoverlap, hread⟩ | ⟨hnone, p', hread, hafter, hcovers⟩
  · exact Or.inl ⟨hoverlap, hread⟩
  · refine Or.inr ⟨hnone, p', hread, hbefore.trans hafter, fun line hline his => ?_, hcovers⟩
    exact hafter.coversDeclaration
      (p.covers_foldl_readDeclaration (List.mem_filter.2 ⟨hline, his⟩))

end Progress

/-- The induction is on the paragraphs; later ones take nothing away. -/
theorem foldlM_readParagraph_spec (p : Progress) (paragraphs : List (List Line)) :
    ((∃ lines ∈ paragraphs, Statement.Overlapping (statementText lines)) ∧
        paragraphs.foldlM Progress.readParagraph p = .error .overlappingSeparators) ∨
      ((∀ lines ∈ paragraphs, ¬ Statement.Overlapping (statementText lines)) ∧
        ∃ p', paragraphs.foldlM Progress.readParagraph p = .ok p' ∧ p.Extends p' ∧
          ∀ lines ∈ paragraphs, p'.toProgram.Covers lines) := by
  induction paragraphs generalizing p with
  | nil => exact Or.inr ⟨by simp, p, rfl, .refl p, by simp⟩
  | cons first paragraphs ih =>
    rw [List.foldlM_cons]
    rcases p.readParagraph_spec first with ⟨hoverlap, hread⟩ | ⟨hfirst, q, hread, hq, hcovers⟩
    · refine Or.inl ⟨⟨first, List.mem_cons_self, hoverlap⟩, ?_⟩
      rw [hread]
      rfl
    · rw [hread]
      rcases ih q with ⟨⟨lines, hlines, hoverlap⟩, hrest⟩ | ⟨hnone, p', hrest, hp', hlater⟩
      · exact Or.inl ⟨⟨lines, List.mem_cons_of_mem first hlines, hoverlap⟩, hrest⟩
      · refine Or.inr ⟨List.forall_mem_cons.2 ⟨hfirst, hnone⟩, p', hrest, hq.trans hp', ?_⟩
        exact List.forall_mem_cons.2 ⟨hp'.covers hcovers, hlater⟩

/-- Reading a program fails only because of separators that overlap.  If it does not, every
paragraph is covered, and a comment that is never closed is noted with its line. -/
theorem parse_accounts (typings : Typings) (text : String) :
    (parse typings text = .error .overlappingSeparators ∧
        ∃ lines ∈ (paragraphs text.toList).paragraphs,
          Statement.Overlapping (statementText lines)) ∨
      ∃ program later, parse typings text = .ok (program, later) ∧
        (∀ lines ∈ (paragraphs text.toList).paragraphs,
          ¬ Statement.Overlapping (statementText lines)) ∧
        (∀ lines ∈ (paragraphs text.toList).paragraphs, program.Covers lines) ∧
        ∀ line, (paragraphs text.toList).unmatched = some line →
          .malformedRule line .unmatchedComment ∈ program.diagnostics := by
  rw [parse_eq]
  rcases foldlM_readParagraph_spec { typings } (paragraphs text.toList).paragraphs with
    ⟨hoverlap, hread⟩ | ⟨hnone, p, hread, _, hcovers⟩
  · rw [hread]
    exact Or.inl ⟨rfl, hoverlap⟩
  · rw [hread]
    cases hunmatched : (paragraphs text.toList).unmatched with
    | none => exact Or.inr ⟨_, _, rfl, hnone, hcovers, fun line hline => by cases hline⟩
    | some opened =>
      refine Or.inr ⟨_, _, rfl, hnone, fun lines hlines => ?_, fun line hline => ?_⟩
      · exact (p.extends_note _).covers (hcovers lines hlines)
      · cases hline
        exact Progress.mem_diagnostics_toProgram.2 Array.mem_push_self

/-- Not every program is read through.  The first two separators of this one share a space, and
the last two leave nothing between them. -/
theorem parse_fails_on_shared_space :
    ¬ ∀ (typings : Typings) (text : String),
      ∃ program later, parse typings text = .ok (program, later) := by
  intro h
  obtain ⟨program, later, hparse⟩ := h ∅ "p (a) v v q (a) v  v r (a)"
  have hfails : parse ∅ "p (a) v v q (a) v  v r (a)" = .error .overlappingSeparators := rfl
  rw [hfails] at hparse
  cases hparse

end Groundwork.Program
