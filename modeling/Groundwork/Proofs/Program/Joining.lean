import Groundwork.Proofs.Fallible
import Groundwork.Proofs.Program.Paragraphs
import Groundwork.Program
import Mathlib.Data.List.Basic

/-!
# Programs one after the other

A program that is read in two parts, with an empty line between them, is the program of the
first part followed by that of the second, which is read under the typings that the first
part leaves (`parse_append`).  The first part may not end within a comment.

The second part is read *behind* what is known by then: the steps of reading look at nothing
but the typings (`readParagraph_followedBy`).  Its faults stay behind those of the first part
when they are sorted, because all lines of the first part have smaller numbers.
-/

namespace Groundwork

/-- The fault, with so many lines before its text. -/
def ParseError.shift (k : Nat) : ParseError → ParseError
  | .malformedDeclaration line text => .malformedDeclaration (line + k) text
  | .malformedRule line defect => .malformedRule (line + k) defect

@[simp] theorem ParseError.line_shift (k : Nat) (e : ParseError) :
    (e.shift k).line = e.line + k := by
  cases e <;> rfl

namespace Program

/-! ## Sorting what is in order -/

section Sorting

variable {α : Type} {le : α → α → Bool}

/-- A list is cut in only one way between what does not lie above `a` and what does. -/
theorem takeWhile_eq {a : α} {below above : List α} (hbelow : ∀ b ∈ below, le a b = false)
    (habove : ∀ b ∈ above, le a b = true) :
    (below ++ above).takeWhile (fun b => !le a b) = below := by
  have hnil : above.takeWhile (fun b => !le a b) = [] := by
    cases above with
    | nil => rfl
    | cons b above => simp [habove b List.mem_cons_self]
  rw [List.takeWhile_append_of_pos fun b hb => by simp [hbelow b hb], hnil, List.append_nil]

theorem forall_above (htrans : ∀ a b c, le a b = true → le b c = true → le a c = true)
    (htotal : ∀ a b, (le a b || le b a) = true) {a : α} {xs below above : List α}
    (hsort : (a :: xs).mergeSort le = below ++ a :: above) : ∀ b ∈ above, le a b = true := by
  have hpairwise := List.pairwise_mergeSort htrans htotal (a :: xs)
  rw [hsort, List.pairwise_append] at hpairwise
  exact (List.pairwise_cons.1 hpairwise.2.1).1

/-- Both sides put an element at the same place into what is sorted without it. -/
theorem mergeSort_append_of_le (htrans : ∀ a b c, le a b = true → le b c = true → le a c = true)
    (htotal : ∀ a b, (le a b || le b a) = true) {xs ys : List α}
    (h : ∀ x ∈ xs, ∀ y ∈ ys, le x y = true) :
    (xs ++ ys).mergeSort le = xs.mergeSort le ++ ys.mergeSort le := by
  induction xs with
  | nil => simp
  | cons x xs ih =>
    have hrest := ih fun x' hx' => h x' (List.mem_cons_of_mem x hx')
    obtain ⟨below, above, hsort, hwithout, hbelow⟩ := List.mergeSort_cons htrans htotal x xs
    obtain ⟨below', above', hsort', hwithout', hbelow'⟩ :=
      List.mergeSort_cons htrans htotal x (xs ++ ys)
    have habove := forall_above htrans htotal hsort
    have habove' := forall_above htrans htotal hsort'
    have hparts : below' ++ above' = below ++ (above ++ ys.mergeSort le) := by
      rw [← hwithout', hrest, hwithout, List.append_assoc]
    have habove'' : ∀ b ∈ above ++ ys.mergeSort le, le x b = true := by
      intro b hb
      rcases List.mem_append.1 hb with hb | hb
      · exact habove b hb
      · exact h x List.mem_cons_self b (List.mem_mergeSort.1 hb)
    -- Both lists hold the same elements in the same order, so `x` is put at the same place.
    have hcut : below' = below := by
      have heq := takeWhile_eq (by simpa using hbelow') habove'
      rw [hparts, takeWhile_eq (by simpa using hbelow) habove''] at heq
      exact heq.symm
    subst hcut
    rw [List.cons_append, hsort', hsort, List.append_cancel_left hparts]
    simp

end Sorting

/-- The first program and then the second one, whose text has so many lines before it. -/
def followedBy (first : Program) (k : Nat) (second : Program) : Program where
  declarations := first.declarations ++ second.declarations
  rules := first.rules ++ second.rules
  diagnostics := first.diagnostics ++ second.diagnostics.map (ParseError.shift k)

/-! ## Reading behind what is known -/

namespace Progress

variable (earlier : Progress) (k : Nat)

/-- The progress on two texts, the later of which has so many lines before it. -/
def followedBy (p : Progress) : Progress where
  typings := p.typings
  declarations := earlier.declarations ++ p.declarations
  rules := earlier.rules ++ p.rules
  diagnostics := earlier.diagnostics ++ p.diagnostics.map (ParseError.shift k)

@[simp] theorem followedBy_note (p : Progress) (e : ParseError) :
    (earlier.followedBy k p).note (e.shift k) = earlier.followedBy k (p.note e) := by
  simp [followedBy, note]

@[simp] theorem followedBy_addDeclaration (p : Progress) (d : Declaration) :
    (earlier.followedBy k p).addDeclaration d = earlier.followedBy k (p.addDeclaration d) := by
  simp [followedBy, addDeclaration]

@[simp] theorem followedBy_addRule (p : Progress) (r : Rule) :
    (earlier.followedBy k p).addRule r = earlier.followedBy k (p.addRule r) := by
  simp [followedBy, addRule]

theorem followedBy_start : earlier.followedBy k ({ typings := earlier.typings } : Progress) = earlier := by
  simp [followedBy]

theorem readDeclaration_followedBy (p : Progress) (line : Line) :
    (earlier.followedBy k p).readDeclaration (line.shift k) =
      earlier.followedBy k (p.readDeclaration line) := by
  unfold readDeclaration
  rw [Line.shift_text]
  cases Declaration.read? line.text with
  | some d => exact followedBy_addDeclaration earlier k p d
  | none => exact followedBy_note earlier k p (.malformedDeclaration line.number _)

theorem foldl_readDeclaration_followedBy (p : Progress) (lines : List Line) :
    (lines.map (Line.shift k)).foldl readDeclaration (earlier.followedBy k p) =
      earlier.followedBy k (lines.foldl readDeclaration p) := by
  rw [List.foldl_map]
  exact List.foldl_hom (earlier.followedBy k) fun p line => readDeclaration_followedBy earlier k p line

theorem readStatement_followedBy (p : Progress) (lines : List Line) :
    (earlier.followedBy k p).readStatement (lines.map (Line.shift k)) =
      (p.readStatement lines).map (earlier.followedBy k) := by
  cases lines with
  | nil => rfl
  | cons first rest =>
    have htexts : (first.shift k :: rest.map (Line.shift k)).map (·.text) =
        (first :: rest).map (·.text) := by
      simp [Function.comp_def]
    have htypings : (earlier.followedBy k p).typings = p.typings := rfl
    unfold readStatement
    rw [List.map_cons]
    dsimp only
    rw [htexts, htypings]
    cases Statement.read p.typings ([' '].intercalate ((first :: rest).map (·.text))) with
    | ok rule => exact congrArg Except.ok (followedBy_addRule earlier k p rule)
    | error fault =>
      cases fault with
      | defect defect =>
        exact congrArg Except.ok (followedBy_note earlier k p (.malformedRule first.number defect))
      | overlap => rfl

theorem readParagraph_followedBy (p : Progress) (lines : List Line) :
    (earlier.followedBy k p).readParagraph (lines.map (Line.shift k)) =
      (p.readParagraph lines).map (earlier.followedBy k) := by
  unfold readParagraph
  rw [List.filter_map, List.filter_map]
  dsimp only
  exact (congrArg (fun q : Progress => q.readStatement _)
    (foldl_readDeclaration_followedBy earlier k p _)).trans (readStatement_followedBy earlier k _ _)

/-! ## The lines of faults -/

/-- The faults that have been noted are on the lines up to the bound. -/
def Within (bound : Nat) (p : Progress) : Prop :=
  ∀ e ∈ p.diagnostics, e.line ≤ bound

variable {bound : Nat} {p p' : Progress}

theorem Within.note (h : p.Within bound) {e : ParseError} (he : e.line ≤ bound) :
    (p.note e).Within bound := by
  intro e' he'
  rcases Array.mem_push.1 he' with he' | rfl
  · exact h e' he'
  · exact he

theorem Within.readDeclaration (h : p.Within bound) {line : Line} (hline : line.number ≤ bound) :
    (p.readDeclaration line).Within bound := by
  unfold Progress.readDeclaration
  split
  · exact h
  · exact h.note hline

theorem Within.foldl_readDeclaration (h : p.Within bound) {lines : List Line}
    (hlines : ∀ line ∈ lines, line.number ≤ bound) :
    (lines.foldl Progress.readDeclaration p).Within bound := by
  induction lines generalizing p with
  | nil => exact h
  | cons line lines ih =>
    exact ih (h.readDeclaration (hlines line List.mem_cons_self))
      fun later hlater => hlines later (List.mem_cons_of_mem line hlater)

theorem Within.readStatement (h : p.Within bound) {lines : List Line}
    (hlines : ∀ line ∈ lines, line.number ≤ bound) (hread : p.readStatement lines = .ok p') :
    p'.Within bound := by
  cases lines with
  | nil =>
    cases hread
    exact h
  | cons first rest =>
    unfold Progress.readStatement at hread
    dsimp only at hread
    split at hread
    · cases hread
      exact h
    · cases hread
      exact h.note (hlines first List.mem_cons_self)
    · cases hread

theorem Within.readParagraph (h : p.Within bound) {lines : List Line}
    (hlines : ∀ line ∈ lines, line.number ≤ bound) (hread : p.readParagraph lines = .ok p') :
    p'.Within bound := by
  refine (h.foldl_readDeclaration ?_).readStatement ?_ hread
  · exact fun line hline => hlines line (List.mem_of_mem_filter hline)
  · exact fun line hline => hlines line (List.mem_of_mem_filter hline)

/-- All faults of the first part are on lines before those of the second part. -/
theorem toProgram_followedBy {earlier : Progress} {k : Nat} (h : earlier.Within k)
    (p : Progress) :
    (earlier.followedBy k p).toProgram = earlier.toProgram.followedBy k p.toProgram := by
  have hsorted : (p.diagnostics.toList.map (ParseError.shift k)).mergeSort
      (fun a b => a.line ≤ b.line) =
      (p.diagnostics.toList.mergeSort fun a b => a.line ≤ b.line).map (ParseError.shift k) := by
    refine (List.map_mergeSort fun a _ b _ => ?_).symm
    simp
  have hbefore : ∀ e ∈ earlier.diagnostics.toList,
      ∀ e' ∈ p.diagnostics.toList.map (ParseError.shift k),
        decide (e.line ≤ e'.line) = true := by
    intro e he e' he'
    obtain ⟨later, _, rfl⟩ := List.mem_map.1 he'
    have hle := h e (Array.mem_toList_iff.1 he)
    rw [ParseError.line_shift, decide_eq_true_iff]
    omega
  unfold toProgram Program.followedBy followedBy
  simp only [Array.toList_append, Array.toList_map]
  rw [mergeSort_append_of_le (fun a b c hab hbc => ?_) (fun a b => ?_) hbefore, hsorted]
  · simp only [decide_eq_true_iff] at hab hbc ⊢
    omega
  · simp only [Bool.or_eq_true, decide_eq_true_iff]
    omega

end Progress

/-! ## Programs -/

/-- Notes the delimiter of a comment without a partner, if there is one. -/
def Progress.noteUnmatched (p : Progress) : Option Nat → Progress
  | some line => p.note (.malformedRule line .unmatchedComment)
  | none => p

theorem Progress.noteUnmatched_followedBy (earlier : Progress) (k : Nat) (p : Progress)
    (unmatched : Option Nat) :
    (earlier.followedBy k p).noteUnmatched (unmatched.map (· + k)) =
      earlier.followedBy k (p.noteUnmatched unmatched) := by
  cases unmatched with
  | none => rfl
  | some line => exact followedBy_note earlier k p (.malformedRule line .unmatchedComment)

theorem parse_eq (typings : Typings) (text : String) :
    parse typings text = (do
      let progress ← (paragraphs text.toList).paragraphs.foldlM Progress.readParagraph { typings }
      let progress := progress.noteUnmatched (paragraphs text.toList).unmatched
      return (progress.toProgram, progress.typings)) := by
  unfold parse
  generalize paragraphs text.toList = read
  obtain ⟨paragraphs, unmatched⟩ := read
  cases unmatched <;> rfl

/-- The paragraphs of the second text are read behind what is known from the first one. -/
theorem foldlM_readParagraph_shiftAll (earlier : Progress) (k : Nat)
    (paragraphs : List (List Line)) :
    (shiftAll k paragraphs).foldlM Progress.readParagraph earlier =
      (paragraphs.foldlM Progress.readParagraph { typings := earlier.typings }).map
        (earlier.followedBy k) := by
  have hbehind := Fallible.foldlM_hom (earlier.readParagraph_followedBy k) paragraphs
    { typings := earlier.typings }
  rwa [Progress.followedBy_start] at hbehind

theorem within_of_foldlM {typings : Typings} {text : List Char} {progress : Progress}
    (h : (paragraphs text).paragraphs.foldlM Progress.readParagraph { typings } = .ok progress) :
    progress.Within (text.count '\n' + 1) := by
  refine Fallible.foldlM_invariant_of_mem (fun lines hlines p p' hp hread => ?_) ?_ h
  · exact hp.readParagraph (fun line hline => number_le_of_mem_paragraphs hlines hline) hread
  · intro e he
    simp at he

/-- Reading is modular.  The lines of the second text are counted on from those of the
first one and from the empty line between them. -/
theorem parse_append (typings : Typings) (a b : String)
    (h : (paragraphs a.toList).unmatched = none) :
    parse typings (a ++ "\n\n" ++ b) = (do
      let (first, known) ← parse typings a
      let (second, later) ← parse known b
      return (first.followedBy (a.toList.count '\n' + 2) second, later)) := by
  have htext : (a ++ "\n\n" ++ b).toList = a.toList ++ '\n' :: '\n' :: b.toList := by
    simp
  rw [parse_eq, parse_eq typings a, htext, paragraphs_append h, h, Paragraphs.behind,
    List.foldlM_append]
  cases hfirst : (paragraphs a.toList).paragraphs.foldlM Progress.readParagraph { typings } with
  | error e => rfl
  | ok earlier =>
    have hwithin : earlier.Within (a.toList.count '\n' + 2) := fun e he =>
      Nat.le_succ_of_le (within_of_foldlM hfirst e he)
    -- The typings that the first text leaves are those that its last paragraph left.
    show (shiftAll _ _).foldlM Progress.readParagraph earlier >>= _ =
      parse earlier.typings b >>= _
    rw [foldlM_readParagraph_shiftAll, parse_eq]
    cases (paragraphs b.toList).paragraphs.foldlM Progress.readParagraph
        { typings := earlier.typings } with
    | error e => rfl
    | ok later =>
      show Except.ok (_, _) = Except.ok (_, _)
      rw [Progress.noteUnmatched_followedBy, Progress.toProgram_followedBy hwithin]
      rfl

/-- The first text types a variable and holds a comment that goes over an empty line; the
comment of the second text is never closed. -/
theorem parse_append_comments :
    (paragraphs "var x : s -- any\n\nof them -- p (x".toList).unmatched = none ∧
      parse ∅ ("var x : s -- any\n\nof them -- p (x" ++ "\n\n" ++ "p (x)\n\nq (x) -- all") = (do
        let (first, known) ← parse ∅ "var x : s -- any\n\nof them -- p (x"
        let (second, later) ← parse known "p (x)\n\nq (x) -- all"
        return (first.followedBy
          ("var x : s -- any\n\nof them -- p (x".toList.count '\n' + 2) second, later)) :=
  ⟨by decide, parse_append ∅ _ _ (by decide)⟩

end Program

end Groundwork
