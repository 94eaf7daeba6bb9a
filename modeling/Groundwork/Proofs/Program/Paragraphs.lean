import Groundwork.Program.Paragraph
import Mathlib.Data.List.Basic

/-!
# Paragraphs of joined texts

A text without an unmatched comment, followed by an empty line and another text, has the
paragraphs of the one and then those of the other (`paragraphs_append`).  The lines of the
later text are counted on from those of the earlier one, and nothing else of it changes:
the reading of its lines goes on *behind* what is complete by then (`behind_addLine`).
-/

namespace Groundwork.Program

/-- The line, with so many lines before its text. -/
def Line.shift (k : Nat) (line : Line) : Line :=
  { line with number := line.number + k }

@[simp] theorem Line.shift_text (k : Nat) (line : Line) : (line.shift k).text = line.text :=
  rfl

/-- The paragraphs, with so many lines before them. -/
def shiftAll (k : Nat) (paragraphs : List (List Line)) : List (List Line) :=
  paragraphs.map fun lines => lines.map (Line.shift k)

/-- The paragraphs of a text that follows the given ones and so many lines. -/
def Paragraphs.behind (earlier : List (List Line)) (k : Nat) (p : Paragraphs) : Paragraphs where
  paragraphs := earlier ++ shiftAll k p.paragraphs
  unmatched := p.unmatched.map (· + k)

namespace Reading

/-- The reading of a text that follows the given paragraphs and so many lines. -/
def behind (earlier : Array (List Line)) (k : Nat) (r : Reading) : Reading where
  done := earlier ++ r.done.map fun lines => lines.map (Line.shift k)
  current := r.current.map (Line.shift k)
  opening := r.opening.map fun opening =>
    { line := opening.line + k, paragraph := earlier.size + opening.paragraph }

theorem behind_close (earlier : Array (List Line)) (k : Nat) (r : Reading) :
    (r.behind earlier k).close = r.close.behind earlier k := by
  unfold close
  by_cases hempty : r.current.isEmpty = true
  · rw [if_pos hempty, if_pos (by simpa [behind] using hempty)]
  · rw [if_neg hempty, if_neg (by simpa [behind] using hempty)]
    simp [behind]

/-- Reading a line looks at what is complete only to count it. -/
theorem behind_addLine (earlier : Array (List Line)) (k number : Nat) (raw : List Char)
    (r : Reading) :
    (r.behind earlier k).addLine (number + k) raw = (r.addLine number raw).behind earlier k := by
  have hopening : (r.behind earlier k).opening.isSome = r.opening.isSome := by simp [behind]
  unfold addLine
  rw [hopening]
  dsimp only
  by_cases hblank : (!r.opening.isSome && (Text.trim raw).isEmpty) = true
  · rw [if_pos hblank, if_pos hblank, behind_close]
  · rw [if_neg hblank, if_neg hblank]
    unfold behind
    dsimp only
    congr 1
    · split
      · rfl
      · simp [Line.shift]
    · split
      · rfl
      · split
        · simp
        · rfl

theorem behind_finish (earlier : Array (List Line)) (k : Nat) (r : Reading) :
    (r.behind earlier k).finish = r.finish.behind earlier.toList k := by
  unfold finish
  rw [behind_close]
  cases hopening : r.opening with
  | none => simp [behind, Paragraphs.behind, shiftAll, hopening]
  | some opening =>
    have htake : earlier.toList.take (earlier.size + opening.paragraph) = earlier.toList :=
      List.take_of_length_le (by simp)
    simp [behind, Paragraphs.behind, shiftAll, hopening, List.take_append, List.map_take, htake]

end Reading

/-- What has been read when so many lines have been read, and these. -/
def readLines (first : Nat) (lines : List (List Char)) (r : Reading) : Reading :=
  (lines.zipIdx first).foldl (fun (r : Reading) (raw, number) => r.addLine number raw) r

theorem paragraphs_eq (text : List Char) :
    paragraphs text = (readLines 1 (text.splitOn '\n') {}).finish :=
  rfl

theorem readLines_cons (first : Nat) (raw : List Char) (lines : List (List Char)) (r : Reading) :
    readLines first (raw :: lines) r = readLines (first + 1) lines (r.addLine first raw) :=
  rfl

theorem readLines_append (first : Nat) (lines lines' : List (List Char)) (r : Reading) :
    readLines first (lines ++ lines') r =
      readLines (first + lines.length) lines' (readLines first lines r) := by
  unfold readLines
  rw [List.zipIdx_append, List.foldl_append]

theorem readLines_behind (earlier : Array (List Line)) (k first : Nat)
    (lines : List (List Char)) (r : Reading) :
    readLines (first + k) lines (r.behind earlier k) =
      (readLines first lines r).behind earlier k := by
  induction lines generalizing first r with
  | nil => rfl
  | cons raw lines ih =>
    rw [readLines_cons, readLines_cons, Reading.behind_addLine, Nat.add_right_comm, ih]

/-- There is one line more than there are line feeds. -/
theorem length_splitOn (c : Char) (text : List Char) :
    (text.splitOn c).length = text.count c + 1 := by
  unfold List.splitOn
  induction text with
  | nil => rfl
  | cons d text ih =>
    rw [List.splitOnP_cons_eq_if_modifyHead, List.count_cons]
    by_cases hd : (d == c) = true
    · rw [if_pos hd, if_pos hd, List.length_cons, ih]
    · rw [if_neg hd, if_neg hd, List.length_modifyHead, ih]

/-- An empty line outside of comments leaves nothing to be read on. -/
theorem Reading.addLine_nil {r : Reading} (h : r.opening = none) (number k : Nat) :
    r.addLine number [] = Reading.behind r.close.done k {} := by
  have hclose : r.addLine number [] = r.close := by
    unfold addLine
    rw [h]
    rfl
  rw [hclose]
  unfold close
  split
  · next hempty =>
    obtain ⟨done, current, opening⟩ := r
    cases h
    simp only [Array.isEmpty_iff] at hempty
    cases hempty
    simp [behind]
  · obtain ⟨done, current, opening⟩ := r
    cases h
    simp [behind]

/-- The empty line ends the last paragraph of the earlier text, and no comment is open by
then. -/
theorem paragraphs_append {a b : List Char} (h : (paragraphs a).unmatched = none) :
    paragraphs (a ++ '\n' :: '\n' :: b) =
      (paragraphs b).behind (paragraphs a).paragraphs (a.count '\n' + 2) := by
  have hlines : (a ++ '\n' :: '\n' :: b).splitOn '\n' =
      a.splitOn '\n' ++ [] :: b.splitOn '\n' := by
    rw [List.splitOn_append_cons_self, ← List.nil_append ('\n' :: b),
      List.splitOn_append_cons_self, List.splitOn_nil]
    rfl
  rw [paragraphs_eq] at h ⊢
  rw [paragraphs_eq a, paragraphs_eq b, hlines, readLines_append, readLines_cons]
  generalize readLines 1 (a.splitOn '\n') {} = r at h ⊢
  have hopening : r.opening = none := by
    unfold Reading.finish at h
    split at h
    · assumption
    · cases h
  have hdone : r.finish.paragraphs = r.close.done.toList := by
    unfold Reading.finish
    rw [hopening]
  -- The line after the empty one is the first of the later text.
  have hfirst : 1 + (a.splitOn '\n').length + 1 = 1 + (a.count '\n' + 2) := by
    rw [length_splitOn]
    omega
  rw [Reading.addLine_nil hopening _ (a.count '\n' + 2), hfirst, readLines_behind,
    Reading.behind_finish, hdone]

/-! ## The numbers of lines -/

namespace Reading

/-- No line that has been kept has a number above the bound. -/
structure Within (bound : Nat) (r : Reading) : Prop where
  done : ∀ lines ∈ r.done, ∀ line ∈ lines, line.number ≤ bound
  current : ∀ line ∈ r.current, line.number ≤ bound

theorem Within.close {bound : Nat} {r : Reading} (h : r.Within bound) : r.close.Within bound := by
  unfold Reading.close
  split
  · exact h
  · refine ⟨fun lines hlines => ?_, fun line hline => by simp at hline⟩
    rcases Array.mem_push.1 hlines with hlines | rfl
    · exact h.done lines hlines
    · exact fun line hline => h.current line (Array.mem_toList_iff.1 hline)

theorem Within.addLine {bound number : Nat} {r : Reading} (h : r.Within bound)
    (hnumber : number ≤ bound) (raw : List Char) : (r.addLine number raw).Within bound := by
  unfold Reading.addLine
  dsimp only
  split
  · exact h.close
  · refine ⟨h.done, fun line hline => ?_⟩
    dsimp only at hline
    split at hline
    · exact h.current line hline
    · rcases Array.mem_push.1 hline with hline | rfl
      · exact h.current line hline
      · exact hnumber

theorem Within.readLines {bound first : Nat} {lines : List (List Char)} {r : Reading}
    (h : r.Within bound) (hbound : first + lines.length ≤ bound + 1) :
    (readLines first lines r).Within bound := by
  induction lines generalizing first r with
  | nil => exact h
  | cons raw lines ih =>
    rw [List.length_cons] at hbound
    rw [readLines_cons]
    exact ih (h.addLine (by omega) raw) (by omega)

end Reading

/-- A text has one line more than it has line feeds. -/
theorem number_le_of_mem_paragraphs {text : List Char} {lines : List Line} {line : Line}
    (hlines : lines ∈ (paragraphs text).paragraphs) (hline : line ∈ lines) :
    line.number ≤ text.count '\n' + 1 := by
  have hwithin : (readLines 1 (text.splitOn '\n') {}).Within (text.count '\n' + 1) := by
    refine Reading.Within.readLines ⟨?_, ?_⟩ ?_
    · intro lines hlines
      simp at hlines
    · intro line hline
      simp at hline
    · rw [length_splitOn]
      omega
  have hdone : lines ∈ (readLines 1 (text.splitOn '\n') {}).close.done := by
    rw [paragraphs_eq, Reading.finish] at hlines
    split at hlines
    · exact Array.mem_toList_iff.1 hlines
    · exact Array.mem_toList_iff.1 (List.mem_of_mem_take hlines)
  exact hwithin.close.done lines hdone line hline

end Groundwork.Program
