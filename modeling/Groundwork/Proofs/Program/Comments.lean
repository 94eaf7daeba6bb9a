import Groundwork.Proofs.Program.Paragraphs
import Groundwork.Proofs.Program.Scanning
import Mathlib.Data.List.DropRight

/-!
# Comments are removed exactly

What is left of a program is said here without reading it line by line.  A line is cut at its
delimiters (`Text.Cuts`), and a piece is code if it stands behind an even number of them, counted
from the beginning of the program (`SourceLine.code`).  Lines that are blank and not within a
comment separate groups of lines, and each group with a line that holds code is a paragraph
(`paragraphsOf`).  If the number of delimiters is odd, then the groups end before the one with the
last delimiter (`Opens`).

* `Text.cuts_iff`: a text is cut in one way only, and `splitPair` finds it;
* `not_infix_codeOf`: pieces that a comment kept apart are not glued to a delimiter;
* `Reads.addLine`, `Reads.readLines`: what has been read after some lines;
* `paragraphs_uncommented`: what is left of a program.
-/

namespace Groundwork

namespace Text

/-! ## Pieces between delimiters -/

/-- The pieces of a text between the places where `a` is followed by `b`, found from left to right
and without overlap: up to the end of a place that is cut at, there is no other one. -/
inductive Cuts (a b : Char) : List Char → List (List Char) → Prop where
  | rest {piece : List Char} (hwhole : ¬ [a, b] <:+: piece) : Cuts a b piece [piece]
  | cut {piece text : List Char} {pieces : List (List Char)} (hfirst : ¬ [a, b] <:+: piece ++ [a])
      (htext : Cuts a b text pieces) : Cuts a b (piece ++ a :: b :: text) (piece :: pieces)

variable {a b : Char}

theorem pair_prefix_iff {c : Char} {cs : List Char} :
    [a, b] <+: c :: cs ↔ a = c ∧ cs.head? = some b := by
  cases cs with
  | nil => simp
  | cons d cs => simp [eq_comm]

theorem Cuts.cons {c : Char} {text first : List Char} {others : List (List Char)}
    (h : Cuts a b text (first :: others)) (hc : ¬ (c = a ∧ text.head? = some b)) :
    Cuts a b (c :: text) ((c :: first) :: others) := by
  cases h with
  | rest hwhole =>
    refine .rest fun hwithin => ?_
    rcases List.infix_cons_iff.1 hwithin with hbegins | hwithin
    · obtain ⟨rfl, hhead⟩ := pair_prefix_iff.1 hbegins
      exact hc ⟨rfl, hhead⟩
    · exact hwhole hwithin
  | @cut _ text _ hfirst htext =>
    change Cuts a b ((c :: first) ++ a :: b :: text) _
    refine .cut (fun hwithin => ?_) htext
    rcases List.infix_cons_iff.1 hwithin with hbegins | hwithin
    · obtain ⟨rfl, hhead⟩ := pair_prefix_iff.1 hbegins
      refine hc ⟨rfl, ?_⟩
      cases first with
      | nil => exact hhead
      | cons d first => exact hhead
    · exact hfirst hwithin

theorem cuts_splitPair (a b : Char) (text : List Char) : Cuts a b text (splitPair a b text) := by
  fun_induction splitPair a b text with
  | case1 c d rest heq ih =>
    obtain ⟨rfl, rfl⟩ := heq
    change Cuts c d ([] ++ c :: d :: rest) _
    refine .cut (fun hwithin => ?_) ih
    have := hwithin.length_le
    simp at this
  | case2 c d rest hne ih =>
    cases hpieces : splitPair a b (d :: rest) with
    | nil => exact absurd hpieces (splitPair_ne_nil a b _)
    | cons first others =>
      rw [hpieces] at ih
      exact ih.cons fun h => hne ⟨h.1, by simpa using h.2⟩
  | case3 text htext =>
    refine .rest fun hwithin => ?_
    have hlength : 2 ≤ text.length := hwithin.length_le
    cases text with
    | nil => simp at hlength
    | cons c text =>
      cases text with
      | nil => simp at hlength
      | cons d rest => exact htext c d rest rfl

theorem Cuts.splitPair_eq {text : List Char} {pieces : List (List Char)}
    (h : Cuts a b text pieces) : splitPair a b text = pieces := by
  induction h with
  | @rest piece hwhole =>
    have hlength := (length_splitPair_eq_one_iff a b piece).2 hwhole
    obtain ⟨only, honly⟩ := List.length_eq_one_iff.1 hlength
    have hcuts := cuts_splitPair a b piece
    rw [honly] at hcuts ⊢
    cases hcuts with
    | rest => rfl
    | cut _ htext => cases htext
  | @cut piece text pieces hfirst htext ih =>
    induction piece with
    | nil => rw [List.nil_append, splitPair, if_pos ⟨rfl, rfl⟩, ih]
    | cons c piece ihpiece =>
      have ihpiece := ihpiece fun hwithin => hfirst (List.infix_cons hwithin)
      have hne : ¬ (c = a ∧ (piece ++ [a]).head? = some b) := fun h =>
        hfirst (pair_prefix_iff.2 ⟨h.1.symm, h.2⟩).isInfix
      obtain ⟨d, rest, hrest⟩ : ∃ d rest, piece ++ a :: b :: text = d :: rest :=
        List.exists_cons_of_ne_nil (by simp)
      have hd : (piece ++ [a]).head? = some d := by
        cases piece <;> simp_all
      rw [hd] at hne
      rw [List.cons_append, hrest, splitPair, if_neg fun h => hne ⟨h.1, congrArg some h.2⟩, ← hrest,
        ihpiece]
      rfl

/-- A text is cut in one way only. -/
theorem cuts_iff {text : List Char} {pieces : List (List Char)} :
    Cuts a b text pieces ↔ splitPair a b text = pieces :=
  ⟨Cuts.splitPair_eq, fun h => h ▸ cuts_splitPair a b text⟩

/-! ## Blanks -/

theorem trim_eq_nil_iff {cs : List Char} : trim cs = [] ↔ ∀ c ∈ cs, isBlank c = true := by
  constructor
  · intro h c hc
    by_contra hblank
    have hmem := mem_trim hc (Bool.eq_false_iff.2 hblank)
    rw [h] at hmem
    cases hmem
  · intro h
    have hstart : trimStart cs = [] := List.dropWhile_eq_nil_iff.2 h
    rw [trim, hstart]
    rfl

theorem infix_trim (cs : List Char) : trim cs <:+: cs :=
  (List.rdropWhile_prefix isBlank _).isInfix.trans (List.dropWhile_suffix isBlank).isInfix

theorem trimmed_trim {cs : List Char} (h : trim cs ≠ []) : Trimmed (trim cs) := by
  refine ⟨h, fun c hc => ?_, fun c hc => ?_⟩
  · obtain ⟨after, hafter⟩ : trim cs <+: trimStart cs := List.rdropWhile_prefix isBlank _
    have hfirst := List.head?_dropWhile_not isBlank cs
    have hhead : (cs.dropWhile isBlank).head? = some c := by
      rw [show cs.dropWhile isBlank = trim cs ++ after from hafter.symm,
        List.head?_append_of_ne_nil _ h]
      exact hc
    rw [hhead] at hfirst
    exact hfirst
  · rw [Option.mem_def, List.getLast?_eq_some_getLast h, Option.some.injEq] at hc
    exact hc ▸ Bool.eq_false_iff.2 (List.rdropWhile_last_not isBlank (trimStart cs) h)

end Text

namespace Program

/-! ## Lines of a program -/

/-- A line of a program as it is written. -/
structure SourceLine where
  /-- The number of the line, counted from one. -/
  number : Nat
  raw : List Char
  /-- How many delimiters stand on the lines before. -/
  before : Nat

namespace SourceLine

/-- The pieces of the line, each with the number of delimiters before it. -/
def pieces (l : SourceLine) : List (List Char × Nat) :=
  (Text.splitPair '-' '-' l.raw).zipIdx l.before

/-- How many delimiters stand on the line. -/
def delimiters (l : SourceLine) : Nat :=
  (Text.splitPair '-' '-' l.raw).length - 1

/-- The pieces behind an even number of delimiters, joined. -/
def code (l : SourceLine) : List Char :=
  (l.pieces.filter fun piece => piece.2 % 2 == 0).flatMap Prod.fst

/-- What is kept of the line, if it holds code other than blanks. -/
def kept? (l : SourceLine) : Option Line :=
  if (Text.trim l.code).isEmpty then none
  else some { number := l.number, text := Text.trim l.code }

/-- Whether the line is blank and not within a comment. -/
def separates (l : SourceLine) : Bool :=
  l.before % 2 == 0 && l.raw.all Text.isBlank

end SourceLine

/-- Lines, of which the first has the given number and as many delimiters before it as given. -/
def sourceLinesFrom (number before : Nat) : List (List Char) → List SourceLine
  | [] => []
  | raw :: lines =>
    let line : SourceLine := { number, raw, before }
    line :: sourceLinesFrom (number + 1) (before + line.delimiters) lines

/-- The lines of a program. -/
def sourceLines (text : List Char) : List SourceLine :=
  sourceLinesFrom 1 0 (text.splitOn '\n')

/-- How many delimiters stand on lines. -/
def delimitersIn : List SourceLine → Nat
  | [] => 0
  | line :: lines => line.delimiters + delimitersIn lines

/-- The groups of lines between those that separate. -/
def groupsOf (lines : List SourceLine) : List (List SourceLine) :=
  lines.splitOnP SourceLine.separates

/-- The paragraphs of groups of lines. -/
def paragraphsOf (groups : List (List SourceLine)) : List (List Line) :=
  (groups.map fun group => group.filterMap SourceLine.kept?).filter fun lines => !lines.isEmpty

/-- The line has the last delimiter of the given lines, and these are the groups before its own. -/
structure Opens (lines : List SourceLine) (earlier : List (List SourceLine)) (line : SourceLine) :
    Prop where
  group : ∃ group later, groupsOf lines = earlier ++ group :: later ∧ line ∈ group
  delimiters_pos : 0 < line.delimiters
  last : ∀ other ∈ lines, 0 < other.delimiters → other.number ≤ line.number

/-! ## Code and comments -/

theorem codeOf_eq (before : Nat) (pieces : List (List Char)) :
    codeOf (before % 2 == 1) pieces =
      ((pieces.zipIdx before).filter fun piece => piece.2 % 2 == 0).flatMap Prod.fst := by
  induction pieces generalizing before with
  | nil => rfl
  | cons piece pieces ih =>
    have hnext : (!(before % 2 == 1)) = ((before + 1) % 2 == 1) := by
      rcases Nat.mod_two_eq_zero_or_one before with h | h <;> simp [Nat.add_mod, h]
    rw [codeOf, hnext, ih, List.zipIdx_cons, List.filter_cons]
    rcases Nat.mod_two_eq_zero_or_one before with h | h <;> simp [h]

theorem codeOf_pieces (l : SourceLine) :
    codeOf (l.before % 2 == 1) (Text.splitPair '-' '-' l.raw) = l.code :=
  codeOf_eq _ _

/-- A piece that is cut off does not end with the character of the delimiter, so that nothing behind
it completes another one. -/
theorem not_infix_codeOf {a : Char} {text : List Char} {pieces : List (List Char)}
    (h : Text.Cuts a a text pieces) (inComment : Bool) : ¬ [a, a] <:+: codeOf inComment pieces := by
  induction h generalizing inComment with
  | rest hwhole =>
    cases inComment with
    | true => simp [codeOf]
    | false => simpa [codeOf] using hwhole
  | @cut piece text pieces hfirst _ ih =>
    cases inComment with
    | true => simpa [codeOf] using ih false
    | false =>
      show ¬ [a, a] <:+: piece ++ codeOf true pieces
      intro hwithin
      rcases List.infix_append_iff_ne_nil.1 hwithin with
        hleft | hright | ⟨left, right, hl, hr, hpair, hsuffix, _⟩
      · exact hfirst (hleft.trans (List.prefix_append piece [a]).isInfix)
      · exact ih true hright
      · -- The pair lies across the seam, so the piece would have ended with a first half.
        obtain ⟨c, left, rfl⟩ := List.exists_cons_of_ne_nil hl
        obtain ⟨rfl, hrest⟩ := List.cons_eq_cons.1 hpair
        obtain ⟨rfl, _⟩ := (List.append_eq_singleton_iff.1 hrest.symm).resolve_right fun h => hr h.2
        obtain ⟨front, rfl⟩ := hsuffix
        exact hfirst ⟨front, [], by simp⟩

theorem not_infix_code (l : SourceLine) : ¬ ['-', '-'] <:+: l.code :=
  codeOf_pieces l ▸ not_infix_codeOf (Text.cuts_splitPair '-' '-' l.raw) _

theorem kept?_eq_some_iff {l : SourceLine} {line : Line} :
    l.kept? = some line ↔
      Text.trim l.code ≠ [] ∧ line = { number := l.number, text := Text.trim l.code } := by
  unfold SourceLine.kept?
  split
  · next h => simp [List.isEmpty_iff.1 h]
  · next h =>
    rw [List.isEmpty_iff] at h
    simp [h, eq_comm]

/-- A blank line has no delimiter. -/
theorem delimiters_of_blank {l : SourceLine} (h : ∀ c ∈ l.raw, Text.isBlank c = true) :
    l.delimiters = 0 := by
  have hdash : '-' ∉ l.raw := fun hmem => absurd (h _ hmem) (by decide)
  rw [SourceLine.delimiters, (Text.whole_of_notMem hdash).splitPair_eq]
  rfl

/-! ## Groups -/

theorem splitOnP_concat_of_pos {α : Type} {p : α → Bool} {a : α} (ha : p a = true) (l : List α) :
    (l ++ [a]).splitOnP p = l.splitOnP p ++ [[]] := by
  rw [List.splitOnP_append_cons l [] ha, List.splitOnP_nil]

theorem splitOnP_concat_of_neg {α : Type} {p : α → Bool} {a : α} (ha : p a = false) {l : List α}
    {closed : List (List α)} {last : List α} (h : l.splitOnP p = closed ++ [last]) :
    (l ++ [a]).splitOnP p = closed ++ [last ++ [a]] := by
  induction l generalizing closed last with
  | nil =>
    rw [List.splitOnP_nil] at h
    obtain ⟨rfl, hlast⟩ := (List.append_eq_singleton_iff.1 h.symm).resolve_right (by simp)
    cases hlast
    exact List.splitOnP_eq_singleton (by simpa using ha)
  | cons x l ih =>
    obtain ⟨before, final, hsplit⟩ :=
      (List.eq_nil_or_concat' (l.splitOnP p)).resolve_left (List.splitOnP_ne_nil p l)
    rw [List.splitOnP_cons_eq_if_modifyHead, hsplit] at h
    rw [List.cons_append, List.splitOnP_cons_eq_if_modifyHead, ih hsplit]
    split at h
    · next hx =>
      rw [← List.cons_append] at h
      obtain ⟨rfl, hfinal⟩ := List.append_inj' h rfl
      cases hfinal
      rw [if_pos hx]
      rfl
    · next hx =>
      rw [if_neg hx]
      cases before with
      | nil =>
        obtain ⟨rfl, hfinal⟩ := List.append_inj' (show [] ++ _ = _ from h) rfl
        cases hfinal
        rfl
      | cons first before =>
        rw [List.cons_append, List.modifyHead_cons, ← List.cons_append] at h
        obtain ⟨rfl, hfinal⟩ := List.append_inj' h rfl
        cases hfinal
        rfl

theorem flatten_splitOnP_sublist {α : Type} (p : α → Bool) (l : List α) :
    (l.splitOnP p).flatten.Sublist l := by
  induction l with
  | nil => simp
  | cons a l ih =>
    rw [List.splitOnP_cons_eq_if_modifyHead]
    split
    · exact ih.cons a
    · cases hsplit : l.splitOnP p with
      | nil => exact absurd hsplit (List.splitOnP_ne_nil p l)
      | cons first others =>
        rw [hsplit] at ih
        exact ih.cons_cons a

theorem delimitersIn_concat (lines : List SourceLine) (l : SourceLine) :
    delimitersIn (lines ++ [l]) = delimitersIn lines + l.delimiters := by
  induction lines with
  | nil => exact Nat.add_comm _ _
  | cons line lines ih => rw [List.cons_append, delimitersIn, delimitersIn, ih, Nat.add_assoc]

theorem paragraphsOf_append (groups others : List (List SourceLine)) :
    paragraphsOf (groups ++ others) = paragraphsOf groups ++ paragraphsOf others := by
  rw [paragraphsOf, List.map_append, List.filter_append, paragraphsOf, paragraphsOf]

theorem paragraphsOf_singleton (group : List SourceLine) :
    paragraphsOf [group] =
      if (group.filterMap SourceLine.kept?).isEmpty then []
      else [group.filterMap SourceLine.kept?] := by
  rw [paragraphsOf, List.map_singleton, List.filter_singleton]
  cases (group.filterMap SourceLine.kept?).isEmpty <;> rfl

section Opens

variable {lines : List SourceLine} {closed earlier : List (List SourceLine)}
  {last : List SourceLine} {l line : SourceLine}

theorem opens_concat (hgroups : groupsOf lines = closed ++ [last]) (hl : l.separates = false)
    (hpos : 0 < l.delimiters) (hnumber : ∀ other ∈ lines, other.number ≤ l.number) :
    Opens (lines ++ [l]) closed l where
  group := ⟨last ++ [l], [], splitOnP_concat_of_neg hl hgroups, by simp⟩
  delimiters_pos := hpos
  last other hother _ := by
    rcases List.mem_append.1 hother with hother | hother
    · exact hnumber other hother
    · rw [List.mem_singleton.1 hother]

/-- A line without a delimiter is added to the last group. -/
theorem Opens.concat (h : Opens lines earlier line) (hl : l.separates = false)
    (hnone : l.delimiters = 0) : Opens (lines ++ [l]) earlier line where
  group := by
    obtain ⟨group, later, hgroups, hmem⟩ := h.group
    rcases List.eq_nil_or_concat' later with rfl | ⟨later, last, rfl⟩
    · exact ⟨group ++ [l], [], splitOnP_concat_of_neg hl hgroups, List.mem_append_left _ hmem⟩
    · have hgroups : groupsOf lines = (earlier ++ group :: later) ++ [last] := by
        rw [hgroups, List.append_assoc, List.cons_append]
      refine ⟨group, later ++ [last ++ [l]], ?_, hmem⟩
      rw [groupsOf, splitOnP_concat_of_neg hl hgroups, List.append_assoc, List.cons_append]
  delimiters_pos := h.delimiters_pos
  last other hother hpos := by
    rcases List.mem_append.1 hother with hother | hother
    · exact h.last other hother hpos
    · rw [List.mem_singleton.1 hother, hnone] at hpos
      exact absurd hpos (Nat.lt_irrefl 0)

end Opens

/-! ## Reading line by line -/

/-- What has been read of some lines. -/
structure Reads (lines : List SourceLine) (r : Reading) : Prop where
  inComment : r.opening.isSome = (delimitersIn lines % 2 == 1)
  groups : ∃ closed last, groupsOf lines = closed ++ [last] ∧
    r.done.toList = paragraphsOf closed ∧ r.current.toList = last.filterMap SourceLine.kept?
  opened : ∀ opening ∈ r.opening, ∃ earlier line, Opens lines earlier line ∧
    opening.line = line.number ∧ opening.paragraph = (paragraphsOf earlier).length

theorem reads_nil : Reads [] {} where
  inComment := rfl
  groups := ⟨[], [], List.splitOnP_nil, rfl, rfl⟩
  opened _ h := nomatch h

theorem toList_done_close {r : Reading} {closed : List (List SourceLine)} {last : List SourceLine}
    (hdone : r.done.toList = paragraphsOf closed)
    (hcurrent : r.current.toList = last.filterMap SourceLine.kept?) :
    r.close.done.toList = paragraphsOf (closed ++ [last]) := by
  rw [paragraphsOf_append, paragraphsOf_singleton, ← hcurrent, ← hdone, Reading.close,
    Array.isEmpty_toList]
  split
  · rw [List.append_nil]
  · rw [Array.toList_push]

section AddLine

variable {r : Reading} {l : SourceLine}

theorem addLine_of_separates (hopening : r.opening.isSome = (l.before % 2 == 1))
    (hl : l.separates = true) : r.addLine l.number l.raw = r.close := by
  rw [SourceLine.separates, Bool.and_eq_true, beq_iff_eq, List.all_eq_true] at hl
  unfold Reading.addLine
  rw [hopening, hl.1, Text.trim_eq_nil_iff.2 hl.2]
  rfl

theorem addLine_of_not_separates (hopening : r.opening.isSome = (l.before % 2 == 1))
    (hl : l.separates = false) :
    r.addLine l.number l.raw =
      { done := r.done
        current := r.current ++ l.kept?.toList
        opening :=
          if l.delimiters = 0 then r.opening
          else if (l.before + l.delimiters) % 2 = 1 then
            some { line := l.number, paragraph := r.done.size }
          else none } := by
  have hnot : ¬ (!(l.before % 2 == 1) && (Text.trim l.raw).isEmpty) = true := by
    intro h
    rw [Bool.and_eq_true, List.isEmpty_iff, Text.trim_eq_nil_iff] at h
    have hsep : l.separates = true := by
      rw [SourceLine.separates, Bool.and_eq_true, List.all_eq_true]
      refine ⟨?_, h.2⟩
      rcases Nat.mod_two_eq_zero_or_one l.before with hb | hb <;> simp_all
    rw [hl] at hsep
    cases hsep
  have hparity : ((l.before % 2 == 1) != (l.delimiters % 2 == 1)) =
      decide ((l.before + l.delimiters) % 2 = 1) := by
    rw [Nat.add_mod]
    rcases Nat.mod_two_eq_zero_or_one l.before with hb | hb <;>
      rcases Nat.mod_two_eq_zero_or_one l.delimiters with hd | hd <;> simp [hb, hd]
  unfold Reading.addLine
  dsimp only
  rw [hopening, if_neg hnot, codeOf_pieces]
  congr 1
  · unfold SourceLine.kept?
    split <;> simp
  · show (if l.delimiters = 0 then _ else
      if (_ != (l.delimiters % 2 == 1)) = true then _ else _) = _
    rw [hparity]
    simp only [decide_eq_true_eq]

end AddLine

theorem opening_close (r : Reading) : r.close.opening = r.opening := by
  unfold Reading.close
  split <;> rfl

/-- One more line is read.  If it separates, then no comment is open, and the last group ends.
Otherwise it goes to the last group, and if the comment after it was opened on it, it is the line of
the last delimiter. -/
theorem Reads.addLine {lines : List SourceLine} {r : Reading} {l : SourceLine} (h : Reads lines r)
    (hbefore : l.before = delimitersIn lines)
    (hnumber : ∀ other ∈ lines, other.number ≤ l.number) :
    Reads (lines ++ [l]) (r.addLine l.number l.raw) := by
  have hopening := h.inComment
  rw [← hbefore] at hopening
  obtain ⟨closed, last, hgroups, hdone, hcurrent⟩ := h.groups
  by_cases hl : l.separates = true
  · rw [addLine_of_separates hopening hl]
    have hsplit := splitOnP_concat_of_pos hl lines
    rw [show lines.splitOnP SourceLine.separates = closed ++ [last] from hgroups] at hsplit
    rw [SourceLine.separates, Bool.and_eq_true, beq_iff_eq, List.all_eq_true] at hl
    have hnone : r.opening = none := by simpa [hl.1] using hopening
    refine ⟨?_, ⟨closed ++ [last], [], hsplit, toList_done_close hdone hcurrent, ?_⟩, ?_⟩
    · rw [opening_close, hopening, delimitersIn_concat, delimiters_of_blank hl.2, hbefore,
        Nat.add_zero]
    · unfold Reading.close
      split
      · next hempty =>
        rw [Array.isEmpty_iff.1 hempty]
        rfl
      · rfl
    · rw [opening_close, hnone]
      exact fun _ h => nomatch h
  · rw [Bool.not_eq_true] at hl
    rw [addLine_of_not_separates hopening hl]
    refine ⟨?_, ⟨closed, last ++ [l], splitOnP_concat_of_neg hl hgroups, hdone, ?_⟩, ?_⟩
    · rw [delimitersIn_concat, ← hbefore]
      dsimp only
      split
      · next hzero => rw [hopening, hzero, Nat.add_zero]
      · split <;> simp_all
    · show (r.current ++ l.kept?.toList).toList = _
      rw [Array.toList_appendList, hcurrent, List.filterMap_append]
      cases hkept : l.kept? <;> simp [hkept]
    · dsimp only
      split
      · next hzero =>
        intro opening hmem
        obtain ⟨earlier, line, hopens, hline, hparagraph⟩ := h.opened opening hmem
        exact ⟨earlier, line, hopens.concat hl hzero, hline, hparagraph⟩
      · next hpos =>
        split
        · rintro _ ⟨⟩
          refine ⟨closed, l, opens_concat hgroups hl (Nat.pos_of_ne_zero hpos) hnumber, rfl, ?_⟩
          rw [← hdone, Array.length_toList]
        · exact fun _ h => nomatch h

theorem Reads.readLines {lines : List SourceLine} {r : Reading} (h : Reads lines r) {number : Nat}
    (hnumber : ∀ other ∈ lines, other.number < number) (raws : List (List Char)) :
    Reads (lines ++ sourceLinesFrom number (delimitersIn lines) raws)
      (readLines number raws r) := by
  induction raws generalizing lines r number with
  | nil => rwa [sourceLinesFrom, List.append_nil]
  | cons raw raws ih =>
    have hline := h.addLine (l := ⟨number, raw, delimitersIn lines⟩) rfl
      fun other hother => Nat.le_of_lt (hnumber other hother)
    have hbelow : ∀ other ∈ lines ++ [⟨number, raw, delimitersIn lines⟩],
        other.number < number + 1 := fun other hother => by
      rcases List.mem_append.1 hother with hother | hother
      · exact Nat.lt_succ_of_lt (hnumber other hother)
      · rw [List.mem_singleton.1 hother]
        exact Nat.lt_succ_self number
    have hrest := ih hline hbelow
    rw [delimitersIn_concat, List.append_assoc] at hrest
    exact hrest

theorem reads_sourceLines (text : List Char) :
    Reads (sourceLines text) (readLines 1 (text.splitOn '\n') {}) :=
  reads_nil.readLines (fun _ h => nomatch h) _

/-! ## Lines in order -/

theorem le_number_of_mem {number before : Nat} {raws : List (List Char)} {line : SourceLine}
    (h : line ∈ sourceLinesFrom number before raws) : number ≤ line.number := by
  induction raws generalizing number before with
  | nil => cases h
  | cons raw raws ih =>
    rcases List.mem_cons.1 h with rfl | h
    · exact Nat.le_refl _
    · exact Nat.le_of_succ_le (ih h)

theorem pairwise_sourceLinesFrom (number before : Nat) (raws : List (List Char)) :
    (sourceLinesFrom number before raws).Pairwise fun line later => line.number < later.number := by
  induction raws generalizing number before with
  | nil => exact List.Pairwise.nil
  | cons raw raws ih => exact List.pairwise_cons.2 ⟨fun _ hlater => le_number_of_mem hlater, ih _ _⟩

theorem flatten_paragraphsOf (groups : List (List SourceLine)) :
    (paragraphsOf groups).flatten = groups.flatten.filterMap SourceLine.kept? := by
  induction groups with
  | nil => rfl
  | cons group groups ih =>
    rw [← List.singleton_append, paragraphsOf_append, List.flatten_append, ih, List.flatten_append,
      List.filterMap_append, paragraphsOf_singleton, List.flatten_singleton]
    split
    · next hempty => rw [List.isEmpty_iff.1 hempty, List.flatten_nil]
    · rw [List.flatten_singleton]

theorem pairwise_number_paragraphsOf {lines : List SourceLine} {groups : List (List SourceLine)}
    (hlines : lines.Pairwise fun line later => line.number < later.number)
    (hgroups : groups.flatten.Sublist lines) :
    (paragraphsOf groups).flatten.Pairwise fun line later => line.number < later.number := by
  rw [flatten_paragraphsOf, List.pairwise_filterMap]
  refine (hlines.sublist hgroups).imp fun {a b} hlt line hline later hlater => ?_
  rw [(kept?_eq_some_iff.1 hline).2, (kept?_eq_some_iff.1 hlater).2]
  exact hlt

theorem sourceLinesFrom_append_cons {number before : Nat} {raws : List (List Char)}
    {earlier later : List SourceLine} {l : SourceLine}
    (h : sourceLinesFrom number before raws = earlier ++ l :: later) :
    l.number = number + earlier.length ∧ l.before = before + delimitersIn earlier := by
  induction earlier generalizing number before raws with
  | nil =>
    cases raws with
    | nil => cases h
    | cons raw raws =>
      obtain ⟨rfl, _⟩ := List.cons_eq_cons.1 h
      exact ⟨rfl, rfl⟩
  | cons first earlier ih =>
    cases raws with
    | nil => cases h
    | cons raw raws =>
      obtain ⟨rfl, hrest⟩ := List.cons_eq_cons.1 h
      obtain ⟨hnumber, hbefore⟩ := ih hrest
      rw [List.length_cons, delimitersIn, hnumber, hbefore]
      exact ⟨by omega, Nat.add_assoc _ _ _⟩

theorem map_raw_sourceLinesFrom (number before : Nat) (raws : List (List Char)) :
    (sourceLinesFrom number before raws).map SourceLine.raw = raws := by
  induction raws generalizing number before with
  | nil => rfl
  | cons raw raws ih => rw [sourceLinesFrom, List.map_cons, ih]

/-! ## What is left of a program -/

/-- The paragraphs are what is left of a text without its comments. -/
structure Uncommented (text : List Char) (p : Paragraphs) : Prop where
  /-- If every comment is closed, nothing but comments is lost. -/
  closed : delimitersIn (sourceLines text) % 2 = 0 →
    p = { paragraphs := paragraphsOf (groupsOf (sourceLines text)), unmatched := none }
  /-- A delimiter without a partner is the last one.  It takes its paragraph and later ones with
  it. -/
  opened : delimitersIn (sourceLines text) % 2 = 1 →
    ∃ earlier line, Opens (sourceLines text) earlier line ∧
      p = { paragraphs := paragraphsOf earlier, unmatched := some line.number }
  nonempty : ∀ lines ∈ p.paragraphs, lines ≠ []
  code : ∀ lines ∈ p.paragraphs, ∀ line ∈ lines,
    ∃ l ∈ sourceLines text, line.number = l.number ∧ line.text = Text.trim l.code
  trimmed : ∀ lines ∈ p.paragraphs, ∀ line ∈ lines, Text.Trimmed line.text
  undelimited : ∀ lines ∈ p.paragraphs, ∀ line ∈ lines, ¬ ['-', '-'] <:+: line.text
  increasing : p.paragraphs.flatten.Pairwise fun line later => line.number < later.number

theorem paragraphs_of_even {text : List Char} (h : delimitersIn (sourceLines text) % 2 = 0) :
    paragraphs text =
      { paragraphs := paragraphsOf (groupsOf (sourceLines text)), unmatched := none } := by
  obtain ⟨hopening, ⟨closed, last, hgroups, hdone, hcurrent⟩, _⟩ := reads_sourceLines text
  rw [h] at hopening
  have hnone : (readLines 1 (text.splitOn '\n') {}).opening = none := by simpa using hopening
  rw [paragraphs_eq, Reading.finish, hnone, toList_done_close hdone hcurrent, hgroups]

theorem paragraphs_of_odd {text : List Char} (h : delimitersIn (sourceLines text) % 2 = 1) :
    ∃ earlier line, Opens (sourceLines text) earlier line ∧
      paragraphs text = { paragraphs := paragraphsOf earlier, unmatched := some line.number } := by
  obtain ⟨hopening, ⟨closed, last, hgroups, hdone, hcurrent⟩, hopened⟩ := reads_sourceLines text
  rw [h] at hopening
  obtain ⟨opening, hsome⟩ := Option.isSome_iff_exists.1 hopening
  obtain ⟨earlier, line, hopens, hline, hparagraph⟩ := hopened opening hsome
  obtain ⟨group, later, hsplit, _⟩ := hopens.group
  refine ⟨earlier, line, hopens, ?_⟩
  rw [paragraphs_eq, Reading.finish, hsome, toList_done_close hdone hcurrent, ← hgroups, hsplit,
    paragraphsOf_append]
  dsimp only
  rw [hparagraph, hline, List.take_left]

/-- In any case the paragraphs are those of groups that come first. -/
theorem exists_groups_of_paragraphs (text : List Char) :
    ∃ groups, groups <+: groupsOf (sourceLines text) ∧
      (paragraphs text).paragraphs = paragraphsOf groups := by
  rcases Nat.mod_two_eq_zero_or_one (delimitersIn (sourceLines text)) with h | h
  · exact ⟨_, List.prefix_rfl, by rw [paragraphs_of_even h]⟩
  · obtain ⟨earlier, line, hopens, heq⟩ := paragraphs_of_odd h
    obtain ⟨group, later, hsplit, _⟩ := hopens.group
    exact ⟨earlier, ⟨group :: later, hsplit.symm⟩, by rw [heq]⟩

theorem exists_kept?_of_mem {groups : List (List SourceLine)} {lines : List Line} {line : Line}
    (hlines : lines ∈ paragraphsOf groups) (hline : line ∈ lines) :
    ∃ l ∈ groups.flatten, l.kept? = some line := by
  have hmem : line ∈ (paragraphsOf groups).flatten := List.mem_flatten.2 ⟨lines, hlines, hline⟩
  rwa [flatten_paragraphsOf, List.mem_filterMap] at hmem

/-- Comments are removed from every text, and nothing else is unless a comment is never closed.
The lines of the text are numbered from one, and cut at their delimiters in the only way. -/
theorem paragraphs_uncommented (text : List Char) :
    Uncommented text (paragraphs text) ∧
      (sourceLines text).map SourceLine.raw = text.splitOn '\n' ∧
      (∀ earlier l later, sourceLines text = earlier ++ l :: later →
        l.number = earlier.length + 1 ∧ l.before = delimitersIn earlier) ∧
      ∀ raw pieces, Text.Cuts '-' '-' raw pieces ↔ Text.splitPair '-' '-' raw = pieces := by
  obtain ⟨groups, hbegins, hgroups⟩ := exists_groups_of_paragraphs text
  have hsublist : groups.flatten.Sublist (sourceLines text) :=
    hbegins.isInfix.flatten.sublist.trans (flatten_splitOnP_sublist _ _)
  have hkept : ∀ lines ∈ (paragraphs text).paragraphs, ∀ line ∈ lines,
      ∃ l ∈ sourceLines text, l.kept? = some line := by
    rw [hgroups]
    intro lines hlines line hline
    obtain ⟨l, hl, hkept⟩ := exists_kept?_of_mem hlines hline
    exact ⟨l, hsublist.subset hl, hkept⟩
  refine ⟨⟨paragraphs_of_even, paragraphs_of_odd, ?_, ?_, ?_, ?_, ?_⟩,
    map_raw_sourceLinesFrom _ _ _, ?_, fun _ _ => Text.cuts_iff⟩
  · rw [hgroups]
    intro lines hlines
    have hnonempty := (List.mem_filter.1 hlines).2
    simpa using hnonempty
  · intro lines hlines line hline
    obtain ⟨l, hl, hkept⟩ := hkept lines hlines line hline
    obtain ⟨_, rfl⟩ := kept?_eq_some_iff.1 hkept
    exact ⟨l, hl, rfl, rfl⟩
  · intro lines hlines line hline
    obtain ⟨l, _, hkept⟩ := hkept lines hlines line hline
    obtain ⟨hne, rfl⟩ := kept?_eq_some_iff.1 hkept
    exact Text.trimmed_trim hne
  · intro lines hlines line hline hwithin
    obtain ⟨l, _, hkept⟩ := hkept lines hlines line hline
    obtain ⟨_, rfl⟩ := kept?_eq_some_iff.1 hkept
    exact not_infix_code l (hwithin.trans (Text.infix_trim _))
  · rw [hgroups]
    exact pairwise_number_paragraphsOf (pairwise_sourceLinesFrom _ _ _) hsublist
  · intro earlier l later hsplit
    obtain ⟨hnumber, hbefore⟩ := sourceLinesFrom_append_cons hsplit
    exact ⟨hnumber.trans (Nat.add_comm _ _), hbefore.trans (Nat.zero_add _)⟩

example : paragraphs "p (a) -- one\n\nstill one -- => q-\n\nr (b)---\n\ns".toList =
    { paragraphs := [[⟨1, "p (a)".toList⟩, ⟨3, "=> q-".toList⟩]], unmatched := some 5 } := by
  decide

end Program

end Groundwork
