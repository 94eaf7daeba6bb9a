import Groundwork.Program.Statement
import Groundwork.Proofs.Program.Rules
import Mathlib.Data.List.Infix

/-!
# Separators of statements

A statement has no reading at all exactly if two separators of its disjunction share a space
(`read_eq_overlap_iff`).  What this takes is said of the text alone, without its scan:
`Overlapping`.

* `topLevel_eq_ok`, `topLevel_eq_error`: a scan finds the places of a separator outside of
  parentheses, in their order, unless parentheses are nested or not balanced;
* `isSome_piecesBetween?_iff`: a text can be cut at places that are far enough apart;
* `readShape_eq_overlap_iff`: commas always are, and two places of `" v "` are not only if
  the later one begins with the last space of the earlier one.
-/

namespace Groundwork

namespace Text

theorem splitPair_ne_nil (a b : Char) (text : List Char) : splitPair a b text ≠ [] := by
  fun_induction splitPair a b text with
  | case1 c d rest heq ih => exact List.cons_ne_nil _ _
  | case2 c d rest hne ih =>
    rw [ne_eq, ← List.length_eq_zero_iff, List.length_modifyHead, List.length_eq_zero_iff]
    exact ih
  | case3 text htext => exact List.cons_ne_nil _ _

/-- There is only one piece if the two characters never stand together. -/
theorem length_splitPair_eq_one_iff (a b : Char) (text : List Char) :
    (splitPair a b text).length = 1 ↔ ¬ [a, b] <:+: text := by
  fun_induction splitPair a b text with
  | case1 c d rest heq ih =>
    obtain ⟨rfl, rfl⟩ := heq
    have hinfix : [c, d] <:+: c :: d :: rest := ⟨[], rest, rfl⟩
    have hlength : (splitPair c d rest).length ≠ 0 := fun h =>
      splitPair_ne_nil c d rest (List.length_eq_zero_iff.1 h)
    rw [List.length_cons]
    exact iff_of_false (by omega) fun h => h hinfix
  | case2 c d rest hne ih =>
    have hprefix : ¬ [a, b] <+: c :: d :: rest := by
      intro h
      rw [List.cons_prefix_cons, List.cons_prefix_cons] at h
      exact hne ⟨h.1.symm, h.2.1.symm⟩
    have hinfix : [a, b] <:+: c :: d :: rest ↔ [a, b] <:+: d :: rest := by
      rw [List.infix_cons_iff]
      exact or_iff_right hprefix
    rw [List.length_modifyHead, ih, hinfix]
  | case3 text htext =>
    refine iff_of_true rfl fun h => ?_
    obtain ⟨before, after, rfl⟩ := h
    cases before with
    | nil => exact htext a b after rfl
    | cons c before =>
      cases before with
      | nil => exact htext c a (b :: after) rfl
      | cons d before => exact htext c d _ rfl

end Text

namespace Statement

/-! ## Places outside of parentheses -/

/-- Parentheses are paired and not nested.  The text begins within parentheses if `inside`
is true, and does not end within parentheses. -/
inductive Paired : Bool → List Char → Prop where
  | nil : Paired false []
  | opening {rest : List Char} (h : Paired true rest) : Paired false ('(' :: rest)
  | closing {rest : List Char} (h : Paired false rest) : Paired true (')' :: rest)
  | char {inside : Bool} {c : Char} {rest : List Char} (hopening : c ≠ '(') (hclosing : c ≠ ')')
      (h : Paired inside rest) : Paired inside (c :: rest)

theorem paired_opening_iff {inside : Bool} {rest : List Char} :
    Paired inside ('(' :: rest) ↔ inside = false ∧ Paired true rest := by
  constructor
  · intro h
    cases h with
    | opening h => exact ⟨rfl, h⟩
    | char hopening _ _ => exact absurd rfl hopening
  · rintro ⟨rfl, h⟩
    exact .opening h

theorem paired_closing_iff {inside : Bool} {rest : List Char} :
    Paired inside (')' :: rest) ↔ inside = true ∧ Paired false rest := by
  constructor
  · intro h
    cases h with
    | closing h => exact ⟨rfl, h⟩
    | char _ hclosing _ => exact absurd rfl hclosing
  · rintro ⟨rfl, h⟩
    exact .closing h

theorem paired_char_iff {inside : Bool} {c : Char} {rest : List Char} (hopening : c ≠ '(')
    (hclosing : c ≠ ')') : Paired inside (c :: rest) ↔ Paired inside rest := by
  constructor
  · intro h
    cases h with
    | opening _ => exact absurd rfl hopening
    | closing _ => exact absurd rfl hclosing
    | char _ _ h => exact h
  · exact .char hopening hclosing

theorem Paired.append_chars {inside : Bool} {before chars : List Char} (h : Paired inside before)
    (hchars : ∀ c ∈ chars, c ≠ '(' ∧ c ≠ ')') : Paired inside (before ++ chars) := by
  induction h with
  | nil =>
    induction chars with
    | nil => exact .nil
    | cons c chars ih =>
      obtain ⟨hopening, hclosing⟩ := hchars c List.mem_cons_self
      exact .char hopening hclosing (ih fun d hd => hchars d (List.mem_cons_of_mem c hd))
  | opening _ ih => exact .opening ih
  | closing _ ih => exact .closing ih
  | char hopening hclosing _ ih => exact .char hopening hclosing ih

/-- The separator stands in the text behind `before`, outside of parentheses. -/
def StandsBehind (separator text : List Char) (inside : Bool) (before : List Char) : Prop :=
  Paired inside before ∧ ∃ after, text = before ++ separator ++ after

/-- A separator begins with a character that is no parenthesis. -/
def IsSeparator (separator : List Char) : Prop :=
  ∃ c rest, separator = c :: rest ∧ c ≠ '(' ∧ c ≠ ')'

theorem isSeparator_conjunction : IsSeparator conjunction :=
  ⟨',', [], rfl, by decide, by decide⟩

theorem isSeparator_disjunction : IsSeparator disjunction :=
  ⟨' ', ['v', ' '], rfl, by decide, by decide⟩

theorem not_standsBehind_nil_of_ne {separator : List Char} (hsep : IsSeparator separator) {c : Char}
    (hc : c = '(' ∨ c = ')') (text : List Char) (inside : Bool) :
    ¬ StandsBehind separator (c :: text) inside [] := by
  rintro ⟨_, after, htext⟩
  obtain ⟨first, rest, rfl, hopening, hclosing⟩ := hsep
  rw [List.nil_append, List.cons_append, List.cons.injEq] at htext
  rcases hc with rfl | rfl
  · exact hopening htext.1.symm
  · exact hclosing htext.1.symm

/-- A separator stands at the first character, or somewhere behind it. -/
theorem exists_standsBehind_cons {separator : List Char} {inside inside' : Bool} {c : Char}
    {text : List Char} (hcons : ∀ before, Paired inside (c :: before) ↔ Paired inside' before)
    (position p : Nat) :
    (∃ before, StandsBehind separator (c :: text) inside before ∧ p = position + before.length) ↔
      (StandsBehind separator (c :: text) inside [] ∧ p = position) ∨
        ∃ before, StandsBehind separator text inside' before ∧
          p = position + 1 + before.length := by
  constructor
  · rintro ⟨before, hstands, rfl⟩
    cases before with
    | nil => exact Or.inl ⟨hstands, rfl⟩
    | cons d before =>
      obtain ⟨hpaired, after, htext⟩ := hstands
      rw [List.cons_append, List.cons_append, List.cons.injEq] at htext
      obtain ⟨rfl, rfl⟩ := htext
      refine Or.inr ⟨before, ⟨(hcons before).1 hpaired, after, rfl⟩, ?_⟩
      rw [List.length_cons]
      omega
  · rintro (⟨hstands, rfl⟩ | ⟨before, ⟨hpaired, after, rfl⟩, rfl⟩)
    · exact ⟨[], hstands, rfl⟩
    · refine ⟨c :: before, ⟨(hcons before).2 hpaired, after, rfl⟩, ?_⟩
      rw [List.length_cons]
      omega

/-- The induction is on how the text is paired, which is how it is scanned. -/
theorem topLevelFrom_eq_ok {separator : List Char} (hsep : IsSeparator separator) {inside : Bool}
    {text : List Char} (h : Paired inside text) (position : Nat) :
    ∃ positions, topLevelFrom separator position inside text = .ok positions ∧
      positions.Pairwise (· < ·) ∧
      ∀ p, p ∈ positions ↔
        ∃ before, StandsBehind separator text inside before ∧ p = position + before.length := by
  induction h generalizing position with
  | nil =>
    refine ⟨[], rfl, .nil, fun p => iff_of_false List.not_mem_nil ?_⟩
    rintro ⟨before, ⟨_, after, htext⟩, _⟩
    obtain ⟨c, rest, rfl, _⟩ := hsep
    simp at htext
  | @opening rest h ih =>
    have hcons : ∀ before, Paired false ('(' :: before) ↔ Paired true before :=
      fun before => by simp [paired_opening_iff]
    obtain ⟨positions, hscan, hincreasing, hmem⟩ := ih (position + 1)
    refine ⟨positions, by simpa [topLevelFrom] using hscan, hincreasing, fun p => ?_⟩
    rw [hmem, exists_standsBehind_cons hcons,
      or_iff_right fun h => not_standsBehind_nil_of_ne hsep (Or.inl rfl) rest false h.1]
  | @closing rest h ih =>
    have hcons : ∀ before, Paired true (')' :: before) ↔ Paired false before :=
      fun before => by simp [paired_closing_iff]
    obtain ⟨positions, hscan, hincreasing, hmem⟩ := ih (position + 1)
    refine ⟨positions, by simpa [topLevelFrom] using hscan, hincreasing, fun p => ?_⟩
    rw [hmem, exists_standsBehind_cons hcons,
      or_iff_right fun h => not_standsBehind_nil_of_ne hsep (Or.inr rfl) rest true h.1]
  | @char inside c rest hopening hclosing h ih =>
    obtain ⟨later, hscan, hincreasing, hmem⟩ := ih (position + 1)
    have hfirst : (!inside && separator.isPrefixOf (c :: rest)) = true ↔
        StandsBehind separator (c :: rest) inside [] := by
      rw [Bool.and_eq_true, List.isPrefixOf_iff_prefix]
      constructor
      · rintro ⟨hinside, after, hprefix⟩
        have hfalse : inside = false := by simpa using hinside
        subst hfalse
        exact ⟨.nil, after, hprefix.symm⟩
      · rintro ⟨hpaired, after, htext⟩
        cases hpaired
        exact ⟨rfl, after, htext.symm⟩
    have hresult : topLevelFrom separator position inside (c :: rest) =
        .ok (if !inside && separator.isPrefixOf (c :: rest) then position :: later else later) := by
      rw [topLevelFrom, if_neg hopening, if_neg hclosing, hscan]
      rfl
    refine ⟨_, hresult, ?_, fun p => ?_⟩
    · split
      · refine List.pairwise_cons.2 ⟨fun p hp => ?_, hincreasing⟩
        obtain ⟨before, _, rfl⟩ := (hmem p).1 hp
        omega
      · exact hincreasing
    · rw [exists_standsBehind_cons fun before => paired_char_iff hopening hclosing, ← hmem, ← hfirst]
      split
      · next hstands => simp [hstands]
      · next hstands => simp [hstands]

theorem topLevelFrom_eq_error (separator : List Char) {inside : Bool} {text : List Char}
    (h : ¬ Paired inside text) (position : Nat) :
    topLevelFrom separator position inside text = .error .nesting := by
  induction text generalizing inside position with
  | nil =>
    cases inside with
    | true => rfl
    | false => exact absurd .nil h
  | cons c rest ih =>
    rw [topLevelFrom]
    by_cases hopening : c = '('
    · subst hopening
      rw [paired_opening_iff] at h
      cases inside with
      | true => rfl
      | false => exact ih (fun hrest => h ⟨rfl, hrest⟩) (position + 1)
    · rw [if_neg hopening]
      by_cases hclosing : c = ')'
      · subst hclosing
        rw [paired_closing_iff] at h
        cases inside with
        | true => exact ih (fun hrest => h ⟨rfl, hrest⟩) (position + 1)
        | false => rfl
      · rw [paired_char_iff hopening hclosing] at h
        rw [if_neg hclosing, ih h]
        rfl

/-- The places of a separator that stands outside of parentheses, in their order. -/
theorem topLevel_eq_ok {separator text : List Char} (hsep : IsSeparator separator)
    (h : Paired false text) :
    ∃ positions, topLevel separator text = .ok positions ∧ positions.Pairwise (· < ·) ∧
      ∀ p, p ∈ positions ↔
        ∃ before, StandsBehind separator text false before ∧ p = before.length := by
  obtain ⟨positions, hscan, hincreasing, hmem⟩ := topLevelFrom_eq_ok hsep h 0
  simp only [Nat.zero_add] at hmem
  exact ⟨positions, hscan, hincreasing, hmem⟩

theorem topLevel_eq_error (separator : List Char) {text : List Char} (h : ¬ Paired false text) :
    topLevel separator text = .error .nesting :=
  topLevelFrom_eq_error separator h 0

/-! ## Pieces -/

theorem isSome_piecesBetween?_iff (width start : Nat) (text : List Char) (positions : List Nat) :
    (piecesBetween? width start text positions).isSome ↔
      positions.Pairwise (fun p q => p + width ≤ q) ∧ ∀ p ∈ positions, start ≤ p := by
  induction positions generalizing start text with
  | nil => simp [piecesBetween?]
  | cons position positions ih =>
    rw [piecesBetween?, List.pairwise_cons, List.forall_mem_cons]
    by_cases hstart : start ≤ position
    · rw [if_pos hstart]
      dsimp only
      rw [Option.isSome_map, ih]
      constructor
      · rintro ⟨hpairwise, hbehind⟩
        refine ⟨⟨hbehind, hpairwise⟩, hstart, fun p hp => ?_⟩
        have := hbehind p hp
        omega
      · rintro ⟨⟨hbehind, hpairwise⟩, _, _⟩
        exact ⟨hpairwise, hbehind⟩
    · rw [if_neg hstart]
      exact iff_of_false (by simp) fun h => hstart h.2.1

/-- Places that are in order and have enough room between any two of them. -/
theorem isSome_piecesBetween?_of_increasing {width : Nat} {text : List Char}
    {positions : List Nat} (h : positions.Pairwise (· < ·)) :
    (piecesBetween? width 0 text positions).isSome ↔
      ∀ p ∈ positions, ∀ q ∈ positions, p < q → p + width ≤ q := by
  rw [isSome_piecesBetween?_iff]
  constructor
  · rintro ⟨hroom, _⟩ p hp q hq hlt
    obtain ⟨i, hi, rfl⟩ := List.mem_iff_getElem.1 hp
    obtain ⟨j, hj, rfl⟩ := List.mem_iff_getElem.1 hq
    rcases Nat.lt_trichotomy i j with hij | rfl | hij
    · exact List.pairwise_iff_getElem.1 hroom i j hi hj hij
    · exact absurd hlt (Nat.lt_irrefl _)
    · have := List.pairwise_iff_getElem.1 h j i hj hi hij
      omega
  · intro hroom
    exact ⟨h.imp_of_mem fun hp hq hlt => hroom _ hp _ hq hlt, fun p _ => Nat.zero_le p⟩

/-! ## Defects -/

/-- The computation does not fail because separators overlap. -/
def Defined {α : Type} (m : Except Fault α) : Prop :=
  m ≠ .error .overlap

theorem defined_pure {α : Type} (a : α) : Defined (pure a : Except Fault α) :=
  fun h => by cases h

theorem defined_throw {α : Type} (defect : RuleDefect) :
    Defined (throw (.defect defect) : Except Fault α) :=
  fun h => by cases h

theorem defined_throw_bind {α β : Type} (defect : RuleDefect) (f : α → Except Fault β) :
    Defined ((throw (.defect defect) : Except Fault α) >>= f) :=
  fun h => by cases h

theorem defined_orDefect {α : Type} (r : Except RuleDefect α) : Defined (orDefect r) := by
  cases r <;> exact fun h => by cases h

theorem bind_eq_overlap_iff {α β : Type} {m : Except Fault α} {f : α → Except Fault β}
    (hf : ∀ a, Defined (f a)) : m >>= f = .error .overlap ↔ m = .error .overlap := by
  cases m with
  | error fault => exact ⟨fun h => by cases h; rfl, fun h => by cases h; rfl⟩
  | ok a => exact iff_of_false (hf a) fun h => by cases h

/-- Computations that only go on differently fail alike. -/
theorem bind_eq_error_imp {α β : Type} {m : Except Fault α} {f g : α → Except Fault β}
    (hfg : ∀ a fault, f a = .error fault → g a = .error fault) {fault : Fault}
    (h : m >>= f = .error fault) : m >>= g = .error fault := by
  cases m with
  | error e => exact h
  | ok a => exact hfg a fault h

theorem Defined.bind {α β : Type} {m : Except Fault α} {f : α → Except Fault β} (hm : Defined m)
    (hf : ∀ a, Defined (f a)) : Defined (m >>= f) :=
  fun h => hm ((bind_eq_overlap_iff hf).1 h)

theorem Defined.ite {α : Type} {p : Prop} [Decidable p] {m m' : Except Fault α} (h : Defined m)
    (h' : Defined m') : Defined (if p then m else m') := by
  split
  · exact h
  · exact h'

/-- The text can be scanned for both separators, but not be cut at the one. -/
theorem splitAtoms_eq_overlap_iff {separator other text : List Char} :
    splitAtoms separator other text = .error .overlap ↔
      topLevel other text = .ok [] ∧ ∃ positions, topLevel separator text = .ok positions ∧
        piecesBetween? separator.length 0 text positions = none := by
  unfold splitAtoms
  cases hother : topLevel other text with
  | error e => exact iff_of_false (fun h => by cases h) fun h => by cases h.1
  | ok places =>
    cases places with
    | cons place places => exact iff_of_false (fun h => by cases h) fun h => by cases h.1
    | nil =>
      rw [and_iff_right rfl]
      cases hsep : topLevel separator text with
      | error e =>
        refine iff_of_false (fun h => by cases h) fun h => ?_
        obtain ⟨_, h, _⟩ := h
        cases h
      | ok positions =>
        simp only [orDefect, Except.mapError, bind, Except.bind, List.isEmpty_nil, if_true,
          Except.ok.injEq, exists_eq_left']
        cases piecesBetween? separator.length 0 text positions with
        | none => exact iff_of_true rfl rfl
        | some pieces =>
          refine iff_of_false (fun h => ?_) fun h => by cases h
          dsimp only at h
          split at h <;> cases h

/-- Commas have room enough. -/
theorem defined_splitAtoms_conjunction (text : List Char) :
    Defined (splitAtoms conjunction disjunction text) := by
  intro h
  obtain ⟨_, positions, hscan, hpieces⟩ := splitAtoms_eq_overlap_iff.1 h
  have hpaired : Paired false text := by
    by_contra hpaired
    rw [topLevel_eq_error conjunction hpaired] at hscan
    cases hscan
  obtain ⟨positions', hscan', hincreasing, _⟩ := topLevel_eq_ok isSeparator_conjunction hpaired
  rw [hscan', Except.ok.injEq] at hscan
  subst hscan
  have hroom : (piecesBetween? conjunction.length 0 text positions').isSome :=
    (isSome_piecesBetween?_of_increasing hincreasing).2 fun p _ q _ hlt => hlt
  rw [hpieces] at hroom
  cases hroom

/-- Two separators of a disjunction share a space, and nothing else is wrong with the
separators of the text. -/
structure Overlapping (text : List Char) : Prop where
  noArrow : ¬ "=>".toList <:+: text
  paired : Paired false text
  noComma : ∀ before, ¬ StandsBehind ",".toList text false before
  shared : ∃ before, StandsBehind " v v ".toList text false before

/-- Two places of the separator are too close only if the later one begins with the last
space of the earlier one. -/
theorem exists_close_iff {text : List Char} :
    (∃ before, StandsBehind " v v ".toList text false before) ↔
      ∃ first second, StandsBehind disjunction text false first ∧
        StandsBehind disjunction text false second ∧ first.length < second.length ∧
        second.length < first.length + disjunction.length := by
  constructor
  · rintro ⟨before, hpaired, after, rfl⟩
    have hlater : Paired false (before ++ [' ', 'v']) := hpaired.append_chars (by simp)
    refine ⟨before, before ++ [' ', 'v'], ⟨hpaired, 'v' :: ' ' :: after, ?_⟩,
      ⟨hlater, after, ?_⟩, ?_, ?_⟩ <;> simp [disjunction]
  · rintro ⟨first, second, ⟨hfirst, after, htext⟩, ⟨_, after', htext'⟩, hlt, hclose⟩
    have hsame : first ++ (disjunction ++ after) = second ++ (disjunction ++ after') := by
      rw [← List.append_assoc, ← htext, htext', List.append_assoc]
    rcases List.append_eq_append_iff.1 hsame with ⟨between, rfl, hrest⟩ | ⟨between, rfl, _⟩
    · rw [List.length_append] at hlt hclose
      have hlength : disjunction.length = 3 := rfl
      match between with
      | [] => simp at hlt
      -- One place further on stands the `v` of the earlier separator.
      | [c] => simp [disjunction] at hrest
      | [c, d] =>
        simp only [disjunction, List.cons_append, List.nil_append, List.cons.injEq] at hrest
        obtain ⟨rfl, rfl, _, rfl⟩ := hrest
        exact ⟨first, hfirst, after', by simpa [disjunction] using htext⟩
      | c :: d :: e :: between =>
        simp only [List.length_cons] at hclose
        omega
    · rw [List.length_append] at hlt
      omega

/-- A disjunction can be read but for its separators. -/
theorem splitAtoms_disjunction_eq_overlap_iff {text : List Char} (hpaired : Paired false text) :
    splitAtoms disjunction conjunction text = .error .overlap ↔
      (∀ before, ¬ StandsBehind ",".toList text false before) ∧
        ∃ before, StandsBehind " v v ".toList text false before := by
  obtain ⟨commas, hcommas, _, hmemcommas⟩ := topLevel_eq_ok isSeparator_conjunction hpaired
  obtain ⟨places, hplaces, hincreasing, hmem⟩ := topLevel_eq_ok isSeparator_disjunction hpaired
  have hnone : commas = [] ↔ ∀ before, ¬ StandsBehind ",".toList text false before := by
    rw [List.eq_nil_iff_forall_not_mem]
    constructor
    · intro h before hstands
      exact h _ ((hmemcommas _).2 ⟨before, hstands, rfl⟩)
    · intro h p hp
      obtain ⟨before, hstands, _⟩ := (hmemcommas p).1 hp
      exact h before hstands
  have hclose : piecesBetween? disjunction.length 0 text places = none ↔
      ∃ before, StandsBehind " v v ".toList text false before := by
    rw [exists_close_iff, ← Option.not_isSome_iff_eq_none,
      isSome_piecesBetween?_of_increasing hincreasing]
    constructor
    · intro h
      push Not at h
      obtain ⟨p, hp, q, hq, hlt, hclose⟩ := h
      obtain ⟨first, hfirst, rfl⟩ := (hmem p).1 hp
      obtain ⟨second, hsecond, rfl⟩ := (hmem q).1 hq
      exact ⟨first, second, hfirst, hsecond, hlt, hclose⟩
    · rintro ⟨first, second, hfirst, hsecond, hlt, hclose⟩ hroom
      have := hroom _ ((hmem _).2 ⟨first, hfirst, rfl⟩) _ ((hmem _).2 ⟨second, hsecond, rfl⟩) hlt
      omega
  rw [splitAtoms_eq_overlap_iff, hcommas, hplaces]
  simp only [Except.ok.injEq, exists_eq_left', hnone, hclose]

/-! ## Statements -/

/-- Only a statement without an arrow is split at the separators of a disjunction. -/
theorem readShape_eq_overlap_iff {text : List Char} :
    readShape text = .error .overlap ↔ Overlapping text := by
  have harrow := Text.length_splitPair_eq_one_iff '=' '>' text
  unfold readShape
  split
  · next body head hsplit =>
    refine iff_of_false ?_ fun h => ?_
    · refine (defined_orDefect _).bind fun _ => .ite ?_ (defined_throw_bind _ _)
      refine (defined_orDefect _).bind fun _ => .ite ?_ (defined_throw_bind _ _)
      refine (defined_splitAtoms_conjunction body).bind fun _ => .ite (defined_pure _) ?_
      exact (defined_splitAtoms_conjunction head).bind fun _ => defined_pure _
    · have := harrow.2 h.noArrow
      simp [hsplit] at this
  · next piece hsplit =>
    have hnoArrow := harrow.1 (by rw [hsplit]; rfl)
    by_cases hpaired : Paired false text
    · obtain ⟨places, hplaces, _, hmem⟩ := topLevel_eq_ok isSeparator_disjunction hpaired
      rw [hplaces]
      cases places with
      | nil =>
        refine iff_of_false ?_ fun h => ?_
        · exact (defined_splitAtoms_conjunction text).bind fun _ => defined_pure _
        · obtain ⟨first, _, hfirst, _⟩ := exists_close_iff.1 h.shared
          exact List.not_mem_nil ((hmem _).2 ⟨first, hfirst, rfl⟩)
      | cons place places =>
        refine (bind_eq_overlap_iff fun _ => defined_pure _).trans ?_
        rw [splitAtoms_disjunction_eq_overlap_iff hpaired]
        exact ⟨fun h => ⟨hnoArrow, hpaired, h.1, h.2⟩, fun h => ⟨h.noComma, h.shared⟩⟩
    · rw [topLevel_eq_error disjunction hpaired]
      exact iff_of_false (fun h => by cases h) fun h => hpaired h.paired
  · next pieces hnotTwo hnotOne =>
    refine iff_of_false (defined_throw _) fun h => ?_
    obtain ⟨piece, hsplit⟩ := List.length_eq_one_iff.1 (harrow.2 h.noArrow)
    exact hnotOne piece hsplit

theorem read_eq_overlap_iff {typings : Typings} {text : List Char} :
    read typings text = .error .overlap ↔ Overlapping text := by
  refine (bind_eq_overlap_iff fun shape => ?_).trans readShape_eq_overlap_iff
  refine (defined_orDefect _).bind fun _ => ?_
  exact (defined_orDefect _).bind fun _ => defined_pure _

theorem not_overlapping_of_read {typings : Typings} {text : List Char}
    (h : read typings text ≠ .error .overlap) : ¬ Overlapping text :=
  fun hoverlap => h (read_eq_overlap_iff.2 hoverlap)

/-- Typings only give sorts to variables, and so do not decide what can be read. -/
theorem read_eq_error_congr (typings typings' : Typings) {text : List Char} {fault : Fault}
    (h : read typings text = .error fault) : read typings' text = .error fault := by
  refine bind_eq_error_imp (fun shape fault h => ?_) h
  refine bind_eq_error_imp (fun body fault h => ?_) h
  exact bind_eq_error_imp (fun heads fault h => by cases h) h

end Statement

end Groundwork
