import Groundwork.Proofs.Program.Separators
import Groundwork.Proofs.Relation

/-!
# Scanning a statement chunk by chunk

The connectives of a statement are found by three scans of its characters: for `=>`, for commas
and for `" v "`.  None of them knows of names or terms, so a chunk of the text is only known to
be passed over if no separator begins in it, whatever stands behind it.

* `Text.Whole`: a chunk in which no pair of characters is found, with the ways of putting such
  chunks together;
* `Statement.Skips`: the same for a separator outside of parentheses;
* `Statement.Atomic`: a text in which no scan finds anything;
* `splitAtoms_joined`: such texts are found again where they were joined at a separator.
-/

namespace Groundwork

namespace Text

/-! ## Blanks at the ends -/

/-- The text begins and ends with a character that is not blank. -/
structure Trimmed (cs : List Char) : Prop where
  ne_nil : cs ≠ []
  first : ∀ c ∈ cs.head?, isBlank c = false
  last : ∀ c ∈ cs.getLast?, isBlank c = false

theorem trimmed_of_isToken {cs : List Char} (h : isToken cs = true) : Trimmed cs := by
  obtain ⟨hne, hblank, _⟩ := isToken_iff.1 h
  exact ⟨hne, fun c hc => hblank c (List.mem_of_mem_head? hc),
    fun c hc => hblank c (List.mem_of_mem_getLast? hc)⟩

/-- What is between two texts does not matter for the ends. -/
theorem Trimmed.append {cs ds : List Char} (hcs : Trimmed cs) (between : List Char)
    (hds : Trimmed ds) : Trimmed (cs ++ (between ++ ds)) := by
  refine ⟨fun h => hcs.ne_nil (List.append_eq_nil_iff.1 h).1, fun c hc => hcs.first c ?_,
    fun c hc => hds.last c ?_⟩
  · rwa [List.head?_append_of_ne_nil _ hcs.ne_nil] at hc
  · rwa [← List.append_assoc, List.getLast?_append_of_ne_nil _ hds.ne_nil] at hc

theorem Trimmed.trim_eq {cs before after : List Char} (h : Trimmed cs)
    (hbefore : ∀ c ∈ before, isBlank c = true) (hafter : ∀ c ∈ after, isBlank c = true) :
    trim (before ++ (cs ++ after)) = cs := by
  have hstart : ∀ behind, trimStart (cs ++ behind) = cs ++ behind := by
    intro behind
    obtain ⟨c, rest, rfl⟩ := List.exists_cons_of_ne_nil h.ne_nil
    rw [trimStart, List.cons_append, List.dropWhile_cons_of_neg (by simp [h.first c rfl])]
  have hskipped : trimStart (before ++ (cs ++ after)) = cs ++ after := by
    rw [trimStart, List.dropWhile_append_of_pos hbefore]
    exact hstart after
  have hend : trimEnd (cs ++ after) = trimEnd cs := by
    rw [trimEnd, List.reverse_append, List.dropWhile_append_of_pos fun c hc =>
      hafter c (List.mem_reverse.1 hc)]
    rfl
  have hself : trimEnd (trimStart cs) = cs := trim_eq_self h.first h.last
  have hwhole : trimStart cs = cs := by simpa using hstart []
  rw [hwhole] at hself
  rw [trim, hskipped, hend, hself]

/-- What stands around a text that was joined with others: nothing, or a space. -/
def Padding (cs : List Char) : Prop :=
  cs = [] ∨ cs = [' ']

theorem padding_nil : Padding [] :=
  Or.inl rfl

theorem padding_space : Padding [' '] :=
  Or.inr rfl

theorem Padding.blank {cs : List Char} (h : Padding cs) : ∀ c ∈ cs, isBlank c = true := by
  cases h with
  | inl h => simp [h]
  | inr h =>
    rw [h, List.forall_mem_singleton]
    decide

/-! ## Joined texts -/

theorem intercalate_cons_eq (separator text : List Char) (texts : List (List Char)) :
    separator.intercalate (text :: texts) = text ++ texts.flatMap (separator ++ ·) := by
  induction texts generalizing text with
  | nil => rw [List.intercalate_singleton, List.flatMap_nil, List.append_nil]
  | cons next texts ih =>
    rw [List.intercalate_cons_cons, ih, List.flatMap_cons, List.append_assoc, List.append_assoc]

/-! ## Pairs of characters -/

section Whole

variable {a b : Char} {chunk next : List Char}

/-- No place of the pair begins in the chunk, whatever stands behind it. -/
def Whole (a b : Char) (chunk : List Char) : Prop :=
  ∀ rest, splitPair a b (chunk ++ rest) = (splitPair a b rest).modifyHead (chunk ++ ·)

theorem Whole.append (h : Whole a b chunk) (hnext : Whole a b next) : Whole a b (chunk ++ next) := by
  intro rest
  rw [List.append_assoc, h, hnext, List.modifyHead_modifyHead]
  congr 1
  funext piece
  simp

theorem splitPair_cons_of_ne {c : Char} (hne : c ≠ a) (cs : List Char) :
    splitPair a b (c :: cs) = (splitPair a b cs).modifyHead (c :: ·) := by
  cases cs with
  | nil => rfl
  | cons d cs => rw [splitPair, if_neg fun h => hne h.1]

theorem whole_of_notMem (h : a ∉ chunk) : Whole a b chunk := by
  intro rest
  induction chunk with
  | nil =>
    rw [List.nil_append]
    cases splitPair a b rest <;> rfl
  | cons c chunk ih =>
    obtain ⟨hne, hchunk⟩ := List.ne_and_not_mem_of_not_mem_cons h
    rw [List.cons_append, splitPair_cons_of_ne hne.symm, ih hchunk, List.modifyHead_modifyHead]
    rfl

/-- The first character may stand in the chunk if another one follows it. -/
theorem whole_pair {c : Char} (ha : c ≠ a) (hb : c ≠ b) : Whole a b [a, c] := by
  intro rest
  show splitPair a b (a :: c :: rest) = _
  rw [splitPair, if_neg fun h => hb h.2, splitPair_cons_of_ne ha, List.modifyHead_modifyHead]
  rfl

theorem Whole.splitPair_eq (h : Whole a b chunk) : splitPair a b chunk = [chunk] := by
  have hrest := h []
  rw [List.append_nil] at hrest
  rw [hrest]
  simp [splitPair]

theorem Whole.splitPair_append (h : Whole a b chunk) (rest : List Char) :
    splitPair a b (chunk ++ a :: b :: rest) = chunk :: splitPair a b rest := by
  rw [h, splitPair, if_pos ⟨rfl, rfl⟩, List.modifyHead_cons, List.append_nil]

end Whole

end Text

namespace Statement

/-! ## Separators outside of parentheses -/

section Skips

variable {separator chunk next : List Char}

/-- Parentheses are paired in the chunk, and no separator outside of them begins in it, whatever
stands behind it. -/
def Skips (separator chunk : List Char) : Prop :=
  ∀ rest position, topLevelFrom separator position false (chunk ++ rest) =
    topLevelFrom separator (position + chunk.length) false rest

theorem Skips.append (h : Skips separator chunk) (hnext : Skips separator next) :
    Skips separator (chunk ++ next) := by
  intro rest position
  rw [List.append_assoc, h, hnext, List.length_append, Nat.add_assoc]

theorem Skips.topLevelFrom_eq (h : Skips separator chunk) (position : Nat) :
    topLevelFrom separator position false chunk = .ok [] := by
  have hrest := h [] position
  rw [List.append_nil] at hrest
  rw [hrest]
  rfl

/-- A character is passed over unless the separator begins there. -/
theorem topLevelFrom_cons {c : Char} {rest : List Char} (hopening : c ≠ '(') (hclosing : c ≠ ')')
    (hnot : ¬ separator <+: c :: rest) (position : Nat) :
    topLevelFrom separator position false (c :: rest) =
      topLevelFrom separator (position + 1) false rest := by
  rw [topLevelFrom, if_neg hopening, if_neg hclosing]
  have hfalse : separator.isPrefixOf (c :: rest) = false := by
    rw [Bool.eq_false_iff, ne_eq, List.isPrefixOf_iff_prefix]
    exact hnot
  rw [hfalse]
  cases topLevelFrom separator (position + 1) false rest <;> rfl

theorem skips_of_forall {first : Char} {tail : List Char}
    (h : ∀ c ∈ chunk, c ≠ '(' ∧ c ≠ ')' ∧ c ≠ first) : Skips (first :: tail) chunk := by
  intro rest position
  induction chunk generalizing position with
  | nil => rfl
  | cons c chunk ih =>
    obtain ⟨⟨hopening, hclosing, hne⟩, hchunk⟩ := List.forall_mem_cons.1 h
    have hnot : ¬ first :: tail <+: c :: (chunk ++ rest) := fun hprefix =>
      hne (List.cons_prefix_cons.1 hprefix).1.symm
    rw [List.cons_append, topLevelFrom_cons hopening hclosing hnot, ih hchunk, List.length_cons,
      Nat.add_assoc, Nat.add_comm 1]

/-- Within parentheses no separator counts. -/
theorem topLevelFrom_inside (separator : List Char) {arguments : List Char}
    (h : ∀ c ∈ arguments, c ≠ '(' ∧ c ≠ ')') (rest : List Char) (position : Nat) :
    topLevelFrom separator position true (arguments ++ ')' :: rest) =
      topLevelFrom separator (position + arguments.length + 1) false rest := by
  induction arguments generalizing position with
  | nil => rfl
  | cons c arguments ih =>
    obtain ⟨⟨hopening, hclosing⟩, harguments⟩ := List.forall_mem_cons.1 h
    rw [List.cons_append, topLevelFrom, if_neg hopening, if_neg hclosing, ih harguments,
      List.length_cons]
    have hposition : position + 1 + arguments.length + 1 = position + (arguments.length + 1) + 1 := by
      omega
    rw [hposition]
    cases topLevelFrom separator (position + (arguments.length + 1) + 1) false rest <;> rfl

theorem skips_group (separator : List Char) {arguments : List Char}
    (h : ∀ c ∈ arguments, c ≠ '(' ∧ c ≠ ')') : Skips separator ('(' :: (arguments ++ [')'])) := by
  intro rest position
  show topLevelFrom separator position false ('(' :: ((arguments ++ [')']) ++ rest)) = _
  rw [topLevelFrom, if_pos rfl, if_neg (by decide), List.append_assoc]
  show topLevelFrom separator (position + 1) true (arguments ++ ')' :: rest) = _
  rw [topLevelFrom_inside separator h, List.length_cons, List.length_append, List.length_singleton]
  congr 1
  omega

end Skips

/-! ## Texts that were joined -/

/-- What is needed for a text to be split into atoms. -/
theorem splitAtoms_eq_ok_iff {separator other text : List Char} {atoms : List (List Char)} :
    splitAtoms separator other text = .ok atoms ↔
      topLevel other text = .ok [] ∧ ∃ positions pieces, topLevel separator text = .ok positions ∧
        piecesBetween? separator.length 0 text positions = some pieces ∧
        pieces.map Text.trim = atoms ∧ ∀ atom ∈ atoms, atom ≠ [] := by
  unfold splitAtoms
  cases hother : topLevel other text with
  | error e => exact iff_of_false (fun h => by cases h) fun h => by cases h.1
  | ok places =>
    cases places with
    | cons place places => exact iff_of_false (fun h => by cases h) fun h => by cases h.1
    | nil =>
      rw [and_iff_right rfl]
      cases hseparator : topLevel separator text with
      | error e =>
        refine iff_of_false (fun h => by cases h) fun h => ?_
        obtain ⟨_, _, h, _⟩ := h
        cases h
      | ok positions =>
        simp only [orDefect, Except.mapError, bind, Except.bind, List.isEmpty_nil, if_true,
          Except.ok.injEq]
        cases hpieces : piecesBetween? separator.length 0 text positions with
        | none =>
          refine iff_of_false (fun h => by cases h) fun h => ?_
          obtain ⟨_, _, rfl, h, _⟩ := h
          rw [hpieces] at h
          cases h
        | some pieces =>
          dsimp only
          constructor
          · intro h
            split at h
            · cases h
            · next hempty =>
              cases h
              exact ⟨positions, pieces, rfl, hpieces, rfl, by simpa using hempty⟩
          · rintro ⟨_, _, rfl, hsome, rfl, hne⟩
            rw [hpieces, Option.some.injEq] at hsome
            subst hsome
            rw [if_neg (by simpa using hne)]
            rfl

theorem length_of_piecesBetween? {width start : Nat} {text : List Char} {positions : List Nat}
    {pieces : List (List Char)} (h : piecesBetween? width start text positions = some pieces) :
    pieces.length = positions.length + 1 := by
  induction positions generalizing start text pieces with
  | nil =>
    cases h
    rfl
  | cons position positions ih =>
    rw [piecesBetween?] at h
    split at h
    · obtain ⟨rest, hrest, rfl⟩ := Option.map_eq_some_iff.1 h
      rw [List.length_cons, ih hrest, List.length_cons]
    · cases h

/-- There is one atom more than there are separators. -/
theorem length_of_splitAtoms {separator other text : List Char} {atoms : List (List Char)}
    (h : splitAtoms separator other text = .ok atoms) :
    ∃ positions, topLevel separator text = .ok positions ∧ atoms.length = positions.length + 1 := by
  obtain ⟨_, positions, pieces, hplaces, hpieces, rfl, _⟩ := splitAtoms_eq_ok_iff.1 h
  exact ⟨positions, hplaces, by rw [List.length_map, length_of_piecesBetween? hpieces]⟩

theorem ne_nil_of_splitAtoms {separator other text : List Char} {atoms : List (List Char)}
    (h : splitAtoms separator other text = .ok atoms) : atoms ≠ [] := by
  obtain ⟨positions, _, hlength⟩ := length_of_splitAtoms h
  refine List.ne_nil_of_length_pos ?_
  omega

/-- The texts behind the first one, each with a separator and a gap before it. -/
def followed (separator gap : List Char) (texts : List (List Char)) (after : List Char) :
    List Char :=
  texts.flatMap (fun text => separator ++ (gap ++ text)) ++ after

theorem followed_cons (separator gap text : List Char) (texts : List (List Char))
    (after : List Char) : followed separator gap (text :: texts) after =
      separator ++ (gap ++ text ++ followed separator gap texts after) := by
  simp [followed]

section Joined

variable {c : Char} {tail gap after : List Char} (hopening : c ≠ '(') (hclosing : c ≠ ')')
  (hgap : ∀ d ∈ gap, Text.isBlank d = true) (hafter : ∀ d ∈ after, Text.isBlank d = true)
  (hend : ∀ position, topLevelFrom (c :: tail) position false after = .ok [])

include hopening hclosing hgap hafter hend in
/-- The scan has come to the end of one text and finds the separators before the others.  The
pieces are cut from where the text begins, or from the gap in front of it. -/
theorem exists_pieces {texts : List (List Char)} (htrimmed : ∀ text ∈ texts, Text.Trimmed text)
    (hskips : ∀ text ∈ texts, Skips (c :: tail) (tail ++ (gap ++ text))) {before text : List Char}
    (hbefore : ∀ d ∈ before, Text.isBlank d = true) (htext : Text.Trimmed text) {start position : Nat}
    (hposition : position = start + (before ++ text).length) :
    ∃ positions pieces,
      topLevelFrom (c :: tail) position false (followed (c :: tail) gap texts after) =
        .ok positions ∧
      piecesBetween? (c :: tail).length start
        (before ++ text ++ followed (c :: tail) gap texts after) positions = some pieces ∧
      pieces.map Text.trim = text :: texts := by
  induction texts generalizing before text start position with
  | nil =>
    refine ⟨[], _, hend position, rfl, ?_⟩
    show [Text.trim (before ++ text ++ after)] = [text]
    rw [List.append_assoc, htext.trim_eq hbefore hafter]
  | cons next texts ih =>
    obtain ⟨hnext, hlater⟩ := List.forall_mem_cons.1 htrimmed
    obtain ⟨hskip, hskips⟩ := List.forall_mem_cons.1 hskips
    obtain ⟨positions, pieces, hscan, hpieces, htrim⟩ :=
      ih hlater hskips hgap hnext
        (rfl : position + (c :: tail).length + (gap ++ next).length = _)
    rw [followed_cons]
    refine ⟨position :: positions, (before ++ text) :: pieces, ?_, ?_, ?_⟩
    · have hsame : position + 1 + (tail ++ (gap ++ next)).length =
          position + (c :: tail).length + (gap ++ next).length := by
        simp only [List.length_append, List.length_cons]
        omega
      rw [List.cons_append, topLevelFrom, if_neg hopening, if_neg hclosing, ← List.append_assoc,
        hskip, hsame, hscan]
      simp [bind, Except.bind, pure, Except.pure]
    · have hcut : position - start = (before ++ text).length := by omega
      rw [piecesBetween?, if_pos (by omega), hcut, List.splitAt_eq, List.take_left, List.drop_left]
      dsimp only
      rw [List.drop_left, hpieces, Option.map_some]
    · have hself := htext.trim_eq hbefore Text.padding_nil.blank
      rw [List.append_nil] at hself
      rw [List.map_cons, htrim, hself]

include hopening hclosing hgap hafter hend in
/-- Texts that were joined at a separator are found again, without the blanks between them. -/
theorem splitAtoms_joined {other before text : List Char} {texts : List (List Char)}
    (hbefore : ∀ d ∈ before, Text.isBlank d = true) (hfirst : Skips (c :: tail) (before ++ text))
    (htrimmed : ∀ t ∈ text :: texts, Text.Trimmed t)
    (hskips : ∀ t ∈ texts, Skips (c :: tail) (tail ++ (gap ++ t)))
    (hother : topLevel other (before ++ text ++ followed (c :: tail) gap texts after) = .ok []) :
    splitAtoms (c :: tail) other (before ++ text ++ followed (c :: tail) gap texts after) =
      .ok (text :: texts) := by
  obtain ⟨htext, hlater⟩ := List.forall_mem_cons.1 htrimmed
  obtain ⟨positions, pieces, hscan, hpieces, htrim⟩ :=
    exists_pieces hopening hclosing hgap hafter hend hlater hskips hbefore htext rfl
  have hplaces : topLevel (c :: tail) (before ++ text ++ followed (c :: tail) gap texts after) =
      .ok positions := by
    rw [topLevel, hfirst]
    exact hscan
  exact splitAtoms_eq_ok_iff.2
    ⟨hother, positions, pieces, hplaces, hpieces, htrim, fun t ht => (htrimmed t ht).ne_nil⟩

end Joined

/-! ## Texts without connectives -/

/-- A text that is whole by itself: it has no blanks at its ends, and no arrow, no comma and no
`" v "` is found in it, also with a space in front of it.  It has a parenthesis or an operator. -/
structure Atomic (text : List Char) : Prop where
  trimmed : Text.Trimmed text
  whole : Text.Whole '=' '>' text
  commas : Skips conjunction text
  alternatives : Skips disjunction text
  spaced : Skips disjunction (' ' :: text)
  marked : '(' ∈ text ∨ '=' ∈ text

section Atomic

variable {texts : List (List Char)}

theorem skips_flatMap {separator : List Char} {f : List Char → List Char}
    (h : ∀ t ∈ texts, Skips separator (f t)) : Skips separator (texts.flatMap f) := by
  induction texts with
  | nil => exact fun _ _ => rfl
  | cons t texts ih =>
    obtain ⟨ht, htexts⟩ := List.forall_mem_cons.1 h
    rw [List.flatMap_cons]
    exact ht.append (ih htexts)

theorem whole_intercalate {separator : List Char} (hseparator : Text.Whole '=' '>' separator)
    (h : ∀ t ∈ texts, Atomic t) : Text.Whole '=' '>' (separator.intercalate texts) := by
  induction texts with
  | nil => exact Text.whole_of_notMem List.not_mem_nil
  | cons t texts ih =>
    obtain ⟨ht, htexts⟩ := List.forall_mem_cons.1 h
    cases texts with
    | nil =>
      rw [List.intercalate_singleton]
      exact ht.whole
    | cons next texts =>
      rw [List.intercalate_cons_cons]
      exact (ht.whole.append hseparator).append (ih htexts)

theorem skips_space : Skips conjunction [' '] :=
  skips_of_forall (by simp)

/-- The atoms of a conjunction, with spaces around all of it. -/
theorem splitAtoms_conjunction {before after : List Char} (hbefore : Text.Padding before)
    (hafter : Text.Padding after) (h : ∀ t ∈ texts, Atomic t) (hne : texts ≠ []) :
    topLevel disjunction (before ++ ([',', ' '].intercalate texts ++ after)) = .ok [] ∧
      splitAtoms conjunction disjunction (before ++ ([',', ' '].intercalate texts ++ after)) =
        .ok texts := by
  obtain ⟨text, texts, rfl⟩ := List.exists_cons_of_ne_nil hne
  obtain ⟨htext, htexts⟩ := List.forall_mem_cons.1 h
  have hcomma : Skips disjunction [','] := skips_of_forall (by simp)
  have hskips : Skips disjunction (before ++ text ++ texts.flatMap ([',', ' '] ++ ·)) := by
    refine Skips.append ?_ (skips_flatMap fun t ht => hcomma.append (htexts t ht).spaced)
    rcases hbefore with rfl | rfl
    · exact htext.alternatives
    · exact htext.spaced
  have hfirst : Skips conjunction (before ++ text) := by
    rcases hbefore with rfl | rfl
    · exact htext.commas
    · exact skips_space.append htext.commas
  have hend : ∀ position, topLevelFrom conjunction position false after = .ok [] := by
    intro position
    rcases hafter with rfl | rfl <;> rfl
  have hjoined : before ++ ([',', ' '].intercalate (text :: texts) ++ after) =
      before ++ text ++ followed conjunction [' '] texts after := by
    rw [Text.intercalate_cons_eq, List.append_assoc, ← List.append_assoc before]
    rfl
  have hnone : topLevel disjunction (before ++ text ++ followed conjunction [' '] texts after) =
      .ok [] := by
    rw [followed, ← List.append_assoc, topLevel]
    refine (hskips after 0).trans ?_
    rcases hafter with rfl | rfl <;> rfl
  rw [hjoined]
  exact ⟨hnone, splitAtoms_joined (by decide) (by decide) Text.padding_space.blank hafter.blank hend
    hbefore.blank hfirst (fun t ht => (h t ht).trimmed)
    (fun t ht => skips_space.append (htexts t ht).commas) hnone⟩

/-- The alternatives of a disjunction, of which there are several. -/
theorem splitAtoms_disjunction (h : ∀ t ∈ texts, Atomic t) (hseveral : 2 ≤ texts.length) :
    (∃ place places, topLevel disjunction (disjunction.intercalate texts) =
        .ok (place :: places)) ∧
      splitAtoms disjunction conjunction (disjunction.intercalate texts) = .ok texts := by
  obtain ⟨text, texts, rfl⟩ := List.exists_cons_of_length_pos (by omega : 0 < texts.length)
  obtain ⟨htext, htexts⟩ := List.forall_mem_cons.1 h
  have hseparator : Skips conjunction disjunction := skips_of_forall (by simp [disjunction])
  have hletter : Skips disjunction ['v'] := skips_of_forall (by simp)
  have hjoined : disjunction.intercalate (text :: texts) =
      [] ++ text ++ followed disjunction [] texts [] := by
    rw [Text.intercalate_cons_eq, followed, List.append_nil]
    rfl
  have hnone : topLevel conjunction ([] ++ text ++ followed disjunction [] texts []) = .ok [] := by
    rw [followed, List.append_nil]
    exact (htext.commas.append (skips_flatMap fun t ht =>
      hseparator.append (htexts t ht).commas)).topLevelFrom_eq 0
  have hend : ∀ position, topLevelFrom disjunction position false [] = .ok [] := fun _ => rfl
  have hsplit := splitAtoms_joined (by decide) (by decide) Text.padding_nil.blank
    Text.padding_nil.blank hend Text.padding_nil.blank htext.alternatives
    (fun t ht => (h t ht).trimmed) (fun t ht => hletter.append (htexts t ht).spaced) hnone
  rw [hjoined]
  refine ⟨?_, hsplit⟩
  obtain ⟨positions, hplaces, hlength⟩ := length_of_splitAtoms hsplit
  cases positions with
  | nil =>
    rw [hlength] at hseveral
    exact absurd hseveral (by decide)
  | cons place places => exact ⟨place, places, hplaces⟩

end Atomic

end Statement

end Groundwork
