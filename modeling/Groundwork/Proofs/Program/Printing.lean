import Groundwork.Proofs.Program.Scanning
import Groundwork.Proofs.Relation.Encodings

/-!
# Printed relations

A relation is printed with single spaces between its words, and with parentheses around its
arguments.  The reader finds operators, parentheses and commas by looking for their characters,
none of which a token or a term has, so it finds those that were printed and no others.

* `readTerm_printed`: a term is read back, also with blanks around it;
* `readAtom_printed`: so is a relation, with its terms and without annotations;
* `Relation.Joinable`, `atomic_printed`: no connective is found in a printed relation, if none of
  its words is the letter between the alternatives of a disjunction.
-/

namespace Groundwork

namespace Text

/-! ## Splitting joined texts -/

theorem mem_of_mem_intercalate {separator : List Char} {texts : List (List Char)} {c : Char}
    (h : c ∈ separator.intercalate texts) : c ∈ separator ∨ ∃ text ∈ texts, c ∈ text := by
  cases texts with
  | nil => cases h
  | cons text texts =>
    rw [intercalate_cons_eq, List.mem_append, List.mem_flatMap] at h
    rcases h with h | ⟨next, hnext, h⟩
    · exact Or.inr ⟨text, List.mem_cons_self, h⟩
    · rcases List.mem_append.1 h with h | h
      · exact Or.inl h
      · exact Or.inr ⟨next, List.mem_cons_of_mem _ hnext, h⟩

/-- Parts are found again where they were joined, also with blanks around all of them. -/
theorem map_trim_splitOn {x : Char} (hx : isBlank x = false) {parts : List (List Char)}
    (htrimmed : ∀ part ∈ parts, Trimmed part) (hparts : ∀ part ∈ parts, x ∉ part)
    {part before after : List Char} (hpart : Trimmed part) (hnot : x ∉ part)
    (hbefore : ∀ c ∈ before, isBlank c = true) (hafter : ∀ c ∈ after, isBlank c = true) :
    ((before ++ (part ++ (parts.flatMap (x :: ·) ++ after))).splitOn x).map trim = part :: parts := by
  have hblank : ∀ cs : List Char, (∀ c ∈ cs, isBlank c = true) → x ∉ cs := by
    intro cs hcs hmem
    rw [hcs x hmem] at hx
    cases hx
  induction parts generalizing part before with
  | nil =>
    have hnone : x ∉ before ++ (part ++ after) := by
      simp [hblank before hbefore, hblank after hafter, hnot]
    rw [List.flatMap_nil, List.nil_append, List.splitOn_eq_singleton hnone, List.map_singleton,
      hpart.trim_eq hbefore hafter]
  | cons next parts ih =>
    obtain ⟨hnext, hrest⟩ := List.forall_mem_cons.1 htrimmed
    obtain ⟨hnotNext, hnotRest⟩ := List.forall_mem_cons.1 hparts
    have hnone : x ∉ before ++ part := by
      simp [hblank before hbefore, hnot]
    have hself : trim (before ++ part) = part := by
      have htrim := hpart.trim_eq hbefore padding_nil.blank
      rwa [List.append_nil] at htrim
    have hlater := ih hrest hnotRest hnext hnotNext padding_nil.blank
    rw [List.flatMap_cons, List.cons_append, List.cons_append, ← List.append_assoc,
      List.splitOn_append_cons_self, List.splitOn_eq_singleton hnone, List.map_append,
      List.map_singleton, hself, List.append_assoc]
    exact congrArg (part :: ·) hlater

/-- The same for words, which are found without anything between them. -/
theorem words_joined {words : List (List Char)} {word after : List Char}
    (h : ∀ w ∈ word :: words, w ≠ [] ∧ ∀ c ∈ w, isBlank c = false)
    (hafter : Padding after) :
    Text.words (word ++ (words.flatMap (' ' :: ·) ++ after)) = word :: words := by
  induction words generalizing word with
  | nil =>
    obtain ⟨hne, hblank⟩ := h word List.mem_cons_self
    rw [List.flatMap_nil, List.nil_append, Text.words]
    rcases hafter with rfl | rfl
    · rw [List.append_nil, List.splitOnP_eq_singleton hblank]
      simp [hne]
    · rw [List.splitOnP_append_cons_of_forall_mem hblank ' ' (by decide)]
      simp [hne]
  | cons next words ih =>
    obtain ⟨⟨hne, hblank⟩, hrest⟩ := List.forall_mem_cons.1 h
    have hlater := ih hrest
    rw [Text.words] at hlater
    rw [List.flatMap_cons, List.cons_append, List.cons_append, Text.words,
      List.splitOnP_append_cons_of_forall_mem hblank ' ' (by decide),
      List.filter_cons_of_pos (by simp [hne]), List.append_assoc, hlater]

end Text

/-! ## Terms -/

/-- The character is no blank, and none of those that end a term. -/
def Plain (c : Char) : Prop :=
  Text.isBlank c = false ∧ c ∉ [',', '(', ')', ':', '=', '!']

theorem plain_of_isToken {cs : List Char} (h : isToken cs = true) {c : Char} (hc : c ∈ cs) :
    Plain c := by
  obtain ⟨_, hblank, hreserved, _⟩ := isToken_iff.1 h
  exact ⟨hblank c hc, fun hmem => hreserved c hc (List.mem_cons_of_mem '.' hmem)⟩

namespace Term

variable {term : String}

theorem Legal.plain (h : Legal term) {c : Char} (hc : c ∈ term.toList) : Plain c := by
  rw [h.toList_eq] at hc
  rcases Text.mem_of_mem_intercalate hc with hc | ⟨part, hpart, hc⟩
  · rw [List.mem_singleton.1 hc]
    exact ⟨by decide, by decide⟩
  · exact plain_of_isToken (h.isToken_parts part hpart) hc

theorem Legal.notMem (h : Legal term) {c : Char} (hc : c ∈ [',', '(', ')', ':', '=', '!']) :
    c ∉ term.toList :=
  fun hmem => (h.plain hmem).2 hc

theorem Legal.trimmed (h : Legal term) : Text.Trimmed term.toList := by
  rw [h.toList_eq]
  refine ⟨intercalate_ne_nil '.' (List.cons_ne_nil _ _) h.isToken_parts, fun c hc => ?_,
    isBlank_getLast?_intercalate '.' h.isToken_parts⟩
  rw [head?_intercalate '.' (isToken_iff.1 h.base).1] at hc
  exact (plain_of_isToken h.base (List.mem_of_mem_head? hc)).1

end Term

namespace Statement

theorem cut?_of_notMem {c : Char} {cs : List Char} (h : c ∉ cs) : Text.cut? c cs = none := by
  induction cs with
  | nil => rfl
  | cons d cs ih =>
    obtain ⟨hne, hcs⟩ := List.ne_and_not_mem_of_not_mem_cons h
    rw [Text.cut?, if_neg hne.symm, ih hcs]
    rfl

theorem cut?_append {c : Char} {cs : List Char} (h : c ∉ cs) (rest : List Char) :
    Text.cut? c (cs ++ c :: rest) = some (cs, rest) := by
  induction cs with
  | nil => rw [List.nil_append, Text.cut?, if_pos rfl]
  | cons d cs ih =>
    obtain ⟨hne, hcs⟩ := List.ne_and_not_mem_of_not_mem_cons h
    rw [List.cons_append, Text.cut?, if_neg hne.symm, ih hcs]
    rfl

theorem cutPair?_append {a b : Char} {cs : List Char} (h : a ∉ cs) (rest : List Char) :
    Text.cutPair? a b (cs ++ a :: b :: rest) = some (cs, rest) := by
  induction cs with
  | nil => rw [List.nil_append, Text.cutPair?, if_pos ⟨rfl, rfl⟩]
  | cons d cs ih =>
    obtain ⟨hne, hcs⟩ := List.ne_and_not_mem_of_not_mem_cons h
    have hrest := ih hcs
    cases cs with
    | nil =>
      rw [List.nil_append] at hrest
      rw [List.cons_append, List.nil_append, Text.cutPair?, if_neg fun h => hne h.1.symm, hrest]
      rfl
    | cons e cs =>
      rw [List.cons_append] at hrest
      rw [List.cons_append, List.cons_append, Text.cutPair?, if_neg fun h => hne h.1.symm, hrest]
      rfl

/-- A term that was printed is read back without an annotation. -/
theorem readTerm_printed {term : String} (h : Term.Legal term) {before after : List Char}
    (hbefore : Text.Padding before) (hafter : Text.Padding after) :
    readTerm (before ++ (term.toList ++ after)) = .ok ⟨term, none⟩ := by
  have hcolon : ':' ∉ before ++ (term.toList ++ after) := by
    intro hmem
    rcases List.mem_append.1 hmem with hmem | hmem
    · exact absurd (hbefore.blank _ hmem) (by decide)
    · rcases List.mem_append.1 hmem with hmem | hmem
      · exact h.notMem (by decide) hmem
      · exact absurd (hafter.blank _ hmem) (by decide)
  have hparts : ((before ++ (term.toList ++ after)).splitOn '.').map Text.trim =
      (Term.base term).toList :: (Term.functions term).map String.toList := by
    have htrimmed := fun part hpart => Text.trimmed_of_isToken (h.isToken_parts part hpart)
    have hdot : ∀ part ∈ (Term.base term).toList :: (Term.functions term).map String.toList,
        '.' ∉ part := fun part hpart =>
      (notMem_of_isToken (h.isToken_parts part hpart)).2
    obtain ⟨hbase, hfunctions⟩ := List.forall_mem_cons.1 htrimmed
    obtain ⟨hdotBase, hdotFunctions⟩ := List.forall_mem_cons.1 hdot
    rw [h.toList_eq, Text.intercalate_cons_eq, List.append_assoc]
    exact Text.map_trim_splitOn (by decide) hfunctions hdotFunctions hbase hdotBase
      hbefore.blank hafter.blank
  have hne : (Text.trim (before ++ (term.toList ++ after))).isEmpty = false := by
    rw [h.trimmed.trim_eq hbefore.blank hafter.blank]
    simpa using h.trimmed.ne_nil
  have hall : (((before ++ (term.toList ++ after)).splitOn '.').map Text.trim).all isToken = true := by
    rw [hparts, List.all_eq_true]
    exact h.isToken_parts
  unfold readTerm
  rw [cut?_of_notMem hcolon]
  dsimp only
  rw [pure_bind, hne, hparts]
  rw [hparts] at hall
  rw [if_neg Bool.false_ne_true, if_pos hall, ← h.toList_eq, String.ofList_toList]
  rfl

end Statement

/-! ## Relations -/

namespace Relation

/-- No word of the name of the predicate, and no side of the comparison, is the letter that stands
between the alternatives of a disjunction. -/
def Joinable (r : Relation) : Prop :=
  if r.isComparison then "v" ∉ r.terms else ['v'] ∉ Text.words r.name.toList

instance (r : Relation) : Decidable r.Joinable :=
  inferInstanceAs (Decidable (if r.isComparison then _ else _))

/-- The characters of an operator. -/
def operator (equal : Bool) : List Char :=
  if equal then ['='] else ['!', '=']

theorem toList_comparison (left : String) (equal : Bool) (right : String) :
    (toString (comparison left equal right)).toList =
      left.toList ++ ([operator equal, right.toList].flatMap (' ' :: ·) ++ []) := by
  show (if (comparison left equal right).isComparison then _ else _ : String).toList = _
  rw [if_pos (isComparison_comparison left equal right), String.toList_intercalate]
  show [' '].intercalate [left.toList, (if equal then "=" else "!=").toList, right.toList] = _
  rw [Text.intercalate_cons_eq, List.append_nil]
  cases equal <;> rfl

theorem toList_predicate {words terms : List String} (hterms : ∀ term ∈ terms, Term.Legal term) :
    (toString (predicate (" ".intercalate words) terms)).toList =
      [' '].intercalate (words.map String.toList) ++
        (' ' :: '(' :: ([',', ' '].intercalate (terms.map String.toList) ++ [')'])) := by
  show (if (predicate (" ".intercalate words) terms).isComparison then _ else _ : String).toList = _
  rw [isComparison_predicate _ fun term hterm => (hterms term hterm).isOperator,
    if_neg Bool.false_ne_true]
  simp [predicate]

end Relation

namespace Statement

/-- A word is passed over by all scans for separators. -/
structure Solid (word : List Char) : Prop where
  ne_nil : word ≠ []
  chars : ∀ c ∈ word, c ≠ ' ' ∧ c ≠ ',' ∧ c ≠ '(' ∧ c ≠ ')'

theorem solid_of_plain {word : List Char} (hne : word ≠ []) (h : ∀ c ∈ word, Plain c) :
    Solid word := by
  refine ⟨hne, fun c hc => ?_⟩
  obtain ⟨hblank, hnot⟩ := h c hc
  refine ⟨?_, ?_, ?_, ?_⟩
  · rintro rfl
    exact absurd hblank (by decide)
  all_goals
    rintro rfl
    exact hnot (by decide)

theorem solid_operator (equal : Bool) : Solid (Relation.operator equal) := by
  cases equal <;> exact ⟨by decide, by simp [Relation.operator]⟩

theorem Solid.skips_conjunction {word : List Char} (h : Solid word) : Skips conjunction word :=
  skips_of_forall fun c hc =>
    let ⟨_, hcomma, hopening, hclosing⟩ := h.chars c hc
    ⟨hopening, hclosing, hcomma⟩

theorem Solid.skips_disjunction {word : List Char} (h : Solid word) : Skips disjunction word :=
  skips_of_forall fun c hc =>
    let ⟨hspace, _, hopening, hclosing⟩ := h.chars c hc
    ⟨hopening, hclosing, hspace⟩

/-- Only the letter between alternatives could begin a separator with the space before it. -/
theorem Solid.skips_spaced {word : List Char} (h : Solid word) (hv : word ≠ ['v']) :
    Skips disjunction (' ' :: word) := by
  intro rest position
  have hnot : ¬ disjunction <+: ' ' :: (word ++ rest) := by
    intro hprefix
    have hprefix := (List.cons_prefix_cons.1 hprefix).2
    match word, h, hv with
    | [], h, _ => exact h.ne_nil rfl
    | [c], _, hv =>
      exact hv (by rw [(List.cons_prefix_cons.1 hprefix).1])
    | c :: d :: word, h, _ =>
      have hspace := (List.cons_prefix_cons.1 (List.cons_prefix_cons.1 hprefix).2).1
      exact (h.chars d (by simp)).1 hspace.symm
  rw [List.cons_append, topLevelFrom_cons (by decide) (by decide) hnot, h.skips_disjunction,
    List.length_cons, Nat.add_assoc, Nat.add_comm 1]

/-- Words with spaces between them, and an ending that is passed over. -/
theorem atomic_of_words {word ending : List Char} {words : List (List Char)}
    (hsolid : ∀ w ∈ word :: words, Solid w) (hv : ['v'] ∉ word :: words)
    (hcommas : Skips conjunction ending) (halternatives : Skips disjunction ending)
    (htrimmed : Text.Trimmed (word ++ (words.flatMap (' ' :: ·) ++ ending)))
    (hwhole : Text.Whole '=' '>' (word ++ (words.flatMap (' ' :: ·) ++ ending)))
    (hmarked : '(' ∈ word ++ (words.flatMap (' ' :: ·) ++ ending) ∨
      '=' ∈ word ++ (words.flatMap (' ' :: ·) ++ ending)) :
    Atomic (word ++ (words.flatMap (' ' :: ·) ++ ending)) := by
  obtain ⟨hword, hwords⟩ := List.forall_mem_cons.1 hsolid
  obtain ⟨hne, hnot⟩ := List.ne_and_not_mem_of_not_mem_cons hv
  have hrest : Skips disjunction (words.flatMap (' ' :: ·) ++ ending) := by
    refine Skips.append (skips_flatMap fun w hw => (hwords w hw).skips_spaced ?_) halternatives
    rintro rfl
    exact hnot hw
  refine ⟨htrimmed, hwhole, hword.skips_conjunction.append (Skips.append ?_ hcommas),
    hword.skips_disjunction.append hrest, (hword.skips_spaced hne.symm).append hrest, hmarked⟩
  exact skips_flatMap fun w hw => skips_space.append (hwords w hw).skips_conjunction

/-- The arguments are within parentheses. -/
theorem skips_arguments {arguments : List Char} (h : ∀ c ∈ arguments, c ≠ '(' ∧ c ≠ ')') :
    Skips disjunction (' ' :: '(' :: (arguments ++ [')'])) := by
  intro rest position
  have hnot : ¬ disjunction <+: ' ' :: (('(' :: (arguments ++ [')'])) ++ rest) := by
    intro hprefix
    have hletter := (List.cons_prefix_cons.1 (List.cons_prefix_cons.1 hprefix).2).1
    exact absurd hletter (by decide)
  rw [List.cons_append, topLevelFrom_cons (by decide) (by decide) hnot, skips_group _ h,
    List.length_cons (a := ' '), Nat.add_assoc, Nat.add_comm 1]

theorem name_cases {words : List String} (h : ∀ word ∈ words, legalToken word = true) {c : Char}
    (hc : c ∈ [' '].intercalate (words.map String.toList)) : c = ' ' ∨ Plain c := by
  rcases Text.mem_of_mem_intercalate hc with hc | ⟨text, htext, hc⟩
  · exact Or.inl (List.mem_singleton.1 hc)
  · obtain ⟨word, hword, rfl⟩ := List.mem_map.1 htext
    exact Or.inr (plain_of_isToken (h word hword) hc)

/-- The characters between the parentheses of a printed relation. -/
theorem arguments_cases {terms : List String} (h : ∀ term ∈ terms, Term.Legal term) {c : Char}
    (hc : c ∈ [',', ' '].intercalate (terms.map String.toList)) : c = ',' ∨ c = ' ' ∨ Plain c := by
  rcases Text.mem_of_mem_intercalate hc with hc | ⟨text, htext, hc⟩
  · simpa using Or.imp_right Or.inl (List.mem_pair.1 hc)
  · obtain ⟨term, hterm, rfl⟩ := List.mem_map.1 htext
    exact Or.inr (Or.inr ((h term hterm).plain hc))

/-- A predicate with its arguments has no characters of an operator. -/
theorem notMem_printed {words terms : List String}
    (hwords : ∀ word ∈ words, legalToken word = true) (hterms : ∀ term ∈ terms, Term.Legal term)
    {c : Char} (hc : c = '=' ∨ c = '!') :
    c ∉ (toString (Relation.predicate (" ".intercalate words) terms)).toList := by
  have hplain : ¬ Plain c := by
    rintro ⟨_, hnot⟩
    rcases hc with rfl | rfl <;> exact hnot (by decide)
  have hprinted : c ≠ ' ' ∧ c ≠ ',' ∧ c ≠ '(' ∧ c ≠ ')' := by
    rcases hc with rfl | rfl <;> decide
  obtain ⟨hspace, hcomma, hopening, hclosing⟩ := hprinted
  rw [Relation.toList_predicate hterms]
  simp only [List.mem_append, List.mem_cons, List.not_mem_nil, or_false, not_or]
  refine ⟨fun hmem => ?_, hspace, hopening, fun hmem => ?_, hclosing⟩
  · exact (name_cases hwords hmem).elim hspace hplain
  · rcases arguments_cases hterms hmem with hmem | hmem | hmem
    · exact hcomma hmem
    · exact hspace hmem
    · exact hplain hmem

theorem solid_of_legal {term : String} (h : Term.Legal term) : Solid term.toList :=
  solid_of_plain h.trimmed.ne_nil fun _ hc => h.plain hc

theorem solid_of_legalToken {word : String} (h : legalToken word = true) : Solid word.toList :=
  solid_of_plain (isToken_iff.1 h).1 fun _ hc => plain_of_isToken h hc

theorem words_name {words : List String} (hne : words ≠ [])
    (hwords : ∀ word ∈ words, legalToken word = true) {after : List Char}
    (hafter : Text.Padding after) :
    Text.words ((" ".intercalate words).toList ++ after) = words.map String.toList := by
  obtain ⟨word, rest, rfl⟩ := List.exists_cons_of_ne_nil hne
  rw [String.toList_intercalate, List.map_cons]
  show Text.words ([' '].intercalate (word.toList :: rest.map String.toList) ++ after) = _
  rw [Text.intercalate_cons_eq, List.append_assoc]
  have htokens : ∀ w ∈ (word :: rest).map String.toList,
      w ≠ [] ∧ ∀ c ∈ w, Text.isBlank c = false := by
    refine List.forall_mem_map.2 fun w hw => ?_
    obtain ⟨hne, hblank, _⟩ := isToken_iff.1 (hwords w hw)
    exact ⟨hne, hblank⟩
  exact Text.words_joined htokens hafter

theorem atomic_comparison {left right : String} (equal : Bool) (hleft : Term.Legal left)
    (hright : Term.Legal right) (hv : left ≠ "v") (hv' : right ≠ "v") :
    Atomic (toString (Relation.comparison left equal right)).toList := by
  have hne : ∀ side : String, side ≠ "v" → side.toList ≠ ['v'] := fun side hside h =>
    hside (String.toList_injective h)
  have hletter : ['v'] ∉ [left.toList, Relation.operator equal, right.toList] := by
    have hoperator : Relation.operator equal ≠ ['v'] := by
      cases equal <;> decide
    simp only [List.mem_cons, List.not_mem_nil, or_false, not_or]
    exact ⟨(hne left hv).symm, hoperator.symm, (hne right hv').symm⟩
  have hsolid : ∀ w ∈ [left.toList, Relation.operator equal, right.toList], Solid w := by
    simp only [List.forall_mem_cons]
    exact ⟨solid_of_legal hleft, solid_operator equal, solid_of_legal hright, by simp⟩
  have htrimmed := hleft.trimmed.append (' ' :: (Relation.operator equal ++ [' '])) hright.trimmed
  have hequalsLeft : '=' ∉ left.toList := hleft.notMem (by decide)
  have hequalsRight : '=' ∉ right.toList := hright.notMem (by decide)
  -- The only equality sign is followed by a space.
  have hwhole : ∀ before : List Char, '=' ∉ before →
      Text.Whole '=' '>' (before ++ (['=', ' '] ++ right.toList)) := fun before hbefore =>
    (Text.whole_of_notMem hbefore).append
      ((Text.whole_pair (by decide) (by decide)).append (Text.whole_of_notMem hequalsRight))
  rw [Relation.toList_comparison]
  refine atomic_of_words hsolid hletter (fun _ _ => rfl) (fun _ _ => rfl) (by simpa using htrimmed) ?_
    (Or.inr (by cases equal <;> simp [Relation.operator]))
  cases equal with
  | true => simpa [Relation.operator] using hwhole (left.toList ++ [' ']) (by simp [hequalsLeft])
  | false =>
    simpa [Relation.operator] using hwhole (left.toList ++ [' ', '!']) (by simp [hequalsLeft])

theorem atomic_predicate {words terms : List String} (hne : words ≠ [])
    (hwords : ∀ word ∈ words, legalToken word = true) (hterms : ∀ term ∈ terms, Term.Legal term)
    (hv : "v" ∉ words) :
    Atomic (toString (Relation.predicate (" ".intercalate words) terms)).toList := by
  have hparentheses : ∀ c ∈ [',', ' '].intercalate (terms.map String.toList), c ≠ '(' ∧ c ≠ ')' := by
    intro c hc
    rcases arguments_cases hterms hc with rfl | rfl | hplain
    · decide
    · decide
    · constructor
      all_goals
        rintro rfl
        exact hplain.2 (by decide)
  have hletter : ['v'] ∉ words.map String.toList := by
    intro hmem
    obtain ⟨word, hword, heq⟩ := List.mem_map.1 hmem
    have hsame : word = "v" := String.toList_injective heq
    exact hv (hsame ▸ hword)
  have hsolid : ∀ w ∈ words.map String.toList, Solid w :=
    List.forall_mem_map.2 fun word hword => solid_of_legalToken (hwords word hword)
  have hequals := notMem_printed hwords hterms (Or.inl rfl : '=' = '=' ∨ '=' = '!')
  obtain ⟨word, rest, rfl⟩ := List.exists_cons_of_ne_nil hne
  rw [Relation.toList_predicate hterms] at hequals ⊢
  rw [List.map_cons, Text.intercalate_cons_eq, List.append_assoc] at hequals ⊢
  have hfirst := Text.trimmed_of_isToken (hwords word List.mem_cons_self)
  have hblank : Text.isBlank ')' = false := by decide
  have hlast : Text.Trimmed [')'] := ⟨by decide, by simp [hblank], by simp [hblank]⟩
  refine atomic_of_words hsolid hletter (skips_space.append (skips_group _ hparentheses))
    (skips_arguments hparentheses) ?_ (Text.whole_of_notMem hequals) (Or.inl (by simp))
  have htrimmed := hfirst.append ((rest.map String.toList).flatMap (' ' :: ·) ++
    ' ' :: '(' :: [',', ' '].intercalate (terms.map String.toList)) hlast
  simpa using htrimmed

/-- No connective is found in a printed relation. -/
theorem atomic_printed {r : Relation} (h : r.Over Term.Legal) (hjoinable : r.Joinable) :
    Atomic (toString r).toList := by
  cases h with
  | @comparison left right equal hleft hright =>
    rw [Relation.Joinable, if_pos (Relation.isComparison_comparison left equal right),
      Relation.terms_comparison, List.mem_pair, not_or] at hjoinable
    exact atomic_comparison equal hleft hright (Ne.symm hjoinable.1) (Ne.symm hjoinable.2)
  | @predicate words terms hne hwords hterms =>
    have hcomparison := Relation.isComparison_predicate (" ".intercalate words) fun term hterm =>
      (hterms term hterm).isOperator
    have hname := words_name hne hwords Text.padding_nil
    rw [List.append_nil] at hname
    rw [Relation.Joinable, hcomparison, if_neg Bool.false_ne_true, Relation.name, hcomparison,
      if_neg Bool.false_ne_true] at hjoinable
    refine atomic_predicate hne hwords hterms fun hmem => hjoinable ?_
    show ['v'] ∈ Text.words (" ".intercalate words).toList
    rw [hname]
    exact List.mem_map_of_mem hmem

/-! ## Reading relations -/

/-- The arguments are read back one by one, each with the space behind the comma before it. -/
theorem mapM_readTerm_printed {terms : List String} (h : ∀ term ∈ terms, Term.Legal term)
    (hne : terms ≠ []) :
    (([',', ' '].intercalate (terms.map String.toList)).splitOn ',').mapM readTerm =
      .ok (terms.map fun term => ⟨term, none⟩) := by
  obtain ⟨term, rest, rfl⟩ := List.exists_cons_of_ne_nil hne
  obtain ⟨hterm, hrest⟩ := List.forall_mem_cons.1 h
  have hpieces : ([',', ' '].intercalate ((term :: rest).map String.toList)).splitOn ',' =
      term.toList :: rest.map fun t => ' ' :: t.toList := by
    have hjoin : [',', ' '].intercalate ((term :: rest).map String.toList) =
        [','].intercalate (term.toList :: rest.map fun t => ' ' :: t.toList) := by
      rw [List.map_cons, Text.intercalate_cons_eq, Text.intercalate_cons_eq, List.flatMap_map,
        List.flatMap_map]
      rfl
    rw [hjoin]
    refine List.splitOn_intercalate ',' (List.forall_mem_cons.2 ⟨hterm.notMem (by decide), ?_⟩)
      (List.cons_ne_nil _ _)
    refine List.forall_mem_map.2 fun t ht => ?_
    have hcomma : ',' ∉ t.toList := (hrest t ht).notMem (by decide)
    simp [hcomma]
  rw [hpieces, Fallible.mapM_eq_ok_iff, List.map_cons, List.map_cons, List.map_cons, List.map_map,
    List.map_map]
  have hfirst := readTerm_printed hterm Text.padding_nil Text.padding_nil
  rw [List.nil_append, List.append_nil] at hfirst
  refine congrArg₂ List.cons hfirst (List.map_congr_left fun t ht => ?_)
  have hlater := readTerm_printed (hrest t ht) Text.padding_space Text.padding_nil
  rw [List.append_nil] at hlater
  exact hlater

section Comparison

variable {left right : String} (equal : Bool) (hleft : Term.Legal left) (hright : Term.Legal right)
include hleft hright

/-- The spaces around the operator are left on its sides. -/
theorem comparison?_comparison :
    comparison? (toString (Relation.comparison left equal right)).toList =
      some (left.toList ++ [' '], equal, ' ' :: right.toList) := by
  have hequals : '=' ∉ left.toList := hleft.notMem (by decide)
  have hmark : '!' ∉ left.toList := hleft.notMem (by decide)
  have hmark' : '!' ∉ right.toList := hright.notMem (by decide)
  rw [Relation.toList_comparison]
  unfold comparison?
  cases equal with
  | true =>
    have htext : left.toList ++ ([Relation.operator true, right.toList].flatMap (' ' :: ·) ++ []) =
        (left.toList ++ [' ']) ++ '=' :: ' ' :: right.toList := by
      simp [Relation.operator]
    rw [htext, Text.cutPair?_of_notMem (by simp [hmark, hmark']), cut?_append (by simp [hequals])]
    rfl
  | false =>
    have htext : left.toList ++ ([Relation.operator false, right.toList].flatMap (' ' :: ·) ++ []) =
        (left.toList ++ [' ']) ++ '!' :: '=' :: ' ' :: right.toList := by
      simp [Relation.operator]
    rw [htext, cutPair?_append (by simp [hmark])]

theorem readAtom_comparison :
    readAtom (toString (Relation.comparison left equal right)).toList =
      .ok (.comparison left equal right, [⟨left, none⟩, ⟨right, none⟩]) := by
  have hreadLeft := readTerm_printed hleft Text.padding_nil Text.padding_space
  have hreadRight := readTerm_printed hright Text.padding_space Text.padding_nil
  rw [List.nil_append] at hreadLeft
  rw [List.append_nil, List.singleton_append] at hreadRight
  unfold readAtom
  rw [comparison?_comparison equal hleft hright]
  dsimp only
  rw [hreadLeft, hreadRight]
  rfl

end Comparison

section Predicate

variable {words terms : List String} (hwords : ∀ word ∈ words, legalToken word = true)
  (hterms : ∀ term ∈ terms, Term.Legal term)
include hwords hterms

theorem comparison?_predicate :
    comparison? (toString (Relation.predicate (" ".intercalate words) terms)).toList = none := by
  unfold comparison?
  rw [Text.cutPair?_of_notMem (notMem_printed hwords hterms (Or.inr rfl)),
    cut?_of_notMem (notMem_printed hwords hterms (Or.inl rfl))]
  rfl

/-- The space in front of the arguments is left on the name. -/
theorem application?_predicate :
    application? (toString (Relation.predicate (" ".intercalate words) terms)).toList =
      some ((" ".intercalate words).toList ++ [' '],
        [',', ' '].intercalate (terms.map String.toList)) := by
  have hopening : '(' ∉ (" ".intercalate words).toList ++ [' '] := by
    rw [String.toList_intercalate]
    intro hmem
    rcases List.mem_append.1 hmem with hmem | hmem
    · rcases name_cases hwords hmem with heq | hplain
      · exact absurd heq (by decide)
      · exact hplain.2 (by decide)
    · exact absurd hmem (by decide)
  have htext : [' '].intercalate (words.map String.toList) ++
      ' ' :: '(' :: ([',', ' '].intercalate (terms.map String.toList) ++ [')']) =
        ((" ".intercalate words).toList ++ [' ']) ++
          '(' :: ([',', ' '].intercalate (terms.map String.toList) ++ [')']) := by
    rw [String.toList_intercalate, List.append_assoc]
    rfl
  rw [Relation.toList_predicate hterms]
  unfold application?
  rw [htext, cut?_append hopening]
  simp

theorem readAtom_predicate (hne : words ≠ []) :
    readAtom (toString (Relation.predicate (" ".intercalate words) terms)).toList =
      .ok (.predicate (" ".intercalate words) terms, terms.map fun term => ⟨term, none⟩) := by
  have hname := words_name hne hwords Text.padding_space
  have hempty : (words.map String.toList).isEmpty = false := by
    simpa using hne
  have hlegal : ((words.map String.toList).find? fun word => !isToken word) = none := by
    rw [List.find?_eq_none]
    refine List.forall_mem_map.2 fun word hword => ?_
    have htoken : isToken word.toList = true := hwords word hword
    simp [htoken]
  have hjoined : String.ofList ([' '].intercalate (words.map String.toList)) =
      " ".intercalate words := by
    apply String.toList_injective
    rw [String.toList_ofList, String.toList_intercalate]
    rfl
  unfold readAtom
  rw [comparison?_predicate hwords hterms, application?_predicate hwords hterms]
  dsimp only
  rw [hname, hempty, hlegal, hjoined, if_neg Bool.false_ne_true]
  dsimp only
  cases terms with
  | nil => rfl
  | cons term rest =>
    obtain ⟨c, hc⟩ := List.exists_mem_of_ne_nil _ (hterms term List.mem_cons_self).trimmed.ne_nil
    have hmem : c ∈ [',', ' '].intercalate ((term :: rest).map String.toList) := by
      rw [List.map_cons, Text.intercalate_cons_eq]
      exact List.mem_append_left _ hc
    have hkept := Text.mem_trim hmem ((hterms term List.mem_cons_self).plain hc).1
    rw [if_neg (by simpa using List.ne_nil_of_mem hkept),
      mapM_readTerm_printed hterms (List.cons_ne_nil _ _)]
    simp [bind, Except.bind, pure, Except.pure, Function.comp_def]

end Predicate

/-- A printed relation is read back with its terms, none of which has an annotation. -/
theorem readAtom_printed {r : Relation} (h : r.Over Term.Legal) :
    readAtom (toString r).toList = .ok (r, r.terms.map fun term => ⟨term, none⟩) := by
  cases h with
  | comparison equal hleft hright =>
    rw [readAtom_comparison equal hleft hright, Relation.terms_comparison]
    rfl
  | @predicate words terms hne hwords hterms =>
    have hcomparison := Relation.isComparison_predicate (" ".intercalate words) fun term hterm =>
      (hterms term hterm).isOperator
    rw [readAtom_predicate hwords hterms hne, Relation.terms, hcomparison,
      if_neg Bool.false_ne_true]
    rfl

end Statement

end Groundwork
