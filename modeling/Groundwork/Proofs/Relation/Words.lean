import Groundwork.Proofs.Relation

/-!
# The words of ground atoms

A ground relation is a relation over constants.  Its ground atom spells it out as words with
single spaces between them.  No word has a blank, so the words can be read back.  Where the
name ends and the arguments begin cannot, as names of predicates may be made of several words.

* `Ground.groundAtom_eq_iff`: ground relations have the same ground atom exactly if they have
  the same words;
* `Ground.eq_of_words_eq`: then they are equal if they have the same name, or as many terms,
  or if one of them is a comparison.
-/

namespace Groundwork

namespace Relation

/-- The words of the parts, in order. -/
def words (r : Relation) : List String :=
  r.parts.flatMap fun part => (part.toList.splitOn ' ').map String.ofList

/-- A relation over constants, which is what the ground atoms stand for. -/
def Ground (r : Relation) : Prop :=
  r.Over fun term => legalToken term = true

theorem splitOn_space_of_legalToken {s : String} (h : legalToken s = true) :
    (s.toList.splitOn ' ').map String.ofList = [s] := by
  have hone : ([' '].intercalate [s.toList]).splitOn ' ' = [s.toList] :=
    List.splitOn_intercalate ' '
      (fun cs hcs => List.mem_singleton.1 hcs ▸ (notMem_of_isToken h).1) (List.cons_ne_nil _ _)
  rw [List.intercalate_singleton] at hone
  rw [hone, List.map_singleton, String.ofList_toList]

/-- Words that are joined by spaces can be told apart again. -/
theorem splitOn_intercalate_words {words : List String} (hne : words ≠ [])
    (hwords : ∀ word ∈ words, ' ' ∉ word.toList) :
    ((" ".intercalate words).toList.splitOn ' ').map String.ofList = words := by
  have hsplit : ([' '].intercalate (words.map String.toList)).splitOn ' ' =
      words.map String.toList :=
    List.splitOn_intercalate ' ' (List.forall_mem_map.2 hwords)
      fun h => hne (List.map_eq_nil_iff.1 h)
  rw [String.toList_intercalate, show " ".toList = [' '] from rfl, hsplit, List.map_map]
  refine (List.map_congr_left fun word _ => ?_).trans (List.map_id _)
  exact String.ofList_toList

theorem intercalate_words_injective {words others : List String} (hne : words ≠ [])
    (hne' : others ≠ []) (hwords : ∀ word ∈ words, ' ' ∉ word.toList)
    (hothers : ∀ word ∈ others, ' ' ∉ word.toList) :
    " ".intercalate words = " ".intercalate others ↔ words = others := by
  constructor
  · intro h
    rw [← splitOn_intercalate_words hne hwords, h, splitOn_intercalate_words hne' hothers]
  · rintro rfl
    rfl

/-- The induction is on the words of the name, the first of which stays in front. -/
theorem intercalate_intercalate_cons {words : List String} (hne : words ≠ [])
    (terms : List String) :
    " ".intercalate (" ".intercalate words :: terms) = " ".intercalate (words ++ terms) := by
  induction words with
  | nil => exact absurd rfl hne
  | cons word words ih =>
    cases words with
    | nil => rw [String.intercalate_singleton, List.singleton_append]
    | cons next words =>
      rw [String.intercalate_cons_cons, List.cons_append, List.cons_append,
        String.intercalate_cons_cons, ← List.cons_append, ← ih (List.cons_ne_nil _ _)]
      cases terms with
      | nil => rw [String.intercalate_singleton, String.intercalate_singleton]
      | cons term terms =>
        rw [String.intercalate_cons_cons, String.intercalate_cons_cons]
        simp only [String.append_assoc]

theorem words_predicate {words terms : List String} (hne : words ≠ [])
    (hwords : ∀ word ∈ words, legalToken word = true)
    (hterms : ∀ term ∈ terms, legalToken term = true) :
    (predicate (" ".intercalate words) terms).words = words ++ terms := by
  have hname := splitOn_intercalate_words hne fun word hword =>
    (notMem_of_isToken (hwords word hword)).1
  have hrest : (terms.flatMap fun part => (part.toList.splitOn ' ').map String.ofList) = terms := by
    rw [List.flatMap_congr fun term hterm => splitOn_space_of_legalToken (hterms term hterm)]
    exact List.flatMap_singleton' terms
  show (" ".intercalate words :: terms).flatMap _ = _
  rw [List.flatMap_cons, hname, hrest]

theorem words_comparison {left right : String} (equal : Bool) (hleft : legalToken left = true)
    (hright : legalToken right = true) :
    (comparison left equal right).words = [left, if equal then "=" else "!=", right] := by
  have hoperator : ((if equal then "=" else "!=").toList.splitOn ' ').map String.ofList =
      [if equal then "=" else "!="] := by
    cases equal <;> decide
  show ([left, if equal then "=" else "!=", right].flatMap _) = _
  rw [List.flatMap_cons, List.flatMap_cons, List.flatMap_singleton,
    splitOn_space_of_legalToken hleft, hoperator, splitOn_space_of_legalToken hright]
  rfl

/-- A ground atom spells out the words. -/
theorem Ground.groundAtom_eq {r : Relation} (h : r.Ground) :
    r.groundAtom = " ".intercalate r.words := by
  cases h with
  | @comparison left right equal hleft hright =>
    have hoperator : Text.strip (if equal then "=" else "!=") = if equal then "=" else "!=" := by
      cases equal <;> decide
    rw [words_comparison equal hleft hright]
    show " ".intercalate ([left, if equal then "=" else "!=", right].map Text.strip) = _
    rw [List.map_cons, List.map_cons, List.map_singleton, strip_of_legalToken hleft, hoperator,
      strip_of_legalToken hright]
  | @predicate words terms hne hwords hterms =>
    have hrest : terms.map Text.strip = terms := by
      refine (List.map_congr_left fun term hterm => ?_).trans (List.map_id _)
      exact strip_of_legalToken (hterms term hterm)
    rw [words_predicate hne hwords hterms]
    show " ".intercalate ((" ".intercalate words :: terms).map Text.strip) = _
    rw [List.map_cons, strip_intercalate hwords, hrest, intercalate_intercalate_cons hne]

theorem Ground.words_ne_nil {r : Relation} (h : r.Ground) : r.words ≠ [] := by
  cases h with
  | comparison equal hleft hright =>
    rw [words_comparison equal hleft hright]
    exact List.cons_ne_nil _ _
  | predicate hne hwords hterms =>
    rw [words_predicate hne hwords hterms]
    exact List.append_ne_nil_of_left_ne_nil hne _

/-- The words are legal tokens, apart from the operator of a comparison. -/
theorem Ground.legal_words {r : Relation} (h : r.Ground) :
    ∀ word ∈ r.words, legalToken word = true ∨ r.isComparison = true ∧ isOperator word = true := by
  cases h with
  | comparison equal hleft hright =>
    rw [words_comparison equal hleft hright]
    have hoperator : isOperator (if equal then "=" else "!=") = true := by
      cases equal <;> rfl
    simp [isComparison_comparison, hleft, hright, hoperator]
  | predicate hne hwords hterms =>
    rw [words_predicate hne hwords hterms]
    intro word hword
    exact Or.inl ((List.mem_append.1 hword).elim (hwords word) (hterms word))

theorem Ground.notMem_words {r : Relation} (h : r.Ground) : ∀ word ∈ r.words, ' ' ∉ word.toList := by
  intro word hword
  rcases h.legal_words word hword with hlegal | ⟨_, hoperator⟩
  · exact (notMem_of_isToken hlegal).1
  · simp only [isOperator, Bool.or_eq_true, beq_iff_eq] at hoperator
    rcases hoperator with rfl | rfl <;> decide

/-- Ground relations are given the same ground atom exactly if they have the same words. -/
theorem Ground.groundAtom_eq_iff {a b : Relation} (ha : a.Ground) (hb : b.Ground) :
    a.groundAtom = b.groundAtom ↔ a.words = b.words := by
  rw [ha.groundAtom_eq, hb.groundAtom_eq]
  exact intercalate_words_injective ha.words_ne_nil hb.words_ne_nil ha.notMem_words hb.notMem_words

theorem isComparison_predicate_of_legal {name : String} {terms : List String}
    (hterms : ∀ term ∈ terms, legalToken term = true) :
    (predicate name terms).isComparison = false :=
  isComparison_predicate name fun term hterm =>
    isOperator_of_legalToken (hterms term hterm)

/-- Only a comparison has an operator among its words. -/
theorem Ground.isComparison_eq {a b : Relation} (ha : a.Ground) (hb : b.Ground)
    (h : a.words = b.words) (hcomparison : a.isComparison = true) : b.isComparison = true := by
  cases ha with
  | comparison equal hleft hright =>
    have hword : (if equal then "=" else "!=") ∈ b.words := by
      rw [← h, words_comparison equal hleft hright]
      simp
    exact ((hb.legal_words _ hword).resolve_left (by simp [legalToken_operator])).1
  | predicate _ _ hterms =>
    rw [isComparison_predicate_of_legal hterms] at hcomparison
    cases hcomparison

/-- With the same words, ground relations differ at most in where the name ends. -/
theorem Ground.eq_of_words_eq {a b : Relation} (ha : a.Ground) (hb : b.Ground)
    (h : a.words = b.words)
    (hsame : a.isComparison = true ∨ a.name = b.name ∨ a.terms.length = b.terms.length) :
    a = b := by
  have hcomparison := ha.isComparison_eq hb h
  have hcomparison' := hb.isComparison_eq ha h.symm
  cases ha with
  | @comparison left right equal hleft hright =>
    cases hb with
    | @comparison left' right' equal' hleft' hright' =>
      rw [words_comparison equal hleft hright, words_comparison equal' hleft' hright'] at h
      simp only [List.cons.injEq, and_true] at h
      obtain ⟨rfl, hoperator, rfl⟩ := h
      rw [comparison, comparison, hoperator]
    | predicate _ _ hterms =>
      rw [isComparison_predicate_of_legal hterms] at hcomparison
      cases hcomparison (isComparison_comparison _ _ _)
  | @predicate words terms hne hwords hterms =>
    cases hb with
    | comparison equal' _ _ =>
      rw [isComparison_predicate_of_legal hterms] at hcomparison'
      cases hcomparison' (isComparison_comparison _ _ _)
    | @predicate words' terms' hne' hwords' hterms' =>
      rw [words_predicate hne hwords hterms, words_predicate hne' hwords' hterms'] at h
      simp only [name, Relation.terms, isComparison_predicate_of_legal hterms,
        isComparison_predicate_of_legal hterms', Bool.false_eq_true, if_false, false_or] at hsame
      have hlegal : ∀ word ∈ words, ' ' ∉ word.toList := fun word hword =>
        (notMem_of_isToken (hwords word hword)).1
      have hlegal' : ∀ word ∈ words', ' ' ∉ word.toList := fun word hword =>
        (notMem_of_isToken (hwords' word hword)).1
      rcases hsame with hname | hlength
      · obtain rfl := (intercalate_words_injective hne hne' hlegal hlegal').1 hname
        rw [List.append_cancel_left h]
      · obtain ⟨rfl, rfl⟩ := List.append_inj' h hlength
        rfl

/-- A name that is one word is the first word. -/
theorem Ground.words_eq_cons {r : Relation} (h : r.Ground) (hname : legalToken r.name = true) :
    r.words = r.name :: r.terms := by
  cases h with
  | comparison equal _ _ =>
    rw [name, if_pos (isComparison_comparison _ _ _)] at hname
    exact absurd hname (by simp [comparison, legalToken_operator])
  | @predicate words terms hne hwords hterms =>
    have hcomparison : (predicate (" ".intercalate words) terms).isComparison = false :=
      isComparison_predicate_of_legal hterms
    have hterms' : (predicate (" ".intercalate words) terms).terms = terms := by
      rw [Relation.terms, hcomparison]
      rfl
    have hname' : (predicate (" ".intercalate words) terms).name = " ".intercalate words := by
      rw [name, hcomparison]
      rfl
    rw [hname'] at hname
    have hone := splitOn_intercalate_words hne fun word hword =>
      (notMem_of_isToken (hwords word hword)).1
    rw [splitOn_space_of_legalToken hname] at hone
    rw [hterms', hname', words_predicate hne hwords hterms, ← hone]
    rfl

/-- Ground relations whose names are single words are told apart by their ground atoms. -/
theorem Ground.eq_of_legal_names {a b : Relation} (ha : a.Ground) (hb : b.Ground)
    (h : a.words = b.words) (hname : legalToken a.name = true) (hname' : legalToken b.name = true) :
    a = b := by
  have hcons := h
  rw [ha.words_eq_cons hname, hb.words_eq_cons hname', List.cons.injEq] at hcons
  exact ha.eq_of_words_eq hb h (Or.inr (Or.inl hcons.1))

end Relation

end Groundwork
