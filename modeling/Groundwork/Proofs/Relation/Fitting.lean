import Groundwork.AtomTable
import Groundwork.Proofs.Relation.Words

/-!
# Names that fit a ground atom

The predicate of an atom is looked for among names, of which one fits if the ground atom begins
with it and goes on with a space, or ends.  The name of a fact fits its ground atom, but so may
others: a longer name that takes in arguments, a shorter one that is the beginning of the name,
or the left side of a comparison.

* `eq_of_fits`: of one length, only one name fits a ground atom;
* `Ground.eq_left_of_fits`: only its left side fits a comparison;
* `arguments_eq`: behind the name of a fact, its arguments are read back.
-/

namespace Groundwork

namespace AtomTable

/-- A space may be thought behind the ground atom, so that its end is no case of its own. -/
theorem fits_iff {text predicate : String} :
    fits text predicate = true ↔
      predicate ≠ "" ∧ predicate.toList ++ [' '] <+: text.toList ++ [' '] := by
  unfold fits
  rw [Bool.and_eq_true, Bool.and_eq_true, String.startsWith_string_iff, and_assoc]
  refine and_congr (by simp) ?_
  constructor
  · rintro ⟨⟨rest, hrest⟩, hnext⟩
    rw [← hrest, ← String.length_toList, List.drop_left] at hnext
    rw [← hrest, List.append_assoc, List.prefix_append_right_inj]
    cases rest with
    | nil => exact List.prefix_rfl
    | cons c rest =>
      rw [show c = ' ' from by simpa using hnext, List.cons_append, List.cons_prefix_cons]
      exact ⟨rfl, List.nil_prefix⟩
  · intro hbegins
    have hlength := hbegins.length_le
    rw [List.length_append, List.length_append] at hlength
    have hstart : predicate.toList <+: text.toList :=
      List.prefix_of_prefix_length_le ((List.prefix_append _ _).trans hbegins)
        (List.prefix_append _ _) (by omega)
    obtain ⟨rest, hrest⟩ := hstart
    refine ⟨⟨rest, hrest⟩, ?_⟩
    rw [← hrest, List.append_assoc, List.prefix_append_right_inj] at hbegins
    rw [← hrest, ← String.length_toList, List.drop_left]
    cases rest with
    | nil => rfl
    | cons c rest =>
      rw [List.cons_append, List.cons_prefix_cons] at hbegins
      simpa using hbegins.1.symm

/-- A beginning of a text that is no shorter is the text itself. -/
theorem eq_of_prefix_of_size_le {s t : String} (h : s.toList <+: t.toList)
    (hsize : t.utf8ByteSize ≤ s.utf8ByteSize) : s = t := by
  obtain ⟨rest, hrest⟩ := h
  have ht : t = s ++ String.ofList rest := by
    apply String.toList_inj.1
    rw [String.toList_append, String.toList_ofList, hrest]
  rw [ht, String.utf8ByteSize_append] at hsize
  have hempty : String.ofList rest = "" := String.utf8ByteSize_eq_zero_iff.1 (by omega)
  rw [ht, hempty, String.append_empty]

/-- Two beginnings of the same text are the same if they are of one length. -/
theorem eq_of_fits {text name other : String} (h : fits text name = true)
    (h' : fits text other = true) (hsize : name.utf8ByteSize = other.utf8ByteSize) :
    name = other := by
  have hbegins := (fits_iff.1 h).2
  have hbegins' := (fits_iff.1 h').2
  rcases List.prefix_or_prefix_of_prefix ((List.prefix_append _ _).trans hbegins)
    ((List.prefix_append _ _).trans hbegins') with hle | hle
  · exact eq_of_prefix_of_size_le hle (Nat.le_of_eq hsize.symm)
  · exact (eq_of_prefix_of_size_le hle (Nat.le_of_eq hsize)).symm

theorem fits_intercalate_cons {name : String} (hne : name ≠ "") (terms : List String) :
    fits (" ".intercalate (name :: terms)) name = true := by
  refine fits_iff.2 ⟨hne, ?_⟩
  cases terms with
  | nil => simp
  | cons term terms =>
    rw [String.intercalate_cons_cons, String.toList_append, String.toList_append,
      List.append_assoc, List.append_assoc, List.prefix_append_right_inj]
    exact List.prefix_append _ _

theorem splitOn_append_space (cs rest : List Char) :
    (cs ++ ' ' :: rest).splitOn ' ' = cs.splitOn ' ' ++ rest.splitOn ' ' :=
  List.splitOnP_append_cons cs rest rfl

/-- A name that fits is made of the first words. -/
theorem prefix_of_fits {words others : List String} (hne : words ≠ []) (hne' : others ≠ [])
    (hwords : ∀ word ∈ words, ' ' ∉ word.toList) (hothers : ∀ word ∈ others, ' ' ∉ word.toList)
    (h : fits (" ".intercalate words) (" ".intercalate others) = true) : others <+: words := by
  obtain ⟨_, rest, hrest⟩ := fits_iff.1 h
  rw [List.append_assoc, List.singleton_append] at hrest
  have hsplit := congrArg (fun cs => (List.splitOn ' ' cs).map String.ofList) hrest
  rw [splitOn_append_space, splitOn_append_space, List.map_append, List.map_append,
    Relation.splitOn_intercalate_words hne hwords,
    Relation.splitOn_intercalate_words hne' hothers] at hsplit
  -- The space that was thought behind the text gives one more word, which is empty.
  have hlength := congrArg List.length hsplit
  have hpos := List.length_pos_iff.2 (List.splitOn_ne_nil ' ' rest)
  rw [List.length_append, List.length_append, List.length_map, List.length_map,
    show (List.splitOn ' ' ([] : List Char)).length = 1 from rfl] at hlength
  have hle : others.length ≤ words.length := by omega
  have hbegins := List.prefix_append others ((List.splitOn ' ' rest).map String.ofList)
  rw [hsplit] at hbegins
  exact List.prefix_of_prefix_length_le hbegins (List.prefix_append _ _) hle

theorem filter_splitOn_behind (name : String) {terms : List String}
    (hterms : ∀ term ∈ terms, legalToken term = true) :
    (((" ".intercalate (name :: terms)).toList.drop name.length).splitOn ' ').filter
      (fun word => !word.isEmpty) = terms.map String.toList := by
  rw [← String.length_toList]
  cases terms with
  | nil =>
    rw [String.intercalate_singleton, List.drop_length]
    rfl
  | cons term terms =>
    have hsplit : ([' '].intercalate ((term :: terms).map String.toList)).splitOn ' ' =
        (term :: terms).map String.toList :=
      List.splitOn_intercalate ' '
        (List.forall_mem_map.2 fun other hother => (notMem_of_isToken (hterms other hother)).1)
        (List.cons_ne_nil _ _)
    rw [String.intercalate_cons_cons, String.toList_append, String.toList_append,
      List.append_assoc, List.drop_left, String.toList_intercalate,
      show " ".toList = [' '] from rfl, List.singleton_append,
      ← List.nil_append (' ' :: _), splitOn_append_space, hsplit, List.filter_append]
    refine (List.nil_append _).trans (List.filter_eq_self.2 (List.forall_mem_map.2 ?_))
    intro other hother
    simpa using (isToken_iff.1 (hterms other hother)).1

end AtomTable

namespace Relation

open AtomTable

theorem Ground.groundAtom_eq_cons {r : Relation} (h : r.Ground)
    (hcomparison : r.isComparison = false) : r.groundAtom = " ".intercalate (r.name :: r.terms) := by
  rw [h.groundAtom_eq, name, terms, hcomparison]
  cases h with
  | comparison equal _ _ =>
    rw [isComparison_comparison] at hcomparison
    cases hcomparison
  | predicate hne hwords hterms =>
    rw [words_predicate hne hwords hterms]
    exact (intercalate_intercalate_cons hne _).symm

theorem Ground.legal_terms {r : Relation} (h : r.Ground) : ∀ term ∈ r.terms, legalToken term = true := by
  cases h with
  | comparison equal hleft hright =>
    rw [terms_comparison]
    simp [hleft, hright]
  | predicate _ _ hterms =>
    rw [terms, isComparison_predicate_of_legal hterms]
    exact hterms

/-- The name of a fact fits its ground atom. -/
theorem Ground.fits_name {r : Relation} (h : r.Ground) (hcomparison : r.isComparison = false) :
    fits r.groundAtom r.name = true := by
  rw [h.groundAtom_eq_cons hcomparison]
  refine fits_intercalate_cons (fun hempty => ?_) _
  cases h with
  | comparison equal _ _ =>
    rw [isComparison_comparison] at hcomparison
    cases hcomparison
  | @predicate words terms hne hwords _ =>
    rw [name, hcomparison] at hempty
    have hlist := congrArg String.toList hempty
    rw [show (predicate (" ".intercalate words) terms).first = " ".intercalate words from rfl] at hlist
    simp only [Bool.false_eq_true, if_false, String.toList_intercalate] at hlist
    exact intercalate_ne_nil ' ' (by simpa using hne) (List.forall_mem_map.2 hwords) hlist

/-- The operator is no word of a name, so no name but the left side fits a comparison. -/
theorem Ground.eq_left_of_fits {left right : String} {equal : Bool}
    (h : (comparison left equal right).Ground) {words : List String} (hne : words ≠ [])
    (hwords : ∀ word ∈ words, legalToken word = true)
    (hfits : fits (comparison left equal right).groundAtom (" ".intercalate words) = true) :
    " ".intercalate words = left := by
  have hlegal := h.legal_terms
  rw [terms_comparison] at hlegal
  rw [h.groundAtom_eq] at hfits
  have hbegins := prefix_of_fits h.words_ne_nil hne h.notMem_words
    (fun word hword => (notMem_of_isToken (hwords word hword)).1) hfits
  rw [words_comparison equal (hlegal left (by simp)) (hlegal right (by simp))] at hbegins
  obtain ⟨word, words, rfl⟩ := List.exists_cons_of_ne_nil hne
  rw [List.cons_prefix_cons] at hbegins
  obtain ⟨rfl, hbegins⟩ := hbegins
  cases words with
  | nil => exact String.intercalate_singleton
  | cons next words =>
    rw [List.cons_prefix_cons] at hbegins
    have hoperator := hwords next (by simp)
    rw [hbegins.1, legalToken_operator] at hoperator
    cases hoperator

end Relation

namespace AtomTable

/-- Behind the name of a fact its arguments are read back. -/
theorem arguments_eq {t : AtomTable} {atom : Nat} {fact : Relation} (hfact : fact.Ground)
    (hcomparison : fact.isComparison = false)
    (hentry : t.entry? atom = some { text := fact.groundAtom, predicate := some fact.name }) :
    t.arguments atom = fact.terms := by
  unfold arguments
  rw [hentry]
  dsimp only
  rw [hfact.groundAtom_eq_cons hcomparison, filter_splitOn_behind _ hfact.legal_terms,
    List.map_map]
  refine (List.map_congr_left fun term _ => ?_).trans (List.map_id _)
  exact String.ofList_toList

end AtomTable

end Groundwork
