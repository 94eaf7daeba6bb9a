import Groundwork.Proofs.Program.Rules
import Groundwork.Rule
import Mathlib.Data.List.DropRight

/-!
# Relations over terms

A relation is *over* terms of some sort if it is a comparison of two such terms, or applies a
predicate, whose name is made of words, to such terms.  Rules are over terms that can be
written, and ground relations over constants.

Replacing terms by such terms leaves the kind of a relation and its name as they are
(`Over.mapTermsM`, `Over.name_mapTermsM`), so that this carries over from rules to their
instances, and from instances to what they evaluate to.
-/

namespace Groundwork

/-! ## Tokens -/

theorem Text.trim_eq_self {cs : List Char} (hfirst : ∀ c ∈ cs.head?, isBlank c = false)
    (hlast : ∀ c ∈ cs.getLast?, isBlank c = false) : trim cs = cs := by
  have hstart : cs.dropWhile isBlank = cs := by
    cases cs with
    | nil => rfl
    | cons c cs => rw [List.dropWhile_cons_of_neg (by simp [hfirst c rfl])]
  unfold trim trimEnd trimStart
  rw [hstart]
  refine List.rdropWhile_eq_self_iff.2 fun hne => ?_
  rw [hlast _ (List.getLast?_eq_getLast_of_ne_nil hne)]
  decide

theorem isToken_iff {cs : List Char} : isToken cs = true ↔
    cs ≠ [] ∧ (∀ c ∈ cs, Text.isBlank c = false) ∧ (∀ c ∈ cs, c ∉ reserved) ∧
      Text.cutPair? '-' '-' cs = none := by
  simp [isToken, and_assoc]

theorem trim_of_isToken {cs : List Char} (h : isToken cs = true) : Text.trim cs = cs := by
  obtain ⟨_, hblank, _⟩ := isToken_iff.1 h
  exact Text.trim_eq_self (fun c hc => hblank c (List.mem_of_mem_head? hc))
    fun c hc => hblank c (List.mem_of_mem_getLast? hc)

/-- A token has no space and no dot. -/
theorem notMem_of_isToken {cs : List Char} (h : isToken cs = true) : ' ' ∉ cs ∧ '.' ∉ cs := by
  obtain ⟨_, hblank, hreserved, _⟩ := isToken_iff.1 h
  constructor
  · intro hspace
    have := hblank _ hspace
    revert this
    decide
  · intro hdot
    exact hreserved _ hdot (by decide)

theorem strip_of_legalToken {s : String} (h : legalToken s = true) : Text.strip s = s := by
  rw [Text.strip, trim_of_isToken h, String.ofList_toList]

theorem intercalate_ne_nil (c : Char) {tokens : List (List Char)} (hne : tokens ≠ [])
    (h : ∀ token ∈ tokens, isToken token = true) : [c].intercalate tokens ≠ [] := by
  obtain ⟨token, rest, rfl⟩ := List.exists_cons_of_ne_nil hne
  have htoken := (isToken_iff.1 (h token List.mem_cons_self)).1
  cases rest with
  | nil => rwa [List.intercalate_singleton]
  | cons next rest =>
    rw [List.intercalate_cons_cons]
    simp [htoken]

theorem head?_intercalate (c : Char) {token : List Char} (h : token ≠ [])
    (rest : List (List Char)) : ([c].intercalate (token :: rest)).head? = token.head? := by
  cases rest with
  | nil => rw [List.intercalate_singleton]
  | cons next rest =>
    rw [List.intercalate_cons_cons, List.append_assoc, List.head?_append_of_ne_nil _ h]

theorem isBlank_getLast?_intercalate (c : Char) {tokens : List (List Char)}
    (h : ∀ token ∈ tokens, isToken token = true) :
    ∀ d ∈ ([c].intercalate tokens).getLast?, Text.isBlank d = false := by
  induction tokens with
  | nil => simp
  | cons token tokens ih =>
    have hrest := fun other (hother : other ∈ tokens) => h other (List.mem_cons_of_mem _ hother)
    intro d hd
    cases tokens with
    | nil =>
      rw [List.intercalate_singleton] at hd
      exact (isToken_iff.1 (h token List.mem_cons_self)).2.1 d (List.mem_of_mem_getLast? hd)
    | cons next tokens =>
      rw [List.intercalate_cons_cons,
        List.getLast?_append_of_ne_nil _ (intercalate_ne_nil c (List.cons_ne_nil _ _) hrest)] at hd
      exact ih hrest d hd

/-- Tokens that are joined begin and end with a character of a token. -/
theorem trim_intercalate (c : Char) {tokens : List (List Char)}
    (h : ∀ token ∈ tokens, isToken token = true) :
    Text.trim ([c].intercalate tokens) = [c].intercalate tokens := by
  refine Text.trim_eq_self (fun d hd => ?_) (isBlank_getLast?_intercalate c h)
  cases tokens with
  | nil => simp at hd
  | cons token rest =>
    obtain ⟨hne, hblank, _⟩ := isToken_iff.1 (h token List.mem_cons_self)
    rw [head?_intercalate c hne] at hd
    exact hblank d (List.mem_of_mem_head? hd)

/-- The same holds of names that are made of words. -/
theorem strip_intercalate {words : List String} (hwords : ∀ word ∈ words, legalToken word = true) :
    Text.strip (" ".intercalate words) = " ".intercalate words := by
  have htrim := trim_intercalate ' ' (List.forall_mem_map.2 hwords)
  apply String.toList_injective
  rw [Text.strip, String.toList_ofList, String.toList_intercalate]
  exact htrim

theorem isOperator_of_legalToken {s : String} (h : legalToken s = true) : isOperator s = false := by
  rw [Bool.eq_false_iff]
  intro hoperator
  simp only [isOperator, Bool.or_eq_true, beq_iff_eq] at hoperator
  rcases hoperator with rfl | rfl <;> revert h <;> decide

theorem legalToken_operator (equal : Bool) :
    legalToken (if equal then "=" else "!=") = false := by
  cases equal <;> decide

/-! ## Terms -/

namespace Term

/-- The term is a base with functions applied to it, all of which are tokens, and has no blanks
around its dots. -/
structure Legal (term : String) : Prop where
  base : legalToken (Term.base term) = true
  functions : ∀ name ∈ Term.functions term, legalToken name = true
  apply_eq : Term.apply (Term.base term) (Term.functions term) = term

theorem toList_apply (base : String) (functions : List String) :
    (apply base functions).toList = ['.'].intercalate (base.toList :: functions.map String.toList) := by
  induction functions generalizing base with
  | nil => simp [apply]
  | cons name functions ih =>
    show (apply (base ++ "." ++ name) functions).toList = _
    rw [ih]
    cases functions with
    | nil => simp
    | cons next functions => simp [List.intercalate_cons_cons]

/-- The parts of a term are found again where it is cut at its dots. -/
theorem splitOn_apply {base : String} {functions : List String} (hbase : legalToken base = true)
    (hfunctions : ∀ name ∈ functions, legalToken name = true) :
    (apply base functions).toList.splitOn '.' = base.toList :: functions.map String.toList := by
  rw [toList_apply]
  refine List.splitOn_intercalate '.' (fun part hpart => ?_) (List.cons_ne_nil _ _)
  rcases List.mem_cons.1 hpart with rfl | hpart
  · exact (notMem_of_isToken hbase).2
  · obtain ⟨name, hname, rfl⟩ := List.mem_map.1 hpart
    exact (notMem_of_isToken (hfunctions name hname)).2

theorem base_apply {base : String} {functions : List String} (hbase : legalToken base = true)
    (hfunctions : ∀ name ∈ functions, legalToken name = true) :
    Term.base (apply base functions) = base := by
  unfold Term.base
  rw [splitOn_apply hbase hfunctions]
  dsimp only
  rw [trim_of_isToken hbase, String.ofList_toList]

theorem functions_apply {base : String} {functions : List String} (hbase : legalToken base = true)
    (hfunctions : ∀ name ∈ functions, legalToken name = true) :
    Term.functions (apply base functions) = functions := by
  unfold Term.functions
  rw [splitOn_apply hbase hfunctions, List.drop_succ_cons, List.drop_zero, List.map_map]
  refine (List.map_congr_left fun name hname => ?_).trans (List.map_id _)
  show String.ofList (Text.trim name.toList) = name
  rw [trim_of_isToken (hfunctions name hname), String.ofList_toList]

theorem legal_apply {base : String} {functions : List String} (hbase : legalToken base = true)
    (hfunctions : ∀ name ∈ functions, legalToken name = true) : Legal (apply base functions) := by
  have hfound := functions_apply hbase hfunctions
  have hfound' := base_apply hbase hfunctions
  refine ⟨?_, ?_, ?_⟩
  · rwa [hfound']
  · rwa [hfound]
  · rw [hfound, hfound']

theorem Legal.isOperator {term : String} (h : Legal term) : isOperator term = false := by
  rw [Bool.eq_false_iff]
  intro hoperator
  have hbase := h.base
  simp only [Groundwork.isOperator, Bool.or_eq_true, beq_iff_eq] at hoperator
  rcases hoperator with rfl | rfl <;> revert hbase <;> decide

end Term

/-! ## Relations -/

namespace Relation

/-- The relation is a comparison of such terms, or applies a predicate to such terms.  The name
of the predicate is made of words. -/
inductive Over (P : String → Prop) : Relation → Prop where
  | comparison {left right : String} (equal : Bool) (hleft : P left) (hright : P right) :
      Over P (.comparison left equal right)
  | predicate {words terms : List String} (hne : words ≠ [])
      (hwords : ∀ word ∈ words, legalToken word = true) (hterms : ∀ term ∈ terms, P term) :
      Over P (.predicate (" ".intercalate words) terms)

theorem Over.imp {P Q : String → Prop} (hPQ : ∀ term, P term → Q term) {r : Relation}
    (h : r.Over P) : r.Over Q := by
  cases h with
  | comparison equal hleft hright => exact .comparison equal (hPQ _ hleft) (hPQ _ hright)
  | predicate hne hwords hterms =>
    exact .predicate hne hwords fun term hterm => hPQ term (hterms term hterm)

theorem isComparison_comparison (left : String) (equal : Bool) (right : String) :
    (comparison left equal right).isComparison = true := by
  cases equal <;> rfl

theorem terms_comparison (left : String) (equal : Bool) (right : String) :
    (comparison left equal right).terms = [left, right] := by
  rw [Relation.terms, if_pos (isComparison_comparison left equal right)]
  rfl

/-- Only an operator between two sides makes a comparison. -/
theorem isComparison_predicate (name : String) {terms : List String}
    (h : ∀ term ∈ terms, isOperator term = false) : (predicate name terms).isComparison = false := by
  unfold isComparison predicate
  split
  · next operator _ heq =>
    dsimp only at heq
    exact h operator (heq ▸ List.mem_cons_self)
  · rfl

theorem Over.of_mem_terms {P : String → Prop} {r : Relation} (h : r.Over P)
    (hP : ∀ term, P term → isOperator term = false) : ∀ term ∈ r.terms, P term := by
  intro term hterm
  cases h with
  | comparison equal hleft hright =>
    rw [terms_comparison, List.mem_pair] at hterm
    rcases hterm with rfl | rfl
    · exact hleft
    · exact hright
  | predicate hne hwords hterms =>
    rw [Relation.terms, isComparison_predicate _ fun term hterm => hP term (hterms term hterm)]
      at hterm
    exact hterms term hterm

section MapTerms

variable {P Q : String → Prop} {ε : Type} {f : String → Except ε String} {r r' : Relation}

theorem mapTermsM_comparison_eq_ok_iff {left right : String} {equal : Bool} :
    (comparison left equal right).mapTermsM f = .ok r' ↔
      ∃ left' right', f left = .ok left' ∧ f right = .ok right' ∧
        r' = .comparison left' equal right' := by
  unfold Relation.mapTermsM
  rw [if_pos (isComparison_comparison left equal right)]
  simp only [comparison, List.drop_succ_cons, List.drop_zero, List.mapM_cons, List.mapM_nil,
    Fallible.bind_eq_ok_iff, Fallible.pure_eq_ok_iff]
  constructor
  · rintro ⟨left', hleft, _, ⟨right', hright, _, rfl, rfl⟩, rfl⟩
    exact ⟨left', right', hleft, hright, rfl⟩
  · rintro ⟨left', right', hleft, hright, rfl⟩
    exact ⟨left', hleft, _, ⟨right', hright, _, rfl, rfl⟩, rfl⟩

theorem mapTermsM_predicate_eq_ok_iff {name : String} {terms : List String}
    (h : ∀ term ∈ terms, isOperator term = false) :
    (predicate name terms).mapTermsM f = .ok r' ↔
      ∃ terms', terms.mapM f = .ok terms' ∧ r' = .predicate name terms' := by
  unfold Relation.mapTermsM
  rw [isComparison_predicate name h]
  simp only [Bool.false_eq_true, if_false, Fallible.bind_eq_ok_iff, Fallible.pure_eq_ok_iff]
  rfl

/-- Terms that satisfy one property are replaced by terms that satisfy the other. -/
theorem Over.mapTermsM (h : r.Over P) (hP : ∀ term, P term → isOperator term = false)
    (hf : ∀ term term', P term → f term = .ok term' → Q term') (hmap : r.mapTermsM f = .ok r') :
    r'.Over Q := by
  cases h with
  | comparison equal hleft hright =>
    obtain ⟨left', right', hleft', hright', rfl⟩ := mapTermsM_comparison_eq_ok_iff.1 hmap
    exact .comparison equal (hf _ _ hleft hleft') (hf _ _ hright hright')
  | predicate hne hwords hterms =>
    obtain ⟨terms', hterms', rfl⟩ :=
      (mapTermsM_predicate_eq_ok_iff fun term hterm => hP term (hterms term hterm)).1 hmap
    refine .predicate hne hwords fun term' hterm' => ?_
    obtain ⟨term, hterm, heq⟩ :=
      Fallible.exists_of_mem_results (Fallible.mapM_eq_ok_iff.1 hterms') hterm'
    exact hf term term' (hterms term hterm) heq

/-- If each term is replaced, so is the relation. -/
theorem Over.exists_mapTermsM (h : r.Over P) (hP : ∀ term, P term → isOperator term = false)
    (hf : ∀ term, P term → ∃ term', f term = .ok term') : ∃ r', r.mapTermsM f = .ok r' := by
  cases h with
  | comparison equal hleft hright =>
    obtain ⟨left', hleft'⟩ := hf _ hleft
    obtain ⟨right', hright'⟩ := hf _ hright
    exact ⟨_, mapTermsM_comparison_eq_ok_iff.2 ⟨left', right', hleft', hright', rfl⟩⟩
  | predicate _ _ hterms =>
    obtain ⟨terms', hterms'⟩ := Fallible.exists_mapM_eq_ok_iff.2 fun term hterm =>
      hf term (hterms term hterm)
    have hoperator := fun term hterm => hP term (hterms term hterm)
    exact ⟨_, (mapTermsM_predicate_eq_ok_iff hoperator).2 ⟨terms', hterms', rfl⟩⟩

/-- The kind of relation and the name stay as they are, if no term becomes an operator. -/
theorem Over.name_mapTermsM (h : r.Over P) (hP : ∀ term, P term → isOperator term = false)
    (hf : ∀ term term', P term → f term = .ok term' → isOperator term' = false)
    (hmap : r.mapTermsM f = .ok r') : r'.isComparison = r.isComparison ∧ r'.name = r.name := by
  cases h with
  | comparison equal hleft hright =>
    obtain ⟨left', right', _, _, rfl⟩ := mapTermsM_comparison_eq_ok_iff.1 hmap
    rw [name, name, isComparison_comparison, isComparison_comparison]
    exact ⟨rfl, rfl⟩
  | predicate hne hwords hterms =>
    have hoperator := fun term hterm => hP term (hterms term hterm)
    obtain ⟨terms', hterms', rfl⟩ := (mapTermsM_predicate_eq_ok_iff hoperator).1 hmap
    have hoperator' : ∀ term' ∈ terms', isOperator term' = false := by
      intro term' hterm'
      obtain ⟨term, hterm, heq⟩ :=
        Fallible.exists_of_mem_results (Fallible.mapM_eq_ok_iff.1 hterms') hterm'
      exact hf term term' (hterms term hterm) heq
    rw [name, name, isComparison_predicate _ hoperator, isComparison_predicate _ hoperator']
    exact ⟨rfl, rfl⟩

theorem Over.mapTerms (h : r.Over P) (hP : ∀ term, P term → isOperator term = false)
    {f : String → String} (hf : ∀ term, P term → Q (f term)) : (r.mapTerms f).Over Q := by
  refine h.mapTermsM hP (fun term term' hterm heq => ?_) (mapTermsM_ok Unit f r)
  cases heq
  exact hf term hterm

end MapTerms

end Relation

/-! ## Parsed rules -/

namespace Statement

/-- The parts of a term are what lies between its dots, without the blanks around it. -/
theorem exists_parts_of_readTerm {text : List Char} {annotated : AnnotatedTerm}
    (h : readTerm text = .ok annotated) :
    ∃ cs : List Char, (∀ part ∈ (cs.splitOn '.').map Text.trim, isToken part = true) ∧
      annotated.term = String.ofList (['.'].intercalate ((cs.splitOn '.').map Text.trim)) := by
  have hterm : ∀ (cs : List Char) (sort : Option String),
      (do
        if (Text.trim cs).isEmpty then throw .emptySegment
        if ((cs.splitOn '.').map Text.trim).all isToken then
          return { term := String.ofList (['.'].intercalate ((cs.splitOn '.').map Text.trim)), sort }
        else throw (.illegalToken (String.ofList (Text.trim cs))) :
          Except RuleDefect AnnotatedTerm) = .ok annotated →
      (∀ part ∈ (cs.splitOn '.').map Text.trim, isToken part = true) ∧
        annotated.term = String.ofList (['.'].intercalate ((cs.splitOn '.').map Text.trim)) := by
    intro cs sort h
    by_cases hempty : (Text.trim cs).isEmpty = true
    · rw [if_pos hempty] at h
      cases h
    · rw [if_neg hempty] at h
      by_cases hall : ((cs.splitOn '.').map Text.trim).all isToken = true
      · rw [if_pos hall] at h
        cases h
        exact ⟨List.all_eq_true.1 hall, rfl⟩
      · rw [if_neg hall] at h
        cases h
  unfold readTerm at h
  dsimp only at h
  split at h
  · exact ⟨_, hterm _ _ h⟩
  · split at h
    · exact ⟨_, hterm _ _ h⟩
    · cases h

/-- A term is read without the blanks around its dots. -/
theorem legal_of_isRead {term : String} (h : IsRead term) : Term.Legal term := by
  obtain ⟨text, annotated, hread, rfl⟩ := h
  obtain ⟨cs, htokens, hterm⟩ := exists_parts_of_readTerm hread
  obtain ⟨base, names, hparts⟩ := List.exists_cons_of_ne_nil (List.splitOn_ne_nil '.' cs)
  rw [hparts, List.map_cons] at htokens hterm
  obtain ⟨hbase, hnames⟩ := List.forall_mem_cons.1 htokens
  have happly : annotated.term =
      Term.apply (String.ofList (Text.trim base)) ((names.map Text.trim).map String.ofList) := by
    apply String.toList_injective
    rw [hterm, Term.toList_apply]
    simp [Function.comp_def]
  rw [happly]
  refine Term.legal_apply ?_ (List.forall_mem_map.2 fun name hname => ?_)
  · rwa [legalToken, String.toList_ofList]
  · rw [legalToken, String.toList_ofList]
    exact hnames name hname

theorem over_of_readAtom {atom : List Char} {relation : Relation} {terms : List AnnotatedTerm}
    (h : readAtom atom = .ok (relation, terms)) : relation.Over Term.Legal := by
  rcases readAtom_cases h with
    ⟨left, equal, right, hleft, hright, rfl, _⟩ | ⟨words, hne, htokens, hread, rfl⟩
  · exact .comparison equal (legal_of_isRead hleft) (legal_of_isRead hright)
  · have hname : String.ofList ([' '].intercalate words) =
        " ".intercalate (words.map String.ofList) := by
      apply String.toList_injective
      rw [String.toList_ofList, String.toList_intercalate, List.map_map]
      simp
    rw [hname]
    refine .predicate (by simpa using hne) (List.forall_mem_map.2 fun word hword => ?_)
      (List.forall_mem_map.2 fun t ht => legal_of_isRead (hread t ht))
    rw [legalToken, String.toList_ofList]
    exact htokens word hword

end Statement

namespace Rule

theorem Parsed.over {r : Rule} (h : r.Parsed) : ∀ relation ∈ r.relations, relation.Over Term.Legal :=
  h.of_read (P := fun r => ∀ relation ∈ r.relations, relation.Over Term.Legal) fun _ _ _ hread =>
    Statement.forall_relations_of_read (fun _ _ _ hatom => Statement.over_of_readAtom hatom) hread

/-- No constant is bound by a rule that was only read. -/
theorem Parsed.bindings_eq {r : Rule} (h : r.Parsed) : r.bindings = [] := by
  refine h.of_read (P := fun r => r.bindings = []) fun typings text rule hread => ?_
  simp only [Statement.read, Fallible.bind_eq_ok_iff, Fallible.pure_eq_ok_iff] at hread
  obtain ⟨_, _, _, _, _, _, rfl⟩ := hread
  rfl

end Rule

end Groundwork
