import Groundwork.Program
import Groundwork.Proofs.Fallible

/-!
# The rules of programs

A rule is *parsed* if some program holds it.  What is true of every statement that can be
read is true of every parsed rule (`Parsed.of_read`).

A relation is *named* if its name is not blank.  Relations of parsed rules are named, and
stay so when variables are replaced and terms are evaluated, so that no ground atom is
empty (`Named.groundAtom_ne_empty`).
-/

namespace Groundwork

/-! ## Texts that are not blank -/

namespace Text

theorem mem_dropWhile {α : Type} {p : α → Bool} {l : List α} {a : α} (ha : a ∈ l)
    (hp : p a = false) : a ∈ l.dropWhile p := by
  induction l with
  | nil => cases ha
  | cons b l ih =>
    rw [List.dropWhile_cons]
    split
    · next hb =>
      rcases List.mem_cons.1 ha with rfl | ha
      · simp [hp] at hb
      · exact ih ha
    · exact ha

/-- A character that is not blank is not trimmed. -/
theorem mem_trim {cs : List Char} {c : Char} (hc : c ∈ cs) (hblank : isBlank c = false) :
    c ∈ trim cs := by
  unfold trim trimEnd trimStart
  rw [List.mem_reverse]
  refine mem_dropWhile ?_ hblank
  rw [List.mem_reverse]
  exact mem_dropWhile hc hblank

theorem strip_ne_empty {cs : List Char} {c : Char} (hc : c ∈ cs) (hblank : isBlank c = false) :
    strip (String.ofList cs) ≠ "" := by
  intro h
  have hmem := mem_trim hc hblank
  rw [strip, String.toList_ofList] at h
  have hnil := congrArg String.toList h
  rw [String.toList_ofList] at hnil
  rw [hnil] at hmem
  cases hmem

end Text

/-- A token has a character, and none of its characters is blank. -/
theorem exists_of_isToken {cs : List Char} (h : isToken cs = true) :
    ∃ c ∈ cs, Text.isBlank c = false := by
  simp only [isToken, Bool.and_eq_true, Bool.not_eq_true', List.any_eq_false,
    List.isEmpty_eq_false_iff] at h
  obtain ⟨c, hc⟩ := List.exists_mem_of_ne_nil _ h.1.1.1
  exact ⟨c, hc, by simpa using h.1.1.2 c hc⟩

/-! ## Relations with a name -/

namespace Relation

/-- The name of the predicate is not blank.  Operators never are. -/
def Named (r : Relation) : Prop :=
  Text.strip r.name ≠ ""

theorem named_of_isComparison {r : Relation} (h : r.isComparison = true) : r.Named := by
  rw [Named, name, if_pos h]
  unfold isComparison at h
  split at h
  · next operator _ heq =>
    rw [heq, List.headD_cons]
    simp only [isOperator, Bool.or_eq_true, beq_iff_eq] at h
    rcases h with rfl | rfl <;> decide
  · cases h

theorem name_mem_parts (r : Relation) : r.name ∈ r.parts := by
  unfold name
  split
  · next h =>
    unfold isComparison at h
    split at h
    · next operator right heq => simp [parts, heq]
    · cases h
  · exact List.mem_cons_self

/-- Terms that are replaced or evaluated leave a name. -/
theorem Named.mapTermsM {ε : Type} {f : String → Except ε String} {r r' : Relation}
    (h : r.Named) (hmap : r.mapTermsM f = .ok r') : r'.Named := by
  by_cases hcomparison' : r'.isComparison = true
  · exact named_of_isComparison hcomparison'
  · unfold Relation.mapTermsM at hmap
    split at hmap
    · next hcomparison =>
      simp only [Fallible.bind_eq_ok_iff, Fallible.pure_eq_ok_iff] at hmap
      obtain ⟨left, _, right, hright, rfl⟩ := hmap
      unfold isComparison at hcomparison
      split at hcomparison
      · next operator side heq =>
        rw [heq] at hright hcomparison'
        simp only [List.drop_succ_cons, List.drop_zero, List.mapM_cons, List.mapM_nil,
          Fallible.bind_eq_ok_iff, Fallible.pure_eq_ok_iff] at hright
        obtain ⟨side', _, _, rfl, rfl⟩ := hright
        exact absurd hcomparison hcomparison'
      · cases hcomparison
    · next hcomparison =>
      simp only [Fallible.bind_eq_ok_iff, Fallible.pure_eq_ok_iff] at hmap
      obtain ⟨terms, _, rfl⟩ := hmap
      rw [Named, name, if_neg hcomparison] at h
      rw [Named, name, if_neg hcomparison']
      exact h

theorem mapTermsM_ok (ε : Type) (f : String → String) (r : Relation) :
    r.mapTermsM (fun term => (.ok (f term) : Except ε String)) = .ok (r.mapTerms f) := by
  have hmapM : ∀ terms : List String,
      terms.mapM (fun term => (.ok (f term) : Except ε String)) = .ok (terms.map f) :=
    fun terms => Fallible.mapM_eq_ok_iff.2 (List.map_map ..).symm
  unfold mapTerms Relation.mapTermsM
  split
  · rw [hmapM]
    simp
    rfl
  · rw [hmapM]
    simp

theorem Named.mapTerms {r : Relation} (h : r.Named) (f : String → String) :
    (r.mapTerms f).Named :=
  h.mapTermsM (mapTermsM_ok Unit f r)

/-- With a second part there is a space, and so only a single part has to be looked at. -/
theorem Named.groundAtom_ne_empty {r : Relation} (h : r.Named) : r.groundAtom ≠ "" := by
  have hpart : Text.strip r.name ∈ r.parts.map Text.strip := List.mem_map_of_mem r.name_mem_parts
  show " ".intercalate (r.parts.map Text.strip) ≠ ""
  cases hparts : r.parts.map Text.strip with
  | nil => simp [parts] at hparts
  | cons first rest =>
    cases rest with
    | nil =>
      rw [hparts, List.mem_singleton] at hpart
      rw [String.intercalate_singleton, ← hpart]
      exact h
    | cons second rest =>
      rw [String.intercalate_cons_cons]
      simp

end Relation

/-! ## Statements -/

namespace Statement

/-- The term is what some text is read as. -/
def IsRead (term : String) : Prop :=
  ∃ (text : List Char) (annotated : AnnotatedTerm),
    readTerm text = .ok annotated ∧ annotated.term = term

/-- An atom is a comparison, or the application of a predicate whose name is made of words. -/
theorem readAtom_cases {atom : List Char} {relation : Relation} {terms : List AnnotatedTerm}
    (h : readAtom atom = .ok (relation, terms)) :
    (∃ (left : AnnotatedTerm) (equal : Bool) (right : AnnotatedTerm), IsRead left.term ∧
      IsRead right.term ∧ relation = .comparison left.term equal right.term ∧
        terms = [left, right]) ∨
      ∃ words : List (List Char), words ≠ [] ∧ (∀ word ∈ words, isToken word = true) ∧
        (∀ t ∈ terms, IsRead t.term) ∧
        relation = .predicate (String.ofList ([' '].intercalate words)) (terms.map (·.term)) := by
  unfold readAtom at h
  split at h
  · next _ equal _ _ =>
    simp only [Fallible.bind_eq_ok_iff, Fallible.pure_eq_ok_iff, Prod.mk.injEq] at h
    obtain ⟨left, hleft, right, hright, rfl, rfl⟩ := h
    exact Or.inl ⟨left, equal, right, ⟨_, left, hleft, rfl⟩, ⟨_, right, hright, rfl⟩, rfl, rfl⟩
  · split at h
    · cases h
    · next name arguments _ =>
      by_cases hempty : (Text.words name).isEmpty = true
      · rw [if_pos hempty] at h
        cases h
      · rw [if_neg hempty] at h
        cases hfind : (Text.words name).find? fun word => !isToken word with
        | some word =>
          rw [hfind] at h
          cases h
        | none =>
          have htokens : ∀ word ∈ Text.words name, isToken word = true := by
            simpa using List.find?_eq_none.1 hfind
          rw [hfind] at h
          dsimp only at h
          have hwords : Text.words name ≠ [] := fun hnil => hempty (by rw [hnil]; rfl)
          split at h
          · simp only [Fallible.bind_eq_ok_iff, Fallible.pure_eq_ok_iff, Prod.mk.injEq] at h
            obtain ⟨_, rfl, rfl, rfl⟩ := h
            exact Or.inr ⟨_, hwords, htokens, by simp, rfl⟩
          · simp only [Fallible.bind_eq_ok_iff, Fallible.pure_eq_ok_iff, Prod.mk.injEq] at h
            obtain ⟨found, hfound, rfl, rfl⟩ := h
            refine Or.inr ⟨_, hwords, htokens, fun t ht => ?_, rfl⟩
            obtain ⟨text, _, htext⟩ :=
              Fallible.exists_of_mem_results (Fallible.mapM_eq_ok_iff.1 hfound) ht
            exact ⟨text, t, htext, rfl⟩

theorem named_of_readAtom {atom : List Char} {relation : Relation} {terms : List AnnotatedTerm}
    (h : readAtom atom = .ok (relation, terms)) : relation.Named := by
  rcases readAtom_cases h with
    ⟨left, equal, right, _, _, rfl, _⟩ | ⟨words, hne, htokens, _, rfl⟩
  · refine Relation.named_of_isComparison ?_
    cases equal <;> rfl
  · by_cases hcomparison : (Relation.predicate (String.ofList ([' '].intercalate words))
        (terms.map (·.term))).isComparison = true
    · exact Relation.named_of_isComparison hcomparison
    · rw [Relation.Named, Relation.name, if_neg hcomparison]
      obtain ⟨word, rest, rfl⟩ := List.exists_cons_of_ne_nil hne
      obtain ⟨c, hc, hblank⟩ := exists_of_isToken (htokens word List.mem_cons_self)
      refine Text.strip_ne_empty (c := c) ?_ hblank
      cases rest with
      | nil => rwa [List.intercalate_singleton]
      | cons other rest =>
        rw [List.intercalate_cons_cons]
        simp [hc]

theorem orDefect_eq_ok_iff {α : Type} {r : Except RuleDefect α} {a : α} :
    orDefect r = .ok a ↔ r = .ok a := by
  cases r with
  | error e => exact iff_of_false (fun h => by cases h) fun h => by cases h
  | ok b => exact ⟨fun h => by cases h; rfl, fun h => by cases h; rfl⟩

section Relations

variable {P : Relation → Prop} (hatom : ∀ (atom : List Char) (relation : Relation)
  (terms : List AnnotatedTerm), readAtom atom = .ok (relation, terms) → P relation)
include hatom

theorem forall_relations_of_readAtoms {mentions later : Mentions} {atoms : List (List Char)}
    {relations : List Relation} (h : readAtoms mentions atoms = .ok (relations, later)) :
    ∀ relation ∈ relations, P relation := by
  induction atoms generalizing mentions later relations with
  | nil =>
    cases h
    intro relation hrelation
    cases hrelation
  | cons atom atoms ih =>
    simp only [readAtoms, Fallible.bind_eq_ok_iff, Fallible.pure_eq_ok_iff, Prod.mk.injEq] at h
    obtain ⟨⟨first, terms⟩, hfirst, met, _, ⟨rest, last⟩, hrest, rfl, _⟩ := h
    intro relation hrelation
    rcases List.mem_cons.1 hrelation with rfl | hrelation
    · exact hatom _ _ _ hfirst
    · exact ih hrest relation hrelation

/-- What is true of every atom that can be read is true of the relations of a statement that
can be read. -/
theorem forall_relations_of_read {typings : Typings} {text : List Char} {rule : Rule}
    (h : read typings text = .ok rule) : ∀ relation ∈ rule.relations, P relation := by
  simp only [read, Fallible.bind_eq_ok_iff, Fallible.pure_eq_ok_iff, orDefect_eq_ok_iff] at h
  obtain ⟨shape, _, ⟨body, met⟩, hbody, ⟨heads, later⟩, hheads, rfl⟩ := h
  intro relation hrelation
  rcases List.mem_append.1 hrelation with hrelation | hrelation
  · exact forall_relations_of_readAtoms hatom hheads relation hrelation
  · exact forall_relations_of_readAtoms hatom hbody relation hrelation

end Relations

/-- Without annotations the typings alone decide which bases are variables. -/
theorem Mentions.vars_unannotated (bases : Roster String) (typings : Typings) :
    (⟨∅, bases⟩ : Mentions).vars typings =
      bases.toList.filterMap fun base => typings[base]?.map fun sort => { name := base, sort } := by
  unfold vars
  refine List.filterMap_congr fun base _ => ?_
  rw [Std.HashMap.getElem?_empty]
  rfl

/-- Variables are bases, each of which is noted once. -/
theorem Mentions.nodup_vars (mentions : Mentions) (typings : Typings) :
    ((mentions.vars typings).map (·.name)).Nodup := by
  refine List.pairwise_map.2 (List.pairwise_filterMap.2 (mentions.bases.nodup.imp ?_))
  intro base other hne v hv w hw
  obtain ⟨_, _, rfl⟩ := Option.map_eq_some_iff.1 hv
  obtain ⟨_, _, rfl⟩ := Option.map_eq_some_iff.1 hw
  exact hne

end Statement

/-! ## Programs -/

namespace Program

/-- What is true of every statement that can be read. -/
def OfRead (P : Rule → Prop) : Prop :=
  ∀ (typings : Typings) (text : List Char) (rule : Rule),
    Statement.read typings text = .ok rule → P rule

theorem Progress.rules_readStatement {P : Rule → Prop} (hread : OfRead P) {p p' : Progress}
    (hp : ∀ r ∈ p.rules, P r) {lines : List Line} (h : p.readStatement lines = .ok p') :
    ∀ r ∈ p'.rules, P r := by
  cases lines with
  | nil =>
    cases h
    exact hp
  | cons first rest =>
    unfold readStatement at h
    dsimp only at h
    cases hrule : Statement.read p.typings
        ([' '].intercalate ((first :: rest).map (·.text))) with
    | ok rule =>
      rw [hrule] at h
      cases h
      intro r hr
      have hr : r ∈ p.rules.push rule := hr
      rcases Array.mem_push.1 hr with hr | rfl
      · exact hp r hr
      · exact hread _ _ _ hrule
    | error fault =>
      rw [hrule] at h
      cases fault with
      | defect defect =>
        cases h
        exact hp
      | overlap => cases h

theorem Progress.rules_readDeclaration (p : Progress) (line : Line) :
    (p.readDeclaration line).rules = p.rules := by
  unfold readDeclaration
  split <;> rfl

theorem Progress.rules_foldl_readDeclaration (lines : List Line) (p : Progress) :
    (lines.foldl readDeclaration p).rules = p.rules := by
  induction lines generalizing p with
  | nil => rfl
  | cons line lines ih => rw [List.foldl_cons, ih, rules_readDeclaration]

/-- Only statements give rules, so what is true of every statement that can be read is true
of every rule of a program. -/
theorem forall_rules_of_parse {P : Rule → Prop} (hread : OfRead P) {typings later : Typings}
    {text : String} {program : Program} (h : parse typings text = .ok (program, later)) :
    ∀ r ∈ program.rules, P r := by
  unfold parse at h
  generalize paragraphs text.toList = read at h
  obtain ⟨paragraphs, unmatched⟩ := read
  obtain ⟨progress, hfold, hprogress⟩ := Fallible.bind_eq_ok_iff.1 h
  have hrules : ∀ r ∈ progress.rules, P r := by
    refine Fallible.foldlM_invariant (P := fun p : Progress => ∀ r ∈ p.rules, P r) ?_ ?_ hfold
    · intro p lines p' hp hstep
      refine Progress.rules_readStatement hread ?_ hstep
      rwa [Progress.rules_foldl_readDeclaration]
    · intro r hr
      simp at hr
  cases unmatched with
  | none =>
    cases hprogress
    intro r hr
    exact hrules r (Array.mem_toList_iff.1 hr)
  | some line =>
    cases hprogress
    intro r hr
    exact hrules r (Array.mem_toList_iff.1 hr)

end Program

/-- The typings of names with their sorts.  The first sort of a name counts. -/
def Typings.ofList (sorts : List (String × String)) : Typings :=
  sorts.foldr (fun (name, sort) typings => typings.insert name sort) ∅

theorem Typings.getElem?_ofList (sorts : List (String × String)) (name : String) :
    (ofList sorts)[name]? = sorts.lookup name := by
  induction sorts with
  | nil => exact Std.HashMap.getElem?_empty
  | cons entry sorts ih =>
    show ((ofList sorts).insert entry.1 entry.2)[name]? = _
    rw [Std.HashMap.getElem?_insert, List.lookup_cons, ih]
    by_cases hsame : entry.1 = name
    · rw [if_pos (beq_iff_eq.2 hsame), beq_iff_eq.2 hsame.symm]
    · rw [if_neg (by simpa using hsame), beq_eq_false_iff_ne.2 (Ne.symm hsame)]

namespace Rule

/-- The rule stands in some program. -/
def Parsed (r : Rule) : Prop :=
  ∃ (typings later : Typings) (text : String) (program : Program),
    Program.parse typings text = .ok (program, later) ∧ r ∈ program.rules

theorem Parsed.of_read {P : Rule → Prop} (hread : Program.OfRead P) {r : Rule} (h : r.Parsed) :
    P r := by
  obtain ⟨_, _, _, _, hparse, hr⟩ := h
  exact Program.forall_rules_of_parse hread hparse r hr

/-- A rule that is written without annotations is read if the sorts that are given to its bases
make them its variables.  The typings are left open before, as bases are looked up in them. -/
theorem parsed_of_unannotated {r : Rule} (text : String) (bases : List String)
    (hparse : ∀ typings, ∃ diagnostics, Program.parse typings text = .ok
      (⟨[], [{ r with vars := (⟨∅, .ofList bases⟩ : Statement.Mentions).vars typings }],
        diagnostics⟩, typings))
    (sorts : List (String × String))
    (hvars : bases.eraseDups.filterMap (fun base => (sorts.lookup base).map (⟨base, ·⟩)) = r.vars) :
    r.Parsed := by
  obtain ⟨diagnostics, hparse⟩ := hparse (.ofList sorts)
  rw [Statement.Mentions.vars_unannotated, Roster.toList_ofList] at hparse
  simp only [Typings.getElem?_ofList, hvars] at hparse
  exact ⟨_, _, text, _, hparse, List.mem_singleton.2 rfl⟩

theorem Parsed.named {r : Rule} (h : r.Parsed) : ∀ relation ∈ r.relations, relation.Named :=
  h.of_read (P := fun r => ∀ relation ∈ r.relations, relation.Named)
    fun _ _ _ hread =>
      Statement.forall_relations_of_read (fun _ _ _ hatom => Statement.named_of_readAtom hatom) hread

end Rule

end Groundwork
