import Groundwork.Proofs.Program.Printing

/-!
# Reading what was printed

A rule that was read can be printed and read again, which gives the same rule
(`read_printed`), unless a lone letter in it looks like the separator of a disjunction.
Annotations are not printed, so the sorts of its variables are given as typings the second time.

* `arranged_of_readShape`: which heads and which body go with a kind of rule;
* `readShape_printed`: the connectives that were printed are found again, and no others;
* `readAtoms_printed`, `bases_of_readAtoms`: the bases are mentioned in the same order;
* `vars_typings`: the same ones of them are variables, with the same sorts.
-/

namespace Groundwork

namespace Statement

/-! ## Kinds of rules -/

/-- The heads and the body are such as go with the kind. -/
def Arranged {α : Type} (kind : RuleKind) (heads body : List α) : Prop :=
  match kind with
  | .implication => heads ≠ [] ∧ body ≠ []
  | .assertion => heads ≠ [] ∧ body = []
  | .disjunction => heads = [] ∧ 2 ≤ body.length
  | .contradiction => heads = [] ∧ body ≠ []

/-- Only a disjunction is split at a separator that was found before. -/
theorem arranged_of_readShape {text : List Char} {shape : Shape} (h : readShape text = .ok shape) :
    Arranged shape.kind shape.heads shape.body := by
  unfold readShape at h
  split at h
  · next body head _ =>
    obtain ⟨_, _, h⟩ := Fallible.bind_eq_ok_iff.1 h
    dsimp only at h
    split at h
    · obtain ⟨_, _, h⟩ := Fallible.bind_eq_ok_iff.1 h
      split at h
      · obtain ⟨atoms, hbody, h⟩ := Fallible.bind_eq_ok_iff.1 h
        split at h
        · cases h
          exact ⟨rfl, ne_nil_of_splitAtoms hbody⟩
        · obtain ⟨_, hheads, h⟩ := Fallible.bind_eq_ok_iff.1 h
          cases h
          exact ⟨ne_nil_of_splitAtoms hheads, ne_nil_of_splitAtoms hbody⟩
      · cases h
    · cases h
  · obtain ⟨places, hplaces, h⟩ := Fallible.bind_eq_ok_iff.1 h
    rw [orDefect_eq_ok_iff] at hplaces
    split at h
    · obtain ⟨_, hheads, h⟩ := Fallible.bind_eq_ok_iff.1 h
      cases h
      exact ⟨ne_nil_of_splitAtoms hheads, rfl⟩
    · next hsome =>
      obtain ⟨_, hbody, h⟩ := Fallible.bind_eq_ok_iff.1 h
      cases h
      obtain ⟨positions, hpositions, hlength⟩ := length_of_splitAtoms hbody
      rw [hplaces, Except.ok.injEq] at hpositions
      subst hpositions
      have hpos : 0 < places.length := List.length_pos_iff.2 (by simpa using hsome)
      exact ⟨rfl, by dsimp only; omega⟩
  · cases h

/-! ## Connectives -/

/-- The text of relations with a separator between them. -/
def printedWith (separator : List Char) (relations : List Relation) : List Char :=
  separator.intercalate (relations.map fun r => (toString r).toList)

theorem toList_printed (r : Rule) :
    (toString r).toList =
      match r.kind with
      | .implication => printedWith [',', ' '] r.body ++ ' ' :: '=' :: '>' :: ' ' ::
          printedWith [',', ' '] r.heads
      | .assertion => printedWith [',', ' '] r.heads
      | .disjunction => printedWith disjunction r.body
      | .contradiction => printedWith [',', ' '] r.body ++ ' ' :: '=' :: '>' :: ' ' ::
          "False".toList := by
  show (match r.kind with
    | .implication => _
    | .assertion => _
    | .disjunction => _
    | .contradiction => _ : String).toList = _
  cases r.kind <;> simp [printedWith, disjunction, String.toList_intercalate, Function.comp_def]

section ReadShape

variable {heads body : List (List Char)}

theorem splitPair_printed {before after : List Char} (hbefore : Text.Whole '=' '>' before)
    (hafter : Text.Whole '=' '>' after) :
    Text.splitPair '=' '>' (before ++ ' ' :: '=' :: '>' :: ' ' :: after) =
      [before ++ [' '], ' ' :: after] := by
  have hspace : Text.Whole '=' '>' [' '] := Text.whole_of_notMem (by decide)
  have htext : before ++ ' ' :: '=' :: '>' :: ' ' :: after =
      (before ++ [' ']) ++ '=' :: '>' :: ' ' :: after := by
    rw [List.append_assoc]
    rfl
  rw [htext, (hbefore.append hspace).splitPair_append]
  exact congrArg (_ :: ·) (hspace.append hafter).splitPair_eq

theorem whole_conjunction {texts : List (List Char)} (h : ∀ t ∈ texts, Atomic t) :
    Text.Whole '=' '>' ([',', ' '].intercalate texts) :=
  whole_intercalate (Text.whole_of_notMem (by decide)) h

theorem readShape_contradiction (hbody : ∀ t ∈ body, Atomic t) (hne : body ≠ []) :
    readShape ([',', ' '].intercalate body ++ ' ' :: '=' :: '>' :: ' ' :: "False".toList) =
      .ok ⟨.contradiction, [], body⟩ := by
  obtain ⟨hnone, hsplit⟩ :=
    splitAtoms_conjunction Text.padding_nil Text.padding_space hbody hne
  rw [List.nil_append] at hnone hsplit
  have hhead : topLevel disjunction (' ' :: "False".toList) = .ok [] := by decide
  unfold readShape
  rw [splitPair_printed (whole_conjunction hbody) (Text.whole_of_notMem (by decide))]
  dsimp only
  rw [hnone, hhead, hsplit]
  rfl

/-- The head of an implication is not taken for the mark of a contradiction, which has neither
parentheses nor an operator. -/
theorem readShape_implication (hbody : ∀ t ∈ body, Atomic t) (hne : body ≠ [])
    (hheads : ∀ t ∈ heads, Atomic t) (hne' : heads ≠ []) :
    readShape ([',', ' '].intercalate body ++ ' ' :: '=' :: '>' :: ' ' ::
      [',', ' '].intercalate heads) = .ok ⟨.implication, heads, body⟩ := by
  obtain ⟨hnone, hsplit⟩ :=
    splitAtoms_conjunction Text.padding_nil Text.padding_space hbody hne
  obtain ⟨hnone', hsplit'⟩ :=
    splitAtoms_conjunction Text.padding_space Text.padding_nil hheads hne'
  rw [List.nil_append] at hnone hsplit
  rw [List.append_nil, List.singleton_append] at hnone' hsplit'
  have hmarked : Text.trim (' ' :: [',', ' '].intercalate heads) ≠ "False".toList := by
    obtain ⟨head, rest, rfl⟩ := List.exists_cons_of_ne_nil hne'
    have hkept : ∀ c ∈ head, Text.isBlank c = false →
        c ∈ Text.trim (' ' :: [',', ' '].intercalate (head :: rest)) := by
      intro c hc hblank
      refine Text.mem_trim (List.mem_cons_of_mem ' ' ?_) hblank
      rw [Text.intercalate_cons_eq]
      exact List.mem_append_left _ hc
    intro heq
    rw [heq] at hkept
    rcases (hheads head List.mem_cons_self).marked with hmem | hmem
    · exact absurd (hkept _ hmem (by decide)) (by decide)
    · exact absurd (hkept _ hmem (by decide)) (by decide)
  have hfalse : (Text.trim (' ' :: [',', ' '].intercalate heads) == "False".toList) = false :=
    beq_eq_false_iff_ne.2 hmarked
  unfold readShape
  rw [splitPair_printed (whole_conjunction hbody) (whole_conjunction hheads)]
  dsimp only
  rw [hnone, hnone', hsplit, hsplit', hfalse]
  rfl

theorem readShape_assertion (hheads : ∀ t ∈ heads, Atomic t) (hne : heads ≠ []) :
    readShape ([',', ' '].intercalate heads) = .ok ⟨.assertion, heads, []⟩ := by
  obtain ⟨hnone, hsplit⟩ :=
    splitAtoms_conjunction Text.padding_nil Text.padding_nil hheads hne
  rw [List.nil_append, List.append_nil] at hnone hsplit
  unfold readShape
  rw [(whole_conjunction hheads).splitPair_eq]
  dsimp only
  rw [hnone, hsplit]
  rfl

theorem readShape_disjunction (hbody : ∀ t ∈ body, Atomic t) (hseveral : 2 ≤ body.length) :
    readShape (disjunction.intercalate body) = .ok ⟨.disjunction, [], body⟩ := by
  obtain ⟨⟨place, places, hplaces⟩, hsplit⟩ := splitAtoms_disjunction hbody hseveral
  have hseparator : Text.Whole '=' '>' disjunction := Text.whole_of_notMem (by decide)
  unfold readShape
  rw [(whole_intercalate hseparator hbody).splitPair_eq]
  dsimp only
  rw [hplaces, hsplit]
  rfl

end ReadShape

/-- The connectives that were printed are found again. -/
theorem readShape_printed {r : Rule} (harranged : Arranged r.kind r.heads r.body)
    (hatomic : ∀ relation ∈ r.relations, Atomic (toString relation).toList) :
    readShape (toString r).toList =
      .ok ⟨r.kind, r.heads.map fun relation => (toString relation).toList,
        r.body.map fun relation => (toString relation).toList⟩ := by
  have hheads : ∀ t ∈ r.heads.map fun relation => (toString relation).toList, Atomic t :=
    List.forall_mem_map.2 fun relation hrelation =>
      hatomic relation (List.mem_append_left _ hrelation)
  have hbody : ∀ t ∈ r.body.map fun relation => (toString relation).toList, Atomic t :=
    List.forall_mem_map.2 fun relation hrelation =>
      hatomic relation (List.mem_append_right _ hrelation)
  rw [toList_printed]
  cases hkind : r.kind with
  | implication =>
    rw [hkind] at harranged
    exact readShape_implication hbody (by simpa using harranged.2) hheads (by simpa using harranged.1)
  | assertion =>
    rw [hkind] at harranged
    rw [harranged.2]
    exact readShape_assertion hheads (by simpa using harranged.1)
  | disjunction =>
    rw [hkind] at harranged
    rw [harranged.1]
    exact readShape_disjunction hbody (by simpa using harranged.2)
  | contradiction =>
    rw [hkind] at harranged
    rw [harranged.1]
    exact readShape_contradiction hbody (by simpa using harranged.2)

/-! ## Mentioned bases -/

/-- The bases of all terms of relations, in order of mention. -/
def mentioned (relations : List Relation) : List String :=
  relations.flatMap fun relation => relation.terms.map Term.base

/-- The terms of a relation are those that were read, without their annotations. -/
theorem terms_of_readAtom {atom : List Char} {relation : Relation} {terms : List AnnotatedTerm}
    (h : readAtom atom = .ok (relation, terms)) : relation.terms = terms.map (·.term) := by
  rcases readAtom_cases h with ⟨left, equal, right, _, _, rfl, rfl⟩ | ⟨words, _, _, hread, rfl⟩
  · exact Relation.terms_comparison ..
  · have hoperator : ∀ term ∈ terms.map (·.term), isOperator term = false :=
      List.forall_mem_map.2 fun t ht => (legal_of_isRead (hread t ht)).isOperator
    rw [Relation.terms, Relation.isComparison_predicate _ hoperator, if_neg Bool.false_ne_true]
    rfl

section Mentions

variable {mentions later : Mentions}

/-- Annotations do not change which bases are mentioned. -/
theorem bases_of_addTerm {t : AnnotatedTerm} (h : mentions.addTerm t = .ok later) :
    later.bases = mentions.bases.insert (Term.base t.term) := by
  obtain ⟨term, sort⟩ := t
  cases sort with
  | none =>
    cases h
    rfl
  | some sort =>
    obtain ⟨noted, hnoted, h⟩ := Fallible.bind_eq_ok_iff.1 h
    cases h
    have hbases : noted.bases = mentions.bases := by
      unfold Mentions.annotate at hnoted
      split at hnoted
      · split at hnoted
        · cases hnoted
          rfl
        · cases hnoted
      · cases hnoted
        rfl
    exact congrArg (·.insert (Term.base term)) hbases

theorem bases_of_foldlM {terms : List AnnotatedTerm}
    (h : terms.foldlM Mentions.addTerm mentions = .ok later) :
    later.bases = ((terms.map (·.term)).map Term.base).foldl Roster.insert mentions.bases := by
  induction terms generalizing mentions with
  | nil =>
    cases h
    rfl
  | cons t terms ih =>
    rw [List.foldlM_cons] at h
    obtain ⟨met, hmet, h⟩ := Fallible.bind_eq_ok_iff.1 h
    rw [ih h, bases_of_addTerm hmet]
    rfl

/-- There is a relation for each atom, and their bases are noted one after the other. -/
theorem bases_of_readAtoms {atoms : List (List Char)} {relations : List Relation}
    (h : readAtoms mentions atoms = .ok (relations, later)) :
    relations.length = atoms.length ∧
      later.bases = (mentioned relations).foldl Roster.insert mentions.bases := by
  induction atoms generalizing mentions later relations with
  | nil =>
    cases h
    exact ⟨rfl, rfl⟩
  | cons atom atoms ih =>
    simp only [readAtoms, Fallible.bind_eq_ok_iff, Fallible.pure_eq_ok_iff, Prod.mk.injEq] at h
    obtain ⟨⟨first, terms⟩, hfirst, met, hmet, ⟨rest, last⟩, hrest, rfl, rfl⟩ := h
    obtain ⟨hlength, hbases⟩ := ih hrest
    refine ⟨congrArg (· + 1) hlength, ?_⟩
    rw [hbases, bases_of_foldlM hmet, ← terms_of_readAtom hfirst, ← List.foldl_append]
    rfl

theorem foldlM_addTerm_printed (terms : List String) (mentions : Mentions) :
    (terms.map fun term => (⟨term, none⟩ : AnnotatedTerm)).foldlM Mentions.addTerm mentions =
      .ok ⟨mentions.annotations, (terms.map Term.base).foldl Roster.insert mentions.bases⟩ := by
  induction terms generalizing mentions with
  | nil => rfl
  | cons term terms ih =>
    rw [List.map_cons, List.foldlM_cons]
    exact ih ⟨mentions.annotations, mentions.bases.insert (Term.base term)⟩

/-- Relations that were printed are read back, and nothing is annotated. -/
theorem readAtoms_printed {relations : List Relation}
    (h : ∀ relation ∈ relations, relation.Over Term.Legal) (mentions : Mentions) :
    readAtoms mentions (relations.map fun relation => (toString relation).toList) =
      .ok (relations,
        ⟨mentions.annotations, (mentioned relations).foldl Roster.insert mentions.bases⟩) := by
  induction relations generalizing mentions with
  | nil => rfl
  | cons relation relations ih =>
    obtain ⟨hfirst, hrest⟩ := List.forall_mem_cons.1 h
    have hbases : (mentioned (relation :: relations)).foldl Roster.insert mentions.bases =
        (mentioned relations).foldl Roster.insert
          ((relation.terms.map Term.base).foldl Roster.insert mentions.bases) :=
      List.foldl_append
    rw [List.map_cons, readAtoms, readAtom_printed hfirst, hbases]
    dsimp only [bind, Except.bind]
    rw [foldlM_addTerm_printed]
    dsimp only
    rw [ih hrest]
    rfl

end Mentions

end Statement

/-! ## Variables -/

namespace Rule

/-- The variables of a rule with their sorts, as typings. -/
def typings (r : Rule) : Typings :=
  Std.HashMap.ofList (r.vars.map fun v => (v.name, v.sort))

theorem getElem?_typings_of_mem {r : Rule} (hnodup : (r.vars.map (·.name)).Nodup) {v : Variable}
    (hv : v ∈ r.vars) : r.typings[v.name]? = some v.sort := by
  have hdistinct : (r.vars.map fun v => (v.name, v.sort)).Pairwise
      fun a b => (a.1 == b.1) = false := by
    refine List.pairwise_map.2 ((List.pairwise_map.1 hnodup).imp ?_)
    intro a b hne
    exact beq_eq_false_iff_ne.2 hne
  exact Std.HashMap.getElem?_ofList_of_mem (beq_self_eq_true _) hdistinct
    (List.mem_map_of_mem (f := fun v : Variable => (v.name, v.sort)) hv)

theorem getElem?_typings_of_notMem {r : Rule} {name : String}
    (h : name ∉ r.vars.map (·.name)) : r.typings[name]? = none := by
  refine Std.HashMap.getElem?_ofList_of_contains_eq_false ?_
  rw [List.map_map]
  simpa using h

end Rule

namespace Statement

/-- The variables are found again where the typings know them, and only them. -/
theorem vars_typings {r : Rule} {mentions : Mentions} {typings : Typings}
    (h : r.vars = mentions.vars typings) :
    (⟨∅, mentions.bases⟩ : Mentions).vars r.typings = r.vars := by
  have hnodup : (r.vars.map (·.name)).Nodup := by
    rw [h]
    exact mentions.nodup_vars typings
  have hsort : ∀ base ∈ mentions.bases.toList,
      r.typings[base]? = (mentions.annotations[base]? <|> typings[base]?) := by
    intro base hbase
    cases hsort : (mentions.annotations[base]? <|> typings[base]?) with
    | none =>
      refine Rule.getElem?_typings_of_notMem fun hmem => ?_
      obtain ⟨v, hv, rfl⟩ := List.mem_map.1 hmem
      rw [h] at hv
      obtain ⟨_, _, hv⟩ := List.mem_filterMap.1 hv
      obtain ⟨_, hsome, rfl⟩ := Option.map_eq_some_iff.1 hv
      rw [hsort] at hsome
      cases hsome
    | some sort =>
      have hv : ⟨base, sort⟩ ∈ r.vars := by
        rw [h]
        refine List.mem_filterMap.2 ⟨base, hbase, ?_⟩
        rw [hsort]
        rfl
      exact Rule.getElem?_typings_of_mem hnodup hv
  rw [Mentions.vars_unannotated, h]
  refine List.filterMap_congr fun base hbase => ?_
  rw [hsort base hbase]

/-! ## Statements -/

/-- Only the lengths matter. -/
theorem Arranged.of_length {α β : Type} {kind : RuleKind} {heads body : List α}
    {heads' body' : List β} (h : Arranged kind heads body) (hheads : heads'.length = heads.length)
    (hbody : body'.length = body.length) : Arranged kind heads' body' := by
  have hnil : ∀ {l : List α} {l' : List β}, l'.length = l.length → (l' = [] ↔ l = []) := by
    intro l l' hlength
    rw [← List.length_eq_zero_iff, hlength, List.length_eq_zero_iff]
  cases kind with
  | implication => exact h.imp (mt (hnil hheads).1) (mt (hnil hbody).1)
  | assertion => exact h.imp (mt (hnil hheads).1) (hnil hbody).2
  | disjunction => exact h.imp (hnil hheads).2 fun hseveral => hbody ▸ hseveral
  | contradiction => exact h.imp (hnil hheads).2 (mt (hnil hbody).1)

/-- A rule that was read is read again from what is printed of it, with its variables typed, if no
letter in it can be taken for the separator of a disjunction. -/
theorem read_printed {typings : Typings} {text : List Char} {rule : Rule}
    (h : read typings text = .ok rule) (hjoinable : ∀ relation ∈ rule.relations, relation.Joinable) :
    read rule.typings (toString rule).toList = .ok rule := by
  have hover : ∀ relation ∈ rule.relations, relation.Over Term.Legal :=
    forall_relations_of_read (fun _ _ _ hatom => over_of_readAtom hatom) h
  simp only [read, Fallible.bind_eq_ok_iff, Fallible.pure_eq_ok_iff, orDefect_eq_ok_iff] at h
  obtain ⟨shape, hshape, ⟨body, met⟩, hbody, ⟨heads, later⟩, hheads, hrule⟩ := h
  obtain ⟨hlengthBody, hmet⟩ := bases_of_readAtoms hbody
  obtain ⟨hlengthHeads, hlater⟩ := bases_of_readAtoms hheads
  have harranged : Arranged rule.kind rule.heads rule.body := by
    rw [hrule]
    exact (arranged_of_readShape hshape).of_length hlengthHeads hlengthBody
  have hatomic : ∀ relation ∈ rule.relations, Atomic (toString relation).toList :=
    fun relation hrelation => atomic_printed (hover relation hrelation) (hjoinable relation hrelation)
  have hbases : (mentioned rule.heads).foldl Roster.insert
      ((mentioned rule.body).foldl Roster.insert ∅) = later.bases := by
    rw [hlater, hmet, hrule]
  have hvars : (⟨∅, later.bases⟩ : Mentions).vars rule.typings = rule.vars :=
    vars_typings (by rw [hrule] : rule.vars = later.vars typings)
  have hbindings : rule.bindings = [] := by rw [hrule]
  unfold read
  rw [readShape_printed harranged hatomic]
  dsimp only [bind, Except.bind]
  rw [readAtoms_printed fun relation hrelation => hover relation (List.mem_append_right _ hrelation)]
  dsimp only [orDefect, Except.mapError]
  rw [readAtoms_printed fun relation hrelation => hover relation (List.mem_append_left _ hrelation)]
  show Except.ok (Rule.mk rule.kind rule.heads rule.body (Mentions.vars ⟨∅, _⟩ rule.typings) []) = _
  rw [hbases, hvars, ← hbindings]

/-! ## A statement with other blanks than are printed -/

/-- A rule with all kinds of relations and terms, in which `x` is the only variable. -/
def roomRule : Rule where
  kind := .implication
  heads := [.predicate "p" ["x.f", "v"], .comparison "x" true "c"]
  body := [.predicate "in room" ["x"], .predicate "q" [], .comparison "x" false "v.f"]
  vars := [⟨"x", "s"⟩]

theorem read_roomRule :
    read (Std.HashMap.insert ∅ "x" "s") " in  room(x),q() ,x!=v.f=>p(x .f,v), x=c".toList =
      .ok roomRule := by
  obtain ⟨bases, hread, hbases⟩ : ∃ bases : Roster String,
      read (Std.HashMap.insert ∅ "x" "s") " in  room(x),q() ,x!=v.f=>p(x .f,v), x=c".toList =
        .ok { roomRule with vars := (⟨∅, bases⟩ : Mentions).vars (Std.HashMap.insert ∅ "x" "s") } ∧
      bases.toList = ["x", "v", "c"] := by
    refine ⟨["x", "x", "v", "x", "v", "x", "c"].foldl Roster.insert ∅, rfl, ?_⟩
    rw [Roster.toList_foldl_insert]
    rfl
  have hvars : (⟨∅, bases⟩ : Mentions).vars (Std.HashMap.insert ∅ "x" "s") = roomRule.vars := by
    rw [Mentions.vars_unannotated, hbases]
    simp [Std.HashMap.getElem?_insert, roomRule]
  rw [hvars] at hread
  exact hread

theorem read_printed_roomRule :
    read (Std.HashMap.insert ∅ "x" "s") " in  room(x),q() ,x!=v.f=>p(x .f,v), x=c".toList =
        .ok roomRule ∧
      (∀ relation ∈ roomRule.relations, relation.Joinable) ∧
      read roomRule.typings (toString roomRule).toList = .ok roomRule :=
  ⟨read_roomRule, by decide, read_printed read_roomRule (by decide)⟩

/-- The text between the two readings. -/
example : toString roomRule = "in room (x), q (), x != v.f => p (x.f, v), x = c" := by
  decide

end Statement

end Groundwork
