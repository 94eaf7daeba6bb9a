import Groundwork.Proofs.Grounding.Refusals
import Groundwork.Proofs.Grounding.Typed
import Groundwork.Proofs.Program.RoundTrip

/-!
# Annotations

Any mention of a base may be annotated with a sort: the first or a later one, in a comparison or
under functions, in the body or in a head.  An annotation counts for the whole statement, and
more than a typing that is known from elsewhere.

Reading notes the terms one after the other.  What it knows of annotations after some terms
(`Notes`) is what these terms say, and a term adds to it unless it contradicts an earlier one.

* `Notes.addTerm`, `Notes.foldlM`: one term, and a sequence of terms;
* `read_eq`: a statement with readable atoms is read by noting all of their terms, those of the
  body first;
* `read_types_variables`: such a statement is refused exactly if its annotations are in conflict,
  and its variables are typed by its annotations otherwise.
-/

namespace Groundwork

namespace Statement

/-! ## What terms say of their bases -/

/-- The bases of terms, in order of mention. -/
def basesOf (terms : List AnnotatedTerm) : List String :=
  terms.map fun t => Term.base t.term

/-- Some term with the base is annotated with the sort. -/
def Annotated (terms : List AnnotatedTerm) (base sort : String) : Prop :=
  ∃ t ∈ terms, Term.base t.term = base ∧ t.sort = some sort

instance (terms : List AnnotatedTerm) (base sort : String) : Decidable (Annotated terms base sort) :=
  inferInstanceAs (Decidable (∃ t ∈ terms, Term.base t.term = base ∧ t.sort = some sort))

/-- The base is annotated with two different sorts. -/
def Conflict (terms : List AnnotatedTerm) (base first second : String) : Prop :=
  first ≠ second ∧ Annotated terms base first ∧ Annotated terms base second

section Terms

variable {terms more : List AnnotatedTerm} {base sort first second : String}

theorem annotated_concat {t : AnnotatedTerm} : Annotated (terms ++ [t]) base sort ↔
    Annotated terms base sort ∨ Term.base t.term = base ∧ t.sort = some sort := by
  simp [Annotated, or_and_right, exists_or]

theorem Annotated.append (h : Annotated terms base sort) : Annotated (terms ++ more) base sort := by
  obtain ⟨t, ht, hsays⟩ := h
  exact ⟨t, List.mem_append_left _ ht, hsays⟩

theorem Conflict.append (h : Conflict terms base first second) :
    Conflict (terms ++ more) base first second :=
  ⟨h.1, h.2.1.append, h.2.2.append⟩

end Terms

/-! ## Notes -/

/-- The sort noted for a base is the one that some term is annotated with. -/
def Notes (m : Mentions) (terms : List AnnotatedTerm) : Prop :=
  ∀ base sort, m.annotations[base]? = some sort ↔ Annotated terms base sort

section Notes

variable {m : Mentions} {terms : List AnnotatedTerm}

theorem notes_empty : Notes {} [] := by
  intro base sort
  simp [Annotated]

/-- One sort is noted for a base, so that there is no other annotation of it. -/
theorem Notes.not_conflict (h : Notes m terms) (base first second : String) :
    ¬ Conflict terms base first second := by
  rintro ⟨hne, hfirst, hsecond⟩
  rw [← h] at hfirst hsecond
  exact hne (Option.some.inj (hfirst.symm.trans hsecond))

/-- An annotation is new, or repeats an earlier one, or contradicts an earlier one. -/
theorem Notes.addTerm (h : Notes m terms) (t : AnnotatedTerm) :
    (∃ later, m.addTerm t = .ok later ∧ Notes later (terms ++ [t])) ∨
      ∃ base first second, m.addTerm t = .error (.conflictingSort base first second) ∧
        Conflict (terms ++ [t]) base first second := by
  obtain ⟨term, sort⟩ := t
  cases sort with
  | none =>
    refine Or.inl ⟨_, rfl, fun base sort => ?_⟩
    rw [annotated_concat, ← h base sort]
    simp
  | some sort =>
    cases hnoted : m.annotations[Term.base term]? with
    | none =>
      refine Or.inl ⟨⟨m.annotations.insert (Term.base term) sort,
        m.bases.insert (Term.base term)⟩, ?_, fun base other => ?_⟩
      · simp only [Mentions.addTerm, Mentions.annotate, hnoted]
        rfl
      · rw [annotated_concat, ← h base other, Std.HashMap.getElem?_insert]
        by_cases hsame : Term.base term = base
        · subst hsame
          simp [hnoted]
        · simp [hsame]
    | some known =>
      by_cases hsame : known = sort
      · refine Or.inl ⟨{ m with bases := m.bases.insert (Term.base term) }, ?_, fun base other => ?_⟩
        · simp only [Mentions.addTerm, Mentions.annotate, hnoted, if_pos hsame]
          rfl
        · rw [annotated_concat, ← h base other]
          refine ⟨Or.inl, fun hor => hor.elim id ?_⟩
          rintro ⟨rfl, heq⟩
          rw [hnoted, hsame]
          exact heq
      · refine Or.inr ⟨Term.base term, known, sort, ?_, hsame, ?_, ?_⟩
        · simp only [Mentions.addTerm, Mentions.annotate, hnoted, if_neg hsame]
          rfl
        · exact ((h _ _).1 hnoted).append
        · exact annotated_concat.2 (Or.inr ⟨rfl, rfl⟩)

/-- The first contradiction ends the reading, and it is one of all terms. -/
theorem Notes.foldlM (h : Notes m terms) (more : List AnnotatedTerm) :
    (∃ later, more.foldlM Mentions.addTerm m = .ok later ∧ Notes later (terms ++ more)) ∨
      ∃ base first second,
        more.foldlM Mentions.addTerm m = .error (.conflictingSort base first second) ∧
        Conflict (terms ++ more) base first second := by
  induction more generalizing m terms with
  | nil => exact Or.inl ⟨m, rfl, by rwa [List.append_nil]⟩
  | cons t more ih =>
    rw [List.foldlM_cons, ← List.singleton_append, ← List.append_assoc]
    rcases h.addTerm t with ⟨met, hmet, hnotes⟩ | ⟨base, first, second, herror, hconflict⟩
    · rw [hmet]
      exact ih hnotes
    · rw [herror]
      exact Or.inr ⟨base, first, second, rfl, hconflict.append⟩

theorem notes_or_conflict (terms : List AnnotatedTerm) :
    (∃ m, terms.foldlM Mentions.addTerm {} = .ok m ∧ Notes m terms) ∨
      ∃ base first second,
        terms.foldlM Mentions.addTerm {} = .error (.conflictingSort base first second) ∧
        Conflict terms base first second :=
  notes_empty.foldlM terms

end Notes

/-! ## Statements with readable atoms -/

section Readable

variable {text : List Char} {shape : Shape} {body heads : List (Relation × List AnnotatedTerm)}

/-- If all atoms are readable, only their terms can be refused. -/
theorem readAtoms_eq {atoms : List (List Char)} {read : List (Relation × List AnnotatedTerm)}
    (h : atoms.mapM readAtom = .ok read) (m : Mentions) :
    readAtoms m atoms = (do
      let later ← (read.flatMap Prod.snd).foldlM Mentions.addTerm m
      return (read.map Prod.fst, later)) := by
  induction atoms generalizing read m with
  | nil =>
    cases h
    rfl
  | cons atom atoms ih =>
    simp only [List.mapM_cons, Fallible.bind_eq_ok_iff, Fallible.pure_eq_ok_iff] at h
    obtain ⟨⟨relation, terms⟩, hatom, rest, hrest, rfl⟩ := h
    rw [readAtoms, hatom, List.flatMap_cons, List.foldlM_append]
    dsimp only [bind, Except.bind]
    cases terms.foldlM Mentions.addTerm m with
    | error e => rfl
    | ok met =>
      dsimp only
      rw [ih hrest met]
      dsimp only [bind, Except.bind]
      cases (rest.flatMap Prod.snd).foldlM Mentions.addTerm met <;> rfl

/-- The terms of the body are noted before those of the heads. -/
theorem read_eq (typings : Typings) (hshape : readShape text = .ok shape)
    (hbody : shape.body.mapM readAtom = .ok body)
    (hheads : shape.heads.mapM readAtom = .ok heads) :
    read typings text = (do
      let mentions ← orDefect (((body ++ heads).flatMap Prod.snd).foldlM Mentions.addTerm {})
      return { kind := shape.kind, heads := heads.map Prod.fst, body := body.map Prod.fst,
               vars := mentions.vars typings }) := by
  unfold read
  rw [hshape, List.flatMap_append, List.foldlM_append]
  dsimp only [bind, Except.bind]
  rw [readAtoms_eq hbody]
  dsimp only [bind, Except.bind]
  cases (body.flatMap Prod.snd).foldlM Mentions.addTerm {} with
  | error e => rfl
  | ok met =>
    dsimp only [orDefect, Except.mapError, pure, Except.pure]
    rw [readAtoms_eq hheads]
    dsimp only [bind, Except.bind]
    cases (heads.flatMap Prod.snd).foldlM Mentions.addTerm met <;> rfl

end Readable

/-! ## Variables -/

/-- The variables of a rule are typed by the annotations of its terms, and by the typings where
there are none. -/
structure TypedBy (typings : Typings) (terms : List AnnotatedTerm) (rule : Rule) : Prop where
  distinct : (rule.vars.map (·.name)).Nodup
  /-- Variables stand in order of first mention. -/
  order : (rule.vars.map (·.name)).Sublist (basesOf terms).eraseDups
  /-- The variables are the bases that are annotated or have a typing. -/
  mem_vars_iff : ∀ v : Variable, v ∈ rule.vars ↔ v.name ∈ basesOf terms ∧
    (Annotated terms v.name v.sort ∨
      (∀ sort, ¬ Annotated terms v.name sort) ∧ typings[v.name]? = some v.sort)
  aligned : ∀ v ∈ rule.vars, rule.sortOf? v.name = some v.sort
  /-- All other bases are constants. -/
  mem_constantTerms_iff : ∀ base, base ∈ rule.constantTerms ↔
    base ∈ basesOf terms ∧ base ∉ rule.vars.map (·.name)

section Variables

variable {typings : Typings} {terms : List AnnotatedTerm} {m : Mentions}

theorem toList_bases_of_foldlM (h : terms.foldlM Mentions.addTerm {} = .ok m) :
    m.bases.toList = (basesOf terms).eraseDups := by
  have hmap : (terms.map (·.term)).map Term.base = basesOf terms := List.map_map ..
  rw [bases_of_foldlM h, hmap]
  exact Roster.toList_ofList _

/-- A typing counts only where nothing is noted. -/
theorem Notes.sort_eq_some_iff (h : Notes m terms) (base sort : String) :
    (m.annotations[base]? <|> typings[base]?) = some sort ↔
      Annotated terms base sort ∨
        (∀ other, ¬ Annotated terms base other) ∧ typings[base]? = some sort := by
  simp only [← h base]
  cases m.annotations[base]? <;> simp

theorem names_vars_sublist (m : Mentions) (typings : Typings) :
    ((m.vars typings).map (·.name)).Sublist m.bases.toList := by
  unfold Mentions.vars
  induction m.bases.toList with
  | nil => exact List.Sublist.refl _
  | cons base bases ih =>
    rw [List.filterMap_cons]
    cases (m.annotations[base]? <|> typings[base]?) with
    | none => exact ih.cons base
    | some sort => exact ih.cons_cons base

theorem mem_vars_iff {v : Variable} : v ∈ m.vars typings ↔
    v.name ∈ m.bases.toList ∧ (m.annotations[v.name]? <|> typings[v.name]?) = some v.sort := by
  unfold Mentions.vars
  rw [List.mem_filterMap]
  constructor
  · rintro ⟨base, hbase, hsort⟩
    obtain ⟨_, hsome, rfl⟩ := Option.map_eq_some_iff.1 hsort
    exact ⟨hbase, hsome⟩
  · rintro ⟨hbase, hsort⟩
    exact ⟨v.name, hbase, by rw [hsort]; rfl⟩

/-- The bases of relations are those of the terms that were read. -/
theorem mentioned_eq_basesOf {atoms : List (List Char)}
    {read : List (Relation × List AnnotatedTerm)} (h : atoms.mapM readAtom = .ok read) :
    mentioned (read.map Prod.fst) = basesOf (read.flatMap Prod.snd) := by
  have hterms : ∀ pair ∈ read, pair.1.terms.map Term.base = basesOf pair.2 := by
    intro pair hpair
    obtain ⟨atom, _, hatom⟩ := Fallible.exists_of_mem_results (Fallible.mapM_eq_ok_iff.1 h) hpair
    rw [terms_of_readAtom hatom, List.map_map]
    rfl
  rw [mentioned, List.flatMap_map, List.flatMap_congr hterms, basesOf, List.map_flatMap]
  rfl

theorem Notes.typedBy (h : Notes m terms) (hm : terms.foldlM Mentions.addTerm {} = .ok m)
    {rule : Rule} (hvars : rule.vars = m.vars typings)
    (hbases : ∀ base, base ∈ mentioned rule.relations ↔ base ∈ basesOf terms) :
    TypedBy typings terms rule := by
  have hlist := toList_bases_of_foldlM hm
  have hdistinct : (rule.vars.map (·.name)).Nodup := hvars ▸ m.nodup_vars typings
  refine ⟨hdistinct, ?_, fun v => ?_, fun v hv => Rule.sortOf?_eq_some hdistinct hv, fun base => ?_⟩
  · rw [hvars, ← hlist]
    exact names_vars_sublist m typings
  · rw [hvars, mem_vars_iff, hlist, List.mem_eraseDups, h.sort_eq_some_iff]
  · rw [Rule.mem_constantTerms_iff, ← hbases]
    rfl

end Variables

/-- A statement whose atoms can all be read is refused exactly if some base is annotated with two
different sorts, and what is reported is such a base with two of its sorts.  Otherwise its
variables are typed by the annotations, and by the typings where there are none. -/
theorem read_types_variables {typings : Typings} {text : List Char} {shape : Shape}
    {body heads : List (Relation × List AnnotatedTerm)} (hshape : readShape text = .ok shape)
    (hbody : shape.body.mapM readAtom = .ok body)
    (hheads : shape.heads.mapM readAtom = .ok heads) :
    ((∃ base first second,
        read typings text = .error (.defect (.conflictingSort base first second))) ↔
      ∃ base first second, Conflict ((body ++ heads).flatMap Prod.snd) base first second) ∧
    (∀ base first second,
      read typings text = .error (.defect (.conflictingSort base first second)) →
        Conflict ((body ++ heads).flatMap Prod.snd) base first second) ∧
    ((∀ base first second, ¬ Conflict ((body ++ heads).flatMap Prod.snd) base first second) →
      ∃ rule, read typings text = .ok rule ∧ rule.kind = shape.kind ∧
        rule.heads = heads.map Prod.fst ∧ rule.body = body.map Prod.fst ∧
        TypedBy typings ((body ++ heads).flatMap Prod.snd) rule) := by
  have hread := read_eq typings hshape hbody hheads
  rcases notes_or_conflict ((body ++ heads).flatMap Prod.snd) with
    ⟨m, hm, hnotes⟩ | ⟨base, first, second, herror, hconflict⟩
  · rw [hm] at hread
    have hok : ∀ fault, read typings text ≠ .error fault := by
      intro fault heq
      rw [hread] at heq
      cases heq
    have hnone := hnotes.not_conflict
    refine ⟨iff_of_false (fun ⟨_, _, _, heq⟩ => hok _ heq) fun ⟨_, _, _, hconflict⟩ =>
      hnone _ _ _ hconflict, fun _ _ _ heq => absurd heq (hok _), fun _ =>
      ⟨_, hread, rfl, rfl, rfl, hnotes.typedBy hm rfl fun base => ?_⟩⟩
    show base ∈ mentioned (heads.map Prod.fst ++ body.map Prod.fst) ↔ _
    rw [mentioned, List.flatMap_append, List.mem_append, ← mentioned, ← mentioned,
      mentioned_eq_basesOf hheads, mentioned_eq_basesOf hbody, List.flatMap_append, basesOf, basesOf,
      basesOf, List.map_append, List.mem_append, or_comm]
  · rw [herror] at hread
    have hrefused : read typings text = .error (.defect (.conflictingSort base first second)) := hread
    refine ⟨iff_of_true ⟨_, _, _, hrefused⟩ ⟨_, _, _, hconflict⟩, ?_, fun hnone =>
      absurd hconflict (hnone _ _ _)⟩
    intro base' first' second' heq
    rw [hrefused] at heq
    cases heq
    exact hconflict

/-! ### A statement with late annotations -/

/-- The terms of a statement that annotates `x` late, of which the typings know another sort, and
`y` twice. -/
def lateTerms : List AnnotatedTerm :=
  [⟨"x", none⟩, ⟨"y.f", some "t"⟩, ⟨"z", none⟩, ⟨"c", none⟩, ⟨"w", some "u"⟩, ⟨"x", some "s"⟩,
    ⟨"y", some "t"⟩]

theorem not_conflict_lateTerms (base first second : String) :
    ¬ Conflict lateTerms base first second := by
  rintro ⟨hne, ⟨t, ht, rfl, hfirst⟩, u, hu, hbase, hsecond⟩
  have hagree : ∀ t ∈ lateTerms, ∀ u ∈ lateTerms, Term.base u.term = Term.base t.term →
      t.sort = none ∨ u.sort = none ∨ t.sort = u.sort := by decide
  rcases hagree t ht u hu hbase with hsort | hsort | hsort
  · exact Option.some_ne_none first (hfirst.symm.trans hsort)
  · exact Option.some_ne_none second (hsecond.symm.trans hsort)
  · exact hne (Option.some.inj (hfirst.symm.trans (hsort.trans hsecond)))

/-- The base `z` is typed elsewhere only, and `c` is not typed at all. -/
theorem not_annotated_lateTerms {base : String} (h : base = "z" ∨ base = "c") (sort : String) :
    ¬ Annotated lateTerms base sort := by
  rintro ⟨t, ht, hbase, hsort⟩
  have hplain : ∀ t ∈ lateTerms, Term.base t.term = "z" ∨ Term.base t.term = "c" →
      t.sort = none := by decide
  rw [hplain t ht (hbase ▸ h)] at hsort
  cases hsort

theorem read_types_variables_late :
    ∃ shape body heads rule,
      readShape "p(x), y.f : t != z, q(c) => r(w: u, x : s), q(y :t)".toList = .ok shape ∧
      shape.body.mapM readAtom = .ok body ∧ shape.heads.mapM readAtom = .ok heads ∧
      read ((Std.HashMap.insert ∅ "x" "other").insert "z" "g")
        "p(x), y.f : t != z, q(c) => r(w: u, x : s), q(y :t)".toList = .ok rule ∧
      ⟨"x", "s"⟩ ∈ rule.vars ∧ ⟨"y", "t"⟩ ∈ rule.vars ∧ ⟨"z", "g"⟩ ∈ rule.vars ∧
      ⟨"w", "u"⟩ ∈ rule.vars ∧ (rule.vars.map (·.name)).Sublist ["x", "y", "z", "c", "w"] ∧
      "c" ∈ rule.constantTerms := by
  let typings : Typings := (Std.HashMap.insert ∅ "x" "other").insert "z" "g"
  obtain ⟨_, _, hread⟩ := @read_types_variables typings
    "p(x), y.f : t != z, q(c) => r(w: u, x : s), q(y :t)".toList _ _ _ rfl rfl rfl
  obtain ⟨rule, hrule, _, _, _, htyped⟩ := hread not_conflict_lateTerms
  have htyped : TypedBy typings lateTerms rule := htyped
  refine ⟨_, _, _, rule, rfl, rfl, rfl, hrule, ?_, ?_, ?_, ?_, htyped.order, ?_⟩
  · exact (htyped.mem_vars_iff _).2 ⟨by decide, Or.inl (by decide)⟩
  · exact (htyped.mem_vars_iff _).2 ⟨by decide, Or.inl (by decide)⟩
  · refine (htyped.mem_vars_iff _).2 ⟨by decide, Or.inr ⟨not_annotated_lateTerms (Or.inl rfl), ?_⟩⟩
    simp [typings]
  · exact (htyped.mem_vars_iff _).2 ⟨by decide, Or.inl (by decide)⟩
  · refine (htyped.mem_constantTerms_iff _).2 ⟨by decide, fun hmem => ?_⟩
    obtain ⟨v, hv, hname⟩ := List.mem_map.1 hmem
    rcases ((htyped.mem_vars_iff v).1 hv).2 with hsort | ⟨_, htyping⟩
    · exact not_annotated_lateTerms (Or.inr hname) _ hsort
    · simp [typings, hname] at htyping

end Statement

end Groundwork
