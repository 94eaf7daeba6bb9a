import Groundwork.Proofs.Grounding.Refusals
import Groundwork.Proofs.Session.Symbols

/-!
# The instances of a relation

When a rule is grounded, every variable is bound to a constant of its sort, and every other base
is a constant.  So the instances of the relations of a parsed rule are over terms whose bases
are constants (`over_of_mem_expand`).

Instances with the encoding of an earlier one are left out.  If no constant begins with a dash,
only an instance that is listed already has the encoding of one (`eq_of_mem_expand`).
-/

namespace Groundwork

/-! ## Bindings -/

theorem mem_of_lookup {α : Type} {entries : List (String × α)} {key : String} {a : α}
    (h : entries.lookup key = some a) : (key, a) ∈ entries := by
  obtain ⟨_, _, rfl, _⟩ := List.lookup_eq_some_iff.1 h
  simp

namespace Bindings

theorem bindEach_eq (b : Bindings) (names values : List String) :
    b.bindEach names values = (names.zip values).reverse ++ b := by
  unfold bindEach
  generalize names.zip values = pairs
  induction pairs generalizing b with
  | nil => rfl
  | cons pair pairs ih =>
    rw [List.foldl_cons, ih, List.reverse_cons, List.append_assoc, List.singleton_append]

theorem forall_bindEach {P : String → Prop} {b : Bindings} {names values : List String}
    (hb : ∀ pair ∈ b, P pair.2) (hvalues : ∀ value ∈ values, P value) :
    ∀ pair ∈ b.bindEach names values, P pair.2 := by
  intro pair hpair
  rw [bindEach_eq, List.mem_append, List.mem_reverse] at hpair
  rcases hpair with hpair | hpair
  · exact hvalues _ (List.of_mem_zip hpair).2
  · exact hb pair hpair

/-- A name without a value is neither among those that were bound last nor bound before. -/
theorem lookup_bindEach_eq_none {b : Bindings} {names values : List String} {name : String}
    (h : (b.bindEach names values).lookup name = none) (hlength : names.length = values.length) :
    name ∉ names ∧ b.lookup name = none := by
  rw [bindEach_eq, List.lookup_append, Option.or_eq_none_iff] at h
  refine ⟨fun hname => ?_, h.2⟩
  obtain ⟨n, hn, rfl⟩ := List.mem_iff_getElem.1 hname
  have hpair : (names[n], values[n]) ∈ (names.zip values).reverse :=
    List.mem_reverse.2 (List.mem_iff_getElem.2 ⟨n, by simp; omega, by simp⟩)
  have hne := List.lookup_eq_none_iff.1 h.1 _ hpair
  simp at hne

/-- A term whose base is replaced by a token is a term. -/
theorem replace_legal (b : Bindings) {term : String} (h : Term.Legal term)
    (hbase : legalToken ((b.lookup (Term.base term)).getD (Term.base term)) = true) :
    Term.Legal (b.replace term) ∧
      Term.base (b.replace term) = (b.lookup (Term.base term)).getD (Term.base term) :=
  ⟨Term.legal_apply hbase h.functions, Term.base_apply hbase h.functions⟩

end Bindings

namespace Relation

/-- What holds of all terms may use that they are terms of the relation. -/
theorem Over.terms {P : String → Prop} {r : Relation} (h : r.Over P)
    (hP : ∀ term, P term → isOperator term = false) :
    r.Over fun term => P term ∧ term ∈ r.terms := by
  cases h with
  | comparison equal hleft hright =>
    refine .comparison equal ⟨hleft, ?_⟩ ⟨hright, ?_⟩ <;> simp [terms_comparison]
  | predicate hne hwords hterms =>
    refine .predicate hne hwords fun term hterm => ⟨hterms term hterm, ?_⟩
    rw [Relation.terms, isComparison_predicate _ fun term hterm => hP term (hterms term hterm)]
    exact hterm

end Relation

namespace Grounder

variable {g : Grounder} {r : Rule} {ranges : Ranges} {tuple : List String} {relation : Relation}

/-- The term has a constant for its base. -/
structure Closed (g : Grounder) (term : String) : Prop where
  legal : Term.Legal term
  constant : g.sorts.isConstant (Term.base term) = true

/-- The bindings of the plain variables of a rule to a tuple. -/
def plainBindings (r : Rule) (ranges : Ranges) (tuple : List String) : Bindings :=
  r.bindings.bindEach (ranges.plain.map (·.name)) tuple

theorem Legal.isConstant_of_elements (h : g.Legal) {sort : String} {constants : List String}
    (helements : g.elements sort = .ok constants) :
    ∀ constant ∈ constants, g.sorts.isConstant constant = true := by
  intro constant hconstant
  unfold elements at helements
  split at helements
  · next found hfound =>
    cases helements
    exact h.restricted _ _ (mem_of_lookup hfound) constant hconstant
  · split at helements
    · next roster hroster =>
      cases helements
      exact (SortTable.isConstant_iff _ _).2 ⟨sort, roster, hroster, hconstant⟩
    · cases helements

theorem Legal.isConstant_of_rangesOf (h : g.Legal) {vars : List Variable} {found : List Range}
    (hfound : g.rangesOf vars = .ok found) :
    ∀ range ∈ found, ∀ constant ∈ range.elements, g.sorts.isConstant constant = true := by
  intro range hrange
  obtain ⟨_, helements⟩ := rangesOf_eq_ok hfound
  obtain ⟨sort, _, hsort⟩ :=
    Fallible.exists_of_mem_results helements (List.mem_map_of_mem hrange)
  exact h.isConstant_of_elements hsort

/-- The values of variables are taken from their ranges, so what holds of all elements of the
ranges holds of them. -/
theorem forall_of_mem_tuples {P : String → Prop} {found : List Range}
    (h : ∀ range ∈ found, ∀ constant ∈ range.elements, P constant)
    {chosen : List String} (hchosen : chosen ∈ Product.tuples (found.map (·.elements))) :
    (∀ constant ∈ chosen, P constant) ∧ found.length = chosen.length := by
  rw [Product.mem_tuples_iff, List.forall₂_map_left_iff] at hchosen
  induction hchosen with
  | nil => simp
  | cons hmem _ ih =>
    obtain ⟨hrest, hlength⟩ := ih fun range hrange => h range (List.mem_cons_of_mem _ hrange)
    exact ⟨List.forall_mem_cons.2 ⟨h _ List.mem_cons_self _ hmem, hrest⟩, congrArg _ hlength⟩

/-- What is neither a variable nor bound otherwise has to be a constant. -/
theorem isConstant_of_notMem_vars (hranges : g.ranges r = .ok ranges)
    (hrelation : relation ∈ r.relations) {term : String} (hterm : term ∈ relation.terms)
    (hvars : Term.base term ∉ r.vars.map (·.name)) :
    g.sorts.isConstant (Term.base term) = true := by
  refine (ranges_eq_ok_iff.1 hranges).1 _ (Rule.mem_constantTerms_iff.2 ⟨?_, hvars⟩)
  exact List.mem_flatMap.2 ⟨relation, hrelation, List.mem_map_of_mem hterm⟩

/-- Once the plain variables and the `any` variables that a relation mentions have values, only
what is no variable has none. -/
theorem notMem_vars_of_lookup_eq_none (hranges : g.ranges r = .ok ranges)
    (htuple : ranges.plain.length = tuple.length) {chosen : List String}
    (hchosen : (ranges.any.filter fun range => relation.mentions range.name).length = chosen.length)
    {term : String} (hterm : term ∈ relation.terms)
    (hlookup : ((plainBindings r ranges tuple).bindEach
      ((ranges.any.filter fun range => relation.mentions range.name).map (·.name)) chosen).lookup
        (Term.base term) = none) : Term.base term ∉ r.vars.map (·.name) := by
  obtain ⟨_, hplain, hany, _⟩ := ranges_eq_ok_iff.1 hranges
  obtain ⟨hany', hrest⟩ := Bindings.lookup_bindEach_eq_none hlookup (by simpa using hchosen)
  obtain ⟨hplain', _⟩ := Bindings.lookup_bindEach_eq_none hrest (by simpa using htuple)
  intro hvars
  obtain ⟨v, hv, hname⟩ := List.mem_map.1 hvars
  by_cases hisAny : isAnyVariable v.name = true
  · have hmem : v.name ∈ ranges.any.map (·.name) := by
      rw [(rangesOf_eq_ok hany).1]
      exact List.mem_map_of_mem (List.mem_filter.2 ⟨hv, hisAny⟩)
    obtain ⟨range, hrange, hrangeName⟩ := List.mem_map.1 hmem
    refine hany' (List.mem_map.2 ⟨range, List.mem_filter.2 ⟨hrange, ?_⟩, hrangeName.trans hname⟩)
    exact List.any_eq_true.2 ⟨term, hterm, by simp [hrangeName, hname]⟩
  · refine hplain' ?_
    rw [(rangesOf_eq_ok hplain).1, ← hname]
    exact List.mem_map_of_mem (List.mem_filter.2 ⟨hv, by simpa using hisAny⟩)

/-- Once the plain variables are bound to a tuple, and the `any` variables that the relation
mentions to another one, each base is a constant or stands for one. -/
theorem isConstant_bound (hg : g.Legal) (hr : r.bindings = [])
    (hranges : g.ranges r = .ok ranges) (htuple : tuple ∈ ranges.tuples)
    (hrelation : relation ∈ r.relations) {chosen : List String}
    (hchosen : chosen ∈ Product.tuples
      ((ranges.any.filter fun range => relation.mentions range.name).map (·.elements)))
    {term : String} (hterm : term ∈ relation.terms) :
    g.sorts.isConstant ((((plainBindings r ranges tuple).bindEach
      ((ranges.any.filter fun range => relation.mentions range.name).map (·.name)) chosen).lookup
        (Term.base term)).getD (Term.base term)) = true := by
  obtain ⟨_, hplain, hany, _⟩ := ranges_eq_ok_iff.1 hranges
  have hmentioned := fun range (hrange : range ∈ ranges.any.filter fun range =>
    relation.mentions range.name) =>
      hg.isConstant_of_rangesOf hany range (List.mem_of_mem_filter hrange)
  obtain ⟨hconstants, hlength⟩ := forall_of_mem_tuples (hg.isConstant_of_rangesOf hplain) htuple
  obtain ⟨hconstants', hlength'⟩ := forall_of_mem_tuples hmentioned hchosen
  cases hlookup : ((plainBindings r ranges tuple).bindEach
      ((ranges.any.filter fun range => relation.mentions range.name).map (·.name)) chosen).lookup
        (Term.base term) with
  | some value =>
    refine Bindings.forall_bindEach (P := fun c => g.sorts.isConstant c = true)
      (Bindings.forall_bindEach ?_ hconstants) hconstants' _ (mem_of_lookup hlookup)
    simp [hr]
  | none =>
    exact isConstant_of_notMem_vars hranges hrelation hterm
      (notMem_vars_of_lookup_eq_none hranges hlength hlength' hterm hlookup)

theorem closed_replace (hg : g.Legal) (hr : r.bindings = []) (hranges : g.ranges r = .ok ranges)
    (htuple : tuple ∈ ranges.tuples) (hrelation : relation ∈ r.relations) {chosen : List String}
    (hchosen : chosen ∈ Product.tuples
      ((ranges.any.filter fun range => relation.mentions range.name).map (·.elements)))
    {term : String} (hterm : Term.Legal term ∧ term ∈ relation.terms) :
    g.Closed (((plainBindings r ranges tuple).bindEach
      ((ranges.any.filter fun range => relation.mentions range.name).map (·.name)) chosen).replace
        term) := by
  have hconstant := isConstant_bound hg hr hranges htuple hrelation hchosen hterm.2
  obtain ⟨hlegal, hbase⟩ := Bindings.replace_legal _ hterm.1 (hg.sorts _ hconstant)
  exact ⟨hlegal, hbase ▸ hconstant⟩

/-- The instances of the relations of a parsed rule are over terms with constants for bases. -/
theorem over_of_mem_expand (hg : g.Legal) (hr : r.Parsed) (hranges : g.ranges r = .ok ranges)
    (htuple : tuple ∈ ranges.tuples) (hrelation : relation ∈ r.relations) {inst : Relation}
    (hinst : inst ∈ expand ranges.any (plainBindings r ranges tuple) relation) :
    inst.Over g.Closed := by
  obtain ⟨chosen, hchosen, rfl⟩ := List.mem_map.1 hinst
  exact ((hr.over relation hrelation).terms fun _ h => h.isOperator).mapTerms
    (fun _ h => h.1.isOperator) fun _ hterm =>
      closed_replace hg hr.bindings_eq hranges htuple hrelation hchosen hterm

/-- They are relations of the same kind and name. -/
theorem name_of_mem_expand (hg : g.Legal) (hr : r.Parsed) (hranges : g.ranges r = .ok ranges)
    (htuple : tuple ∈ ranges.tuples) (hrelation : relation ∈ r.relations) {inst : Relation}
    (hinst : inst ∈ expand ranges.any (plainBindings r ranges tuple) relation) :
    inst.isComparison = relation.isComparison ∧ inst.name = relation.name := by
  obtain ⟨chosen, hchosen, rfl⟩ := List.mem_map.1 hinst
  refine ((hr.over relation hrelation).terms fun _ h => h.isOperator).name_mapTermsM
    (fun _ h => h.1.isOperator) (fun term term' hterm heq => ?_)
    (Relation.mapTermsM_ok Unit _ relation)
  cases heq
  exact (closed_replace hg hr.bindings_eq hranges htuple hrelation hchosen hterm).legal.isOperator

/-! ## Instances that are left out -/

/-- Every item is kept, or stands after one with the same encoding that is kept. -/
theorem exists_mem_eraseDupsBy {inst : Relation} {l : List Relation} (h : inst ∈ l) :
    ∃ kept ∈ l.eraseDupsBy sameEncoding, kept.encoding = inst.encoding := by
  induction hn : l.length using Nat.strongRecOn generalizing l with
  | ind n ih =>
    cases l with
    | nil => cases h
    | cons first l =>
      rw [List.eraseDupsBy_cons]
      by_cases hsame : first.encoding = inst.encoding
      · exact ⟨first, List.mem_cons_self, hsame⟩
      · have hrest : inst ∈ l.filter fun other => sameEncoding other first = false := by
          have hinst := (List.mem_cons.1 h).resolve_left fun heq => hsame (heq ▸ rfl)
          refine List.mem_filter.2 ⟨hinst, ?_⟩
          simpa [sameEncoding] using Ne.symm hsame
        have hshorter := List.length_filter_le (fun other => sameEncoding other first = false) l
        rw [List.length_cons] at hn
        obtain ⟨kept, hkept, hencoding⟩ := ih _ (by omega) hrest rfl
        exact ⟨kept, List.mem_cons_of_mem _ hkept, hencoding⟩

/-- An instance that is left out has the encoding of one that is kept, and that one is among the
ground atoms. -/
theorem exists_kept_of_mem_expand {any : List Range} {bindings : Bindings} {texts : List String}
    (h : g.instances any bindings relation = .ok texts) {inst : Relation}
    (hinst : inst ∈ expand any bindings relation) :
    ∃ kept ∈ expand any bindings relation, ∃ text ∈ texts,
      kept.encoding = inst.encoding ∧ g.evaluate kept = .ok text := by
  obtain ⟨kept, hkept, hencoding⟩ := exists_mem_eraseDupsBy hinst
  rw [instances_eq, Fallible.mapM_eq_ok_iff] at h
  obtain ⟨text, htext, heq⟩ := Fallible.exists_result_of_mem h hkept
  exact ⟨kept, mem_of_mem_eraseDupsBy hkept, text, htext, hencoding, heq⟩

/-- If no constant begins with a dash, instances are told apart by their encodings. -/
theorem eq_of_mem_expand (hg : g.Legal) (hr : r.Parsed) (hranges : g.ranges r = .ok ranges)
    (htuple : tuple ∈ ranges.tuples) (hrelation : relation ∈ r.relations)
    (hdash : ∀ constant, g.sorts.isConstant constant = true → constant.toList.head? ≠ some '-')
    {inst other : Relation}
    (hinst : inst ∈ expand ranges.any (plainBindings r ranges tuple) relation)
    (hother : other ∈ expand ranges.any (plainBindings r ranges tuple) relation)
    (hencoding : inst.encoding = other.encoding) : inst = other := by
  have hundashed : ∀ term, g.Closed term → Term.Undashed term := by
    intro term hterm
    refine ⟨hterm.legal, ?_⟩
    obtain ⟨c, cs, hcons⟩ := List.exists_cons_of_ne_nil (isToken_iff.1 hterm.legal.base).1
    have hhead := hdash _ hterm.constant
    rw [hcons, List.head?_cons] at hhead
    exact ⟨c, by rw [hcons]; rfl, fun hc => hhead (congrArg some hc)⟩
  exact ((over_of_mem_expand hg hr hranges htuple hrelation hinst).imp hundashed).eq_of_encoding_eq
    ((over_of_mem_expand hg hr hranges htuple hrelation hother).imp hundashed) hencoding

end Grounder

end Groundwork
