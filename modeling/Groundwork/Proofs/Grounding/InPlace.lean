import Std.Data.HashMap.Lemmas
import Groundwork.Proofs.Grounding.Substitution

/-!
# Grounding with one table of bindings

Bindings can be made in one table that lasts as long as a rule is grounded.  Each tuple of values
is written over the one before it, for the plain variables as for the `any` variables of a relation,
and nothing is ever taken out of the table.  The `any` variables then keep values that were bound
for another relation or for another tuple.

This makes no difference.  A relation is only looked up at bases that it mentions, and each `any`
variable among them was bound anew.  So two statements carry the loops:

* between tuples the table is as at the start outside the variables (`Keeps`);
* under a tuple it agrees with the bindings of the tuple outside the `any` variables (`Agrees`).

`Computes` lifts such statements to loops that may fail, and `groundInPlace_eq` is what follows.
`ground_substitutes` says with this what grounding is: simultaneous substitution.
-/

namespace Groundwork

/-! ## Tables -/

/-- Bindings that are written over. -/
abbrev BindingTable := Std.HashMap String String

namespace BindingTable

/-- The table of the given bindings, of which the latest of a name counts. -/
def ofBindings (b : Bindings) : BindingTable :=
  b.foldr (fun pair table => table.insert pair.1 pair.2) ∅

/-- Binds names to the values at the same positions, one after the other. -/
def bindEach (table : BindingTable) (names values : List String) : BindingTable :=
  (names.zip values).foldl (fun table pair => table.insert pair.1 pair.2) table

/-- The substitution that the table stands for. -/
def substitution (table : BindingTable) : Substitution :=
  fun name => table[name]?

theorem substitution_ofBindings (b : Bindings) :
    (ofBindings b).substitution = b.substitution := by
  funext name
  unfold ofBindings substitution Bindings.substitution
  induction b with
  | nil => exact Std.HashMap.getElem?_empty
  | cons pair b ih =>
    rw [List.foldr_cons, Std.HashMap.getElem?_insert, ih, List.lookup_cons, Bool.beq_comm]
    cases name == pair.1 <;> rfl

theorem substitution_bindEach (table : BindingTable) (names values : List String) :
    (table.bindEach names values).substitution = table.substitution.override names values := by
  funext name
  unfold bindEach substitution Substitution.override
  generalize names.zip values = pairs
  induction pairs generalizing table with
  | nil => rfl
  | cons pair pairs ih =>
    have hinsert : (table.insert pair.1 pair.2)[name]? = ([pair].lookup name).or table[name]? := by
      rw [Std.HashMap.getElem?_insert, Bool.beq_comm, List.lookup_cons]
      cases name == pair.1 <;> rfl
    rw [List.foldl_cons, ih, List.reverse_cons, List.lookup_append, Option.or_assoc]
    dsimp only
    rw [hinsert]

end BindingTable

/-! ## Actions on a table -/

/-- What grounding does with its table. -/
abbrev WorkingM := StateT BindingTable (Except GroundError)

section Computes

variable {α β : Type} {P Q R : BindingTable → Prop}

/-- Whatever table with `P` it starts from, the action has the result of the computation and leaves
a table with `Q`, or it fails as the computation does. -/
def Computes (P Q : BindingTable → Prop) (act : WorkingM α) (x : Except GroundError α) : Prop :=
  ∀ table, P table →
    (∃ a table', act.run table = .ok (a, table') ∧ x = .ok a ∧ Q table') ∨
      ∃ e, act.run table = .error e ∧ x = .error e

theorem computes_pure (a : α) : Computes P P (pure a) (.ok a) :=
  fun table h => .inl ⟨a, table, rfl, rfl, h⟩

theorem computes_monadLift (x : Except GroundError α) : Computes P P (monadLift x) x := by
  intro table h
  cases x with
  | error e => exact .inr ⟨e, rfl, rfl⟩
  | ok a => exact .inl ⟨a, table, rfl, rfl, h⟩

theorem computes_modify_bind {f : BindingTable → BindingTable} {act : WorkingM β}
    {x : Except GroundError β} (hact : ∀ table, P table → Computes (· = f table) Q act x) :
    Computes P Q (modify f >>= fun _ => act) x :=
  fun table h => hact table h (f table) rfl

theorem computes_get_bind {act : BindingTable → WorkingM β} {x : Except GroundError β}
    (hact : ∀ table, P table → Computes (· = table) Q (act table) x) :
    Computes P Q (get >>= act) x :=
  fun table h => hact table h table rfl

theorem Computes.bind {act : WorkingM α} {x : Except GroundError α} {f : α → WorkingM β}
    {h : α → Except GroundError β} (hact : Computes P Q act x)
    (hf : ∀ a, Computes Q R (f a) (h a)) : Computes P R (act >>= f) (x >>= h) := by
  intro table htable
  rw [StateT.run_bind]
  rcases hact table htable with ⟨a, table', hrun, rfl, htable'⟩ | ⟨e, hrun, rfl⟩
  · rw [hrun]
    exact hf a table' htable'
  · rw [hrun]
    exact .inr ⟨e, rfl, rfl⟩

theorem Computes.mono {P' Q' : BindingTable → Prop} {act : WorkingM α} {x : Except GroundError α}
    (h : Computes P Q act x) (hP : ∀ table, P' table → P table)
    (hQ : ∀ table, Q table → Q' table) : Computes P' Q' act x := by
  intro table htable
  rcases h table (hP table htable) with ⟨a, table', hrun, hx, htable'⟩ | herror
  · exact .inl ⟨a, table', hrun, hx, hQ table' htable'⟩
  · exact .inr herror

theorem Computes.run'_eq {act : WorkingM α} {x : Except GroundError α} (h : Computes P Q act x)
    {table : BindingTable} (htable : P table) : act.run' table = x := by
  unfold StateT.run'
  rcases h table htable with ⟨a, table', hrun, rfl, _⟩ | ⟨e, hrun, rfl⟩
  · exact congrArg (Prod.fst <$> ·) hrun
  · exact congrArg (Prod.fst <$> ·) hrun

theorem Computes.mapM {f : α → WorkingM β} {h : α → Except GroundError β} {l : List α}
    (hf : ∀ a ∈ l, Computes P P (f a) (h a)) : Computes P P (l.mapM f) (l.mapM h) := by
  induction l with
  | nil => exact computes_pure _
  | cons a l ih =>
    rw [List.mapM_cons, List.mapM_cons]
    refine (hf a List.mem_cons_self).bind fun b => ?_
    exact (ih fun a' ha' => hf a' (List.mem_cons_of_mem a ha')).bind fun bs => computes_pure _

theorem Computes.foldlM {f : β → α → WorkingM β} {h : β → α → Except GroundError β} {l : List α}
    (hf : ∀ a ∈ l, ∀ b, Computes P P (f b a) (h b a)) (b : β) :
    Computes P P (l.foldlM f b) (l.foldlM h b) := by
  induction l generalizing b with
  | nil => exact computes_pure _
  | cons a l ih =>
    rw [List.foldlM_cons, List.foldlM_cons]
    refine (hf a List.mem_cons_self b).bind fun b' => ?_
    exact ih (fun a' ha' => hf a' (List.mem_cons_of_mem a ha')) b'

end Computes

/-! ## Grounding in place -/

namespace Grounder

variable (g : Grounder)

/-- The ground atoms that take the place of a relation.  The values of its `any` variables stay in
the table. -/
def instancesInPlace (any : List Range) (relation : Relation) : WorkingM (List String) := do
  let mentioned := any.filter fun range => relation.mentions range.name
  if mentioned.isEmpty then
    let table ← get
    return [← g.evaluate (table.substitution.apply relation)]
  let names := mentioned.map (·.name)
  let (_, atoms) ← Product.foldM
    (fun state tuple => do
      modify fun table => table.bindEach names tuple
      let table ← get
      g.collect state (table.substitution.apply relation))
    ((∅ : Roster String), (#[] : Array String)) (mentioned.map (·.elements))
  return atoms.toList

/-- The clauses of a rule once its plain variables are bound in the table. -/
def groundBindingInPlace (r : Rule) (any : List Range) : WorkingM (List GroundClause) := do
  let body ← r.body.mapM (g.instancesInPlace any)
  let heads ← r.heads.mapM (g.instancesInPlace any)
  return clausesOf r.kind body.flatten heads.flatten

/-- Grounds a rule under one more binding of its plain variables. -/
def extendInPlace (r : Rule) (ranges : Ranges) (grounded : Grounded) (tuple : List String) :
    WorkingM Grounded := do
  modify fun table => table.bindEach (ranges.plain.map (·.name)) tuple
  let clauses ← g.groundBindingInPlace r ranges.any
  return { grounded with
    clauses := grounded.clauses ++ clauses.toArray
    bindings := grounded.bindings + 1 }

/-- Grounds a rule under all bindings of its plain variables, in a table that starts with the
bindings of the rule. -/
def groundInPlace (r : Rule) : Except GroundError Grounded := do
  let ranges ← g.ranges r
  let loop : WorkingM Grounded := Product.foldM
    (fun grounded tuple => do
      g.checkLimits [r] grounded.bindings
      g.extendInPlace r ranges grounded tuple)
    (start r) (ranges.plain.map (·.elements))
  loop.run' (BindingTable.ofBindings r.bindings)

end Grounder

/-! ## What the table agrees with -/

/-- The table stands for the substitution, as far as the names are not among those given. -/
def BindingTable.Agrees (names : List String) (σ : Substitution) (table : BindingTable) : Prop :=
  ∀ name, name ∉ names → table.substitution name = σ name

namespace Relation

theorem mapTerms_eq (f : String → String) (relation : Relation) :
    relation.mapTerms f =
      if relation.isComparison then
        ⟨f relation.first, relation.rest.take 1 ++ (relation.rest.drop 1).map f⟩
      else ⟨relation.first, relation.rest.map f⟩ := by
  unfold mapTerms mapTermsM
  split
  · simp only [pure_bind, List.mapM_pure]
    rfl
  · simp only [List.mapM_pure]
    rfl

theorem mapTerms_congr {f f' : String → String} {relation : Relation}
    (h : ∀ term ∈ relation.terms, f term = f' term) : relation.mapTerms f = relation.mapTerms f' := by
  rw [mapTerms_eq, mapTerms_eq]
  unfold terms at h
  by_cases hcomparison : relation.isComparison = true
  · rw [if_pos hcomparison] at h
    rw [if_pos hcomparison, if_pos hcomparison, h _ List.mem_cons_self,
      List.map_congr_left fun term hterm => h term (List.mem_cons_of_mem _ hterm)]
  · rw [if_neg hcomparison] at h
    rw [if_neg hcomparison, if_neg hcomparison, List.map_congr_left h]

end Relation

namespace Substitution

theorem override_of_notMem {σ : Substitution} {names values : List String} {name : String}
    (h : name ∉ names) : σ.override names values name = σ name := by
  unfold override
  have hnone : (names.zip values).reverse.lookup name = none := by
    rw [List.lookup_eq_none_iff]
    intro pair hpair
    have hmem := (List.of_mem_zip (List.mem_reverse.1 hpair)).1
    simpa using fun heq : name = pair.1 => h (heq ▸ hmem)
  rw [hnone]
  rfl

/-- A name that is bound no longer has the value it had before. -/
theorem override_of_mem {σ σ' : Substitution} {names values : List String} {name : String}
    (h : name ∈ names) (hlength : names.length = values.length) :
    σ.override names values name = σ'.override names values name := by
  unfold override
  cases hlookup : (names.zip values).reverse.lookup name with
  | some value => rfl
  | none =>
    obtain ⟨n, hn, rfl⟩ := List.mem_iff_getElem.1 h
    have hpair : (names[n], values[n]) ∈ (names.zip values).reverse :=
      List.mem_reverse.2 (List.mem_iff_getElem.2 ⟨n, by simp; omega, by simp⟩)
    simpa using List.lookup_eq_none_iff.1 hlookup _ hpair

/-- Only what is substituted for the bases of the relation counts. -/
theorem apply_congr {σ σ' : Substitution} {relation : Relation}
    (h : ∀ base, relation.mentions base = true → σ base = σ' base) :
    σ.apply relation = σ'.apply relation := by
  have hterm : ∀ term ∈ relation.terms,
      Term.apply ((σ (Term.base term)).getD (Term.base term)) (Term.functions term) =
        Term.apply ((σ' (Term.base term)).getD (Term.base term)) (Term.functions term) := by
    intro term hterm
    rw [h _ (List.any_eq_true.2 ⟨term, hterm, beq_self_eq_true _⟩)]
  exact Relation.mapTerms_congr hterm

end Substitution

namespace BindingTable.Agrees

variable {names : List String} {σ : Substitution} {table : BindingTable}

/-- Values of names that need not agree may be written over. -/
theorem bindEach (h : table.Agrees names σ) {bound values : List String}
    (hbound : ∀ name ∈ bound, name ∈ names) : (table.bindEach bound values).Agrees names σ := by
  intro name hname
  rw [substitution_bindEach, Substitution.override_of_notMem fun hmem => hname (hbound name hmem)]
  exact h name hname

/-- When further names are bound, they agree too. -/
theorem bindEach_override {bound values : List String} (h : table.Agrees (bound ++ names) σ)
    (hlength : bound.length = values.length) :
    (table.bindEach bound values).Agrees names (σ.override bound values) := by
  intro name hname
  rw [substitution_bindEach]
  by_cases hbound : name ∈ bound
  · exact Substitution.override_of_mem hbound hlength
  · rw [Substitution.override_of_notMem hbound, Substitution.override_of_notMem hbound]
    exact h name (by simp [hbound, hname])

/-- Outside the names that were bound, the substitution is as before. -/
theorem of_override {bound values : List String}
    (h : table.Agrees names (σ.override bound values)) : table.Agrees (bound ++ names) σ := by
  intro name hname
  rw [List.mem_append, not_or] at hname
  rw [h name hname.2, Substitution.override_of_notMem hname.1]

end BindingTable.Agrees

namespace Grounder

variable {g : Grounder} {any : List Range} {σ : Substitution}

/-- The names of variables. -/
def namesOf (ranges : List Range) : List String :=
  ranges.map (·.name)

/-- The ranges of the `any` variables that the relation mentions. -/
def mentionedBy (any : List Range) (relation : Relation) : List Range :=
  any.filter fun range => relation.mentions range.name

theorem mem_namesOf_mentionedBy {relation : Relation} {name : String} :
    name ∈ namesOf (mentionedBy any relation) ↔
      name ∈ namesOf any ∧ relation.mentions name = true := by
  unfold namesOf mentionedBy
  simp only [List.mem_map, List.mem_filter]
  constructor
  · rintro ⟨range, ⟨hrange, hmentions⟩, rfl⟩
    exact ⟨⟨range, hrange, rfl⟩, hmentions⟩
  · rintro ⟨⟨range, hrange, rfl⟩, hmentions⟩
    exact ⟨range, ⟨hrange, hmentions⟩, rfl⟩

/-- What the relation mentions is bound anew, or is no `any` variable. -/
theorem apply_bindEach {table : BindingTable} (h : table.Agrees (namesOf any) σ)
    {relation : Relation} {tuple : List String}
    (hlength : (mentionedBy any relation).length = tuple.length) :
    (table.bindEach (namesOf (mentionedBy any relation)) tuple).substitution.apply relation =
      (σ.override (namesOf (mentionedBy any relation)) tuple).apply relation := by
  rw [BindingTable.substitution_bindEach]
  refine Substitution.apply_congr fun base hbase => ?_
  by_cases hbound : base ∈ namesOf (mentionedBy any relation)
  · exact Substitution.override_of_mem hbound (by rw [namesOf, List.length_map, hlength])
  · rw [Substitution.override_of_notMem hbound, Substitution.override_of_notMem hbound]
    exact h base fun hany => hbound (mem_namesOf_mentionedBy.2 ⟨hany, hbase⟩)

/-! ## The loops -/

/-- Under one more tuple of the `any` variables that the relation mentions, the relation is the same
as under bindings without any other `any` variable. -/
theorem computes_collect {b : Bindings} {relation : Relation} {tuple : List String}
    (hlength : (mentionedBy any relation).length = tuple.length)
    (state : Roster String × Array String) :
    Computes (·.Agrees (namesOf any) b.substitution) (·.Agrees (namesOf any) b.substitution)
      (do
        modify fun table => table.bindEach (namesOf (mentionedBy any relation)) tuple
        let table ← get
        g.collect state (table.substitution.apply relation))
      (g.collect state ((b.bindEach (namesOf (mentionedBy any relation)) tuple).bind relation)) := by
  refine computes_modify_bind fun table htable => computes_get_bind fun _ hbound => ?_
  cases hbound
  rw [apply_bindEach htable hlength, ← Bindings.substitution_bindEach, ← Bindings.bind_eq]
  exact (computes_monadLift _).mono
    (fun _ h => h ▸ htable.bindEach fun _ hname => (mem_namesOf_mentionedBy.1 hname).1)
    fun _ h => h

theorem computes_instances (b : Bindings) (relation : Relation) :
    Computes (·.Agrees (namesOf any) b.substitution) (·.Agrees (namesOf any) b.substitution)
      (g.instancesInPlace any relation) (g.instances any b relation) := by
  unfold instancesInPlace instances
  by_cases hempty : (any.filter fun range => relation.mentions range.name).isEmpty = true
  · simp only [if_pos hempty]
    refine computes_get_bind fun table htable => ?_
    have hnil : mentionedBy any relation = [] := List.isEmpty_iff.1 hempty
    have hbound : table.substitution.apply relation = b.bind relation := by
      have hnone := @apply_bindEach any _ table htable relation [] (by rw [hnil]; rfl)
      rw [hnil] at hnone
      exact hnone
    rw [hbound]
    exact ((computes_monadLift _).bind fun atom => computes_pure _).mono (fun _ h => h ▸ htable)
      fun _ h => h
  · simp only [if_neg hempty, Product.foldM_eq_foldlM_tuples]
    refine Computes.bind (Computes.foldlM (fun tuple htuple state => ?_) _) fun state =>
      computes_pure _
    refine computes_collect ?_ state
    have hlength := (Product.mem_tuples_iff.1 htuple).length_eq
    rwa [List.length_map] at hlength

/-! ## Grounding is substitution -/

variable {r : Rule} {ranges : Ranges}

theorem computes_groundBinding (b : Bindings) :
    Computes (·.Agrees (namesOf any) b.substitution) (·.Agrees (namesOf any) b.substitution)
      (g.groundBindingInPlace r any) (g.groundBinding r any b) := by
  refine (Computes.mapM fun relation _ => computes_instances b relation).bind fun body => ?_
  refine (Computes.mapM fun relation _ => computes_instances b relation).bind fun heads => ?_
  exact computes_pure _

/-- Values that are left from other tuples are written over before they are read. -/
theorem computes_extend (grounded : Grounded) {tuple : List String}
    (hlength : ranges.plain.length = tuple.length) :
    Computes (·.Agrees (namesOf ranges.plain ++ namesOf ranges.any) r.bindings.substitution)
      (·.Agrees (namesOf ranges.plain ++ namesOf ranges.any) r.bindings.substitution)
      (g.extendInPlace r ranges grounded tuple) (g.extend r ranges grounded tuple) := by
  refine computes_modify_bind fun table htable => ?_
  have hagrees : (table.bindEach (namesOf ranges.plain) tuple).Agrees (namesOf ranges.any)
      (r.bindings.bindEach (namesOf ranges.plain) tuple).substitution := by
    rw [Bindings.substitution_bindEach]
    exact htable.bindEach_override (by rw [namesOf, List.length_map, hlength])
  refine ((computes_groundBinding _).bind fun clauses => computes_pure _).mono
    (fun _ h => h ▸ hagrees) fun table' htable' => ?_
  rw [Bindings.substitution_bindEach] at htable'
  exact htable'.of_override

/-- One table of bindings serves as well as fresh bindings for each tuple. -/
theorem groundInPlace_eq (g : Grounder) (r : Rule) : g.groundInPlace r = g.ground r := by
  unfold groundInPlace ground
  cases g.ranges r with
  | error e => rfl
  | ok ranges =>
    have hstart : (BindingTable.ofBindings r.bindings).Agrees
        (namesOf ranges.plain ++ namesOf ranges.any) r.bindings.substitution := by
      intro name _
      rw [BindingTable.substitution_ofBindings]
    show (Product.foldM _ (start r) _ : WorkingM Grounded).run' _ = Product.foldM _ (start r) _
    rw [Product.foldM_eq_foldlM_tuples, Product.foldM_eq_foldlM_tuples]
    refine (Computes.foldlM (fun tuple htuple grounded => ?_) _).run'_eq hstart
    have hlength := (Product.mem_tuples_iff.1 htuple).length_eq
    rw [List.length_map] at hlength
    exact (computes_monadLift _).bind fun _ => computes_extend grounded hlength

/-- Under restrictions that a session accepts, no sort is known that is not declared. -/
theorem knows_of_restrict {β : Type} {s : Session β} {given : List (String × List String)}
    (hrestrict : s.restrict given = .ok g.restrictions) (hsorts : g.sorts = s.sorts)
    (sort : String) : g.knows sort = (g.sorts.get? sort).isSome := by
  unfold knows
  cases hlookup : g.restrictions.lookup sort with
  | none => rfl
  | some constants =>
    obtain ⟨roster, hroster, _⟩ :=
      Session.sort_of_mem_restrict hrestrict sort constants (mem_of_lookup hlookup)
    rw [hsorts, hroster]
    rfl

/-- Grounding that is neither cancelled nor late is simultaneous substitution, whether each tuple
has bindings of its own or all share one table.  A rule is refused unless it meets what
is asked of it, and tuples are in lexicographic order. -/
theorem ground_substitutes (hcancelled : ∀ bindings, g.cancelled r bindings = false)
    (hlate : ∀ bindings, g.late r bindings = false) (hlimit : g.bindingLimit ≤ Text.maxCount) :
    g.ground r = g.substituted r ∧ g.groundInPlace r = g.substituted r ∧
      (g.refusal? r = none ↔ g.Admits r) ∧
      (∀ (s : Session Solver) given, s.restrict given = .ok g.restrictions → g.sorts = s.sorts →
        ∀ sort, g.knows sort = (g.sorts.get? sort).isSome) ∧
      ∀ vars : List Variable, ∃ places : List (List Nat), places.Pairwise (· < ·) ∧
        (∀ place, place ∈ places ↔
          List.Forall₂ (fun constants i => i < constants.length)
            (vars.map fun v => g.constantsOf v.sort) place) ∧
        (g.tuplesOf vars).map (·.map some) =
          places.map fun place =>
            List.zipWith (fun constants i => constants[i]?)
              (vars.map fun v => g.constantsOf v.sort) place := by
  have hground := ground_eq_substituted (r := r) hcancelled hlate hlimit
  exact ⟨hground, (groundInPlace_eq g r).trans hground, refusal?_eq_none_iff,
    fun _ _ hrestrict hsorts => knows_of_restrict hrestrict hsorts,
    fun vars => Product.tuples_lexicographic _⟩

/-- A rule with an initial binding, which is not applied to what takes the place of a variable. -/
def heldRule : Rule where
  kind := .implication
  heads := [.predicate "p" ["x"]]
  body := [.predicate "q" ["anyy", "a"]]
  vars := [⟨"x", "s"⟩, ⟨"anyy", "s"⟩]
  bindings := [("a", "b")]

theorem constantsOf_wide : (wide []).constantsOf "s" = ["a", "b"] := by
  rw [constantsOf_eq]
  exact (elementsOf_wide []).1

theorem tuplesOf_wide (name : String) : (wide []).tuplesOf [⟨name, "s"⟩] = [["a"], ["b"]] := by
  unfold tuplesOf
  rw [List.map_cons, List.map_nil, constantsOf_wide]
  rfl

theorem admits_heldRule : (wide []).Admits heldRule := by
  refine ⟨fun base hbase => ?_, fun v hv => ?_, ?_⟩
  · have hmem : base = "x" ∨ base = "anyy" ∨ base = "a" := by
      simpa [show heldRule.bases = ["x", "anyy", "a"] by decide +kernel] using hbase
    rcases hmem with rfl | rfl | rfl
    · exact .inl (by simp [heldRule])
    · exact .inl (by simp [heldRule])
    · refine .inr ?_
      show (((Session.ofOptions {}).sorts.extend "s" ["a", "b"]).extend "t" ["c"]).isConstant "a" = true
      simp [SortTable.isConstant_extend]
  · have hsort : v.sort = "s" := by
      have hmem : v = ⟨"x", "s"⟩ ∨ v = ⟨"anyy", "s"⟩ := by simpa [heldRule] using hv
      rcases hmem with rfl | rfl <;> rfl
    obtain ⟨elements, helements⟩ := (get?_wide []).1
    rw [hsort, knows, helements]
    rfl
  · show ([⟨"x", "s"⟩, ⟨"anyy", "s"⟩].map fun v : Variable =>
      ((wide []).constantsOf v.sort).length).prod ≤ Text.maxCount
    simp [constantsOf_wide]
    decide

theorem variants_heldRule (σ : Substitution) :
    (wide []).variants heldRule σ (.predicate "p" ["x"]) = [σ.apply (.predicate "p" ["x"])] ∧
      (wide []).variants heldRule σ (.predicate "q" ["anyy", "a"]) =
        [["a"], ["b"]].map fun tuple =>
          (σ.override ["anyy"] tuple).apply (.predicate "q" ["anyy", "a"]) := by
  have hhead : (heldRule.anyVariables.filter fun v =>
      (Relation.predicate "p" ["x"]).mentions v.name) = [] := by decide +kernel
  have hbody : (heldRule.anyVariables.filter fun v =>
      (Relation.predicate "q" ["anyy", "a"]).mentions v.name) = [⟨"anyy", "s"⟩] := by decide +kernel
  unfold variants
  rw [hhead, hbody]
  dsimp only
  rw [tuplesOf_wide]
  exact ⟨rfl, rfl⟩

theorem clausesUnder_heldRule :
    (wide []).clausesUnder heldRule ["a"] = .ok [⟨some "p a", ["q a b", "q b b"]⟩] ∧
      (wide []).clausesUnder heldRule ["b"] = .ok [⟨some "p b", ["q a b", "q b b"]⟩] := by
  have hrelations : ∀ σ : Substitution,
      (wide []).atomsUnder heldRule σ heldRule.body =
          (([["a"], ["b"]].map fun tuple =>
            (σ.override ["anyy"] tuple).apply (.predicate "q" ["anyy", "a"])).eraseDupsBy
              fun a b => a.encoding == b.encoding).mapM (wide []).evaluate ∧
        (wide []).atomsUnder heldRule σ heldRule.heads =
          [σ.apply (.predicate "p" ["x"])].mapM (wide []).evaluate := by
    intro σ
    constructor
    · show (List.flatMap _ [Relation.predicate "q" ["anyy", "a"]]).mapM (wide []).evaluate = _
      rw [List.flatMap_cons, List.flatMap_nil, List.append_nil, (variants_heldRule σ).2]
    · show (List.flatMap _ [Relation.predicate "p" ["x"]]).mapM (wide []).evaluate = _
      rw [List.flatMap_cons, List.flatMap_nil, List.append_nil, (variants_heldRule σ).1]
      rfl
  unfold clausesUnder
  simp only [hrelations]
  exact ⟨rfl, rfl⟩

/-- The clauses of the rule, in which the constant that takes the place of a variable stays. -/
theorem substituted_heldRule : (wide []).substituted heldRule = .ok
    { kind := .implication
      clauses := #[⟨some "p a", ["q a b", "q b b"]⟩, ⟨some "p b", ["q a b", "q b b"]⟩]
      bindings := 2
      predicates := heldRule.predicates } := by
  have hplain : heldRule.plainVariables = [⟨"x", "s"⟩] := by decide +kernel
  unfold substituted
  rw [refusal?_eq_none_iff.2 admits_heldRule]
  dsimp only
  rw [hplain, tuplesOf_wide, List.mapM_cons, List.mapM_cons, List.mapM_nil,
    clausesUnder_heldRule.1, clausesUnder_heldRule.2]
  rfl

theorem ground_substitutes_heldRule :
    (∀ bindings, (wide []).cancelled heldRule bindings = false) ∧
    (∀ bindings, (wide []).late heldRule bindings = false) ∧
    (wide []).bindingLimit ≤ Text.maxCount ∧
    (wide []).ground heldRule = .ok
      { kind := .implication
        clauses := #[⟨some "p a", ["q a b", "q b b"]⟩, ⟨some "p b", ["q a b", "q b b"]⟩]
        bindings := 2
        predicates := heldRule.predicates } := by
  have hlimit : (wide []).bindingLimit ≤ Text.maxCount := Nat.le_refl _
  exact ⟨fun _ => rfl, fun _ => rfl, hlimit,
    (ground_substitutes (fun _ => rfl) (fun _ => rfl) hlimit).1.trans substituted_heldRule⟩

end Grounder

end Groundwork
