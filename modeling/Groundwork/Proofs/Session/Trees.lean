import Groundwork.Proofs.Session.Accepting
import Groundwork.Proofs.Session.Refused
import Groundwork.Proofs.Session.Validated
import Groundwork.Proofs.Tree

/-!
# Trees that are put into a session

A tree goes in one constant and one value at a time, and its sink after it.  A constant that the
sort has already is refused, so once all of them are in, no two constants of the tree have the same
name and the sink is none of them.  Then no value was set twice, and each path of functions has a
value.

* `addElement_eq_ok_iff`, `Grown`: when constants go in, and what they change;
* `Planted`: what is in a session after a tree and its sink were put in;
* `Planted.routed`: the value of each function on each constant of the tree;
* `exists_planted`: trees that do go in;
* `installTree_total`: terms over the tree always have values, and the check of the functions finds
  no fault.
-/

namespace Groundwork

/-! ## The values of a tree -/

namespace Tree

/-- The values that the edges give. -/
def edgeValues (t : Tree) : List (String × String × String) :=
  t.edges.map fun edge => (edge.parent, edge.function, edge.child)

/-- The values by which each function leads from the last level and the sink to the sink. -/
def sinkValues (t : Tree) (sink : String) : List (String × String × String) :=
  t.functions.flatMap fun function =>
    (t.leaves ++ [sink]).map fun leaf => (leaf, function, sink)

theorem mem_sinkValues {t : Tree} {sink : String} {triple : String × String × String} :
    triple ∈ t.sinkValues sink ↔
      triple.1 ∈ t.leaves ++ [sink] ∧ triple.2.1 ∈ t.functions ∧ triple.2.2 = sink := by
  obtain ⟨leaf, function, image⟩ := triple
  simp only [sinkValues, List.mem_flatMap, List.mem_map, Prod.mk.injEq]
  constructor
  · intro h
    obtain ⟨_, hfunction, _, hleaf, rfl, rfl, rfl⟩ := h
    exact ⟨hleaf, hfunction, rfl⟩
  · intro h
    obtain ⟨hleaf, hfunction, rfl⟩ := h
    exact ⟨function, hfunction, leaf, hleaf, rfl, rfl, rfl⟩

/-- The functions lead down the edges, and from the last level and the sink to the sink. -/
structure Routed (t : Tree) (sink : String) (values : ValueTable) : Prop where
  inner : ∀ parent ∈ t.inner, ∀ function ∈ t.functions,
    values.get? parent function = some (parent ++ "_" ++ function)
  last : ∀ leaf ∈ t.leaves ++ [sink], ∀ function ∈ t.functions,
    values.get? leaf function = some sink

end Tree

namespace ValueTable

/-- A value is found in the table if the list has no other value for its pair. -/
theorem get?_setAll_of_mem (t : ValueTable) {listed : List (String × String × String)}
    {x : String × String × String} (hmem : x ∈ listed)
    (hsame : ∀ y ∈ listed, pairOf y = pairOf x → y = x) :
    (t.setAll listed).get? x.1 x.2.1 = some x.2.2 := by
  induction listed using List.reverseRecOn with
  | nil => cases hmem
  | append_singleton listed y ih =>
    rw [setAll_concat, get?_set]
    by_cases hpair : pairOf y = pairOf x
    · have hyx := hsame y (by simp) hpair
      rw [hyx, if_pos rfl]
    · have hbefore : x ∈ listed := by
        refine (List.mem_append.1 hmem).resolve_right fun hlast => hpair ?_
        rw [List.mem_singleton.1 hlast]
      rw [if_neg fun heq => hpair heq.symm]
      exact ih hbefore fun z hz => hsame z (List.mem_append_left _ hz)

theorem setAll_append (t : ValueTable) (first later : List (String × String × String)) :
    t.setAll (first ++ later) = (t.setAll first).setAll later :=
  List.foldl_append

/-- One more function is applied to what the term denotes. -/
theorem evaluate_concat (t : ValueTable) {base function : String} {path : List String}
    (hbase : legalToken base = true) (hpath : ∀ name ∈ path, legalToken name = true)
    (hfunction : legalToken function = true) :
    t.evaluate (Term.apply base (path ++ [function])) =
      (t.evaluate (Term.apply base path) >>= fun image => t.step image function) := by
  have hall : ∀ name ∈ path ++ [function], legalToken name = true := by
    simpa [or_imp, forall_and] using ⟨hpath, hfunction⟩
  rw [evaluate_eq, evaluate_eq, Term.functions_apply hbase hall, Term.base_apply hbase hall,
    Term.functions_apply hbase hpath, Term.base_apply hbase hpath, List.foldlM_append]
  simp

theorem evaluate_base (t : ValueTable) {base : String} (hbase : legalToken base = true) :
    t.evaluate base = .ok base := by
  have hfunctions : Term.functions (Term.apply base []) = [] :=
    Term.functions_apply hbase (by simp)
  have hself : Term.base (Term.apply base []) = base := Term.base_apply hbase (by simp)
  show t.evaluate (Term.apply base []) = _
  rw [evaluate_eq, hfunctions, hself]
  rfl

end ValueTable

namespace Session

variable {β : Type} {s t u : Session β} {sort sink : String} {constants : List String}

/-! ## Constants -/

theorem sizeOf_eq (sorts : SortTable) (sort : String) :
    sorts.sizeOf sort = (sorts.elementsOf sort).length := by
  unfold SortTable.sizeOf SortTable.elementsOf
  cases sorts.get? sort <;> rfl

theorem addElement_eq_ok_iff {constant : String} :
    exec (addElement sort constant) s = (.ok (), t) ↔
      (legalToken sort = true ∧ legalToken constant = true ∧
        constant ∉ s.sorts.elementsOf sort ∧
        min ((s.sorts.elementsOf sort).length + 1) Text.maxCount ≤ s.options.sortLimit.value) ∧
      t = { s with
        stage := .input
        sorts := (s.sorts.declared sort).extend sort [constant] } := by
  unfold addElement
  rw [exec_checked, sizeOf_eq]
  by_cases hlimit : s.options.sortLimit.value <
      min ((s.sorts.elementsOf sort).length + 1) Text.maxCount
  · rw [if_pos hlimit]
    constructor
    · intro h
      cases h
    · intro h
      obtain ⟨⟨_, _, _, hroom⟩, _⟩ := h
      exact absurd hlimit (Nat.not_lt.2 hroom)
  · rw [if_neg hlimit]
    rcases s.sorts.addElement_cases sort constant with
      ⟨hsort, hadd⟩ | ⟨_, hconstant, hadd⟩ | ⟨_, _, hmem, hadd⟩ | ⟨hsort, hconstant, hfresh, hadd⟩
    · simp [hadd, hsort, Except.mapError]
    · simp [hadd, hconstant, Except.mapError]
    · simp [hadd, hmem, Except.mapError]
    · simp only [hadd, hsort, hconstant, hfresh, Except.mapError, Prod.mk.injEq, true_and,
        not_false_eq_true, Nat.not_lt.1 hlimit]
      exact eq_comm

/-- The session after constants were put at the end of a sort. -/
structure Grown (sort : String) (constants : List String) (s t : Session β) : Prop where
  elements : t.sorts.elementsOf sort = s.sorts.elementsOf sort ++ constants
  legal : ∀ constant ∈ constants, legalToken constant = true
  signatures : t.sorts.signatures = s.sorts.signatures
  values : t.values = s.values
  options : t.options = s.options

theorem grown_of_addElement {constant : String}
    (h : exec (addElement sort constant) s = (.ok (), t)) : Grown sort [constant] s t := by
  obtain ⟨⟨_, hconstant, hfresh, _⟩, rfl⟩ := addElement_eq_ok_iff.1 h
  refine ⟨?_, List.forall_mem_singleton.2 hconstant, s.sorts.signatures_declared sort, rfl, rfl⟩
  have hnew : ∀ c ∈ [constant], c ∉ (s.sorts.declared sort).elementsOf sort := by
    rw [SortTable.elementsOf_declared]
    exact List.forall_mem_singleton.2 hfresh
  rw [SortTable.elementsOf_extend (List.nodup_singleton constant) hnew, if_pos rfl,
    SortTable.elementsOf_declared]

theorem grown_of_addElements (h : exec (constants.forM (addElement sort)) s = (.ok (), t)) :
    Grown sort constants s t := by
  induction constants generalizing s with
  | nil =>
    cases h
    exact ⟨(List.append_nil _).symm, by simp, rfl, rfl, rfl⟩
  | cons constant constants ih =>
    obtain ⟨_, u, hfirst, hrest⟩ := exec_bind_eq_ok_iff.1 h
    have hone := grown_of_addElement hfirst
    have hlater := ih hrest
    refine ⟨?_, List.forall_mem_cons.2 ⟨hone.legal constant (by simp), hlater.legal⟩,
      hlater.signatures.trans hone.signatures, hlater.values.trans hone.values,
      hlater.options.trans hone.options⟩
    rw [hlater.elements, hone.elements, List.append_assoc, List.singleton_append]

/-- Legal constants that are new go in while there is room for them. -/
theorem exists_addElements (hsort : legalToken sort = true)
    (hlegal : ∀ constant ∈ constants, legalToken constant = true)
    (hnodup : (s.sorts.elementsOf sort ++ constants).Nodup)
    (hroom : (s.sorts.elementsOf sort ++ constants).length ≤ s.options.sortLimit.value) :
    ∃ t, exec (constants.forM (addElement sort)) s = (.ok (), t) := by
  induction constants generalizing s with
  | nil => exact ⟨s, rfl⟩
  | cons constant constants ih =>
    obtain ⟨hconstant, hlegal⟩ := List.forall_mem_cons.1 hlegal
    have hfresh : constant ∉ s.sorts.elementsOf sort := fun hmem =>
      List.disjoint_of_nodup_append hnodup hmem List.mem_cons_self
    have hlength : (s.sorts.elementsOf sort).length + 1 ≤ s.options.sortLimit.value := by
      rw [List.length_append, List.length_cons] at hroom
      omega
    have hfirst := (addElement_eq_ok_iff (t := { s with
      stage := .input
      sorts := (s.sorts.declared sort).extend sort [constant] })).2
        ⟨⟨hsort, hconstant, hfresh, Nat.le_trans (Nat.min_le_left _ _) hlength⟩, rfl⟩
    have hone := grown_of_addElement hfirst
    obtain ⟨t, hrest⟩ := ih hlegal (by rwa [hone.elements, List.append_assoc])
      (by rwa [hone.elements, List.append_assoc])
    exact ⟨t, (exec_bind_ok hfirst).trans hrest⟩

/-! ## The rounds in which a tree goes in -/

/-- Sets the values of a list, one after the other. -/
def setValues (listed : List (String × String × String)) : SessionM β Unit :=
  listed.forM fun (domain, function, image) => discard (setValue domain function image)

theorem forM_flatMap {m : Type → Type} [Monad m] [LawfulMonad m] {α γ : Type} (l : List α)
    (g : α → List γ) (f : γ → m Unit) :
    (l.flatMap g).forM f = l.forM fun a => (g a).forM f := by
  induction l with
  | nil => rfl
  | cons a l ih =>
    rw [List.flatMap_cons]
    exact List.forM_append.trans (congrArg (fun rest => (g a).forM f >>= fun _ => rest) ih)

theorem installTree_some (sort : String) (tree : Tree) (sink : String) :
    (installTree sort tree (some sink) : SessionM β Unit) = (do
      tree.constants.forM (addElement sort)
      setValues tree.edgeValues
      addElement sort sink
      setValues (tree.sinkValues sink)) := by
  have hedges : (setValues tree.edgeValues : SessionM β Unit) =
      tree.edges.forM fun edge => discard (setValue edge.parent edge.function edge.child) :=
    List.forM_map
  have hsink : (setValues (tree.sinkValues sink) : SessionM β Unit) =
      tree.functions.forM fun function =>
        (tree.leaves ++ [sink]).forM fun leaf => discard (setValue leaf function sink) := by
    unfold setValues Tree.sinkValues
    rw [forM_flatMap]
    congr
    funext function
    exact List.forM_map
  rw [hedges, hsink]
  rfl

/-- Values that were set are between legal tokens, and nothing else was changed. -/
theorem setValues_eq_ok {listed : List (String × String × String)}
    (h : exec (setValues listed) s = (.ok (), t)) :
    (∀ triple ∈ listed, legalToken triple.2.1 = true) ∧ t.sorts = s.sorts ∧
      t.values = s.values.setAll listed := by
  have hlegal := legal_of_setValues h
  obtain ⟨stage, _, hrun⟩ := exec_setAll hlegal s
  unfold setValues at h
  rw [h] at hrun
  cases hrun
  exact ⟨fun triple htriple => (hlegal triple htriple).2.1, rfl, rfl⟩

/-- The session after a tree and its sink were put in. -/
structure Planted (sort : String) (tree : Tree) (sink : String) (s t : Session β) : Prop where
  elements : t.sorts.elementsOf sort = s.sorts.elementsOf sort ++ (tree.constants ++ [sink])
  signatures : t.sorts.signatures = s.sorts.signatures
  values : t.values = s.values.setAll (tree.edgeValues ++ tree.sinkValues sink)
  legal : ∀ constant ∈ tree.constants ++ [sink], legalToken constant = true
  functions : ∀ function ∈ tree.functions, legalToken function = true

theorem planted_of_installTree {tree : Tree}
    (h : exec (installTree sort tree (some sink)) s = (.ok (), t)) :
    Planted sort tree sink s t := by
  rw [installTree_some] at h
  obtain ⟨_, a, hconstants, h⟩ := exec_bind_eq_ok_iff.1 h
  obtain ⟨_, b, hedges, h⟩ := exec_bind_eq_ok_iff.1 h
  obtain ⟨_, c, hsink, hlast⟩ := exec_bind_eq_ok_iff.1 h
  have hgrown := grown_of_addElements hconstants
  obtain ⟨_, hbsorts, hbvalues⟩ := setValues_eq_ok hedges
  have hgrown' := grown_of_addElement hsink
  obtain ⟨hlegal, htsorts, htvalues⟩ := setValues_eq_ok hlast
  refine ⟨?_, ?_, ?_, ?_, ?_⟩
  · rw [htsorts, hgrown'.elements, hbsorts, hgrown.elements, List.append_assoc]
  · rw [htsorts, hgrown'.signatures, hbsorts, hgrown.signatures]
  · rw [htvalues, hgrown'.values, hbvalues, hgrown.values, ValueTable.setAll_append]
  · exact List.forall_mem_append.2 ⟨hgrown.legal, hgrown'.legal⟩
  · intro function hfunction
    exact hlegal (sink, function, sink) (Tree.mem_sinkValues.2 ⟨by simp, hfunction, rfl⟩)

/-! ## Where the functions lead -/

/-- The constants of the tree and the sink are all different, as the sort has each of them once. -/
theorem Planted.nodup {tree : Tree} (h : Planted sort tree sink s t) :
    (tree.inner ++ (tree.leaves ++ [sink])).Nodup := by
  have hall : (t.sorts.elementsOf sort).Nodup := by
    unfold SortTable.elementsOf
    cases t.sorts.get? sort with
    | none => exact List.nodup_nil
    | some roster => exact roster.nodup
  rw [h.elements, ← tree.inner_append_leaves, List.append_assoc] at hall
  exact hall.of_append_right

variable {root : String} {functions : List String} {depth : Nat}

theorem mem_edgeValues_ofRoot {triple : String × String × String} :
    triple ∈ (Tree.ofRoot root functions depth).edgeValues ↔
      triple.1 ∈ (Tree.ofRoot root functions depth).inner ∧ triple.2.1 ∈ functions ∧
        triple.2.2 = triple.1 ++ "_" ++ triple.2.1 := by
  rw [Tree.edgeValues, List.mem_map]
  constructor
  · intro h
    obtain ⟨edge, hedge, rfl⟩ := h
    exact Tree.mem_edges_ofRoot.1 hedge
  · intro h
    exact ⟨⟨triple.2.1, triple.1, triple.2.2⟩, Tree.mem_edges_ofRoot.2 h, rfl⟩

/-- No value of the tree is set again: an edge leaves a constant above the last level, and a
constant has one edge for a function. -/
theorem Planted.eq_of_pairOf_eq (h : Planted sort (Tree.ofRoot root functions depth) sink s t)
    {x y : String × String × String}
    (hx : x ∈ (Tree.ofRoot root functions depth).edgeValues ++
      (Tree.ofRoot root functions depth).sinkValues sink)
    (hy : y ∈ (Tree.ofRoot root functions depth).edgeValues ++
      (Tree.ofRoot root functions depth).sinkValues sink)
    (hpair : ValueTable.pairOf y = ValueTable.pairOf x) : y = x := by
  obtain ⟨parent, function, image⟩ := x
  obtain ⟨parent', function', image'⟩ := y
  obtain ⟨rfl, rfl⟩ := Prod.mk.inj hpair
  have hapart := List.disjoint_of_nodup_append h.nodup
  rw [List.mem_append, mem_edgeValues_ofRoot, Tree.mem_sinkValues] at hx hy
  rcases hx with ⟨hinner, _, hx⟩ | ⟨hlast, _, hx⟩ <;>
    rcases hy with ⟨hinner', _, hy⟩ | ⟨hlast', _, hy⟩
  · exact congrArg (fun image => (parent', function', image)) (hy.trans hx.symm)
  · exact (hapart hinner hlast').elim
  · exact (hapart hinner' hlast).elim
  · exact congrArg (fun image => (parent', function', image)) (hy.trans hx.symm)

theorem Planted.routed (h : Planted sort (Tree.ofRoot root functions depth) sink s t) :
    (Tree.ofRoot root functions depth).Routed sink t.values := by
  have hvalue : ∀ x ∈ (Tree.ofRoot root functions depth).edgeValues ++
      (Tree.ofRoot root functions depth).sinkValues sink,
        t.values.get? x.1 x.2.1 = some x.2.2 := by
    intro x hx
    rw [h.values]
    exact ValueTable.get?_setAll_of_mem _ hx fun y hy => h.eq_of_pairOf_eq hx hy
  constructor
  · intro parent hparent function hfunction
    exact hvalue (parent, function, parent ++ "_" ++ function)
      (List.mem_append_left _ (mem_edgeValues_ofRoot.2 ⟨hparent, hfunction, rfl⟩))
  · intro leaf hleaf function hfunction
    exact hvalue (leaf, function, sink)
      (List.mem_append_right _ (Tree.mem_sinkValues.2 ⟨hleaf, hfunction, rfl⟩))

end Session

namespace Tree

variable {root sink : String} {functions : List String} {depth : Nat} {values : ValueTable}

/-- The induction is on the path from its end: the last function is applied to a constant above
the last level, to one of the last level, or to the sink, as the path before it is shorter than
the tree is deep, as long, or longer. -/
theorem Routed.evaluate_path (h : (ofRoot root functions depth).Routed sink values)
    (hroot : legalToken root = true)
    (hfunctions : ∀ function ∈ functions, legalToken function = true)
    {path : List String} (hpath : path ⊆ functions) :
    values.evaluate (Term.apply root path) =
      .ok (if path.length ≤ depth then named root path else sink) := by
  induction path using List.reverseRecOn with
  | nil =>
    rw [List.length_nil, if_pos (Nat.zero_le _)]
    exact values.evaluate_base hroot
  | append_singleton path function ih =>
    obtain ⟨hpath, hlast⟩ := List.append_subset.1 hpath
    have hfunction : function ∈ functions := hlast (List.mem_singleton.2 rfl)
    rw [values.evaluate_concat hroot (fun name hname => hfunctions name (hpath hname))
      (hfunctions function hfunction), ih hpath, List.length_append, List.length_singleton]
    show values.step _ function = _
    unfold ValueTable.step
    rcases Nat.lt_trichotomy path.length depth with hlt | heq | hgt
    · rw [if_pos hlt.le, h.inner _ (path_mem_inner hpath hlt) function hfunction,
        if_pos (Nat.succ_le_of_lt hlt), named_concat]
    · have hleaf : named root path ∈ (ofRoot root functions depth).leaves ++ [sink] :=
        List.mem_append_left _ (path_mem_leaves hpath heq)
      rw [if_pos heq.le, h.last _ hleaf function hfunction, if_neg (by omega)]
    · rw [if_neg (by omega), h.last sink (by simp) function hfunction, if_neg (by omega)]

theorem Routed.evaluate_sink {t : Tree} (h : t.Routed sink values)
    (hsink : legalToken sink = true)
    (hfunctions : ∀ function ∈ t.functions, legalToken function = true)
    {path : List String} (hpath : path ⊆ t.functions) :
    values.evaluate (Term.apply sink path) = .ok sink := by
  induction path using List.reverseRecOn with
  | nil => exact values.evaluate_base hsink
  | append_singleton path function ih =>
    obtain ⟨hpath, hlast⟩ := List.append_subset.1 hpath
    have hfunction : function ∈ t.functions := hlast (List.mem_singleton.2 rfl)
    rw [values.evaluate_concat hsink (fun name hname => hfunctions name (hpath hname))
      (hfunctions function hfunction), ih hpath]
    show values.step sink function = _
    unfold ValueTable.step
    rw [h.last sink (by simp) function hfunction]

/-- Each function leads from a constant of the tree or the sink to a constant of the tree or the
sink. -/
theorem Routed.exists_image (h : (ofRoot root functions depth).Routed sink values)
    {constant function : String}
    (hconstant : constant ∈ (ofRoot root functions depth).constants ++ [sink])
    (hfunction : function ∈ functions) :
    ∃ image ∈ (ofRoot root functions depth).constants ++ [sink],
      values.get? constant function = some image := by
  rw [← inner_append_leaves, List.append_assoc] at hconstant
  rcases List.mem_append.1 hconstant with hinner | hlast
  · have hedge : (⟨function, constant, constant ++ "_" ++ function⟩ : TreeEdge) ∈
        (ofRoot root functions depth).edges := mem_edges_ofRoot.2 ⟨hinner, hfunction, rfl⟩
    exact ⟨_, List.mem_append_left _ (child_mem_constants hedge),
      h.inner constant hinner function hfunction⟩
  · exact ⟨sink, by simp, h.last constant hlast function hfunction⟩

end Tree

namespace Session

variable {β : Type} {s t : Session β} {sort sink root : String} {functions : List String}
  {depth : Nat}

/-! ## The check of the functions -/

/-- Typings that are added change neither the constants nor the values. -/
theorem exists_addSignatures (signatures : List Signature) (t : Session β) :
    ∃ u, exec (signatures.forM addSignature) t = (.ok (), u) ∧ u.values = t.values ∧
      (∀ name, u.sorts.get? name = t.sorts.get? name) ∧
      ∀ signature, signature ∈ u.sorts.signatures.toList ↔
        signature ∈ t.sorts.signatures.toList ∨ signature ∈ signatures := by
  induction signatures generalizing t with
  | nil => exact ⟨t, rfl, rfl, fun _ => rfl, by simp⟩
  | cons first signatures ih =>
    obtain ⟨u, hrest, hvalues, hsorts, hsignatures⟩ :=
      ih { t with stage := .input, sorts := t.sorts.addSignature first }
    have hfirst : exec (addSignature first) t =
        (.ok (), { t with stage := .input, sorts := t.sorts.addSignature first }) := rfl
    refine ⟨u, (exec_bind_ok hfirst).trans hrest, hvalues, hsorts, fun signature => ?_⟩
    have hinsert : signature ∈ (t.sorts.signatures.insert first).toList ↔
        signature ∈ t.sorts.signatures.toList ∨ signature = first := by
      rw [Roster.toList_insert]
      by_cases hmem : first ∈ t.sorts.signatures.toList
      · rw [if_pos hmem]
        exact ⟨.inl, fun h => h.elim id fun heq => heq ▸ hmem⟩
      · rw [if_neg hmem, List.mem_append, List.mem_singleton]
    rw [hsignatures, List.mem_cons, ← or_assoc]
    exact or_congr_left hinsert

/-- The check looks at the constants of the tree and the sink, if the sort has no others. -/
theorem Planted.validate (h : Planted sort (Tree.ofRoot root functions depth) sink s t)
    (hempty : s.sorts.elementsOf sort = [])
    {u : Session β} (hvalues : u.values = t.values)
    (hsorts : ∀ name, u.sorts.get? name = t.sorts.get? name)
    (hsignatures : ∀ signature ∈ u.sorts.signatures.toList,
      ∃ function ∈ functions, signature = ⟨sort, function, sort⟩) :
    u.validateFunctions = .ok () := by
  have helements := h.elements
  rw [hempty, List.nil_append] at helements
  obtain ⟨roster, hroster⟩ : ∃ roster, u.sorts.get? sort = some roster := by
    rw [hsorts]
    cases hget : t.sorts.get? sort with
    | some roster => exact ⟨roster, rfl⟩
    | none => simp [SortTable.elementsOf, hget] at helements
  have hlist : roster.toList = (Tree.ofRoot root functions depth).constants ++ [sink] := by
    rw [← helements, ← SortTable.elementsOf_of_get? (hsorts sort ▸ hroster)]
  refine Fallible.forM_eq_ok_iff.2 fun signature hsignature => ?_
  obtain ⟨function, hfunction, rfl⟩ := hsignatures signature hsignature
  refine validateSignature_eq_ok_iff.2
    ⟨roster, roster, hroster, hroster, fun constant hconstant => ?_⟩
  rw [hlist] at hconstant ⊢
  obtain ⟨image, hin, himage⟩ := h.routed.exists_image hconstant hfunction
  exact ⟨image, by rw [hvalues, himage], hin⟩

/-- After a tree and a sink were put in, a path of functions leads from the root to the constant
that is named after it, and to the sink if it is longer than the tree is deep.  From the sink it
leads to the sink.  If the sort had no constants before, the functions are then defined on the
whole sort and lead to constants of the sort. -/
theorem installTree_total {β : Type} {s t : Session β} {sort root sink : String}
    {functions : List String} {depth : Nat}
    (h : exec (installTree sort (Tree.ofRoot root functions depth) (some sink)) s = (.ok (), t)) :
    (∀ path : List String, path ⊆ functions →
      t.evaluateTerm (Term.apply root path) =
          .ok (if path.length ≤ depth then Tree.named root path else sink) ∧
        t.evaluateTerm (Term.apply sink path) = .ok sink) ∧
    (s.sorts.elementsOf sort = [] →
      (∀ signature ∈ t.sorts.signatures.toList,
        ∃ function ∈ functions, signature = ⟨sort, function, sort⟩) →
      ∃ u, exec (functions.forM fun function => addSignature ⟨sort, function, sort⟩) t =
          (.ok (), u) ∧
        u.validateFunctions = .ok ()) := by
  have hplanted := planted_of_installTree h
  have hroot : legalToken root = true := by
    refine hplanted.legal root (List.mem_append_left _ ?_)
    rw [← Tree.inner_append_leaves, List.mem_append]
    rcases Nat.eq_zero_or_pos depth with hzero | hpos
    · exact .inr (Tree.path_mem_leaves (List.nil_subset functions) hzero.symm)
    · exact .inl (Tree.path_mem_inner (List.nil_subset functions) hpos)
  refine ⟨fun path hpath => ⟨?_, ?_⟩, fun hempty honly => ?_⟩
  · rw [evaluateTerm, hplanted.routed.evaluate_path hroot hplanted.functions hpath]
    rfl
  · have hsink := hplanted.legal sink (by simp)
    rw [evaluateTerm, hplanted.routed.evaluate_sink hsink hplanted.functions hpath]
    rfl
  · obtain ⟨u, hrun, hvalues, hsorts, hsignatures⟩ :=
      exists_addSignatures (functions.map fun function => ⟨sort, function, sort⟩) t
    refine ⟨u, ?_, hplanted.validate hempty hvalues hsorts fun signature hsignature => ?_⟩
    · rw [← hrun]
      exact congrArg (exec · t) List.forM_map.symm
    · rcases (hsignatures signature).1 hsignature with hold | hnew
      · exact honly signature hold
      · obtain ⟨function, hfunction, rfl⟩ := List.mem_map.1 hnew
        exact ⟨function, hfunction, rfl⟩

/-! ## Trees that go in -/

theorem exists_setValues_of_legal {listed : List (String × String × String)}
    (hlegal : ∀ triple ∈ listed, legalToken triple.1 = true ∧ legalToken triple.2.1 = true ∧
      legalToken triple.2.2 = true) (s : Session β) :
    ∃ t, exec (setValues listed) s = (.ok (), t) ∧ t.sorts = s.sorts ∧ t.options = s.options := by
  obtain ⟨stage, _, hrun⟩ := exec_setAll hlegal s
  exact ⟨_, hrun, rfl, rfl⟩

/-- A tree of legal names goes in with its sink, if all names are different and new to the sort and
there is room for them. -/
theorem exists_planted (hsort : legalToken sort = true)
    (hlegal : ∀ constant ∈ (Tree.ofRoot root functions depth).constants ++ [sink],
      legalToken constant = true)
    (hfunctions : ∀ function ∈ functions, legalToken function = true)
    (hnodup : (s.sorts.elementsOf sort ++
      ((Tree.ofRoot root functions depth).constants ++ [sink])).Nodup)
    (hroom : (s.sorts.elementsOf sort ++
      ((Tree.ofRoot root functions depth).constants ++ [sink])).length ≤
        s.options.sortLimit.value) :
    ∃ t, exec (installTree sort (Tree.ofRoot root functions depth) (some sink)) s =
      (.ok (), t) := by
  obtain ⟨hconstants, hsink⟩ := List.forall_mem_append.1 hlegal
  rw [← List.append_assoc] at hnodup hroom
  have hinner : ∀ parent ∈ (Tree.ofRoot root functions depth).inner, legalToken parent = true := by
    rw [← Tree.inner_append_leaves] at hconstants
    exact (List.forall_mem_append.1 hconstants).1
  have hlast : ∀ leaf ∈ (Tree.ofRoot root functions depth).leaves ++ [sink],
      legalToken leaf = true := by
    rw [← Tree.inner_append_leaves, List.append_assoc] at hlegal
    exact (List.forall_mem_append.1 hlegal).2
  have hedgeValues : ∀ triple ∈ (Tree.ofRoot root functions depth).edgeValues,
      legalToken triple.1 = true ∧ legalToken triple.2.1 = true ∧ legalToken triple.2.2 = true := by
    intro triple htriple
    obtain ⟨edge, hedge, rfl⟩ := List.mem_map.1 htriple
    obtain ⟨hparent, hfunction, _⟩ := Tree.mem_edges_ofRoot.1 hedge
    exact ⟨hinner _ hparent, hfunctions _ hfunction, hconstants _ (Tree.child_mem_constants hedge)⟩
  have hsinkValues : ∀ triple ∈ (Tree.ofRoot root functions depth).sinkValues sink,
      legalToken triple.1 = true ∧ legalToken triple.2.1 = true ∧ legalToken triple.2.2 = true := by
    intro triple htriple
    obtain ⟨hleaf, hfunction, himage⟩ := Tree.mem_sinkValues.1 htriple
    exact ⟨hlast _ hleaf, hfunctions _ hfunction, himage ▸ hsink sink (by simp)⟩
  -- the rounds, one after the other
  obtain ⟨a, hfirst⟩ := exists_addElements hsort hconstants hnodup.of_append_left
    (Nat.le_trans (by simp) hroom)
  have hgrown := grown_of_addElements hfirst
  obtain ⟨b, hedges, hsorts, hoptions⟩ := exists_setValues_of_legal hedgeValues a
  rw [← hgrown.elements, ← hsorts] at hnodup hroom
  rw [← hgrown.options, ← hoptions, List.length_append, List.length_singleton] at hroom
  have hone : exec (addElement sort sink) b = (.ok (), _) := addElement_eq_ok_iff.2
    ⟨⟨hsort, hsink sink (by simp),
      fun hmem => List.disjoint_of_nodup_append hnodup hmem (List.mem_singleton.2 rfl),
      Nat.le_trans (Nat.min_le_left _ _) hroom⟩, rfl⟩
  obtain ⟨t, hrest, _⟩ := exists_setValues_of_legal hsinkValues _
  refine ⟨t, ?_⟩
  rw [installTree_some]
  exact (exec_bind_ok hfirst).trans ((exec_bind_ok hedges).trans ((exec_bind_ok hone).trans hrest))

/-- A tree of seven constants is put into a new sort. -/
theorem installTree_total_two_levels :
    ∃ t u : Session Solver,
      exec (installTree "node" (Tree.ofRoot "n" ["left", "right"] 2) (some "nil")) (ofOptions {}) =
          (.ok (), t) ∧
        t.evaluateTerm "n.left.right" = .ok "n_left_right" ∧
        t.evaluateTerm "n.left.right.left" = .ok "nil" ∧
        exec (["left", "right"].forM fun function => addSignature ⟨"node", function, "node"⟩) t =
          (.ok (), u) ∧
        u.validateFunctions = .ok () := by
  have hempty : (ofOptions {}).sorts.elementsOf "node" = [] := by
    rw [SortTable.elementsOf, get?_sorts_ofOptions]
    rfl
  obtain ⟨t, ht⟩ : ∃ t, exec (installTree "node" (Tree.ofRoot "n" ["left", "right"] 2) (some "nil"))
      (ofOptions {}) = (.ok (), t) := by
    refine exists_planted (by decide) (by decide +kernel) (by decide) ?_ ?_
    · rw [hempty]
      decide +kernel
    · rw [hempty]
      decide +kernel
  obtain ⟨hpaths, hvalid⟩ := installTree_total ht
  have honly : ∀ signature ∈ t.sorts.signatures.toList,
      ∃ function ∈ ["left", "right"], signature = ⟨"node", function, "node"⟩ := by
    rw [(planted_of_installTree ht).signatures]
    intro signature hsignature
    cases hsignature
  obtain ⟨u, hrun, hcheck⟩ := hvalid hempty honly
  exact ⟨t, u, ht, (hpaths ["left", "right"] (by decide)).1,
    (hpaths ["left", "right", "left"] (by decide)).1, hrun, hcheck⟩

end Session

end Groundwork
