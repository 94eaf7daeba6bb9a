import Groundwork.Grounding.Strategy
import Groundwork.Proofs.Fallible
import Groundwork.Proofs.Product.MixedRadix

/-!
# A rule grounded alone

What grounding returns, without the loops that find it:

* `instances_eq`: a relation is replaced by its relations under the tuples of the
  `any` variables it mentions, those with the encoding of an earlier one left out,
  each evaluated;
* `ground_eq_ok_iff`: a rule is replaced by its clauses under all tuples of its plain
  variables, in the order of the tuples, unless something fails on the way;
* `groundChunked_eq`: chunks make no difference.
-/

namespace Groundwork

namespace Grounder

/-! ## Instances of a relation -/

/-- Whether two relations are not told apart by their encodings. -/
def sameEncoding (a b : Relation) : Bool :=
  a.encoding == b.encoding

/-- The relation under each tuple of the `any` variables it mentions. -/
def expand (any : List Range) (bindings : Bindings) (relation : Relation) : List Relation :=
  let mentioned := any.filter fun range => relation.mentions range.name
  (Product.tuples (mentioned.map (·.elements))).map fun tuple =>
    (bindings.bindEach (mentioned.map (·.name)) tuple).bind relation

/-- The relations that take the place of a relation, before they are evaluated. -/
def instanceRelations (any : List Range) (bindings : Bindings) (relation : Relation) :
    List Relation :=
  (expand any bindings relation).eraseDupsBy sameEncoding

/-- Later duplicates are dropped from the tail, which is shorter. -/
theorem mem_of_mem_eraseDupsBy {α : Type} {same : α → α → Bool} {a : α} {l : List α}
    (h : a ∈ l.eraseDupsBy same) : a ∈ l := by
  induction hn : l.length using Nat.strongRecOn generalizing l with
  | ind n ih =>
    cases l with
    | nil => exact h
    | cons b l =>
      rw [List.eraseDupsBy_cons] at h
      rcases List.mem_cons.1 h with rfl | h
      · exact List.mem_cons_self
      · have hshorter := List.length_filter_le (fun c => same c b = false) l
        rw [List.length_cons] at hn
        exact List.mem_cons_of_mem _ (List.mem_of_mem_filter (ih _ (by omega) h rfl))

/-- The loop over bound relations, which skips each one with an encoding it has seen. -/
def collect (g : Grounder) (state : Roster String × Array String) (bound : Relation) :
    Except GroundError (Roster String × Array String) :=
  match Roster.insert? state.1 bound.encoding with
  | none => return state
  | some seen => return (seen, state.2.push (← g.evaluate bound))

theorem contains_of_insert? {seen seen' : Roster String} {a : String}
    (h : Roster.insert? seen a = some seen') (b : String) :
    seen'.contains b = (a == b || seen.contains b) := by
  unfold Roster.insert? at h
  split at h
  · cases h
  · cases h
    unfold Roster.contains Roster.push
    exact Std.HashSet.contains_insert

theorem insert?_eq_none_iff {seen : Roster String} {a : String} :
    Roster.insert? seen a = none ↔ seen.contains a = true := by
  unfold Roster.insert? Roster.contains
  split
  · next h => simp [h]
  · next h => simp [h]

/-- The induction is on the relations still to come, of which those with an encoding that
was seen play no part. -/
theorem foldlM_collect (g : Grounder) (bounds : List Relation)
    (state : Roster String × Array String) :
    Prod.snd <$> bounds.foldlM g.collect state =
      (fun atoms => state.2 ++ atoms.toArray) <$>
        ((bounds.filter fun b => !state.1.contains b.encoding).eraseDupsBy sameEncoding).mapM
          g.evaluate := by
  induction bounds generalizing state with
  | nil =>
    show Except.ok state.2 = Except.ok (state.2 ++ #[])
    rw [Array.append_empty]
  | cons bound bounds ih =>
    obtain ⟨seen, atoms⟩ := state
    rw [List.foldlM_cons]
    cases hinsert : Roster.insert? seen bound.encoding with
    | none =>
      have hseen : seen.contains bound.encoding = true := insert?_eq_none_iff.1 hinsert
      have hstep : g.collect (seen, atoms) bound = .ok (seen, atoms) := by
        unfold collect
        rw [hinsert]
        rfl
      rw [hstep, List.filter_cons_of_neg (by simp [hseen])]
      exact ih (seen, atoms)
    | some seen' =>
      have hseen : seen.contains bound.encoding = false := by
        rw [← Bool.not_eq_true, ← insert?_eq_none_iff, hinsert]
        simp
      have hrest : ((bounds.filter fun b => !seen.contains b.encoding).filter fun b =>
            sameEncoding b bound = false) =
          bounds.filter fun b => !seen'.contains b.encoding := by
        rw [List.filter_filter]
        refine List.filter_congr fun b _ => ?_
        rw [contains_of_insert? hinsert, sameEncoding, Bool.beq_comm (a := bound.encoding)]
        cases b.encoding == bound.encoding <;> cases seen.contains b.encoding <;> rfl
      have hstep : g.collect (seen, atoms) bound =
          (fun atom => (seen', atoms.push atom)) <$> g.evaluate bound := by
        unfold collect
        rw [hinsert]
        rfl
      rw [hstep, List.filter_cons_of_pos (by simp [hseen]), List.eraseDupsBy_cons, hrest,
        List.mapM_cons]
      cases g.evaluate bound with
      | error e => rfl
      | ok atom =>
        show Prod.snd <$> bounds.foldlM g.collect (seen', atoms.push atom) = _
        rw [ih]
        cases ((bounds.filter fun b => !seen'.contains b.encoding).eraseDupsBy
            sameEncoding).mapM g.evaluate with
        | error e => rfl
        | ok later =>
          show Except.ok (atoms.push atom ++ later.toArray) =
            Except.ok (atoms ++ (atom :: later).toArray)
          simp

theorem instances_eq (g : Grounder) (any : List Range) (bindings : Bindings)
    (relation : Relation) :
    g.instances any bindings relation =
      (instanceRelations any bindings relation).mapM g.evaluate := by
  unfold instances instanceRelations expand
  generalize (any.filter fun range => relation.mentions range.name) = mentioned
  cases mentioned with
  | nil =>
    show (do return [← g.evaluate (bindings.bind relation)]) =
      ([bindings.bind relation].eraseDupsBy sameEncoding).mapM g.evaluate
    rw [List.eraseDupsBy_cons, List.filter_nil, List.eraseDupsBy_nil, List.mapM_cons]
    cases g.evaluate (bindings.bind relation) <;> rfl
  | cons range mentioned =>
    let bound (tuple : List String) : Relation :=
      (bindings.bindEach ((range :: mentioned).map (·.name)) tuple).bind relation
    let tuples := Product.tuples ((range :: mentioned).map (·.elements))
    show (Product.foldM (fun state tuple => g.collect state (bound tuple)) (∅, #[])
        ((range :: mentioned).map (·.elements)) >>= fun state => pure state.2.toList) =
      ((tuples.map bound).eraseDupsBy sameEncoding).mapM g.evaluate
    have hfresh : ∀ relation' ∈ tuples.map bound,
        (!(∅ : Roster String).contains relation'.encoding) = true := by
      intro relation' _
      rw [Bool.not_eq_true', ← Bool.not_eq_true, Roster.contains_iff]
      simp
    have hcollect := foldlM_collect g (tuples.map bound) (∅, #[])
    rw [List.foldlM_map, List.filter_eq_self.2 hfresh] at hcollect
    rw [Product.foldM_eq_foldlM_tuples, bind_pure_comp]
    show (Array.toList ∘ Prod.snd) <$>
      tuples.foldlM (fun state tuple => g.collect state (bound tuple)) (∅, #[]) = _
    have hatoms : (Array.toList ∘ fun atoms : List String => #[] ++ atoms.toArray) = id := by
      funext atoms
      simp
    rw [comp_map, hcollect, ← comp_map]
    show (Array.toList ∘ fun atoms : List String => #[] ++ atoms.toArray) <$> _ = _
    rw [hatoms, id_map]

theorem mapM_flatten {ε α β : Type} (f : α → Except ε β) (ls : List (List α)) :
    (List.flatten <$> ls.mapM fun l => l.mapM f) = ls.flatten.mapM f := by
  induction ls with
  | nil => rfl
  | cons l ls ih =>
    rw [List.mapM_cons, List.flatten_cons, List.mapM_append, ← ih]
    cases l.mapM f with
    | error e => rfl
    | ok bs => cases ls.mapM fun l => l.mapM f <;> rfl

/-- Relations are replaced one after the other. -/
theorem mapM_instances {g : Grounder} {any : List Range} {bindings : Bindings}
    {relations : List Relation} {texts : List (List String)}
    (h : relations.mapM (g.instances any bindings) = .ok texts) :
    (relations.flatMap (instanceRelations any bindings)).mapM g.evaluate = .ok texts.flatten := by
  have hinstances : g.instances any bindings =
      (fun l => l.mapM g.evaluate) ∘ instanceRelations any bindings :=
    funext (instances_eq g any bindings)
  rw [hinstances] at h
  rw [List.flatMap_def, ← mapM_flatten, List.mapM_map, h]
  rfl

/-! ## Ranges -/

theorem rangesOf_eq_ok {g : Grounder} {vars : List Variable} {found : List Range}
    (h : g.rangesOf vars = .ok found) :
    found.map (·.name) = vars.map (·.name) ∧
      (vars.map (·.sort)).map g.elements = (found.map (·.elements)).map .ok := by
  have hvars := Fallible.mapM_eq_ok_iff.1 h
  clear h
  induction vars generalizing found with
  | nil =>
    rw [List.map_eq_nil_iff.1 hvars.symm]
    exact ⟨rfl, rfl⟩
  | cons v vars ih =>
    cases found with
    | nil => simp at hvars
    | cons range found =>
      rw [List.map_cons, List.map_cons, List.cons.injEq] at hvars
      obtain ⟨hnames, helements⟩ := ih hvars.2
      obtain ⟨constants, hconstants, hrange⟩ := Fallible.bind_eq_ok_iff.1 hvars.1
      cases hrange
      simp only [List.map_cons, hnames, helements, hconstants, and_self]

theorem ranges_eq_ok_iff {g : Grounder} {r : Rule} {ranges : Ranges} :
    g.ranges r = .ok ranges ↔
      (∀ term ∈ r.constantTerms, g.sorts.isConstant term = true) ∧
        g.rangesOf r.plainVariables = .ok ranges.plain ∧
        g.rangesOf r.anyVariables = .ok ranges.any ∧
        Product.saturatingMul (Product.count (ranges.plain.map (·.elements)))
          (Product.count (ranges.any.map (·.elements))) ≤ g.bindingLimit := by
  unfold Grounder.ranges
  cases hfind : r.constantTerms.find? fun term => !g.sorts.isConstant term with
  | some term =>
    have hterm := List.find?_some hfind
    constructor
    · intro h
      cases h
    · intro h
      obtain ⟨hall, _⟩ := h
      simp [hall term (List.mem_of_find?_eq_some hfind)] at hterm
  | none =>
    have hall : ∀ term ∈ r.constantTerms, g.sorts.isConstant term = true := by
      simpa using hfind
    simp only [Fallible.bind_eq_ok_iff]
    constructor
    · intro h
      obtain ⟨plain, hplain, any, hany, h⟩ := h
      split at h
      · cases h
      · next hlimit =>
        cases h
        exact ⟨hall, hplain, hany, Nat.le_of_not_lt hlimit⟩
    · intro h
      obtain ⟨_, hplain, hany, hlimit⟩ := h
      refine ⟨_, hplain, _, hany, ?_⟩
      rw [if_neg (Nat.not_lt_of_le hlimit)]
      rfl

end Grounder

/-! ## Clauses of a rule -/

/-- The tuples of the plain variables. -/
def Ranges.tuples (ranges : Ranges) : List (List String) :=
  Product.tuples (ranges.plain.map (·.elements))

namespace Grounder

/-- The clauses of a rule under a tuple of its plain variables. -/
def clausesAt (g : Grounder) (r : Rule) (ranges : Ranges) (tuple : List String) :
    Except GroundError (List GroundClause) :=
  g.groundBinding r ranges.any (r.bindings.bindEach (ranges.plain.map (·.name)) tuple)

/-- What a rule has grounded to after more tuples with the given clauses. -/
def gather (grounded : Grounded) (found : List (List GroundClause)) : Grounded :=
  { grounded with
    clauses := grounded.clauses ++ found.flatten.toArray
    bindings := grounded.bindings + found.length }

theorem extend_eq (g : Grounder) (r : Rule) (ranges : Ranges) (grounded : Grounded)
    (tuple : List String) :
    g.extend r ranges grounded tuple =
      (fun clauses => gather grounded [clauses]) <$> g.clausesAt r ranges tuple := by
  unfold extend clausesAt
  simp only [bind_pure_comp, gather, List.flatten_singleton, List.length_singleton]

theorem extend_eq_ok_iff {g : Grounder} {r : Rule} {ranges : Ranges} {grounded grounded' : Grounded}
    {tuple : List String} :
    g.extend r ranges grounded tuple = .ok grounded' ↔
      ∃ clauses, g.clausesAt r ranges tuple = .ok clauses ∧ grounded' = gather grounded [clauses] := by
  rw [extend_eq, ← bind_pure_comp, Fallible.bind_eq_ok_iff]
  simp only [Fallible.pure_eq_ok_iff]

/-- The loop over the tuples fails where the clauses under some tuple do, with the same error. -/
theorem foldlM_extend_eq (g : Grounder) (r : Rule) (ranges : Ranges) (tuples : List (List String))
    (grounded : Grounded) :
    tuples.foldlM (g.extend r ranges) grounded =
      gather grounded <$> tuples.mapM (g.clausesAt r ranges) := by
  induction tuples generalizing grounded with
  | nil =>
    show Except.ok grounded = Except.ok (gather grounded [])
    simp [gather]
  | cons tuple tuples ih =>
    rw [List.foldlM_cons, List.mapM_cons, extend_eq]
    cases g.clausesAt r ranges tuple with
    | error e => rfl
    | ok clauses =>
      show tuples.foldlM (g.extend r ranges) (gather grounded [clauses]) = _
      rw [ih]
      cases tuples.mapM (g.clausesAt r ranges) with
      | error e => rfl
      | ok found =>
        show Except.ok (gather (gather grounded [clauses]) found) =
          Except.ok (gather grounded (clauses :: found))
        simp [gather, Nat.add_assoc, Nat.add_comm 1]

theorem foldlM_extend {g : Grounder} {r : Rule} {ranges : Ranges} {tuples : List (List String)}
    {grounded grounded' : Grounded} :
    tuples.foldlM (g.extend r ranges) grounded = .ok grounded' ↔
      ∃ found, tuples.map (g.clausesAt r ranges) = found.map .ok ∧
        grounded' = gather grounded found := by
  rw [foldlM_extend_eq, ← bind_pure_comp, Fallible.bind_eq_ok_iff]
  simp only [Fallible.mapM_eq_ok_iff, Fallible.pure_eq_ok_iff]

/-- Rules may go on unless, at a point where the limits are looked at, the pass is cancelled or
late. -/
theorem checkLimits_eq_ok_iff {g : Grounder} {rules : List Rule} {bindings : Nat} :
    g.checkLimits rules bindings = .ok () ↔
      (bindings % checkInterval = 0 →
        ∀ r ∈ rules, g.cancelled r bindings = false ∧ g.late r bindings = false) := by
  unfold checkLimits
  split
  case isTrue hpoint => exact iff_of_true rfl fun h => absurd h hpoint
  case isFalse hpoint =>
    have hquiet : (∀ r ∈ rules, g.cancelled r bindings = false ∧ g.late r bindings = false) ↔
        (rules.any fun r => g.cancelled r bindings) = false ∧
          (rules.any fun r => g.late r bindings) = false := by
      simp only [List.any_eq_false, Bool.not_eq_true, forall_and]
    rw [hquiet, forall_prop_of_true (Decidable.not_not.1 hpoint)]
    cases rules.any fun r => g.cancelled r bindings <;>
      cases rules.any fun r => g.late r bindings <;> simp

theorem checkLimits_eq_ok {g : Grounder} {r : Rule}
    (hcancelled : ∀ bindings, g.cancelled r bindings = false)
    (hlate : ∀ bindings, g.late r bindings = false) (bindings : Nat) :
    g.checkLimits [r] bindings = .ok () :=
  checkLimits_eq_ok_iff.2 fun _ =>
    List.forall_mem_singleton.2 ⟨hcancelled bindings, hlate bindings⟩

/-- Whether the limits allow so many bindings of a rule. -/
def Allows (g : Grounder) (r : Rule) (bindings : Nat) : Prop :=
  ∀ k < bindings, g.checkLimits [r] k = .ok ()

/-- A rule grounds to the clauses under all its tuples, if its ranges are known, the limits
allow so many bindings, and every tuple has clauses. -/
theorem ground_eq_ok_iff {g : Grounder} {r : Rule} {grounded : Grounded} :
    g.ground r = .ok grounded ↔
      ∃ ranges found, g.ranges r = .ok ranges ∧ g.Allows r ranges.tuples.length ∧
        ranges.tuples.map (g.clausesAt r ranges) = found.map .ok ∧
        grounded = gather (start r) found := by
  have hcount : ∀ (ranges : Ranges) (grounded : Grounded) (tuple : List String)
      (grounded' : Grounded), g.extend r ranges grounded tuple = .ok grounded' →
      grounded'.bindings = grounded.bindings + 1 := by
    intro ranges grounded tuple grounded' h
    obtain ⟨clauses, _, rfl⟩ := extend_eq_ok_iff.1 h
    rfl
  unfold ground
  simp only [Fallible.bind_eq_ok_iff, Product.foldM_eq_foldlM_tuples]
  constructor
  · intro h
    obtain ⟨ranges, hranges, hloop⟩ := h
    obtain ⟨hchecks, hloop⟩ := (Fallible.foldlM_checked (hcount ranges)).1 hloop
    obtain ⟨found, hfound, rfl⟩ := foldlM_extend.1 hloop
    refine ⟨ranges, found, hranges, ?_, hfound, rfl⟩
    intro k hk
    have := hchecks k hk
    rwa [show (start r).bindings = 0 from rfl, Nat.zero_add] at this
  · intro h
    obtain ⟨ranges, found, hranges, hallows, hfound, rfl⟩ := h
    refine ⟨ranges, hranges, (Fallible.foldlM_checked (hcount ranges)).2 ⟨?_, ?_⟩⟩
    · intro k hk
      rw [show (start r).bindings = 0 from rfl, Nat.zero_add]
      exact hallows k hk
    · exact foldlM_extend.2 ⟨found, hfound, rfl⟩

/-- The clauses of a rule come binding by binding.  The bindings are in the order of their numbers,
whose digits are the positions of the constants that the plain variables take. -/
theorem clauses_in_order_of_ground {g : Grounder} {r : Rule} {grounded : Grounded}
    (h : g.ground r = .ok grounded) :
    ∃ (ranges : Ranges) (found : List (List GroundClause)), g.ranges r = .ok ranges ∧
      grounded.clauses.toList = found.flatten ∧ grounded.bindings = found.length ∧
      ∀ i < found.length, ∃ tuple clauses,
        Product.pick? (ranges.plain.map (·.elements))
          (Product.digits ((ranges.plain.map (·.elements)).map List.length) i) = some tuple ∧
        g.clausesAt r ranges tuple = .ok clauses ∧ found[i]? = some clauses := by
  obtain ⟨ranges, found, hranges, _, hfound, rfl⟩ := ground_eq_ok_iff.1 h
  refine ⟨ranges, found, hranges, by simp [gather, start], by simp [gather, start], ?_⟩
  intro i hi
  have hfinds := Fallible.forall₂_of_map_eq_ok hfound
  have htuple : i < ranges.tuples.length := by
    rwa [hfinds.length_eq]
  have hnumber : i < ((ranges.plain.map (·.elements)).map List.length).prod := by
    rwa [← Product.length_tuples]
  refine ⟨ranges.tuples[i], found[i], ?_, hfinds.get htuple hi, List.getElem?_eq_getElem hi⟩
  rw [← Product.getElem?_tuples hnumber]
  exact List.getElem?_eq_getElem htuple

theorem kind_of_ground {g : Grounder} {r : Rule} {grounded : Grounded}
    (h : g.ground r = .ok grounded) : grounded.kind = r.kind := by
  obtain ⟨_, _, _, _, _, rfl⟩ := ground_eq_ok_iff.1 h
  rfl

theorem predicates_of_ground {g : Grounder} {r : Rule} {grounded : Grounded}
    (h : g.ground r = .ok grounded) : grounded.predicates = r.predicates := by
  obtain ⟨_, _, _, _, _, rfl⟩ := ground_eq_ok_iff.1 h
  rfl

theorem exists_ground_eq_ok_iff {g : Grounder} {r : Rule} :
    (∃ grounded, g.ground r = .ok grounded) ↔
      ∃ ranges, g.ranges r = .ok ranges ∧ g.Allows r ranges.tuples.length ∧
        ∀ tuple ∈ ranges.tuples, ∃ clauses, g.clausesAt r ranges tuple = .ok clauses := by
  simp only [ground_eq_ok_iff, ← Fallible.exists_map_ok_iff]
  constructor
  · intro h
    obtain ⟨_, ranges, found, hranges, hallows, hfound, _⟩ := h
    exact ⟨ranges, hranges, hallows, found, hfound⟩
  · intro h
    obtain ⟨ranges, hranges, hallows, found, hfound⟩ := h
    exact ⟨_, ranges, found, hranges, hallows, hfound, rfl⟩

/-! ## Chunks -/

theorem flatten_chunks {α : Type} (size : Nat) (l : List α) : (chunks size l).flatten = l := by
  fun_induction chunks size l with
  | case1 => rfl
  | case2 a l ih => rw [List.flatten_cons, ih, List.cons_append, List.take_append_drop]

/-- Rules that are grounded in chunks have the results and the errors that they have one
after the other. -/
theorem groundChunked_eq (g : Grounder) (workers : Nat) (rules : List Rule) :
    g.groundChunked workers rules = rules.mapM g.ground := by
  unfold groundChunked
  rw [bind_pure_comp, List.mapM_map]
  show List.flatten <$> (chunks _ rules).mapM (fun chunk => chunk.mapM g.ground) = _
  rw [mapM_flatten, flatten_chunks]

end Grounder

end Groundwork
