import Groundwork.Proofs.Program.Rules
import Groundwork.Proofs.Session.Growing
import Groundwork.Proofs.SortTable

/-!
# Unique names

Constants of one sort with different names can be assumed to be different.  What is asserted
then are the comparisons that hold: that a constant is equal to itself, and that two constants
are distinct.  They are true in every model from then on, until the session is reset.

The comparisons that do not hold are not denied.  They are other ground atoms, and the session
says nothing of them: a rule may make one true (`uniqueNames_leave_equality_open`).

* `mem_uniqueNameAtoms_iff`: the comparisons that are asserted;
* `models_assumeUniqueNames_iff`: what the session says once names are assumed to be unique;
* `uniqueNames_outlast`: what it goes on saying, whatever is put in.
-/

namespace Groundwork

theorem equalityAtom_ne_empty (left right : String) (equal : Bool) :
    equalityAtom left right equal ≠ "" := by
  unfold equalityAtom groundAtom
  rw [List.map_cons, List.map_cons, String.intercalate_cons_cons]
  simp

/-- The comparisons that hold of constants of one sort are true. -/
def SortTable.NamesApart (sorts : SortTable) (v : String → Bool) : Prop :=
  ∀ sort elements, sorts.get? sort = some elements →
    ∀ left ∈ elements.toList, ∀ right ∈ elements.toList,
      v (equalityAtom left right (left == right)) = true

namespace Session

theorem mem_uniqueNameAtoms_iff {sorts : SortTable} {atom : String} :
    atom ∈ uniqueNameAtoms sorts ↔
      ∃ sort elements, sorts.get? sort = some elements ∧
        ∃ left ∈ elements.toList, ∃ right ∈ elements.toList,
          equalityAtom left right (left == right) = atom := by
  unfold uniqueNameAtoms
  rw [Roster.mem_toList_ofList, List.mem_flatMap]
  simp only [List.mem_flatMap, List.mem_map]
  constructor
  · intro h
    obtain ⟨sort, hsort, h⟩ := h
    exact ⟨sort.name, sort.elements, SortTable.mem_sorts_iff.1 hsort, h⟩
  · intro h
    obtain ⟨name, elements, helements, h⟩ := h
    exact ⟨⟨name, elements⟩, SortTable.mem_sorts_iff.2 helements, h⟩

theorem forall_uniqueNameAtoms_iff {sorts : SortTable} {v : String → Bool} :
    (∀ atom ∈ uniqueNameAtoms sorts, v atom = true) ↔ sorts.NamesApart v := by
  constructor
  · intro h sort elements helements left hleft right hright
    exact h _ (mem_uniqueNameAtoms_iff.2
      ⟨sort, elements, helements, left, hleft, right, hright, rfl⟩)
  · intro h atom hatom
    obtain ⟨sort, elements, helements, left, hleft, right, hright, rfl⟩ :=
      mem_uniqueNameAtoms_iff.1 hatom
    exact h sort elements helements left hleft right hright

/-- Each comparison is a clause of its own. -/
theorem signed_uniqueNames (sorts : SortTable) :
    (uniqueNames sorts).signed = (uniqueNameAtoms sorts).map fun atom => [(atom, true)] := by
  unfold Grounded.signed uniqueNames
  rw [List.map_map]
  refine List.map_congr_left fun atom hatom => ?_
  obtain ⟨_, _, _, left, _, right, _, rfl⟩ := mem_uniqueNameAtoms_iff.1 hatom
  have hempty : ¬ (equalityAtom left right (left == right)).isEmpty = true := by
    simpa using equalityAtom_ne_empty left right (left == right)
  rw [Function.comp_apply, GroundClause.withHead, if_neg hempty, GroundClause.signedAtoms,
    distinct_eq_eraseDups]
  simp [List.eraseDups_cons]

/-- If names can be assumed to be unique, the session says what it said before and that the
comparisons that hold are true, and no more. -/
theorem models_assumeUniqueNames_iff {s t : Session Solver} (hs : s.Coherent Solver.Holds) {n : Nat}
    (h : exec assumeUniqueNames s = (.ok n, t)) (v : String → Bool) :
    t.Models v ↔ s.Models v ∧ s.sorts.NamesApart v := by
  have ht := keeps_assumeUniqueNames Solver.follows s hs
  have hadds := hs.adds_commit Solver.accepts Solver.follows [uniqueNames s.sorts]
  rw [← exec_assumeUniqueNames, h] at hadds
  rw [h] at ht
  rw [hadds.models_iff hs ht, ← forall_uniqueNameAtoms_iff,
    show signedOfAll [uniqueNames s.sorts] = (uniqueNames s.sorts).signed from List.append_nil _,
    signed_uniqueNames, List.forall_mem_map]
  simp [SignedHolds]

/-- Once names are assumed to be unique, in every model of the session the comparisons of
constants that hold are true, whatever operations follow, until a reset. -/
theorem uniqueNames_outlast {s t : Session Solver} (hs : Reached s) {n : Nat}
    (h : exec assumeUniqueNames s = (.ok n, t)) {ops : List Operation} (hops : .reset ∉ ops) :
    (∀ v, t.Models v ↔ s.Models v ∧ s.sorts.NamesApart v) ∧
      ∀ v, (ops.foldl Session.after t).Models v → s.sorts.NamesApart v := by
  have hmodels := models_assumeUniqueNames_iff hs.coherent h
  have ht := keeps_assumeUniqueNames Solver.follows s hs.coherent
  rw [h] at ht
  refine ⟨hmodels, fun v hv => ?_⟩
  exact ((hmodels v).1 (ht.models_of_run Solver.accepts Solver.follows hops hv)).2

/-! ## Two constants -/

/-- A commit does not change how rules are grounded. -/
theorem keeps_grounder_commit {β : Type} [Backend β] (g : Grounder)
    (restrictions : List (String × List String)) (grounded : List Grounded) :
    Keeps (fun s : Session β => s.grounder restrictions = g) (commit grounded) := by
  have hencode : ∀ largest clauses one,
      Keeps (fun s : Session β => s.grounder restrictions = g) (encode largest clauses one) := by
    intro largest clauses one s hs
    rw [exec_encode]
    split <;> exact hs
  have hhand : ∀ c, Keeps (fun s : Session β => s.grounder restrictions = g) (handClause c) :=
    fun c => Keeps.bind (Keeps.modifyGet fun _ hs => hs) fun _ =>
      Keeps.bind (keeps_orFail _ _) fun _ =>
        Keeps.bind (Keeps.modify fun _ hs => hs) fun _ => Keeps.modify fun _ hs => hs
  refine Keeps.get_bind fun s hs => ?_
  have hfold := Keeps.foldlM (fun clauses one (_ : one ∈ grounded) =>
    hencode s.atoms.largest clauses one) #[]
  exact Keeps.bind hfold (fun clauses => Keeps.bind (Keeps.forM fun c _ => hhand c) fun _ =>
    Keeps.pure clauses.size) s hs

/-- A sort of two constants. -/
def pairSorts : SortTable :=
  ((ofOptions {}).sorts.extend "s" []).extend "s" ["s0", "s1"]

/-- A session with these constants alone. -/
def pair : Session Solver :=
  (ofOptions {}).after (.fillSort "s" 2)

theorem fill_pairSorts :
    (ofOptions {}).sorts.fill "s" 2 = (.ok ["s0", "s1"], pairSorts) := by
  have hget := get?_sorts_ofOptions {} "s"
  have hnone : ∀ name, (∅ : Roster String).contains name = false := by
    intro name
    rw [Bool.eq_false_iff, ne_eq, Roster.contains_iff]
    exact List.not_mem_nil
  have hfresh : SortTable.freshNames ∅ "s" 2 = ["s0", "s1"] := by
    unfold SortTable.freshNames
    rw [SortTable.toList_findFresh, List.filter_eq_self.2 fun name _ => by rw [hnone]; rfl]
    rfl
  rcases (ofOptions {}).sorts.fill_cases "s" 2 with ⟨hillegal, _⟩ | ⟨_, hfill⟩
  · exact absurd hillegal (by decide)
  · rw [hfill, SortTable.declared_of_get?_eq_none hget, SortTable.fillNames, hget,
      Option.getD_none, hfresh]
    rfl

theorem pair_eq : pair = { ofOptions {} with sorts := pairSorts, stage := .input } := by
  have hsize : (ofOptions {}).sorts.sizeOf "s" = 0 := by
    rw [SortTable.sizeOf, get?_sorts_ofOptions]
    rfl
  have hlimit : ¬ (ofOptions {}).options.sortLimit.value < min (0 + 2) Text.maxCount := by decide
  show (exec (fillSort "s" 2) (ofOptions {})).2 = _
  unfold fillSort checkSortLimit
  rw [exec_bind, exec_bind, exec_get]
  dsimp only
  rw [hsize, if_neg hlimit]
  show { ofOptions {} with sorts := ((ofOptions {}).sorts.fill "s" 2).2, stage := .input } = _
  rw [fill_pairSorts]

theorem exists_elements_pairSorts :
    ∃ elements, pairSorts.get? "s" = some elements ∧ elements.toList = ["s0", "s1"] := by
  refine ⟨_, SortTable.get?_extend _ _ _, ?_⟩
  rw [SortTable.get?_extend, get?_sorts_ofOptions, Roster.toList_foldl_insert]
  rfl

theorem uniqueNameAtoms_pairSorts :
    uniqueNameAtoms pairSorts = ["s0 = s0", "s0 != s1", "s1 != s0", "s1 = s1"] := by
  obtain ⟨elements, helements, hlist⟩ := exists_elements_pairSorts
  have hnames : pairSorts.names.toList = ["s"] := by
    show (((∅ : Roster String).insert "s").insert "s").toList = ["s"]
    rw [Roster.toList_insert, Roster.toList_insert]
    rfl
  have hsorts : pairSorts.sorts = [⟨"s", elements⟩] := by
    rw [SortTable.sorts, hnames]
    simp [helements]
  unfold uniqueNameAtoms
  rw [hsorts, List.flatMap_singleton, hlist, Roster.toList_ofList]
  rfl

/-- The session with two constants, once their names are assumed to be unique. -/
def apart : Session Solver :=
  pair.after .assumeUniqueNames

theorem reached_pair : Reached pair :=
  (Reached.ofOptions {}).after _

theorem mentions_apart : mentionsOfAll [uniqueNames pair.sorts] =
    ["s0 = s0", "s0 != s1", "s1 != s0", "s1 = s1"].map fun text => ⟨text, []⟩ := by
  rw [pair_eq]
  show AtomTable.mentionsOf (uniqueNames pairSorts) ++ [] = _
  rw [List.append_nil, AtomTable.mentionsOf, uniqueNames, uniqueNameAtoms_pairSorts]
  rfl

theorem assumeUniqueNames_pair : ∃ n, exec assumeUniqueNames pair = (.ok n, apart) ∧
    apart.atoms = ({} : AtomTable).meetAll (mentionsOfAll [uniqueNames pair.sorts]) := by
  have hempty : pair.atoms = {} := by rw [pair_eq]; rfl
  have hroom : (pair.atoms.meetAll (mentionsOfAll [uniqueNames pair.sorts])).largest ≤ maxAtom := by
    rw [mentions_apart, hempty]
    exact Nat.le_trans (AtomTable.largest_meetAll_le _ _) (by decide)
  obtain ⟨t, hcommit, hatoms, _⟩ :=
    reached_pair.coherent.exec_commit Solver.accepts Solver.follows hroom
  rw [← exec_assumeUniqueNames] at hcommit
  have hapart : apart = t := congrArg Prod.snd hcommit
  rw [hapart, ← hempty]
  exact ⟨_, hcommit, hatoms⟩

/-- A rule by which two constants are equal. -/
def equalityRule : Rule where
  kind := .assertion
  heads := [.comparison "s0" true "s1"]
  body := []
  vars := []

theorem parsed_equalityRule : equalityRule.Parsed :=
  Rule.parsed_of_unannotated "s0 = s1" ["s0", "s1"] (fun _ => ⟨_, rfl⟩) [] rfl

theorem isConstant_pairSorts {constant : String} (h : constant ∈ ["s0", "s1"]) :
    pairSorts.isConstant constant = true := by
  obtain ⟨elements, helements, hlist⟩ := exists_elements_pairSorts
  exact (SortTable.isConstant_iff _ _).2 ⟨"s", elements, helements, hlist ▸ h⟩

/-- What the rule grounds to. -/
def equality : Grounded where
  kind := .assertion
  clauses := #[.withHead "s0 = s1" []]
  bindings := 1
  predicates := equalityRule.predicates

theorem ground_equalityRule : (pair.grounder []).ground equalityRule = .ok equality := by
  rw [pair_eq, Grounder.ground_eq_ok_iff]
  refine ⟨{ plain := [], any := [] }, [[.withHead "s0 = s1" []]], ?_, ?_, rfl, rfl⟩
  · refine Grounder.ranges_eq_ok_iff.2 ⟨fun term hterm => isConstant_pairSorts hterm, rfl, rfl, ?_⟩
    decide
  · intro k hk
    have hzero : k = 0 := Nat.lt_one_iff.1 hk
    rw [hzero]
    rfl

theorem reached_apart : Reached apart :=
  reached_pair.after _

theorem pass_apart : apart.pass (.unfoldRestricted equalityRule []) = .ok [equality] := by
  obtain ⟨n, hassume, _⟩ := assumeUniqueNames_pair
  have hgrounder : apart.grounder [] = pair.grounder [] := by
    have hkept := keeps_grounder_commit (pair.grounder []) [] [uniqueNames pair.sorts] pair rfl
    rwa [← exec_assumeUniqueNames, hassume] at hkept
  show (do return [← (apart.grounder []).ground equalityRule]) = _
  rw [hgrounder, ground_equalityRule]
  rfl

/-- Whatever the rule says, the constants are distinct in every model. -/
theorem uniqueNames_outlast_pair :
    (∃ n, exec assumeUniqueNames pair = (.ok n, apart)) ∧
      ∀ v, (apart.after (.unfoldRule equalityRule)).Models v →
        v (equalityAtom "s0" "s0" true) = true ∧ v (equalityAtom "s0" "s1" false) = true := by
  obtain ⟨n, hassume, _⟩ := assumeUniqueNames_pair
  obtain ⟨elements, helements, hlist⟩ := exists_elements_pairSorts
  have hpair : pair.sorts = pairSorts := by rw [pair_eq]
  have hops : Operation.reset ∉ [Operation.unfoldRule equalityRule] := by simp
  refine ⟨⟨n, hassume⟩, fun v hv => ?_⟩
  have hapart := (uniqueNames_outlast reached_pair hassume hops).2 v hv "s" elements
    (by rwa [hpair])
  exact ⟨hapart "s0" (by simp [hlist]) "s0" (by simp [hlist]),
    hapart "s0" (by simp [hlist]) "s1" (by simp [hlist])⟩

/-- Two constants with different names may be equal in a model of a session in which their
names were assumed to be unique: the rule grounds to a clause that makes them so. -/
theorem uniqueNames_leave_equality_open :
    ∃ n elements, exec assumeUniqueNames pair = (.ok n, apart) ∧
      pair.sorts.get? "s" = some elements ∧ "s0" ∈ elements.toList ∧ "s1" ∈ elements.toList ∧
      equalityRule.Parsed ∧
      ∃ m t, exec (unfoldRule equalityRule) apart = (.ok m, t) ∧
        (t.atoms.get? (equalityAtom "s0" "s1" true)).isSome ∧
        ∃ v, t.Models v ∧ v (equalityAtom "s0" "s1" true) = true := by
  obtain ⟨n, hassume, hatoms⟩ := assumeUniqueNames_pair
  obtain ⟨elements, helements, hlist⟩ := exists_elements_pairSorts
  have hpair : pair.sorts = pairSorts := by rw [pair_eq]
  have hempty : pair.clauses = #[] := by rw [pair_eq]; rfl
  have hroom : (apart.atoms.meetAll (mentionsOfAll [equality])).largest ≤ maxAtom := by
    rw [hatoms, ← AtomTable.meetAll_append, mentions_apart]
    exact Nat.le_trans (AtomTable.largest_meetAll_le _ _) (by decide)
  have hcoherent := reached_apart.coherent.unfolded 1
  have hkept := keeps_unfoldRestricted Solver.follows equalityRule [] apart reached_apart.coherent
  have hadds := hcoherent.adds_commit Solver.accepts Solver.follows [equality]
  obtain ⟨t, hcommit, hmet, _⟩ := hcoherent.exec_commit Solver.accepts Solver.follows hroom
  have hunfold : exec (unfoldRule equalityRule) apart =
      (.ok (signedOfAll [equality]).length, t) := by
    show exec (unfoldRestricted equalityRule []) apart = _
    rw [exec_unfoldRestricted, pass_apart, ← hcommit]
    rfl
  have ht : t.Coherent Solver.Holds := by
    rwa [show exec (unfoldRestricted equalityRule []) apart = _ from hunfold] at hkept
  rw [hcommit] at hadds
  refine ⟨n, elements, hassume, by rwa [hpair], by simp [hlist], by simp [hlist],
    parsed_equalityRule, _, t, hunfold, ?_, fun _ => true, ?_, rfl⟩
  · rw [hmet]
    exact (AtomTable.known_meetAll _ _ _).2 (Or.inr List.mem_cons_self)
  · have hstart : pair.Models fun _ => true := by
      intro c hc
      simp [hempty] at hc
    have hmodels := (models_assumeUniqueNames_iff reached_pair.coherent hassume fun _ => true).2
      ⟨hstart, fun _ _ _ _ _ _ _ => rfl⟩
    refine (hadds.models_iff hcoherent ht fun _ => true).2 ⟨hmodels, fun c hc => ?_⟩
    rw [show signedOfAll [equality] = [[("s0 = s1", true)]] from rfl, List.mem_singleton] at hc
    rw [hc]
    exact ⟨_, List.mem_cons_self, rfl⟩

end Session

end Groundwork
