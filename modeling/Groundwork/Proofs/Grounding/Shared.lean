import Groundwork.Proofs.Grounding.Alone
import Groundwork.Proofs.Grounding.Positions
import Mathlib.Data.List.Nodup

/-!
# Shared enumeration against rules grounded alone

A group runs through the tuples of its signature, and each member reads its own
tuple off at its positions.  The tuples read off are those of the member in another
order (`own_tuples_perm`), so that a member finds the clauses that its rule has
alone, in another order (`run_rearranges`), and fails where its rule fails alone.

* `exists_groundShared_iff`: shared enumeration succeeds exactly if every rule can be
  grounded alone;
* `groundShared_rearranges`: its results are those of the rules alone, in the order
  of the rules, up to the order of clauses.
-/

namespace Groundwork

/-- Whether a rule has been grounded to the same clauses, perhaps in another order. -/
structure Grounded.Rearranges (alone shared : Grounded) : Prop where
  kind_eq : shared.kind = alone.kind
  bindings_eq : shared.bindings = alone.bindings
  predicates_eq : shared.predicates = alone.predicates
  clauses_perm : shared.clauses.toList.Perm alone.clauses.toList

namespace Grounder

/-! ## Members -/

section Members

variable {g : Grounder} {m : Member} {signature : List String} {sequences : List (List String)}
  {ranges : Ranges}

/-- The tuples that a member reads off are all its tuples. -/
theorem own_tuples_perm (hm : m.Fits signature)
    (hsequences : signature.map g.elements = sequences.map .ok)
    (hranges : g.ranges m.rule = .ok ranges) :
    ((Product.tuples sequences).map (readOff m.positions)).Perm ranges.tuples := by
  let constants (sort : String) : List String := (g.elements sort).toOption.getD []
  have hread : ∀ (sorts : List String) (found : List (List String)),
      sorts.map g.elements = found.map .ok → found = sorts.map constants := by
    intro sorts found hfound
    have := congrArg (List.map fun x => (Except.toOption x).getD []) hfound
    rw [List.map_map, List.map_map] at this
    exact this.trans (List.map_id _) |>.symm
  have hplain := (rangesOf_eq_ok (ranges_eq_ok_iff.1 hranges).2.1).2
  have hsorts : ranges.plain.map (·.elements) = (sortsOf m.rule).map constants :=
    hread _ _ hplain
  unfold Ranges.tuples
  rw [hsorts, hread _ _ hsequences]
  exact (placed_of_permutation? hm.positions_eq).tuples_perm constants

/-- The run of a member through tuples of the signature. -/
def run (g : Grounder) (tuples : List (List String)) (m : Member) :
    Except GroundError Grounding := do
  let ranges ← g.ranges m.rule
  tuples.foldlM (fun state tuple => g.extendMember tuple state)
    { member := m, ranges, grounded := start m.rule }

theorem foldlM_extendMember {tuples : List (List String)} {state state' : Grounding} :
    tuples.foldlM (fun state tuple => g.extendMember tuple state) state = .ok state' ↔
      ∃ grounded, (tuples.map (readOff state.member.positions)).foldlM
        (g.extend state.member.rule state.ranges) state.grounded = .ok grounded ∧
          state' = { state with grounded } := by
  induction tuples generalizing state with
  | nil =>
    simp only [List.map_nil, List.foldlM_nil, Fallible.pure_eq_ok_iff]
    constructor
    · rintro rfl
      exact ⟨_, rfl, rfl⟩
    · intro h
      obtain ⟨_, rfl, rfl⟩ := h
      rfl
  | cons tuple tuples ih =>
    simp only [List.map_cons, List.foldlM_cons, Fallible.bind_eq_ok_iff, ih]
    constructor
    · intro h
      obtain ⟨state₁, hmember, grounded, hrest, rfl⟩ := h
      obtain ⟨grounded₁, hstep, hstate₁⟩ := Fallible.bind_eq_ok_iff.1 hmember
      cases hstate₁
      exact ⟨grounded, ⟨grounded₁, hstep, hrest⟩, rfl⟩
    · intro h
      obtain ⟨grounded, ⟨grounded₁, hstep, hrest⟩, rfl⟩ := h
      refine ⟨{ state with grounded := grounded₁ }, ?_, grounded, hrest, rfl⟩
      exact Fallible.bind_eq_ok_iff.2 ⟨grounded₁, hstep, rfl⟩

theorem run_eq_ok_iff {tuples : List (List String)} {state : Grounding} :
    run g tuples m = .ok state ↔
      ∃ ranges found, g.ranges m.rule = .ok ranges ∧
        (tuples.map (readOff m.positions)).map (g.clausesAt m.rule ranges) = found.map .ok ∧
        state = { member := m, ranges, grounded := gather (start m.rule) found } := by
  unfold run
  simp only [Fallible.bind_eq_ok_iff, foldlM_extendMember, foldlM_extend]
  constructor
  · intro h
    obtain ⟨ranges, hranges, _, ⟨found, hfound, rfl⟩, rfl⟩ := h
    exact ⟨ranges, found, hranges, hfound, rfl⟩
  · intro h
    obtain ⟨ranges, found, hranges, hfound, rfl⟩ := h
    exact ⟨ranges, hranges, _, ⟨found, hfound, rfl⟩, rfl⟩

/-- A member that comes through finds what its rule finds alone. -/
theorem run_rearranges (hm : m.Fits signature)
    (hsequences : signature.map g.elements = sequences.map .ok)
    (hallows : g.Allows m.rule (Product.tuples sequences).length) {state : Grounding}
    (h : run g (Product.tuples sequences) m = .ok state) :
    state.member = m ∧
      ∃ alone, g.ground m.rule = .ok alone ∧ alone.Rearranges state.grounded := by
  obtain ⟨ranges, found, hranges, hfound, rfl⟩ := run_eq_ok_iff.1 h
  have hperm := own_tuples_perm hm hsequences hranges
  have hlength : ranges.tuples.length = (Product.tuples sequences).length := by
    rw [← hperm.length_eq, List.length_map]
  have hall : ∀ tuple ∈ ranges.tuples, ∃ clauses, g.clausesAt m.rule ranges tuple = .ok clauses := by
    intro tuple htuple
    exact Fallible.exists_map_ok_iff.1 ⟨found, hfound⟩ tuple (hperm.mem_iff.2 htuple)
  obtain ⟨found', hfound'⟩ := Fallible.exists_map_ok_iff.2 hall
  refine ⟨rfl, _, ground_eq_ok_iff.2 ⟨ranges, found', hranges, ?_, hfound', rfl⟩, ?_⟩
  · rw [hlength]
    exact hallows
  · have hsame := Fallible.perm_of_map_eq_ok hperm hfound hfound'
    refine ⟨rfl, ?_, rfl, ?_⟩
    · show 0 + found.length = 0 + found'.length
      rw [hsame.length_eq]
    · show (#[] ++ found.flatten.toArray).toList.Perm (#[] ++ found'.flatten.toArray).toList
      simpa using hsame.flatten

/-- A member comes through if its rule can be grounded alone. -/
theorem exists_run (hm : m.Fits signature)
    (hsequences : signature.map g.elements = sequences.map .ok) {alone : Grounded}
    (h : g.ground m.rule = .ok alone) :
    g.Allows m.rule (Product.tuples sequences).length ∧
      ∃ state, run g (Product.tuples sequences) m = .ok state := by
  obtain ⟨ranges, hranges, hallows, hall⟩ := exists_ground_eq_ok_iff.1 ⟨alone, h⟩
  have hperm := own_tuples_perm hm hsequences hranges
  have hown : ∀ tuple ∈ (Product.tuples sequences).map (readOff m.positions),
      ∃ clauses, g.clausesAt m.rule ranges tuple = .ok clauses := by
    intro tuple htuple
    exact hall tuple (hperm.mem_iff.1 htuple)
  obtain ⟨found, hfound⟩ := Fallible.exists_map_ok_iff.2 hown
  constructor
  · rwa [← hperm.length_eq, List.length_map] at hallows
  · exact ⟨_, run_eq_ok_iff.2 ⟨ranges, found, hranges, hfound, rfl⟩⟩

end Members

/-! ## Groups -/

/-- Rules that are grounded together may go on if each of them may. -/
theorem allows_members_iff {g : Grounder} {members : List Member} {bindings : Nat} :
    (∀ k < bindings, g.checkLimits (members.map Member.rule) k = .ok ()) ↔
      ∀ m ∈ members, g.Allows m.rule bindings := by
  unfold Allows
  simp only [checkLimits_eq_ok_iff, List.forall_mem_map, List.forall_mem_singleton]
  constructor
  · intro h m hm k hk hpoint
    exact h k hk hpoint m hm
  · intro h k hk hpoint m hm
    exact h m hm k hk hpoint

/-- The members of a group do not see each other. -/
theorem groundGroup_eq_ok_iff {g : Grounder} {group : Group} {results : List (Nat × Grounded)} :
    g.groundGroup group = .ok results ↔
      ∃ sequences states, group.signature.map g.elements = sequences.map .ok ∧
        (∀ m ∈ group.members.toList, g.Allows m.rule (Product.tuples sequences).length) ∧
        group.members.toList.mapM (run g (Product.tuples sequences)) = .ok states ∧
        results = states.map fun state => (state.member.index, state.grounded) := by
  have hcount : ∀ (s : Nat × List Grounding) (tuple : List String) (s' : Nat × List Grounding),
      (do return (s.1 + 1, ← s.2.mapM (g.extendMember tuple)) : Except GroundError _) = .ok s' →
      s'.1 = s.1 + 1 := by
    intro s tuple s' h
    obtain ⟨_, _, h⟩ := Fallible.bind_eq_ok_iff.1 h
    cases h
    rfl
  have hloop : ∀ (sequences : List (List String)) (states : List Grounding)
      (n : Nat) (states' : List Grounding),
      Product.foldM
          (fun s tuple => do
            g.checkLimits (group.members.toList.map Member.rule) s.1
            return (s.1 + 1, ← s.2.mapM (g.extendMember tuple)))
          (0, states) sequences = .ok (n, states') ↔
        (∀ m ∈ group.members.toList, g.Allows m.rule (Product.tuples sequences).length) ∧
          n = (Product.tuples sequences).length ∧
          states.mapM (fun state => (Product.tuples sequences).foldlM
            (fun state tuple => g.extendMember tuple state) state) = .ok states' := by
    intro sequences states n states'
    rw [Product.foldM_eq_foldlM_tuples, Fallible.foldlM_checked hcount, Fallible.foldlM_mapM]
    simp only [Nat.zero_add, allows_members_iff]
  have hmembers : ∀ (sequences : List (List String)) (states : List Grounding),
      group.members.toList.mapM (run g (Product.tuples sequences)) = .ok states ↔
        ∃ first, group.members.toList.mapM (fun member => do
            let ranges ← g.ranges member.rule
            return ({ member, ranges, grounded := start member.rule } : Grounding)) = .ok first ∧
          first.mapM (fun state => (Product.tuples sequences).foldlM
            (fun state tuple => g.extendMember tuple state) state) = .ok states := by
    intro sequences states
    rw [← Fallible.mapM_bind]
    simp only [bind_assoc, pure_bind]
    rfl
  unfold groundGroup
  simp only [Fallible.bind_eq_ok_iff, Fallible.pure_eq_ok_iff, Prod.exists,
    Fallible.mapM_eq_ok_iff (f := g.elements)]
  constructor
  · intro h
    obtain ⟨sequences, hsequences, first, hfirst, n, states, hrun, rfl⟩ := h
    obtain ⟨hallows, _, hrun⟩ := (hloop sequences first n states).1 hrun
    exact ⟨sequences, states, hsequences, hallows, (hmembers _ _).2 ⟨first, hfirst, hrun⟩, rfl⟩
  · intro h
    obtain ⟨sequences, states, hsequences, hallows, hrun, rfl⟩ := h
    obtain ⟨first, hfirst, hrun⟩ := (hmembers _ _).1 hrun
    exact ⟨sequences, hsequences, first, hfirst, _, states,
      (hloop sequences first _ states).2 ⟨hallows, rfl, hrun⟩, rfl⟩

/-- The result of a member that comes through against that of its rule alone. -/
def Matches (g : Grounder) (entry : Rule × Nat) (result : Nat × Grounded) : Prop :=
  result.1 = entry.2 ∧ ∃ alone, g.ground entry.1 = .ok alone ∧ alone.Rearranges result.2

theorem groundGroup_matches {g : Grounder} {group : Group}
    (hfits : ∀ m ∈ group.members.toList, m.Fits group.signature)
    {results : List (Nat × Grounded)} (h : g.groundGroup group = .ok results) :
    List.Forall₂ g.Matches (group.members.toList.map Member.entry) results := by
  obtain ⟨sequences, states, hsequences, hallows, hruns, rfl⟩ := groundGroup_eq_ok_iff.1 h
  rw [List.forall₂_map_left_iff, List.forall₂_map_right_iff]
  have hruns := Fallible.forall₂_of_map_eq_ok (Fallible.mapM_eq_ok_iff.1 hruns)
  have hmembers : ∀ m ∈ group.members.toList,
      m.Fits group.signature ∧ g.Allows m.rule (Product.tuples sequences).length :=
    fun m hm => ⟨hfits m hm, hallows m hm⟩
  refine ((List.forall₂_and_left _ _).2 ⟨hmembers, hruns⟩).imp ?_
  intro m state h
  obtain ⟨⟨hm, hallows⟩, hrun⟩ := h
  obtain ⟨rfl, alone, halone, hrearranges⟩ := run_rearranges hm hsequences hallows hrun
  exact ⟨rfl, alone, halone, hrearranges⟩

/-- A group succeeds if all its rules do.  The constants of the signature are known, as a
member has a variable of each of its sorts. -/
theorem exists_groundGroup {g : Grounder} {group : Group} (hne : group.members.toList ≠ [])
    (hfits : ∀ m ∈ group.members.toList, m.Fits group.signature)
    (halone : ∀ m ∈ group.members.toList, ∃ alone, g.ground m.rule = .ok alone) :
    ∃ results, g.groundGroup group = .ok results := by
  obtain ⟨first, hfirst⟩ := List.exists_mem_of_ne_nil _ hne
  have helements : ∀ sort ∈ group.signature, ∃ constants, g.elements sort = .ok constants := by
    obtain ⟨alone, halone⟩ := halone first hfirst
    obtain ⟨ranges, hranges, _⟩ := exists_ground_eq_ok_iff.1 ⟨alone, halone⟩
    have hplain := (rangesOf_eq_ok (ranges_eq_ok_iff.1 hranges).2.1).2
    intro sort hsort
    rw [← (hfits first hfirst).signature_eq] at hsort
    refine Fallible.exists_map_ok_iff.1 ⟨_, hplain⟩ sort ?_
    exact (signatureOf_perm first.rule).mem_iff.1 hsort
  obtain ⟨sequences, hsequences⟩ := Fallible.exists_map_ok_iff.2 helements
  have hruns : ∀ m ∈ group.members.toList, g.Allows m.rule (Product.tuples sequences).length ∧
      ∃ state, run g (Product.tuples sequences) m = .ok state := by
    intro m hm
    obtain ⟨alone, halone⟩ := halone m hm
    exact exists_run (hfits m hm) hsequences halone
  obtain ⟨states, hstates⟩ := Fallible.exists_mapM_eq_ok_iff.2 fun m hm => (hruns m hm).2
  exact ⟨_, groundGroup_eq_ok_iff.2 ⟨sequences, states, hsequences, fun m hm => (hruns m hm).1,
    hstates, rfl⟩⟩

/-! ## All rules -/

theorem groundGroups_matches {g : Grounder} {rules : List Rule}
    {results : List (List (Nat × Grounded))}
    (h : (groupsOf rules).mapM g.groundGroup = .ok results) :
    List.Forall₂ g.Matches ((membersOf (groupsOf rules)).map Member.entry) results.flatten := by
  have hgroups := Fallible.forall₂_of_map_eq_ok (Fallible.mapM_eq_ok_iff.1 h)
  have hmatches := ((List.forall₂_and_left _ _).2 ⟨fitting_groupsOf rules, hgroups⟩).imp
    fun group results h => groundGroup_matches h.1.2 h.2
  unfold membersOf
  rw [List.map_flatMap, List.flatMap_def]
  refine List.rel_flatten ?_
  rwa [List.forall₂_map_left_iff]

/-- Sorted by the positions of their rules, results that match the rules in some order match
them in their own order. -/
theorem mergeSort_matches {g : Grounder} {rules : List Rule} {entries : List (Rule × Nat)}
    (hentries : entries.Perm rules.zipIdx) {results : List (Nat × Grounded)}
    (h : List.Forall₂ g.Matches entries results) :
    List.Forall₂ g.Matches rules.zipIdx (results.mergeSort fun a b => a.1 ≤ b.1) := by
  obtain ⟨sorted, hmatches, hperm⟩ := List.perm_comp_forall₂ hentries.symm h
  have hkeys : sorted.map Prod.fst = List.range' 0 rules.length := by
    rw [← List.zipIdx_map_snd 0 rules, ← List.forall₂_eq_eq_eq, List.forall₂_map_left_iff,
      List.forall₂_map_right_iff]
    exact hmatches.flip.imp fun _ _ h => h.1
  have hnodup : (sorted.map Prod.fst).Nodup := by
    rw [hkeys]
    exact List.nodup_range'
  have hsorted : sorted.Pairwise fun a b => a.1 ≤ b.1 := by
    rw [← List.pairwise_map (f := Prod.fst) (R := fun a b : Nat => a ≤ b), hkeys]
    exact List.pairwise_le_range'
  have hinjective : ∀ a b, a ∈ results.mergeSort (fun a b => a.1 ≤ b.1) → b ∈ sorted →
      a.1 ≤ b.1 → b.1 ≤ a.1 → a = b := by
    intro a b ha hb hle hge
    have hmem : a ∈ sorted := hperm.mem_iff.2 (List.mem_mergeSort.1 ha)
    exact List.inj_on_of_nodup_map hnodup hmem hb (Nat.le_antisymm hle hge)
  have hmergeSort : (results.mergeSort fun a b => a.1 ≤ b.1).Pairwise fun a b => a.1 ≤ b.1 := by
    refine (List.pairwise_mergeSort ?_ ?_ results).imp of_decide_eq_true
    · intro a b c hab hbc
      exact decide_eq_true (Nat.le_trans (of_decide_eq_true hab) (of_decide_eq_true hbc))
    · intro a b
      have := Nat.le_total a.1 b.1
      simpa using this
  rw [List.Perm.eq_of_pairwise hinjective hmergeSort hsorted
    ((List.mergeSort_perm _ _).trans hperm.symm)]
  exact hmatches

theorem groundShared_eq_ok_iff {g : Grounder} {rules : List Rule} {shared : List Grounded} :
    g.groundShared rules = .ok shared ↔
      ∃ results, (groupsOf rules).mapM g.groundGroup = .ok results ∧
        shared = (results.flatten.mergeSort fun a b => a.1 ≤ b.1).map (·.2) := by
  unfold groundShared
  simp only [Fallible.bind_eq_ok_iff, Fallible.pure_eq_ok_iff]

/-- Shared enumeration has the results of the rules alone, up to the order of clauses. -/
theorem groundShared_rearranges {g : Grounder} {rules : List Rule} {shared : List Grounded}
    (h : g.groundShared rules = .ok shared) :
    List.Forall₂ (fun r result => ∃ alone, g.ground r = .ok alone ∧ alone.Rearranges result)
      rules shared := by
  obtain ⟨results, hresults, rfl⟩ := groundShared_eq_ok_iff.1 h
  have hmatches := mergeSort_matches (members_groupsOf_perm rules) (groundGroups_matches hresults)
  have hrules : List.Forall₂ (fun r result => ∃ alone, g.ground r = .ok alone ∧
      alone.Rearranges result) (rules.zipIdx.map Prod.fst)
      ((results.flatten.mergeSort fun a b => a.1 ≤ b.1).map (·.2)) := by
    rw [List.forall₂_map_left_iff, List.forall₂_map_right_iff]
    exact hmatches.imp fun _ _ h => h.2
  rwa [List.zipIdx_map_fst] at hrules

/-- Shared enumeration succeeds exactly if every rule can be grounded alone. -/
theorem exists_groundShared_iff {g : Grounder} {rules : List Rule} :
    (∃ shared, g.groundShared rules = .ok shared) ↔
      ∀ r ∈ rules, ∃ alone, g.ground r = .ok alone := by
  constructor
  · rintro ⟨shared, h⟩ r hr
    obtain ⟨i, hi, rfl⟩ := List.getElem_of_mem hr
    have hrearranges := groundShared_rearranges h
    have := List.Forall₂.get hrearranges hi (by rwa [← hrearranges.length_eq])
    obtain ⟨alone, halone, _⟩ := this
    exact ⟨alone, halone⟩
  · intro hall
    have hgroups : ∀ group ∈ groupsOf rules, ∃ results, g.groundGroup group = .ok results := by
      intro group hgroup
      obtain ⟨hne, hfits⟩ := fitting_groupsOf rules group hgroup
      refine exists_groundGroup hne hfits fun m hm => ?_
      have hmem : m.entry ∈ rules.zipIdx :=
        (members_groupsOf_perm rules).mem_iff.1
          (List.mem_map.2 ⟨m, List.mem_flatMap.2 ⟨group, hgroup, hm⟩, rfl⟩)
      exact hall m.rule (List.fst_mem_of_mem_zipIdx hmem)
    obtain ⟨results, hresults⟩ := Fallible.exists_mapM_eq_ok_iff.2 hgroups
    exact ⟨_, groundShared_eq_ok_iff.2 ⟨results, hresults, rfl⟩⟩

theorem mapM_ground_rearranges {g : Grounder} {rules : List Rule} {results : List Grounded}
    (h : rules.mapM g.ground = .ok results) :
    List.Forall₂ (fun r result => ∃ alone, g.ground r = .ok alone ∧ alone.Rearranges result)
      rules results := by
  refine (Fallible.forall₂_of_map_eq_ok (Fallible.mapM_eq_ok_iff.1 h)).imp ?_
  intro r alone halone
  exact ⟨alone, halone, rfl, rfl, rfl, .refl _⟩

/-- Whatever the strategy, the results are those of the rules alone, up to the order of
clauses. -/
theorem groundAll_rearranges {g : Grounder} {strategy : Strategy} {rules : List Rule}
    {results : List Grounded} (h : g.groundAll strategy rules = .ok results) :
    List.Forall₂ (fun r result => ∃ alone, g.ground r = .ok alone ∧ alone.Rearranges result)
      rules results := by
  cases strategy with
  | serial => exact mapM_ground_rearranges h
  | chunked workers =>
    have hserial : rules.mapM g.ground = .ok results := by
      rw [← groundChunked_eq g workers]
      exact h
    exact mapM_ground_rearranges hserial
  | shared => exact groundShared_rearranges h

theorem exists_alone_of_mem_groundAll {g : Grounder} {strategy : Strategy} {rules : List Rule}
    {results : List Grounded} (h : g.groundAll strategy rules = .ok results) {result : Grounded}
    (hresult : result ∈ results) :
    ∃ r ∈ rules, ∃ alone, g.ground r = .ok alone ∧ alone.Rearranges result := by
  have hall := groundAll_rearranges h
  clear h
  induction hall with
  | nil => cases hresult
  | @cons r first rules results hrule _ ih =>
    rcases List.mem_cons.1 hresult with rfl | hresult
    · exact ⟨r, List.mem_cons_self, hrule⟩
    · obtain ⟨r', hr', halone⟩ := ih hresult
      exact ⟨r', List.mem_cons_of_mem _ hr', halone⟩

theorem exists_groundAll_iff {g : Grounder} {strategy : Strategy} {rules : List Rule} :
    (∃ results, g.groundAll strategy rules = .ok results) ↔
      ∀ r ∈ rules, ∃ alone, g.ground r = .ok alone := by
  cases strategy with
  | serial => exact Fallible.exists_mapM_eq_ok_iff
  | chunked workers =>
    unfold groundAll
    simp only [groundChunked_eq]
    exact Fallible.exists_mapM_eq_ok_iff
  | shared => exact exists_groundShared_iff

end Grounder

end Groundwork
