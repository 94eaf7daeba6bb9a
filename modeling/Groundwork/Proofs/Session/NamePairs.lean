import Groundwork.Proofs.Distinct
import Groundwork.Proofs.Relation.Words
import Groundwork.Proofs.Session.Populating
import Groundwork.Proofs.Session.Unfolding
import Groundwork.Proofs.Session.UniqueNames

/-!
# The clauses of unique names

Names are assumed to be unique by one clause for each ordered pair of constants that lie together in
some sort: the comparison of the two that holds, equality for a pair of the same constant and
distinctness otherwise.  Pairs that several sorts share are left out by their ground atoms.  Legal
tokens can be read back from a comparison (`equalityAtom_eq_iff`), so that this leaves out the
repetitions of a pair and no other pair (`uniqueNameAtoms_eq`).

* `length_pairs_of_single`, `countP_pairs_of_single`: the pairs of a single sort;
* `spelled_uniqueNames`: the clauses, as signed ground atoms;
* `assumeUniqueNames_exact`: what a session appends, in which some of the comparisons may already
  have numbers.
-/

namespace Groundwork

/-- Comparisons of legal tokens are told apart by their ground atoms. -/
theorem equalityAtom_eq_iff {left right left' right' : String} {equal equal' : Bool}
    (hleft : legalToken left = true) (hright : legalToken right = true)
    (hleft' : legalToken left' = true) (hright' : legalToken right' = true) :
    equalityAtom left right equal = equalityAtom left' right' equal' ↔
      left = left' ∧ equal = equal' ∧ right = right' := by
  have hground : (Relation.comparison left equal right).Ground := .comparison equal hleft hright
  have hground' : (Relation.comparison left' equal' right').Ground :=
    .comparison equal' hleft' hright'
  have hwords := hground.groundAtom_eq_iff hground'
  rw [Relation.words_comparison equal hleft hright, Relation.words_comparison equal' hleft' hright']
    at hwords
  refine hwords.trans ?_
  cases equal <;> cases equal' <;> simp

/-- The comparison of two constants that holds if constants with different names are different. -/
def comparisonOf (pair : String × String) : String :=
  equalityAtom pair.1 pair.2 (pair.1 == pair.2)

namespace SortTable

variable {t : SortTable}

/-- The ordered pairs of constants of a sort. -/
def pairsOf (constants : List String) : List (String × String) :=
  constants.flatMap fun left => constants.map fun right => (left, right)

/-- The ordered pairs of constants that lie together in a sort, in order of first occurrence over
the sorts. -/
def pairs (t : SortTable) : List (String × String) :=
  (t.sorts.flatMap fun sort => pairsOf sort.elements.toList).eraseDups

theorem nodup_pairs (t : SortTable) : t.pairs.Nodup :=
  nodup_eraseDups _

theorem mem_pairsOf {constants : List String} {left right : String} :
    (left, right) ∈ pairsOf constants ↔ left ∈ constants ∧ right ∈ constants := by
  simp [pairsOf]

theorem mem_pairs_iff {left right : String} : (left, right) ∈ t.pairs ↔
    ∃ sort elements, t.get? sort = some elements ∧
      left ∈ elements.toList ∧ right ∈ elements.toList := by
  rw [pairs, List.mem_eraseDups, List.mem_flatMap]
  constructor
  · rintro ⟨sort, hsort, hpair⟩
    exact ⟨sort.name, sort.elements, mem_sorts_iff.1 hsort, mem_pairsOf.1 hpair⟩
  · rintro ⟨name, elements, helements, hpair⟩
    exact ⟨⟨name, elements⟩, mem_sorts_iff.2 helements, mem_pairsOf.2 hpair⟩

theorem Legal.of_mem_pairs (h : t.Legal) {pair : String × String} (hpair : pair ∈ t.pairs) :
    legalToken pair.1 = true ∧ legalToken pair.2 = true := by
  obtain ⟨sort, elements, helements, hleft, hright⟩ := mem_pairs_iff.1 hpair
  exact ⟨h _ ((t.isConstant_iff _).2 ⟨sort, elements, helements, hleft⟩),
    h _ ((t.isConstant_iff _).2 ⟨sort, elements, helements, hright⟩)⟩

theorem Legal.comparisonOf_injective (h : t.Legal) :
    ∀ pair ∈ t.pairs, ∀ other ∈ t.pairs, comparisonOf pair = comparisonOf other → pair = other := by
  intro pair hpair other hother hsame
  obtain ⟨hleft, hright⟩ := h.of_mem_pairs hpair
  obtain ⟨hleft', hright'⟩ := h.of_mem_pairs hother
  obtain ⟨hfirst, _, hsecond⟩ := (equalityAtom_eq_iff hleft hright hleft' hright').1 hsame
  exact Prod.ext hfirst hsecond

/-- No two pairs share a ground atom. -/
theorem Legal.nodup_comparisons (h : t.Legal) : (t.pairs.map comparisonOf).Nodup :=
  List.Nodup.map_on h.comparisonOf_injective t.nodup_pairs

/-- The comparisons are left out exactly where their pairs are. -/
theorem Legal.uniqueNameAtoms_eq (h : t.Legal) :
    Session.uniqueNameAtoms t = t.pairs.map comparisonOf := by
  have hlist : (t.sorts.flatMap fun sort => sort.elements.toList.flatMap fun left =>
      sort.elements.toList.map fun right => equalityAtom left right (left == right)) =
        (t.sorts.flatMap fun sort => pairsOf sort.elements.toList).map comparisonOf := by
    simp only [pairsOf, List.map_flatMap, List.map_map]
    rfl
  unfold Session.uniqueNameAtoms
  dsimp only
  rw [hlist, Roster.toList_ofList, pairs, eraseDups_map]
  intro pair hpair other hother
  exact h.comparisonOf_injective pair (List.mem_eraseDups.2 hpair) other (List.mem_eraseDups.2 hother)

/-! ## A single sort -/

theorem nodup_pairsOf {constants : List String} (h : constants.Nodup) :
    (pairsOf constants).Nodup :=
  h.product h

theorem pairs_of_single {sort : NamedSort} (h : t.sorts = [sort]) :
    t.pairs = pairsOf sort.elements.toList := by
  rw [pairs, h, List.flatMap_singleton]
  exact eraseDups_of_nodup (nodup_pairsOf sort.elements.nodup)

theorem length_pairsOf (constants : List String) :
    (pairsOf constants).length = constants.length * constants.length := by
  simp [pairsOf, List.length_flatMap]

/-- Each constant is paired once with itself. -/
theorem countP_pairsOf {constants : List String} (h : constants.Nodup) :
    (pairsOf constants).countP (fun pair => pair.1 == pair.2) = constants.length := by
  have hone : ∀ left ∈ constants,
      (constants.map fun right => (left, right)).countP (fun pair => pair.1 == pair.2) = 1 := by
    intro left hleft
    rw [List.countP_map, ← List.count_eq_one_of_mem h hleft]
    refine List.countP_congr fun right _ => ?_
    rw [Function.comp_apply, beq_iff_eq, beq_iff_eq]
    exact eq_comm
  rw [pairsOf, List.countP_flatMap]
  refine (congrArg List.sum (List.map_congr_left hone)).trans ?_
  simp

end SortTable

namespace Session

open SortTable

variable {s : Session Solver}

/-- The comparisons that hold, each as a clause of its own. -/
def comparisonClauses (sorts : SortTable) : List (List (String × Bool)) :=
  sorts.pairs.map fun pair => [(comparisonOf pair, true)]

theorem spelled_uniqueNames {sorts : SortTable} (h : sorts.Legal) :
    spelledOfAll [uniqueNames sorts] = comparisonClauses sorts := by
  rw [← signedOfAll_eq]
  show (uniqueNames sorts).signed ++ [] = _
  rw [List.append_nil, signed_uniqueNames, h.uniqueNameAtoms_eq, List.map_map]
  rfl

/-- How many numbers are needed for comparisons that have none. -/
theorem largest_uniqueNames (h : s.sorts.Legal) :
    (s.atoms.meetAll (mentionsOfAll [uniqueNames s.sorts])).largest =
      s.atoms.largest + (s.atoms.unknown (comparisonClauses s.sorts)).length := by
  rw [AtomTable.largest_meetAll, fresh_mentionsOfAll, spelled_uniqueNames h]

/-- A pair needs at most one number. -/
theorem length_unknown_le (t : AtomTable) (sorts : SortTable) :
    (t.unknown (comparisonClauses sorts)).length ≤ sorts.pairs.length := by
  have hsubset : t.unknown (comparisonClauses sorts) ⊆ sorts.pairs.map comparisonOf := by
    intro text htext
    rw [AtomTable.unknown, List.mem_eraseDups] at htext
    obtain ⟨clause, hclause, hmem⟩ := List.mem_flatMap.1 (List.mem_of_mem_filter htext)
    obtain ⟨pair, hpair, rfl⟩ := List.mem_map.1 hclause
    rw [List.map_singleton, List.mem_singleton] at hmem
    exact hmem ▸ List.mem_map_of_mem hpair
  have hle := (List.subperm_of_subset (nodup_eraseDups _) hsubset).length_le
  rwa [List.length_map] at hle

/-- Names are assumed to be unique by one clause for each ordered pair of constants that lie
together in a sort.  The pairs are counted once each, and so are their ground atoms.  The call only
fails if there are not enough numbers for the ground atoms that have none, and then nothing is
asserted. -/
theorem assumeUniqueNames_exact (hs : Reached s) :
    (s.sorts.pairs.Nodup ∧ (s.sorts.pairs.map comparisonOf).Nodup ∧
      ∀ left right, (left, right) ∈ s.sorts.pairs ↔ ∃ sort elements,
        s.sorts.get? sort = some elements ∧ left ∈ elements.toList ∧ right ∈ elements.toList) ∧
    (∀ sort, s.sorts.sorts = [sort] →
      s.sorts.pairs.length = sort.elements.toList.length * sort.elements.toList.length ∧
      s.sorts.pairs.countP (fun pair => pair.1 == pair.2) = sort.elements.toList.length) ∧
    (s.atoms.largest + (s.atoms.unknown (comparisonClauses s.sorts)).length ≤ maxAtom →
      ∃ t, exec assumeUniqueNames s = (.ok s.sorts.pairs.length, t) ∧
        s.Appends t (comparisonClauses s.sorts) ∧
        Solver.Holds t.backend t.clauses.toList) ∧
    (maxAtom < s.atoms.largest + (s.atoms.unknown (comparisonClauses s.sorts)).length →
      ∃ t, exec assumeUniqueNames s = (.error (.ground .atomsExhausted), t) ∧
        t.clauses = s.clauses ∧ t.backend = s.backend) := by
  have hlegal := hs.legal.sorts
  have hcoherent := hs.coherent
  refine ⟨⟨nodup_pairs _, hlegal.nodup_comparisons, fun _ _ => mem_pairs_iff⟩, fun sort hsort => ?_,
    fun hroom => ?_, fun hfull => ?_⟩
  · rw [pairs_of_single hsort]
    exact ⟨length_pairsOf _, countP_pairsOf sort.elements.nodup⟩
  · rw [← largest_uniqueNames hlegal] at hroom
    obtain ⟨t, hcommit, happends⟩ := hcoherent.exec_commit_appends hroom
    rw [spelled_uniqueNames hlegal, comparisonClauses, List.length_map, ← exec_assumeUniqueNames]
      at hcommit
    have ht := keeps_assumeUniqueNames Solver.follows s hcoherent
    rw [hcommit] at ht
    rw [spelled_uniqueNames hlegal] at happends
    exact ⟨t, hcommit, happends, ht.holds⟩
  · rw [← largest_uniqueNames hlegal] at hfull
    obtain ⟨met, counters, _, hcommit, _⟩ := hcoherent.exec_commit_error (Nat.not_le.2 hfull)
    rw [← exec_assumeUniqueNames] at hcommit
    exact ⟨_, hcommit, rfl, rfl⟩

/-! ### Two sorts with a common constant -/

theorem Populated.mem_pairs_iff {constants : List (String × String)} (h : s.Populated constants)
    {left right : String} : (left, right) ∈ s.sorts.pairs ↔
      ∃ sort, (sort, left) ∈ constants ∧ (sort, right) ∈ constants := by
  have hmem : ∀ sort constant, constant ∈ constantsIn constants sort ↔
      (sort, constant) ∈ constants := by
    intro sort constant
    simp [constantsIn]
  rw [SortTable.mem_pairs_iff]
  refine exists_congr fun sort => ?_
  rw [← hmem, ← hmem]
  have hget := h.get?_eq sort
  constructor
  · rintro ⟨elements, helements, hpair⟩
    rw [helements, Option.map_some] at hget
    split at hget
    · rwa [Option.some.inj hget] at hpair
    · cases hget
  · rintro ⟨hleft, hright⟩
    rw [if_pos (List.mem_map_of_mem (f := Prod.fst) ((hmem _ _).1 hleft))] at hget
    obtain ⟨elements, helements, hlist⟩ := Option.map_eq_some_iff.1 hget
    exact ⟨elements, helements, by rwa [hlist], by rwa [hlist]⟩

/-- A session with a constant in two sorts. -/
def linked : Session Solver :=
  populated [("s", "a"), ("s", "b"), ("t", "b"), ("t", "c")]

theorem populated_linked : linked.Populated [("s", "a"), ("s", "b"), ("t", "b"), ("t", "c")] :=
  populated_spec (by decide) (by decide) (by decide)

/-- The constants `a` and `c` do not lie together. -/
theorem pairs_linked : linked.sorts.pairs.Perm
    [("a", "a"), ("a", "b"), ("b", "a"), ("b", "b"), ("b", "c"), ("c", "b"), ("c", "c")] := by
  refine (List.perm_ext_iff_of_nodup (nodup_pairs _) (by decide)).2 fun pair => ?_
  rw [← Prod.eta pair, populated_linked.mem_pairs_iff]
  constructor
  · rintro ⟨sort, hleft, hright⟩
    have htogether : ∀ x ∈ [("s", "a"), ("s", "b"), ("t", "b"), ("t", "c")],
        ∀ y ∈ [("s", "a"), ("s", "b"), ("t", "b"), ("t", "c")], x.1 = y.1 →
          (x.2, y.2) ∈ [("a", "a"), ("a", "b"), ("b", "a"), ("b", "b"), ("b", "c"), ("c", "b"),
            ("c", "c")] := by decide
    exact htogether (sort, pair.1) hleft (sort, pair.2) hright rfl
  · intro hpair
    have htogether : ∀ p ∈ [("a", "a"), ("a", "b"), ("b", "a"), ("b", "b"), ("b", "c"), ("c", "b"),
        ("c", "c")], ∃ sort ∈ ["s", "t"],
          (sort, p.1) ∈ [("s", "a"), ("s", "b"), ("t", "b"), ("t", "c")] ∧
            (sort, p.2) ∈ [("s", "a"), ("s", "b"), ("t", "b"), ("t", "c")] := by decide
    obtain ⟨sort, _, hsort⟩ := htogether _ hpair
    exact ⟨sort, hsort⟩

theorem assumeUniqueNames_exact_linked :
    ∃ t, exec assumeUniqueNames linked = (.ok 7, t) ∧
      linked.Appends t (comparisonClauses linked.sorts) ∧
      (linked.sorts.pairs.map comparisonOf).Perm
        ["a = a", "a != b", "b != a", "b = b", "b != c", "c != b", "c = c"] := by
  have hreached : Reached linked := reached_populated _
  have hempty : linked.atoms = {} := by
    rw [populated_linked.rest_eq]
    rfl
  have hfew := length_unknown_le linked.atoms linked.sorts
  rw [pairs_linked.length_eq] at hfew
  have hroom : linked.atoms.largest +
      (linked.atoms.unknown (comparisonClauses linked.sorts)).length ≤ maxAtom := by
    rw [hempty] at hfew ⊢
    exact Nat.le_trans (Nat.add_le_add_left hfew _) (by decide)
  obtain ⟨t, hexec, happends, _⟩ := (assumeUniqueNames_exact hreached).2.2.1 hroom
  rw [pairs_linked.length_eq] at hexec
  exact ⟨t, hexec, happends, pairs_linked.map comparisonOf⟩

end Session

end Groundwork
