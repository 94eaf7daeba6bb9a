import Groundwork.Proofs.Grounding.Instances
import Groundwork.Proofs.Session.Populating

/-!
# The instances under `any` variables

A relation that mentions `any` variables stands for its instances under all of their values.
Instances with the encoding of an earlier one are left out, which is meant to leave out repeated
instances.  It leaves out others too: `p` of `a-` and `b` has the encoding of `p` of `a` and `-b`
(`any_instance_lost`).

* `any_instances_kept`: an instance is only left out for one with the same encoding, and if no
  constant begins with a dash, only for itself.
-/

namespace Groundwork

namespace Grounder

/-- On items that are told apart by their encodings, the later ones that are left out are
repetitions. -/
theorem eraseDupsBy_eq_eraseDups {l : List Relation}
    (h : ∀ a ∈ l, ∀ b ∈ l, a.encoding = b.encoding → a = b) :
    l.eraseDupsBy sameEncoding = l.eraseDups := by
  induction hn : l.length using Nat.strongRecOn generalizing l with
  | ind n ih =>
    cases l with
    | nil => rfl
    | cons first l =>
      have hfilter : (l.filter fun b => sameEncoding b first = false) =
          l.filter fun b => !b == first := by
        refine List.filter_congr fun b hb => ?_
        have hencoding := h b (List.mem_cons_of_mem _ hb) first List.mem_cons_self
        by_cases hsame : b = first
        · simp [hsame, sameEncoding]
        · have hfalse : sameEncoding b first = false :=
            beq_eq_false_iff_ne.2 fun heq => hsame (hencoding heq)
          rw [hfalse, beq_eq_false_iff_ne.2 hsame]
          rfl
      have hshorter := List.length_filter_le (fun b => !b == first) l
      rw [List.length_cons] at hn
      rw [List.eraseDupsBy_cons, List.eraseDups_cons, hfilter,
        ih _ (by omega) (fun a ha b hb => h a (List.mem_cons_of_mem _ (List.mem_of_mem_filter ha)) b
          (List.mem_cons_of_mem _ (List.mem_of_mem_filter hb))) rfl]

end Grounder

namespace Session

open Grounder

/-- An instance that is left out has the encoding of one whose ground atom is listed.  If no
constant begins with a dash, the ground atoms are those of all instances, each taken once. -/
theorem any_instances_kept {s : Session Solver} (hs : Reached s)
    {restrictions accepted : List (String × List String)}
    (haccepted : s.restrict restrictions = .ok accepted) {r : Rule} (hr : r.Parsed)
    {ranges : Ranges} (hranges : (s.grounder accepted).ranges r = .ok ranges)
    {tuple : List String} (htuple : tuple ∈ ranges.tuples) {relation : Relation}
    (hrelation : relation ∈ r.relations) {texts : List String}
    (h : (s.grounder accepted).instances ranges.any (plainBindings r ranges tuple) relation =
      .ok texts) :
    (∀ inst ∈ expand ranges.any (plainBindings r ranges tuple) relation,
      ∃ kept ∈ expand ranges.any (plainBindings r ranges tuple) relation, ∃ text ∈ texts,
        kept.encoding = inst.encoding ∧ (s.grounder accepted).evaluate kept = .ok text) ∧
    ((∀ constant, s.sorts.isConstant constant = true → constant.toList.head? ≠ some '-') →
      (expand ranges.any (plainBindings r ranges tuple) relation).eraseDups.mapM
          (s.grounder accepted).evaluate = .ok texts ∧
        ∀ inst ∈ expand ranges.any (plainBindings r ranges tuple) relation,
          ∃ text ∈ texts, (s.grounder accepted).evaluate inst = .ok text) := by
  have hlegal := hs.legal.grounder haccepted
  refine ⟨fun inst hinst => exists_kept_of_mem_expand h hinst, fun hdash => ?_⟩
  have happart : ∀ inst ∈ expand ranges.any (plainBindings r ranges tuple) relation,
      ∀ other ∈ expand ranges.any (plainBindings r ranges tuple) relation,
        inst.encoding = other.encoding → inst = other :=
    fun _ hinst _ hother => eq_of_mem_expand hlegal hr hranges htuple hrelation hdash hinst hother
  refine ⟨?_, fun inst hinst => ?_⟩
  · rw [← h, instances_eq, instanceRelations, eraseDupsBy_eq_eraseDups happart]
  · obtain ⟨kept, hkept, text, htext, hencoding, hevaluate⟩ := exists_kept_of_mem_expand h hinst
    rw [happart kept hkept inst hinst hencoding] at hevaluate
    exact ⟨text, htext, hevaluate⟩

/-! ## Two variables -/

/-- A rule by which a fact holds of all pairs of constants. -/
def pairsRule : Rule where
  kind := .assertion
  heads := [.predicate "p" ["anyx", "anyy"]]
  body := []
  vars := [⟨"anyx", "s"⟩, ⟨"anyy", "t"⟩]

theorem parsed_pairsRule : pairsRule.Parsed :=
  Rule.parsed_of_unannotated "p (anyx, anyy)" ["anyx", "anyy"] (fun _ => ⟨_, rfl⟩)
    [("anyx", "s"), ("anyy", "t")] rfl

/-- The ranges of the variables, if there are not too many constants. -/
theorem ranges_pairsRule {s : Session Solver} {constants : List (String × String)}
    (h : s.Populated constants) (hs : "s" ∈ constants.map Prod.fst)
    (ht : "t" ∈ constants.map Prod.fst)
    (hfew : Product.saturatingMul 1 (Product.count
      [constantsIn constants "s", constantsIn constants "t"]) ≤ 10000000) :
    (s.grounder []).ranges pairsRule =
      .ok ⟨[], [⟨"anyx", constantsIn constants "s"⟩, ⟨"anyy", constantsIn constants "t"⟩]⟩ := by
  have hnone : pairsRule.constantTerms = [] := rfl
  refine h.ranges_eq (by simp [hnone]) ?_ hfew
  exact List.forall_mem_cons.2 ⟨hs, List.forall_mem_singleton.2 ht⟩

/-- A session in which no constant begins with a dash, though one ends with a dash. -/
def trailing : Session Solver :=
  populated [("s", "a"), ("s", "a-"), ("t", "b")]

theorem populated_trailing : trailing.Populated [("s", "a"), ("s", "a-"), ("t", "b")] :=
  populated_spec (by decide) (by decide) (by decide)

/-- The ranges of the rule in that session. -/
def trailingRanges : Ranges :=
  ⟨[], [⟨"anyx", ["a", "a-"]⟩, ⟨"anyy", ["b"]⟩]⟩

theorem ranges_trailing : (trailing.grounder []).ranges pairsRule = .ok trailingRanges :=
  ranges_pairsRule populated_trailing (by decide) (by decide) (by decide)

theorem instances_trailing : (trailing.grounder []).instances trailingRanges.any
    (plainBindings pairsRule trailingRanges []) (.predicate "p" ["anyx", "anyy"]) =
      .ok ["p a b", "p a- b"] := by
  rw [instances_eq]
  rfl

theorem any_instances_kept_trailing :
    (∀ constant, trailing.sorts.isConstant constant = true → constant.toList.head? ≠ some '-') ∧
      ∀ inst ∈ expand trailingRanges.any (plainBindings pairsRule trailingRanges [])
          (.predicate "p" ["anyx", "anyy"]),
        ∃ text ∈ ["p a b", "p a- b"], (trailing.grounder []).evaluate inst = .ok text := by
  have hdash : ∀ constant, trailing.sorts.isConstant constant = true →
      constant.toList.head? ≠ some '-' := by
    intro constant hconstant
    have hmem := populated_trailing.isConstant_iff.1 hconstant
    simp only [List.map_cons, List.map_nil, List.mem_cons, List.not_mem_nil, or_false] at hmem
    rcases hmem with rfl | rfl | rfl <;> decide
  have hreached : Reached trailing := reached_populated _
  have hrestrict : trailing.restrict [] = .ok [] := rfl
  refine ⟨hdash, ?_⟩
  exact ((any_instances_kept hreached hrestrict parsed_pairsRule ranges_trailing
    List.mem_cons_self List.mem_cons_self instances_trailing).2 hdash).2

/-- A session in which one constant ends with a dash, and another one begins with a dash. -/
def dashed : Session Solver :=
  populated [("s", "a"), ("s", "a-"), ("t", "b"), ("t", "-b")]

theorem populated_dashed : dashed.Populated [("s", "a"), ("s", "a-"), ("t", "b"), ("t", "-b")] :=
  populated_spec (by decide) (by decide) (by decide)

/-- The ranges of the rule in that session. -/
def dashedRanges : Ranges :=
  ⟨[], [⟨"anyx", ["a", "a-"]⟩, ⟨"anyy", ["b", "-b"]⟩]⟩

/-- An instance is lost, although all constants are legal tokens and no other instance is the
same relation: its encoding is that of `p` of `a` and `-b`. -/
theorem any_instance_lost :
    Reached dashed ∧ pairsRule.Parsed ∧
      (∀ constant, dashed.sorts.isConstant constant = true → legalToken constant = true) ∧
      (dashed.grounder []).ranges pairsRule = .ok dashedRanges ∧ [] ∈ dashedRanges.tuples ∧
      ∃ texts, (dashed.grounder []).instances dashedRanges.any
          (plainBindings pairsRule dashedRanges []) (.predicate "p" ["anyx", "anyy"]) = .ok texts ∧
        ∃ inst ∈ expand dashedRanges.any (plainBindings pairsRule dashedRanges [])
            (.predicate "p" ["anyx", "anyy"]),
          inst = .predicate "p" ["a-", "b"] ∧
            (dashed.grounder []).evaluate inst = .ok "p a- b" ∧ "p a- b" ∉ texts := by
  have hreached : Reached dashed := reached_populated _
  refine ⟨hreached, parsed_pairsRule, hreached.legal.sorts,
    ranges_pairsRule populated_dashed (by decide) (by decide) (by decide), List.mem_cons_self,
    ["p a b", "p a -b", "p a- -b"], ?_, .predicate "p" ["a-", "b"], ?_, rfl, rfl, by decide⟩
  · rw [instances_eq]
    rfl
  · have hexpand : expand dashedRanges.any (plainBindings pairsRule dashedRanges [])
        (.predicate "p" ["anyx", "anyy"]) =
          [.predicate "p" ["a", "b"], .predicate "p" ["a", "-b"], .predicate "p" ["a-", "b"],
            .predicate "p" ["a-", "-b"]] := rfl
    rw [hexpand]
    simp

end Session

end Groundwork
