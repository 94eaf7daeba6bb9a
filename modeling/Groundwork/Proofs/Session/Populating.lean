import Groundwork.Proofs.Grounding.Alone
import Groundwork.Proofs.Session.Committed
import Groundwork.Proofs.Session.Symbols

/-!
# Sessions with given constants

A session into which constants are put one by one, and nothing else, holds each of them under
its sort, in the order in which they were put in.
-/

namespace Groundwork

namespace Session

theorem get?_sorts_ofOptions (options : Options) (sort : String) :
    (ofOptions options).sorts.get? sort = none :=
  SortTable.get?_empty sort

/-- Nothing but the sort changes when a fresh constant is put in. -/
theorem after_addElement {β : Type} [Backend β] {s : Session β} {sort constant : String}
    (hsort : legalToken sort = true) (hconstant : legalToken constant = true)
    (hfresh : constant ∉ (((s.sorts.get? sort).map Roster.toList).getD []))
    (hlimit : s.sorts.sizeOf sort < s.options.sortLimit.value) :
    s.after (.addElement sort constant) =
      { s with sorts := (s.sorts.declared sort).extend sort [constant], stage := .input } := by
  have hadd : s.sorts.addElement sort constant =
      (.ok (), (s.sorts.declared sort).extend sort [constant]) := by
    rcases s.sorts.addElement_cases sort constant with
      ⟨hillegal, _⟩ | ⟨_, hillegal, _⟩ | ⟨_, _, hmem, _⟩ | ⟨_, _, _, hadd⟩
    · exact absurd hsort (Bool.eq_false_iff.1 hillegal)
    · exact absurd hconstant (Bool.eq_false_iff.1 hillegal)
    · exact absurd hmem hfresh
    · exact hadd
  have hroom : ¬ s.options.sortLimit.value < min (s.sorts.sizeOf sort + 1) Text.maxCount := by
    omega
  show (exec (addElement sort constant) s).2 = _
  unfold addElement checkSortLimit
  rw [exec_bind, exec_bind, exec_get]
  dsimp only
  rw [if_neg hroom, exec_pure]
  dsimp only
  unfold noteInput onSorts
  rw [exec_bind, exec_modify]
  dsimp only
  rw [exec_bind, exec_modifyGet, hadd]
  rfl

/-- The session into which constants were put, each with its sort in front of it. -/
def populated (constants : List (String × String)) : Session Solver :=
  constants.foldl (fun s entry => s.after (.addElement entry.1 entry.2)) (ofOptions {})

/-- The constants that are put into a sort. -/
def constantsIn (constants : List (String × String)) (sort : String) : List String :=
  (constants.filter fun entry => entry.1 == sort).map Prod.snd

theorem reached_populated (constants : List (String × String)) : Reached (populated constants) := by
  have hrun := (Reached.ofOptions {}).run (constants.map fun entry => .addElement entry.1 entry.2)
  rwa [List.foldl_map] at hrun

/-- The session has these constants and nothing else. -/
structure Populated (s : Session Solver) (constants : List (String × String)) : Prop where
  get?_eq : ∀ sort, (s.sorts.get? sort).map Roster.toList =
    if sort ∈ constants.map Prod.fst then some (constantsIn constants sort) else none
  rest_eq : s = { ofOptions {} with sorts := s.sorts, stage := s.stage }

theorem Populated.sizeOf_le {s : Session Solver} {constants : List (String × String)}
    (h : s.Populated constants) (sort : String) : s.sorts.sizeOf sort ≤ constants.length := by
  have hsize : s.sorts.sizeOf sort = ((((s.sorts.get? sort).map Roster.toList).getD []).length) := by
    unfold SortTable.sizeOf
    cases s.sorts.get? sort <;> rfl
  rw [hsize, h.get?_eq]
  split
  · rw [Option.getD_some, constantsIn, List.length_map]
    exact List.length_filter_le _ _
  · exact Nat.zero_le _

theorem Populated.concat {s : Session Solver} {constants : List (String × String)}
    (h : s.Populated constants) {sort constant : String} (hsort : legalToken sort = true)
    (hconstant : legalToken constant = true) (hfresh : (sort, constant) ∉ constants)
    (hfew : constants.length < 1000000) :
    (s.after (.addElement sort constant)).Populated (constants ++ [(sort, constant)]) := by
  have hlist : ((s.sorts.get? sort).map Roster.toList).getD [] = constantsIn constants sort := by
    rw [h.get?_eq]
    split
    · rfl
    · next hnone =>
      rw [Option.getD_none, constantsIn, List.filter_eq_nil_iff.2, List.map_nil]
      intro entry hentry hsame
      exact hnone (List.mem_map.2 ⟨entry, hentry, by simpa using hsame⟩)
  have hnew : constant ∉ constantsIn constants sort := by
    intro hin
    obtain ⟨⟨other, found⟩, hentry, hfound⟩ := List.mem_map.1 hin
    obtain ⟨hmem, hsame⟩ := List.mem_filter.1 hentry
    obtain rfl : found = constant := hfound
    obtain rfl : other = sort := by simpa using hsame
    exact hfresh hmem
  have hlimit : s.sorts.sizeOf sort < s.options.sortLimit.value := by
    rw [h.rest_eq]
    exact Nat.lt_of_le_of_lt (h.sizeOf_le sort) hfew
  rw [after_addElement hsort hconstant (hlist ▸ hnew) hlimit]
  refine ⟨fun other => ?_, ?_⟩
  · show (((s.sorts.declared sort).extend sort [constant]).get? other).map Roster.toList = _
    by_cases hsame : other = sort
    · subst hsame
      have hroster : ((s.sorts.get? other).getD ∅).toList = constantsIn constants other := by
        rw [← hlist]
        cases s.sorts.get? other <;> rfl
      rw [SortTable.get?_extend, SortTable.get?_declared, if_pos rfl, if_pos (by simp),
        Option.map_some, Option.getD_some]
      show some ((((s.sorts.get? other).getD ∅).insert constant).toList) = _
      rw [Roster.toList_insert, hroster, if_neg hnew, constantsIn, constantsIn, List.filter_append,
        List.map_append]
      simp
    · rw [SortTable.get?_extend_of_ne _ hsame, SortTable.get?_declared, if_neg hsame, h.get?_eq]
      have hmem : other ∈ (constants ++ [(sort, constant)]).map Prod.fst ↔
          other ∈ constants.map Prod.fst := by
        simp [hsame]
      have hin : constantsIn (constants ++ [(sort, constant)]) other = constantsIn constants other := by
        simp [constantsIn, Ne.symm hsame]
      simp only [hmem, hin]
  · rw [h.rest_eq]

/-- Legal constants that are put in once each are all there. -/
theorem populated_spec {constants : List (String × String)}
    (hlegal : ∀ entry ∈ constants, legalToken entry.1 = true ∧ legalToken entry.2 = true)
    (hnodup : constants.Nodup) (hfew : constants.length ≤ 1000000) :
    (populated constants).Populated constants := by
  induction constants using List.reverseRecOn with
  | nil => exact ⟨fun sort => by simp [populated, get?_sorts_ofOptions], rfl⟩
  | append_singleton constants entry ih =>
    obtain ⟨hnodup, _, hfresh⟩ := List.nodup_append.1 hnodup
    rw [List.length_append, List.length_singleton] at hfew
    obtain ⟨hsort, hconstant⟩ := hlegal entry (by simp)
    have hrest := ih (fun other hother => hlegal other (List.mem_append_left _ hother)) hnodup
      (by omega)
    unfold populated
    rw [List.foldl_append]
    exact hrest.concat hsort hconstant
      (fun hmem => hfresh _ hmem _ (List.mem_singleton.2 rfl) rfl) (by omega)

/-! ## Grounding -/

theorem Populated.elements_eq {s : Session Solver} {constants : List (String × String)}
    (h : s.Populated constants) {sort : String} (hsort : sort ∈ constants.map Prod.fst) :
    (s.grounder []).elements sort = .ok (constantsIn constants sort) := by
  have hget := h.get?_eq sort
  rw [if_pos hsort] at hget
  obtain ⟨roster, hroster, hlist⟩ := Option.map_eq_some_iff.1 hget
  have hrestrictions : (s.grounder []).restrictions.lookup sort = none := rfl
  have hsorts : (s.grounder []).sorts.get? sort = some roster := hroster
  unfold Grounder.elements
  rw [hrestrictions, hsorts, ← hlist]

theorem Populated.isConstant_iff {s : Session Solver} {constants : List (String × String)}
    (h : s.Populated constants) {constant : String} :
    s.sorts.isConstant constant = true ↔ constant ∈ constants.map Prod.snd := by
  rw [SortTable.isConstant_iff]
  constructor
  · rintro ⟨sort, roster, hroster, hmem⟩
    have hget := h.get?_eq sort
    rw [hroster, Option.map_some] at hget
    split at hget
    · rw [Option.some.inj hget] at hmem
      obtain ⟨entry, hentry, rfl⟩ := List.mem_map.1 hmem
      exact List.mem_map_of_mem (List.mem_of_mem_filter hentry)
    · cases hget
  · intro hmem
    obtain ⟨⟨sort, _⟩, hentry, rfl⟩ := List.mem_map.1 hmem
    have hget := h.get?_eq sort
    rw [if_pos (List.mem_map_of_mem hentry)] at hget
    obtain ⟨roster, hroster, hlist⟩ := Option.map_eq_some_iff.1 hget
    refine ⟨sort, roster, hroster, ?_⟩
    rw [hlist]
    exact List.mem_map_of_mem (List.mem_filter.2 ⟨hentry, beq_self_eq_true _⟩)

/-! ## Unfolding a rule -/

section Unfolding

open Grounder

variable {s : Session Solver} {constants : List (String × String)} {rule : Rule}

theorem Populated.bindingLimit_eq (h : s.Populated constants) :
    s.options.bindingLimit.value = 10000000 := by
  rw [h.rest_eq]
  rfl

/-- The variable with the constants that were put into its sort. -/
def rangeIn (constants : List (String × String)) (v : Variable) : Range :=
  ⟨v.name, constantsIn constants v.sort⟩

theorem Populated.rangesOf_eq (h : s.Populated constants) {vars : List Variable}
    (hsorts : ∀ v ∈ vars, v.sort ∈ constants.map Prod.fst) :
    (s.grounder []).rangesOf vars = .ok (vars.map (rangeIn constants)) := by
  refine Fallible.mapM_eq_ok_iff.2 ?_
  rw [List.map_map]
  refine List.map_congr_left fun v hv => ?_
  rw [h.elements_eq (hsorts v hv)]
  rfl

/-- The variables range over the constants of their sorts, if all else is a constant and there
are not too many bindings. -/
theorem Populated.ranges_eq (h : s.Populated constants)
    (hterms : ∀ term ∈ rule.constantTerms, term ∈ constants.map Prod.snd)
    (hsorts : ∀ v ∈ rule.vars, v.sort ∈ constants.map Prod.fst)
    (hfew : Product.saturatingMul
      (Product.count (rule.plainVariables.map fun v => constantsIn constants v.sort))
      (Product.count (rule.anyVariables.map fun v => constantsIn constants v.sort)) ≤ 10000000) :
    (s.grounder []).ranges rule =
      .ok ⟨rule.plainVariables.map (rangeIn constants),
        rule.anyVariables.map (rangeIn constants)⟩ := by
  refine ranges_eq_ok_iff.2 ⟨fun term hterm => h.isConstant_iff.2 (hterms term hterm), ?_, ?_, ?_⟩
  · exact h.rangesOf_eq fun v hv => hsorts v (List.mem_of_mem_filter hv)
  · exact h.rangesOf_eq fun v hv => hsorts v (List.mem_of_mem_filter hv)
  · rw [List.map_map, List.map_map]
    show _ ≤ s.options.bindingLimit.value
    rw [h.bindingLimit_eq]
    exact hfew

/-- No limit strikes where no host was set. -/
theorem Populated.ground_eq (h : s.Populated constants) {ranges : Ranges}
    (hranges : (s.grounder []).ranges rule = .ok ranges) {found : List (List GroundClause)}
    (hfound : ranges.tuples.map ((s.grounder []).clausesAt rule ranges) = found.map .ok) :
    (s.grounder []).ground rule = .ok (gather (Grounder.start rule) found) := by
  refine ground_eq_ok_iff.2 ⟨_, found, hranges, fun k _ => ?_, hfound, rfl⟩
  refine checkLimits_eq_ok (fun _ => ?_) (fun _ => ?_) k
  all_goals
    rw [h.rest_eq]
    rfl

theorem pass_unfoldRule_eq {β : Type} {s : Session β} {grounded : Grounded}
    (hground : (s.grounder []).ground rule = .ok grounded) :
    s.pass (.unfoldRule rule) = .ok [grounded] := by
  show (do return [← (s.grounder []).ground rule]) = _
  rw [hground]
  rfl

/-- After one rule the atoms are those that it was met with. -/
theorem Populated.atoms_after_unfoldRule (h : s.Populated constants)
    (hcoherent : s.Coherent Solver.Holds) {grounded : Grounded}
    (hground : (s.grounder []).ground rule = .ok grounded)
    (hfew : (mentionsOfAll [grounded]).length ≤ maxAtom) :
    (s.after (.unfoldRule rule)).atoms = ({} : AtomTable).meetAll (mentionsOfAll [grounded]) := by
  have hempty : s.atoms = {} := by
    rw [h.rest_eq]
    rfl
  have hroom : (s.atoms.meetAll (mentionsOfAll [grounded])).largest ≤ maxAtom := by
    have hle := AtomTable.largest_meetAll_le s.atoms (mentionsOfAll [grounded])
    rw [hempty] at hle ⊢
    exact Nat.le_trans hle (by simpa [AtomTable.largest] using hfew)
  have hpass : s.pass (.unfoldRestricted rule []) = .ok [grounded] := pass_unfoldRule_eq hground
  show (exec (unfoldRestricted rule []) s).2.atoms = _
  rw [exec_unfoldRestricted, hpass, ← hempty]
  exact ((hcoherent.unfolded 1).commit_of_room Solver.follows hroom).2

end Unfolding

end Session

end Groundwork
