import Groundwork.Proofs.Grounding.Shared
import Groundwork.Proofs.Grounding.Typed

/-!
# How grounding fails

Where the values agree with the typings and every term has a sort, no function is applied to a
constant on which it has no value.  Grounding may still fail, for want of a sort or of time, but
not in this way, whether the rules are grounded alone, in chunks or by shared enumeration.

* `GroundError.IsUnbound`: the errors that are not met;
* `Checked.avoids_ground`, `Checked.avoids_groundGroup`: a rule alone, and a group of rules;
* `Checked.avoids_groundAll`: any strategy.
-/

namespace Groundwork

open Fallible (Avoids avoids_ok avoids_error)

/-- A function is applied to a constant on which it has no value. -/
def GroundError.IsUnbound (e : GroundError) : Prop :=
  ∃ domain function, e = .unboundFunctionApplication domain function

namespace Grounder

variable {g : Grounder} {r : Rule} {ranges : Ranges}

/-! ## Before any term is evaluated -/

theorem avoids_elements (g : Grounder) (sort : String) :
    Avoids GroundError.IsUnbound (g.elements sort) := by
  unfold elements
  split
  · exact avoids_ok _
  · split
    · exact avoids_ok _
    · exact avoids_error (by rintro ⟨_, _, h⟩; cases h)

theorem avoids_rangesOf (g : Grounder) (vars : List Variable) :
    Avoids GroundError.IsUnbound (g.rangesOf vars) :=
  Avoids.mapM fun v _ => (avoids_elements g v.sort).bind fun _ _ => avoids_ok _

theorem avoids_ranges (g : Grounder) (r : Rule) : Avoids GroundError.IsUnbound (g.ranges r) := by
  have hrest : Avoids GroundError.IsUnbound (do
      let plain ← g.rangesOf r.plainVariables
      let any ← g.rangesOf r.anyVariables
      let required :=
        Product.saturatingMul (Product.count (plain.map (·.elements)))
          (Product.count (any.map (·.elements)))
      if g.bindingLimit < required then throw (.bindingLimit required g.bindingLimit)
      return ({ plain, any } : Ranges)) := by
    refine (avoids_rangesOf g _).bind fun plain _ => (avoids_rangesOf g _).bind fun any _ => ?_
    dsimp only
    split
    · exact avoids_error (by rintro ⟨_, _, h⟩; cases h)
    · exact avoids_ok _
  unfold ranges
  split
  · exact avoids_error (by rintro ⟨_, _, h⟩; cases h)
  · exact hrest

theorem avoids_checkLimits (g : Grounder) (rules : List Rule) (bindings : Nat) :
    Avoids GroundError.IsUnbound (g.checkLimits rules bindings) := by
  unfold checkLimits
  split
  · exact avoids_ok _
  · split
    · exact avoids_error (by rintro ⟨_, _, h⟩; cases h)
    · split
      · exact avoids_error (by rintro ⟨_, _, h⟩; cases h)
      · exact avoids_ok _

/-! ## Rules alone -/

theorem Checked.avoids_extend (h : g.Checked) (hr : r.Parsed) (htyped : r.WellTyped g.sorts)
    (hranges : g.ranges r = .ok ranges) {tuple : List String} (htuple : tuple ∈ ranges.tuples)
    (grounded : Grounded) : Avoids GroundError.IsUnbound (g.extend r ranges grounded tuple) := by
  obtain ⟨clauses, hclauses⟩ := h.exists_clausesAt hr htyped hranges htuple
  rw [extend_eq_ok_iff.2 ⟨clauses, hclauses, rfl⟩]
  exact avoids_ok _

theorem Checked.avoids_ground (h : g.Checked) (hr : r.Parsed) (htyped : r.WellTyped g.sorts) :
    Avoids GroundError.IsUnbound (g.ground r) := by
  refine (avoids_ranges g r).bind fun ranges hranges => ?_
  rw [Product.foldM_eq_foldlM_tuples]
  refine Avoids.foldlM (P := fun _ => True) (fun tuple htuple grounded _ => ?_)
    (fun _ _ _ _ _ _ => trivial) trivial
  exact (avoids_checkLimits g _ _).bind fun _ _ => h.avoids_extend hr htyped hranges htuple grounded

/-! ## Groups of rules -/

/-- A member of the group with the ranges of its rule, which stay the same in every round. -/
def Ready (g : Grounder) (group : Group) (state : Grounding) : Prop :=
  state.member ∈ group.members.toList ∧ g.ranges state.member.rule = .ok state.ranges

theorem Ready.extendMember {group : Group} {state state' : Grounding}
    (h : Ready g group state) {tuple : List String} (heq : g.extendMember tuple state = .ok state') :
    Ready g group state' := by
  obtain ⟨grounded, _, hstate⟩ := Fallible.bind_eq_ok_iff.1 heq
  rw [Fallible.pure_eq_ok_iff] at hstate
  rw [hstate]
  exact h

section Group

variable {group : Group} (h : g.Checked)
  (hfits : ∀ m ∈ group.members.toList, m.Fits group.signature)
  (hparsed : ∀ m ∈ group.members.toList, m.rule.Parsed)
  (htyped : ∀ m ∈ group.members.toList, m.rule.WellTyped g.sorts)

include h hfits hparsed htyped in
/-- The tuple of the signature gives the member one of its own tuples. -/
theorem Checked.avoids_extendMember {sequences : List (List String)}
    (hsequences : group.signature.map g.elements = sequences.map .ok) {tuple : List String}
    (htuple : tuple ∈ Product.tuples sequences) {state : Grounding} (hstate : Ready g group state) :
    Avoids GroundError.IsUnbound (g.extendMember tuple state) := by
  obtain ⟨hmember, hranges⟩ := hstate
  have hperm := own_tuples_perm (hfits _ hmember) hsequences hranges
  have hown : readOff state.member.positions tuple ∈ state.ranges.tuples :=
    hperm.mem_iff.1 (List.mem_map_of_mem htuple)
  exact (h.avoids_extend (hparsed _ hmember) (htyped _ hmember) hranges hown _).bind
    fun _ _ => avoids_ok _

include h hfits hparsed htyped in
/-- The invariant of the rounds is that all members are ready. -/
theorem Checked.avoids_groundGroup : Avoids GroundError.IsUnbound (g.groundGroup group) := by
  refine (Avoids.mapM fun sort _ => avoids_elements g sort).bind fun sequences hsequences => ?_
  have hsequences := Fallible.mapM_eq_ok_iff.1 hsequences
  refine (Avoids.mapM fun member _ => ?_).bind fun first hfirst => ?_
  · exact (avoids_ranges g member.rule).bind fun _ _ => avoids_ok _
  have hready : ∀ state ∈ first, Ready g group state := by
    intro state hstate
    obtain ⟨member, hmember, heq⟩ :=
      Fallible.exists_of_mem_results (Fallible.mapM_eq_ok_iff.1 hfirst) hstate
    obtain ⟨ranges, hranges, hpure⟩ := Fallible.bind_eq_ok_iff.1 heq
    rw [Fallible.pure_eq_ok_iff] at hpure
    rw [hpure]
    exact ⟨hmember, hranges⟩
  rw [Product.foldM_eq_foldlM_tuples]
  refine (Avoids.foldlM (P := fun s : Nat × List Grounding => ∀ state ∈ s.2, Ready g group state)
    (fun tuple htuple s hs => ?_) (fun tuple htuple s t hs hstep => ?_) hready).bind
      fun _ _ => avoids_ok _
  · refine (avoids_checkLimits g _ s.1).bind fun _ _ => (Avoids.mapM fun state hstate => ?_).bind
      fun _ _ => avoids_ok _
    exact h.avoids_extendMember hfits hparsed htyped hsequences htuple (hs state hstate)
  · obtain ⟨_, _, hstep⟩ := Fallible.bind_eq_ok_iff.1 hstep
    obtain ⟨states, hstates, hpure⟩ := Fallible.bind_eq_ok_iff.1 hstep
    rw [Fallible.pure_eq_ok_iff] at hpure
    rw [hpure]
    intro state' hstate'
    obtain ⟨state, hstate, heq⟩ :=
      Fallible.exists_of_mem_results (Fallible.mapM_eq_ok_iff.1 hstates) hstate'
    exact (hs state hstate).extendMember heq

end Group

theorem rule_mem_of_mem_groupsOf {rules : List Rule} {group : Group} (hgroup : group ∈ groupsOf rules)
    {m : Member} (hm : m ∈ group.members.toList) : m.rule ∈ rules := by
  have hentry : m.entry ∈ rules.zipIdx :=
    (members_groupsOf_perm rules).mem_iff.1
      (List.mem_map_of_mem (List.mem_flatMap.2 ⟨group, hgroup, hm⟩))
  have hrule := List.mem_map_of_mem (f := Prod.fst) hentry
  rwa [List.zipIdx_map_fst] at hrule

/-- No strategy meets a function without a value. -/
theorem Checked.avoids_groundAll (h : g.Checked) {rules : List Rule}
    (hparsed : ∀ r ∈ rules, r.Parsed) (htyped : ∀ r ∈ rules, r.WellTyped g.sorts)
    (strategy : Strategy) : Avoids GroundError.IsUnbound (g.groundAll strategy rules) := by
  have hserial : Avoids GroundError.IsUnbound (rules.mapM g.ground) :=
    Avoids.mapM fun r hr => h.avoids_ground (hparsed r hr) (htyped r hr)
  cases strategy with
  | serial => exact hserial
  | chunked workers =>
    show Avoids GroundError.IsUnbound (g.groundChunked workers rules)
    rw [groundChunked_eq]
    exact hserial
  | shared =>
    refine (Avoids.mapM fun group hgroup => ?_).bind fun _ _ => avoids_ok _
    exact h.avoids_groundGroup (fitting_groupsOf rules group hgroup).2
      (fun m hm => hparsed _ (rule_mem_of_mem_groupsOf hgroup hm))
      fun m hm => htyped _ (rule_mem_of_mem_groupsOf hgroup hm)

end Grounder

end Groundwork
