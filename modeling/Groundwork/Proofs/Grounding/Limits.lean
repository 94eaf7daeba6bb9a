import Groundwork.Proofs.Grounding.Shared
import Groundwork.Proofs.Session.Populating

/-!
# How many bindings a rule may take

Before a rule is grounded, the bindings of all its variables are counted together, and a rule
that needs too many is refused.  Then the bindings of its plain variables are enumerated.

* `saturatingMul_count`: the count that is compared is the number of those bindings, as no limit
  is as large as the count at which products saturate;
* `bindings_within_limit`: a rule that is grounded, alone or with others, keeps to the limit with
  its plain variables if every `any` variable has a constant to range over;
* `bindings_exceed_limit`: if one of them has none, there are no bindings of all variables
  together, and those of the plain variables are enumerated without a limit.
-/

namespace Groundwork

/-- The bindings of the `any` variables, for each of which a relation has an instance. -/
def Ranges.anyTuples (ranges : Ranges) : List (List String) :=
  Product.tuples (ranges.any.map (·.elements))

namespace Grounder

/-- The limit is on the bindings of all variables together. -/
theorem length_tuples_mul_le {g : Grounder} (hlimit : g.bindingLimit ≤ Text.maxCount) {r : Rule}
    {ranges : Ranges} (h : g.ranges r = .ok ranges) :
    ranges.tuples.length * ranges.anyTuples.length ≤ g.bindingLimit := by
  have hcount := (ranges_eq_ok_iff.1 h).2.2.2
  have hbelow : Text.maxCount < Product.maxTuples := by decide
  rw [Product.saturatingMul_count] at hcount
  show (Product.tuples _).length * (Product.tuples _).length ≤ _
  omega

/-- The `any` variables have a binding if each has a constant to range over. -/
theorem length_anyTuples_pos {g : Grounder} {r : Rule} {ranges : Ranges}
    (h : g.ranges r = .ok ranges) (hany : ∀ v ∈ r.anyVariables, g.elements v.sort ≠ .ok []) :
    0 < ranges.anyTuples.length := by
  have helements := (rangesOf_eq_ok (ranges_eq_ok_iff.1 h).2.2.1).2
  refine Product.length_tuples_pos fun constants hconstants => ?_
  have hmem : (Except.ok constants : Except GroundError (List String)) ∈
      (r.anyVariables.map (·.sort)).map g.elements := by
    rw [helements]
    exact List.mem_map_of_mem hconstants
  obtain ⟨sort, hsort, hrange⟩ := List.mem_map.1 hmem
  obtain ⟨v, hv, rfl⟩ := List.mem_map.1 hsort
  rintro rfl
  exact hany v hv hrange

end Grounder

namespace Grounded

/-- The work on a rule that is grounded is within the limit. -/
structure Within (g : Grounder) (r : Rule) (grounded : Grounded) : Prop where
  /-- Each binding of the plain variables is counted, and there are no more bindings of all
  variables together than the limit allows. -/
  all : ∃ ranges, g.ranges r = .ok ranges ∧ grounded.bindings = ranges.tuples.length ∧
    grounded.bindings * ranges.anyTuples.length ≤ g.bindingLimit
  /-- No more of the plain variables either, if every `any` variable has a constant to range
  over. -/
  plain : (∀ v ∈ r.anyVariables, g.elements v.sort ≠ .ok []) →
    grounded.bindings ≤ g.bindingLimit

theorem within_of_ground {g : Grounder} (hlimit : g.bindingLimit ≤ Text.maxCount) {r : Rule}
    {grounded : Grounded} (h : g.ground r = .ok grounded) : grounded.Within g r := by
  obtain ⟨ranges, found, hranges, _, hfound, rfl⟩ := Grounder.ground_eq_ok_iff.1 h
  have hbindings : (Grounder.gather (Grounder.start r) found).bindings = ranges.tuples.length := by
    show 0 + found.length = _
    rw [Nat.zero_add, (Fallible.forall₂_of_map_eq_ok hfound).length_eq]
  have hall := Grounder.length_tuples_mul_le hlimit hranges
  rw [← hbindings] at hall
  refine ⟨⟨ranges, hranges, hbindings, hall⟩, fun hany => ?_⟩
  have hpos := Grounder.length_anyTuples_pos hranges hany
  exact Nat.le_trans (Nat.le_mul_of_pos_right _ hpos) hall

theorem Rearranges.within {g : Grounder} {r : Rule} {alone shared : Grounded}
    (h : alone.Rearranges shared) (halone : alone.Within g r) : shared.Within g r := by
  obtain ⟨hall, hplain⟩ := halone
  rw [← h.bindings_eq] at hall hplain
  exact ⟨hall, hplain⟩

end Grounded

namespace Grounder

/-- Rules that are grounded, alone or by any strategy, take no more bindings of all their
variables together than the limit allows, and no more of their plain variables if every `any`
variable has a constant to range over. -/
theorem bindings_within_limit (g : Grounder) (hlimit : g.bindingLimit ≤ Text.maxCount) :
    (∀ r grounded, g.ground r = .ok grounded → grounded.Within g r) ∧
      ∀ strategy rules results, g.groundAll strategy rules = .ok results →
        List.Forall₂ (Grounded.Within g) rules results := by
  refine ⟨fun r grounded h => Grounded.within_of_ground hlimit h, fun strategy rules results h => ?_⟩
  refine (groundAll_rearranges h).imp fun r shared hshared => ?_
  obtain ⟨alone, halone, hrearranges⟩ := hshared
  exact hrearranges.within (Grounded.within_of_ground hlimit halone)

end Grounder

/-! ## Two plain bindings -/

namespace Session

open Grounder

/-- A rule with a plain variable, and with an `any` variable in its body. -/
def fewRule : Rule where
  kind := .implication
  heads := [.predicate "r" ["x"]]
  body := [.predicate "p" ["x"], .predicate "q" ["anyy"]]
  vars := [⟨"x", "s"⟩, ⟨"anyy", "t"⟩]

/-- A session with two constants of the sort of the plain variable and one of the other, under a
limit. -/
def limited (limit : Nat) : Session Solver :=
  (populated [("s", "a"), ("s", "b"), ("t", "c")]).after (.setOption (.bindingLimit limit))

theorem populated_limited : (populated [("s", "a"), ("s", "b"), ("t", "c")]).Populated
    [("s", "a"), ("s", "b"), ("t", "c")] :=
  populated_spec (by decide) (by decide) (by decide)

theorem limited_eq (limit : Nat) (hpos : 1 ≤ limit) (hle : limit ≤ Text.maxCount) :
    limited limit = { populated [("s", "a"), ("s", "b"), ("t", "c")] with
      options := { bindingLimit := { least := 1, value := limit } } } := by
  have hset : ({} : Options).set? (.bindingLimit limit) =
      some { bindingLimit := { least := 1, value := limit } } := by
    simp [Options.set?, Limit.set?, hpos, hle]
  unfold limited
  rw [populated_limited.rest_eq]
  show (exec (setOption (.bindingLimit limit)) _).2 = _
  unfold setOption
  rw [exec_bind, exec_get]
  dsimp only [ofOptions]
  rw [hset]
  rfl

/-- The ranges of the rule, if the `any` variable ranges over the given constants. -/
def fewRanges (constants : List String) : Ranges :=
  ⟨[⟨"x", ["a", "b"]⟩], [⟨"anyy", constants⟩]⟩

theorem ranges_fewRule {g : Grounder} {constants : List String}
    (hs : g.elements "s" = .ok ["a", "b"]) (ht : g.elements "t" = .ok constants)
    (hlimit : 2 * constants.length ≤ g.bindingLimit) :
    g.ranges fewRule = .ok (fewRanges constants) := by
  refine ranges_eq_ok_iff.2 ⟨?_, ?_, ?_, ?_⟩
  · intro term hterm
    have hnone : fewRule.constantTerms = [] := rfl
    rw [hnone] at hterm
    cases hterm
  · refine Fallible.mapM_eq_ok_iff.2 ?_
    show [_] = [_]
    dsimp only
    rw [hs]
    rfl
  · refine Fallible.mapM_eq_ok_iff.2 ?_
    show [_] = [_]
    dsimp only
    rw [ht]
    rfl
  · rw [Product.saturatingMul_count]
    refine Nat.le_trans (Nat.min_le_left _ _) ?_
    simpa [fewRanges] using hlimit

/-- The clauses of the rule under one binding of its plain variable. -/
def fewClauses (constants : List String) (x : String) : List GroundClause :=
  [.withHead ("r " ++ x) (("p " ++ x) :: constants.map ("q " ++ ·))]

theorem clausesAt_fewRule (g : Grounder) {constants : List String}
    (hconstants : constants = [] ∨ constants = ["c"]) {x : String} (hx : x = "a" ∨ x = "b") :
    g.clausesAt fewRule (fewRanges constants) [x] = .ok (fewClauses constants x) := by
  unfold clausesAt groundBinding
  simp only [funext (g.instances_eq _ _)]
  rcases hconstants with rfl | rfl
  · rcases hx with rfl | rfl
    · rfl
    · rfl
  · rcases hx with rfl | rfl
    · rfl
    · rfl

theorem ground_fewRule {g : Grounder} {constants : List String}
    (hcancelled : ∀ bindings, g.cancelled fewRule bindings = false)
    (hlate : ∀ bindings, g.late fewRule bindings = false)
    (hconstants : constants = [] ∨ constants = ["c"])
    (hranges : g.ranges fewRule = .ok (fewRanges constants)) :
    g.ground fewRule = .ok (gather (Grounder.start fewRule)
      [fewClauses constants "a", fewClauses constants "b"]) := by
  refine ground_eq_ok_iff.2
    ⟨_, _, hranges, fun k _ => checkLimits_eq_ok hcancelled hlate k, ?_, rfl⟩
  show [_, _] = [_, _]
  rw [clausesAt_fewRule g hconstants (.inl rfl), clausesAt_fewRule g hconstants (.inr rfl)]

theorem elements_limited (limit : Nat) (hpos : 1 ≤ limit) (hle : limit ≤ Text.maxCount)
    (accepted : List (String × List String)) (sort : String)
    (hsort : sort ∈ ["s", "s", "t"]) (hnone : accepted.lookup sort = none) :
    ((limited limit).grounder accepted).elements sort =
      .ok (constantsIn [("s", "a"), ("s", "b"), ("t", "c")] sort) := by
  rw [← populated_limited.elements_eq hsort, limited_eq limit hpos hle]
  unfold elements grounder
  dsimp only
  rw [hnone]
  rfl

/-- No host was set, so that nothing stops a pass on its way. -/
theorem stops_limited (limit : Nat) (hpos : 1 ≤ limit) (hle : limit ≤ Text.maxCount)
    (accepted : List (String × List String)) (bindings : Nat) :
    ((limited limit).grounder accepted).cancelled fewRule bindings = false ∧
      ((limited limit).grounder accepted).late fewRule bindings = false := by
  rw [limited_eq limit hpos hle, populated_limited.rest_eq]
  exact ⟨rfl, rfl⟩

/-- Under a limit of two, the two bindings are enumerated, also in a group. -/
theorem bindings_within_limit_two :
    ((limited 2).grounder []).bindingLimit ≤ Text.maxCount ∧
      ∃ grounded, ((limited 2).grounder []).ground fewRule = .ok grounded ∧
        grounded.Within ((limited 2).grounder []) fewRule ∧
        (∀ v ∈ fewRule.anyVariables, ((limited 2).grounder []).elements v.sort ≠ .ok []) ∧
        grounded.bindings = 2 ∧
        ∃ results, ((limited 2).grounder []).groundAll .shared [fewRule] = .ok results ∧
          List.Forall₂ (Grounded.Within ((limited 2).grounder [])) [fewRule] results := by
  have hbound : (2 : Nat) ≤ Text.maxCount := by decide
  have heq := limited_eq 2 (by decide) hbound
  have hlimit : ((limited 2).grounder []).bindingLimit = 2 := by
    rw [heq]
    rfl
  have hs := elements_limited 2 (by decide) hbound [] "s" (by decide) rfl
  have ht := elements_limited 2 (by decide) hbound [] "t" (by decide) rfl
  have hranges : ((limited 2).grounder []).ranges fewRule = .ok (fewRanges ["c"]) :=
    ranges_fewRule hs ht (Nat.le_of_eq hlimit.symm)
  have hstops := stops_limited 2 (by decide) hbound []
  have hground := ground_fewRule (fun k => (hstops k).1) (fun k => (hstops k).2) (.inr rfl) hranges
  have hle : ((limited 2).grounder []).bindingLimit ≤ Text.maxCount := by
    rw [hlimit]
    exact hbound
  have hwithin := bindings_within_limit ((limited 2).grounder []) hle
  have hall : ∀ r ∈ [fewRule], ∃ alone, ((limited 2).grounder []).ground r = .ok alone :=
    List.forall_mem_singleton.2 ⟨_, hground⟩
  obtain ⟨results, hresults⟩ : ∃ results,
      ((limited 2).grounder []).groundAll .shared [fewRule] = .ok results :=
    exists_groundAll_iff.2 hall
  refine ⟨hle, _, hground, hwithin.1 _ _ hground, ?_, rfl, results, hresults,
    hwithin.2 _ _ _ hresults⟩
  intro v hv
  have hvar : v ∈ [(⟨"anyy", "t"⟩ : Variable)] := hv
  rw [List.mem_singleton.1 hvar, ht]
  decide

/-- With no constant for the `any` variable, two bindings are enumerated under a limit of one. -/
theorem bindings_exceed_limit :
    Reached (limited 1) ∧ (limited 1).restrict [("t", [])] = .ok [("t", [])] ∧
      ∃ grounded, ((limited 1).grounder [("t", [])]).ground fewRule = .ok grounded ∧
        ((limited 1).grounder [("t", [])]).bindingLimit < grounded.bindings := by
  have hbound : (1 : Nat) ≤ Text.maxCount := by decide
  have heq := limited_eq 1 (Nat.le_refl 1) hbound
  have hs := elements_limited 1 (Nat.le_refl 1) hbound [("t", [])] "s" (by decide) rfl
  have hranges : ((limited 1).grounder [("t", [])]).ranges fewRule = .ok (fewRanges []) :=
    ranges_fewRule hs rfl (Nat.zero_le _)
  have hstops := stops_limited 1 (Nat.le_refl 1) hbound [("t", [])]
  have hground := ground_fewRule (fun k => (hstops k).1) (fun k => (hstops k).2) (.inl rfl) hranges
  refine ⟨(reached_populated _).after _, ?_, _, hground, ?_⟩
  · have hknown := populated_limited.get?_eq "t"
    rw [if_pos (by decide)] at hknown
    obtain ⟨roster, hroster, _⟩ := Option.map_eq_some_iff.1 hknown
    have hsort : (limited 1).sorts.get? "t" = some roster := by
      rw [heq]
      exact hroster
    unfold restrict
    rw [hsort]
    rfl
  · rw [heq]
    exact Nat.one_lt_two

end Session

end Groundwork
