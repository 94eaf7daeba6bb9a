import Groundwork.Grounding.Shared
import Mathlib.Data.List.Perm.Basic

/-!
# Groups of rules

Where the variables of a rule stand in the signature of its group, and that no rule
is lost or met twice when rules are put into groups.

* `takePositions?_perm`: sorts take positions of their own;
* `exists_permutation?`: every rearrangement of a signature finds its positions;
* `members_groupsOf_perm`: the members of all groups are the rules with their
  positions among all rules;
* `fitting_groupsOf`: a member has the signature of its group.
-/

namespace Groundwork.Grounder

/-! ## Positions -/

/-- What is found is the first entry of its kind, and it is the one that is taken out. -/
theorem exists_append_of_find? {α : Type} {p : α → Bool} {l : List α} {a : α}
    (h : l.find? p = some a) :
    ∃ before after, l = before ++ a :: after ∧ l.eraseP p = before ++ after ∧
      ∀ b ∈ before, ¬ p b = true := by
  obtain ⟨hp, before, after, rfl, hbefore⟩ := List.find?_eq_some_iff_append.1 h
  have hnone : ∀ b ∈ before, ¬ p b = true := by
    intro b hb
    simpa using hbefore b hb
  refine ⟨before, after, rfl, ?_, hnone⟩
  rw [List.eraseP_append_right _ hnone, List.eraseP_cons_of_pos hp]

theorem perm_cons_eraseP {α : Type} {p : α → Bool} {l : List α} {a : α}
    (h : l.find? p = some a) : l.Perm (a :: l.eraseP p) := by
  obtain ⟨before, after, hsplit, herase, _⟩ := exists_append_of_find? h
  rw [herase, hsplit]
  exact List.perm_middle

/-- The induction is on the sorts, each of which takes its entry out of those that
remain. -/
theorem takePositions?_perm {remaining : List (String × Nat)} {sorts : List String}
    {positions : List Nat} (h : takePositions? remaining sorts = some positions) :
    positions.length = sorts.length ∧
      ∃ left, remaining.Perm (sorts.zip positions ++ left) := by
  induction sorts generalizing remaining positions with
  | nil =>
    rw [takePositions?, Option.some.injEq] at h
    subst h
    exact ⟨rfl, remaining, .refl _⟩
  | cons sort sorts ih =>
    simp only [takePositions?, Option.bind_eq_bind, Option.bind_eq_some_iff] at h
    obtain ⟨⟨sort', position⟩, hfind, positions', hrest, hsome⟩ := h
    cases hsome
    have hsort : sort' = sort := by
      simpa using List.find?_some hfind
    subst hsort
    obtain ⟨hlength, left, hperm⟩ := ih hrest
    refine ⟨by rw [List.length_cons, List.length_cons, hlength], left, ?_⟩
    exact (perm_cons_eraseP hfind).trans (hperm.cons _)

theorem exists_takePositions? {remaining : List (String × Nat)} {sorts left : List String}
    (h : (remaining.map Prod.fst).Perm (sorts ++ left)) :
    ∃ positions, takePositions? remaining sorts = some positions := by
  induction sorts generalizing remaining with
  | nil => exact ⟨[], by rw [takePositions?]⟩
  | cons sort sorts ih =>
    have hmem : sort ∈ remaining.map Prod.fst := h.mem_iff.2 (by simp)
    obtain ⟨entry, hentry, hsort⟩ := List.mem_map.1 hmem
    have hsome : (remaining.find? fun entry => entry.1 == sort).isSome := by
      rw [List.find?_isSome]
      exact ⟨entry, hentry, by simp [hsort]⟩
    obtain ⟨found, hfind⟩ := Option.isSome_iff_exists.1 hsome
    have hfound : found.1 = sort := by
      simpa using List.find?_some hfind
    have hrest := (perm_cons_eraseP hfind).map Prod.fst
    rw [List.map_cons, hfound] at hrest
    obtain ⟨positions, hpositions⟩ := ih (hrest.symm.trans h).cons_inv
    refine ⟨found.2 :: positions, ?_⟩
    simp only [takePositions?, hfind, hpositions]
    rfl

/-- Each sort takes a position of the signature where it stands, and all positions are
taken. -/
theorem permutation?_perm {signature sorts : List String} {positions : List Nat}
    (h : permutation? signature sorts = some positions) :
    positions.length = sorts.length ∧ signature.zipIdx.Perm (sorts.zip positions) := by
  unfold permutation? at h
  split at h
  · next hlength =>
    obtain ⟨hpositions, left, hperm⟩ := takePositions?_perm h
    have hleft : left = [] := by
      have := hperm.length_eq
      simp only [List.length_zipIdx, List.length_append, List.length_zip] at this
      exact List.length_eq_zero_iff.1 (by omega)
    rw [hleft, List.append_nil] at hperm
    exact ⟨hpositions, hperm⟩
  · cases h

theorem exists_permutation? {signature sorts : List String} (h : signature.Perm sorts) :
    ∃ positions, permutation? signature sorts = some positions := by
  unfold permutation?
  rw [if_pos h.length_eq]
  have hperm : (signature.zipIdx.map Prod.fst).Perm (sorts ++ []) := by
    rw [List.zipIdx_map_fst, List.append_nil]
    exact h
  exact exists_takePositions? hperm

/-! ## Members -/

/-- The sorts of the plain variables of a rule, in their order. -/
def sortsOf (r : Rule) : List String :=
  r.plainVariables.map (·.sort)

theorem signatureOf_perm (r : Rule) : (signatureOf r).Perm (sortsOf r) :=
  List.mergeSort_perm _ _

/-- Whether a member belongs into the group with a signature. -/
structure Member.Fits (m : Member) (signature : List String) : Prop where
  signature_eq : signatureOf m.rule = signature
  positions_eq : permutation? signature (sortsOf m.rule) = some m.positions

/-- All members of some groups. -/
def membersOf (groups : List Group) : List Member :=
  groups.flatMap fun group => group.members.toList

/-- Whether every group has a member, and each member belongs into its group. -/
def Fitting (groups : List Group) : Prop :=
  ∀ group ∈ groups, group.members.toList ≠ [] ∧
    ∀ m ∈ group.members.toList, m.Fits group.signature

theorem membersOf_addToGroups (signature : List String) (m : Member) (groups : List Group) :
    (membersOf (addToGroups signature m groups)).Perm (m :: membersOf groups) := by
  induction groups with
  | nil => exact .refl _
  | cons group groups ih =>
    unfold addToGroups
    split
    · simp only [membersOf, List.flatMap_cons, Array.toList_push, List.append_assoc,
        List.singleton_append]
      exact List.perm_middle
    · simp only [membersOf, List.flatMap_cons] at ih ⊢
      exact (ih.append_left _).trans List.perm_middle

theorem fitting_addToGroups {signature : List String} {m : Member} (hm : m.Fits signature)
    {groups : List Group} (h : Fitting groups) : Fitting (addToGroups signature m groups) := by
  induction groups with
  | nil =>
    intro group hgroup
    rw [addToGroups, List.mem_singleton] at hgroup
    subst hgroup
    refine ⟨by simp, fun m' hm' => ?_⟩
    rw [List.mem_singleton] at hm'
    rwa [hm']
  | cons first groups ih =>
    obtain ⟨hfirst, hrest⟩ := List.forall_mem_cons.1 h
    unfold addToGroups
    split
    · next hsame =>
      refine List.forall_mem_cons.2 ⟨⟨by simp, fun m' hm' => ?_⟩, hrest⟩
      rw [Array.toList_push, List.mem_append, List.mem_singleton] at hm'
      rcases hm' with hm' | rfl
      · exact hfirst.2 m' hm'
      · rw [hsame]
        exact hm
    · exact List.forall_mem_cons.2 ⟨hfirst, ih hrest⟩

/-- A rule finds its positions and joins a group. -/
theorem exists_member (r : Rule) : ∃ positions,
    permutation? (signatureOf r) (r.plainVariables.map (·.sort)) = some positions :=
  exists_permutation? (signatureOf_perm r)

/-- The rule of a member with its position among all rules. -/
def Member.entry (m : Member) : Rule × Nat :=
  (m.rule, m.index)

/-- The induction is on the rules still to come. -/
theorem foldl_addToGroups (entries : List (Rule × Nat)) {groups : List Group}
    (h : Fitting groups) :
    let result := entries.foldl
      (fun groups (rule, index) =>
        let signature := signatureOf rule
        match permutation? signature (rule.plainVariables.map (·.sort)) with
        | some positions => addToGroups signature { index, rule, positions } groups
        | none => groups)
      groups
    Fitting result ∧
      ((membersOf result).map Member.entry).Perm
        (entries ++ (membersOf groups).map Member.entry) := by
  induction entries generalizing groups with
  | nil => exact ⟨h, .refl _⟩
  | cons entry entries ih =>
    obtain ⟨rule, index⟩ := entry
    obtain ⟨positions, hpositions⟩ := exists_member rule
    let m : Member := { index, rule, positions }
    have hm : m.Fits (signatureOf rule) := ⟨rfl, hpositions⟩
    obtain ⟨hfitting, hperm⟩ := ih (fitting_addToGroups hm h)
    rw [List.foldl_cons]
    simp only [hpositions]
    refine ⟨hfitting, hperm.trans ?_⟩
    refine (((membersOf_addToGroups _ m groups).map Member.entry).append_left entries).trans ?_
    exact List.perm_middle

theorem fitting_nil : Fitting [] := by
  intro group hgroup
  cases hgroup

theorem fitting_groupsOf (rules : List Rule) : Fitting (groupsOf rules) :=
  (foldl_addToGroups rules.zipIdx fitting_nil).1

theorem members_groupsOf_perm (rules : List Rule) :
    ((membersOf (groupsOf rules)).map Member.entry).Perm rules.zipIdx := by
  have h := (foldl_addToGroups rules.zipIdx fitting_nil).2
  rwa [show membersOf [] = [] from rfl, List.map_nil, List.append_nil] at h

end Groundwork.Grounder
