import Groundwork.Proofs.Grounding.Groups
import Groundwork.Proofs.Product
import Mathlib.Data.List.Nodup
import Mathlib.Data.List.Zip

/-!
# Positions in a signature

Sorts that are a rearrangement of a signature take its positions one after the other, each the
first one of its sort that is not taken yet.  This never fails, and there is no other way to give
each sort a position of its own so that equal sorts take theirs in order.

* `Placed`: what it means that sorts have taken the positions of a signature;
* `permutation?_eq_some_iff`: the positions that are found are the only ones that are right;
* `Placed.tuples_perm`: the tuples of the signature, read off at the positions, are the tuples of
  the sorts, each as often, whatever the elements of the sorts are;
* `existsUnique_group`: every rule is in one group;
* `group_members_placed`: what this means for rules that share an enumeration.
-/

namespace Groundwork.Grounder

/-- Whether sorts have taken the positions of a signature. -/
structure Placed (signature sorts : List String) (positions : List Nat) : Prop where
  /-- Every position of the signature is taken once. -/
  perm : positions.Perm (List.range signature.length)
  /-- Each sort takes a position at which it stands. -/
  stands : positions.map (signature[·]?) = sorts.map some
  /-- Equal sorts take their positions in order. -/
  increasing : (sorts.zip positions).Pairwise fun a b => a.1 = b.1 → a.2 < b.2

/-! ## Positions that are found -/

section Found

variable {signature sorts : List String} {positions : List Nat}

/-- The induction is on the sorts.  A sort takes the first entry that has it, so that every entry
of this sort that is taken later stands behind. -/
theorem takePositions?_increasing {remaining : List (String × Nat)}
    (hremaining : remaining.Pairwise fun a b => a.2 < b.2)
    (h : takePositions? remaining sorts = some positions) :
    (sorts.zip positions).Pairwise fun a b => a.1 = b.1 → a.2 < b.2 := by
  induction sorts generalizing remaining positions with
  | nil => exact .nil
  | cons sort sorts ih =>
    simp only [takePositions?, Option.bind_eq_bind, Option.bind_eq_some_iff] at h
    obtain ⟨⟨sort', position⟩, hfind, positions', hrest, hsome⟩ := h
    cases hsome
    rw [List.zip_cons_cons, List.pairwise_cons]
    refine ⟨?_, ih (hremaining.sublist List.eraseP_sublist) hrest⟩
    intro entry hentry hsame
    change sort = entry.1 at hsame
    obtain ⟨before, after, rfl, herase, hnone⟩ := exists_append_of_find? hfind
    obtain ⟨_, left, hperm⟩ := takePositions?_perm hrest
    have hleft : entry ∈ before ++ after := by
      rw [← herase]
      exact hperm.mem_iff.2 (List.mem_append_left left hentry)
    rcases List.mem_append.1 hleft with hfront | hbehind
    · exact absurd (beq_iff_eq.2 hsame.symm) (hnone entry hfront)
    · obtain ⟨_, hcons, _⟩ := List.pairwise_append.1 hremaining
      exact List.rel_of_pairwise_cons hcons hbehind

theorem pairwise_zipIdx (l : List String) : l.zipIdx.Pairwise fun a b => a.2 < b.2 := by
  have h : (l.zipIdx.map Prod.snd).Pairwise (· < ·) := by
    rw [List.zipIdx_map_snd]
    exact List.pairwise_lt_range'
  exact List.pairwise_map.1 h

theorem placed_of_permutation? (h : permutation? signature sorts = some positions) :
    Placed signature sorts positions := by
  obtain ⟨hlength, hperm⟩ := permutation?_perm h
  have hsorts : (sorts.zip positions).map Prod.fst = sorts :=
    List.map_fst_zip (Nat.le_of_eq hlength.symm)
  have hpositions : (sorts.zip positions).map Prod.snd = positions :=
    List.map_snd_zip (Nat.le_of_eq hlength)
  constructor
  case perm =>
    have htaken := (hperm.map Prod.snd).symm
    rwa [hpositions, List.zipIdx_map_snd, ← List.range_eq_range'] at htaken
  case stands =>
    conv_lhs => rw [← hpositions]
    conv_rhs => rw [← hsorts]
    rw [List.map_map, List.map_map]
    apply List.map_congr_left
    intro entry hentry
    exact List.mem_zipIdx_iff_getElem?.1 (hperm.mem_iff.2 hentry)
  case increasing =>
    unfold permutation? at h
    split at h
    · exact takePositions?_increasing (pairwise_zipIdx signature) h
    · cases h

end Found

/-! ## Positions that are right -/

section Placed

variable {signature sorts : List String} {positions positions' : List Nat}

theorem Placed.length_eq (h : Placed signature sorts positions) :
    positions.length = sorts.length := by
  simpa using congrArg List.length h.stands

/-- Both sides pair positions with what stands there. -/
theorem Placed.zip_perm (h : Placed signature sorts positions) :
    signature.zipIdx.Perm (sorts.zip positions) := by
  have hsorts : sorts = positions.map fun p => signature[p]?.getD "" := by
    have hread := congrArg (List.map fun sort => sort.getD "") h.stands
    rw [List.map_map, List.map_map] at hread
    exact (hread.trans (List.map_id sorts)).symm
  have hzip : sorts.zip positions = positions.map fun p => (signature[p]?.getD "", p) := by
    conv_lhs => rw [hsorts, ← List.map_id positions, List.map_map]
    exact List.zip_map'
  have hall : signature.zipIdx =
      (List.range signature.length).map fun p => (signature[p]?.getD "", p) := by
    apply List.ext_getElem
    · simp
    · intro p hp _
      rw [List.length_zipIdx] at hp
      simp [hp]
  rw [hall, hzip]
  exact (h.perm.map _).symm

theorem Placed.sorts_perm (h : Placed signature sorts positions) : sorts.Perm signature := by
  have hsorts := h.zip_perm.map Prod.fst
  rw [List.zipIdx_map_fst, List.map_fst_zip (Nat.le_of_eq h.length_eq.symm)] at hsorts
  exact hsorts.symm

/-- The induction is on the sorts.  Of two positions that the first sort could take, each would
come before the other. -/
theorem eq_of_zip_perm (hlength : positions.length = sorts.length)
    (hlength' : positions'.length = sorts.length)
    (hperm : (sorts.zip positions).Perm (sorts.zip positions'))
    (hincreasing : (sorts.zip positions).Pairwise fun a b => a.1 = b.1 → a.2 < b.2)
    (hincreasing' : (sorts.zip positions').Pairwise fun a b => a.1 = b.1 → a.2 < b.2) :
    positions = positions' := by
  induction sorts generalizing positions positions' with
  | nil => rw [List.length_eq_zero_iff.1 hlength, List.length_eq_zero_iff.1 hlength']
  | cons sort sorts ih =>
    obtain ⟨first, rest, rfl⟩ := List.exists_cons_of_length_eq_add_one hlength
    obtain ⟨first', rest', rfl⟩ := List.exists_cons_of_length_eq_add_one hlength'
    rw [List.zip_cons_cons, List.zip_cons_cons] at hperm
    rw [List.zip_cons_cons, List.pairwise_cons] at hincreasing hincreasing'
    have hfirst : (sort, first) ∈ (sort, first') :: sorts.zip rest' :=
      hperm.mem_iff.1 List.mem_cons_self
    have hfirst' : (sort, first') ∈ (sort, first) :: sorts.zip rest :=
      hperm.mem_iff.2 List.mem_cons_self
    have heq : first = first' := by
      rcases List.mem_cons.1 hfirst with hsame | hbehind
      · exact congrArg Prod.snd hsame
      rcases List.mem_cons.1 hfirst' with hsame | hbehind'
      · exact (congrArg Prod.snd hsame).symm
      have hlt : first' < first := hincreasing'.1 _ hbehind rfl
      have hgt : first < first' := hincreasing.1 _ hbehind' rfl
      omega
    subst heq
    rw [List.length_cons, List.length_cons, Nat.add_right_cancel_iff] at hlength hlength'
    rw [ih hlength hlength' hperm.cons_inv hincreasing.2 hincreasing'.2]

theorem Placed.unique (h : Placed signature sorts positions)
    (h' : Placed signature sorts positions') : positions = positions' :=
  eq_of_zip_perm h.length_eq h'.length_eq (h.zip_perm.symm.trans h'.zip_perm) h.increasing
    h'.increasing

theorem permutation?_eq_some_iff :
    permutation? signature sorts = some positions ↔ Placed signature sorts positions := by
  constructor
  · exact placed_of_permutation?
  · intro h
    obtain ⟨found, hfound⟩ := exists_permutation? h.sorts_perm.symm
    rw [hfound, h.unique (placed_of_permutation? hfound)]

theorem isSome_permutation?_iff :
    (permutation? signature sorts).isSome ↔ sorts.Perm signature := by
  rw [Option.isSome_iff_exists]
  constructor
  · rintro ⟨found, hfound⟩
    exact (placed_of_permutation? hfound).sorts_perm
  · intro h
    exact exists_permutation? h.symm

/-! ## Tuples -/

/-- Nothing is read off a tuple that it does not have. -/
theorem Placed.readOff_eq (h : Placed signature sorts positions) {elements : String → List String}
    {tuple : List String} (htuple : tuple ∈ Product.tuples (signature.map elements)) :
    positions.map (tuple[·]?) = (readOff positions tuple).map some := by
  have hlength : tuple.length = signature.length := by
    rw [← (Product.mem_tuples_iff.1 htuple).length_eq, List.length_map]
  unfold readOff
  rw [List.map_map]
  apply List.map_congr_left
  intro p hp
  have hlt : p < tuple.length := by
    rw [hlength]
    exact List.mem_range.1 (h.perm.mem_iff.1 hp)
  show tuple[p]? = some (tuple[p]?.getD "")
  rw [List.getElem?_eq_getElem hlt, Option.getD_some]

theorem Placed.tuples_perm (h : Placed signature sorts positions)
    (elements : String → List String) :
    ((Product.tuples (signature.map elements)).map (readOff positions)).Perm
      (Product.tuples (sorts.map elements)) := by
  have hswap : ∀ (sorts : List String) (positions : List Nat),
      (sorts.zip positions).map (fun entry => (entry.2, elements entry.1)) =
        positions.zip (sorts.map elements) := by
    intro sorts positions
    rw [List.zip_map_right, ← List.zip_swap, List.map_map]
    rfl
  have hkeyed := h.zip_perm.map fun entry => (entry.2, elements entry.1)
  rw [List.zipIdx_eq_zip_range', hswap, hswap, ← List.range_eq_range'] at hkeyed
  refine Product.map_positions_perm ?_ ?_ ""
  · rw [List.length_map, h.length_eq]
  · rwa [List.length_map]

end Placed

/-! ## Groups -/

theorem signatures_addToGroups (signature : List String) (m : Member) (groups : List Group) :
    (addToGroups signature m groups).map Group.signature =
      if signature ∈ groups.map Group.signature then groups.map Group.signature
      else groups.map Group.signature ++ [signature] := by
  induction groups with
  | nil => rfl
  | cons group groups ih =>
    unfold addToGroups
    by_cases hsame : group.signature = signature
    · rw [if_pos hsame, if_pos (by simp [hsame]), List.map_cons, List.map_cons]
    · have hmem : signature ∈ (group :: groups).map Group.signature ↔
          signature ∈ groups.map Group.signature := by
        rw [List.map_cons, List.mem_cons]
        exact or_iff_right fun heq => hsame heq.symm
      rw [if_neg hsame, List.map_cons, ih]
      simp only [hmem]
      split
      · rw [List.map_cons]
      · rw [List.map_cons, List.cons_append]

/-- The induction is on the rules: a rule opens a group only if none has its signature. -/
theorem nodup_signatures_groupsOf (rules : List Rule) :
    ((groupsOf rules).map Group.signature).Nodup := by
  unfold groupsOf
  refine List.foldlRecOn (motive := fun groups : List Group =>
    (groups.map Group.signature).Nodup) rules.zipIdx _ List.nodup_nil ?_
  rintro groups hgroups ⟨rule, index⟩ -
  dsimp only
  split
  · rw [signatures_addToGroups]
    split
    · exact hgroups
    · next hnew => exact List.nodup_append_comm.1 (List.nodup_cons.2 ⟨hnew, hgroups⟩)
  · exact hgroups

/-- A rule is in the group with its signature, and no other group has it. -/
theorem existsUnique_group {rules : List Rule} {entry : Rule × Nat}
    (h : entry ∈ rules.zipIdx) :
    ∃! group, group ∈ groupsOf rules ∧ entry ∈ group.members.toList.map Member.entry := by
  have hsignature : ∀ group ∈ groupsOf rules, entry ∈ group.members.toList.map Member.entry →
      signatureOf entry.1 = group.signature := by
    intro group hgroup hentry
    obtain ⟨m, hm, rfl⟩ := List.mem_map.1 hentry
    exact ((fitting_groupsOf rules group hgroup).2 m hm).signature_eq
  have hmember := (members_groupsOf_perm rules).mem_iff.2 h
  obtain ⟨m, hm, hentry⟩ := List.mem_map.1 hmember
  obtain ⟨group, hgroup, hin⟩ := List.mem_flatMap.1 hm
  have hhere : entry ∈ group.members.toList.map Member.entry := List.mem_map.2 ⟨m, hin, hentry⟩
  refine ⟨group, ⟨hgroup, hhere⟩, ?_⟩
  rintro other ⟨hother, hthere⟩
  apply List.inj_on_of_nodup_map (nodup_signatures_groupsOf rules) hother hgroup
  rw [← hsignature other hother hthere, hsignature group hgroup hhere]

/-- Sorts find positions exactly if they are a rearrangement of the signature, and then the ones
that are right.  So every rule is once in one group, and reads off the tuples of its group what it
would run through alone, each tuple as often. -/
theorem group_members_placed :
    (∀ signature sorts : List String,
      ((permutation? signature sorts).isSome ↔ sorts.Perm signature) ∧
      ∀ positions, permutation? signature sorts = some positions ↔
        Placed signature sorts positions) ∧
    ∀ rules : List Rule,
      ((membersOf (groupsOf rules)).map Member.entry).Perm rules.zipIdx ∧
      (∀ entry ∈ rules.zipIdx, ∃! group,
        group ∈ groupsOf rules ∧ entry ∈ group.members.toList.map Member.entry) ∧
      ∀ group ∈ groupsOf rules, ∀ m ∈ group.members.toList,
        Placed group.signature (sortsOf m.rule) m.positions ∧
        ∀ elements : String → List String,
          (∀ tuple ∈ Product.tuples (group.signature.map elements),
            m.positions.map (tuple[·]?) = (readOff m.positions tuple).map some) ∧
          ((Product.tuples (group.signature.map elements)).map (readOff m.positions)).Perm
            (Product.tuples ((sortsOf m.rule).map elements)) := by
  refine ⟨fun signature sorts => ⟨isSome_permutation?_iff, fun positions =>
    permutation?_eq_some_iff⟩, fun rules => ⟨members_groupsOf_perm rules, ?_, ?_⟩⟩
  · intro entry hentry
    exact existsUnique_group hentry
  · intro group hgroup m hm
    have hfits := (fitting_groupsOf rules group hgroup).2 m hm
    have hplaced := placed_of_permutation? hfits.positions_eq
    refine ⟨hplaced, fun elements => ⟨?_, hplaced.tuples_perm elements⟩⟩
    intro tuple htuple
    exact hplaced.readOff_eq htuple

end Groundwork.Grounder
