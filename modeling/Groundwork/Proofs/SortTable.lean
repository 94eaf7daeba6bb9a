import Groundwork.Proofs.Relation.Encodings
import Groundwork.SortTable
import Mathlib.Data.List.Nodup
import Mathlib.Data.List.Perm.Subperm
import Mathlib.Data.String.Basic
import Std.Data.String.ToNat

/-!
# The table of sorts after any calls

A table of sorts is a list of named lists (`listed`): the sorts in order of declaration, each with
its constants in the order in which they were added.  A change of the table adds constants at the
end of one of the lists, or a new list at the end (`listed_extend`).

* `addElement_cases`, `fill_cases`: all that the calls can do;
* `length_freshNames`, `fresh_of_mem_freshNames`: a fill finds as many new names as it is asked for;
* `Legal`, `LegalNames`: constants and names of sorts are legal tokens, with one lemma for each
  change of a table;
* `Indexed`: what the table is to those who use it, and `indexed_foldl_after`, which says that it
  is so after any calls.
-/

namespace Groundwork

/-- Items that are new are put at the end. -/
theorem Roster.toList_foldl_insert_of_fresh {α : Type} [BEq α] [Hashable α] [LawfulBEq α]
    {r : Roster α} {new : List α} (hnodup : new.Nodup) (hfresh : ∀ a ∈ new, a ∉ r.toList) :
    (new.foldl insert r).toList = r.toList ++ new := by
  induction new generalizing r with
  | nil => simp
  | cons a new ih =>
    obtain ⟨hnot, hnodup⟩ := List.nodup_cons.1 hnodup
    have hinsert : (r.insert a).toList = r.toList ++ [a] := by
      rw [toList_insert, if_neg (hfresh a List.mem_cons_self)]
    rw [List.foldl_cons, ih hnodup, hinsert, List.append_assoc, List.singleton_append]
    intro b hb hmem
    rw [hinsert, List.mem_append, List.mem_singleton] at hmem
    rcases hmem with hmem | rfl
    · exact hfresh b (List.mem_cons_of_mem a hb) hmem
    · exact hnot hb

namespace SortTable

variable {t : SortTable}

/-! ## The view of a table -/

/-- The constants of a sort, none before it is declared. -/
def elementsOf (t : SortTable) (sort : String) : List String :=
  ((t.get? sort).map Roster.toList).getD []

/-- The sorts in order of declaration, each with its constants. -/
def listed (t : SortTable) : List (String × List String) :=
  t.sorts.map fun sort => (sort.name, sort.elements.toList)

theorem elementsOf_of_get? {sort : String} {roster : Roster String}
    (h : t.get? sort = some roster) : t.elementsOf sort = roster.toList := by
  rw [elementsOf, h]
  rfl

theorem toList_getD_get? (t : SortTable) (sort : String) :
    ((t.get? sort).getD ∅).toList = t.elementsOf sort := by
  unfold elementsOf
  cases t.get? sort <;> rfl

theorem mem_names_iff {sort : String} :
    sort ∈ t.names.toList ↔ ∃ roster, t.get? sort = some roster := by
  rw [t.mem_names, Std.HashMap.mem_iff_isSome_getElem?, Option.isSome_iff_exists]
  rfl

theorem sorts_eq (t : SortTable) :
    t.sorts = t.names.toList.map fun name => ⟨name, (t.get? name).getD ∅⟩ := by
  unfold sorts
  rw [← List.filterMap_eq_map]
  refine List.filterMap_congr fun name hname => ?_
  obtain ⟨roster, hroster⟩ := mem_names_iff.1 hname
  rw [Function.comp_apply, hroster]
  rfl

theorem mem_sorts_iff {sort : NamedSort} :
    sort ∈ t.sorts ↔ t.get? sort.name = some sort.elements := by
  rw [sorts_eq, List.mem_map]
  constructor
  · rintro ⟨name, hname, rfl⟩
    obtain ⟨roster, hroster⟩ := mem_names_iff.1 hname
    dsimp only
    rw [hroster, Option.getD_some]
  · intro h
    exact ⟨sort.name, mem_names_iff.2 ⟨_, h⟩, by rw [h, Option.getD_some]⟩

theorem names_sorts (t : SortTable) : t.sorts.map (·.name) = t.names.toList := by
  rw [sorts_eq, List.map_map]
  exact List.map_id' _

theorem listed_eq (t : SortTable) :
    t.listed = t.names.toList.map fun name => (name, t.elementsOf name) := by
  rw [listed, sorts_eq, List.map_map]
  exact List.map_congr_left fun name _ => congrArg (Prod.mk name) (t.toList_getD_get? name)

/-! ## Extension -/

theorem get?_extend (t : SortTable) (sort : String) (new : List String) :
    (t.extend sort new).get? sort = some (new.foldl .insert ((t.get? sort).getD ∅)) := by
  show (t.elements.alter sort _)[sort]? = _
  rw [Std.HashMap.getElem?_alter, if_pos (beq_self_eq_true sort)]
  rfl

theorem get?_extend_of_ne (t : SortTable) {sort other : String} (h : other ≠ sort)
    (new : List String) : (t.extend sort new).get? other = t.get? other := by
  show (t.elements.alter sort _)[other]? = _
  rw [Std.HashMap.getElem?_alter, if_neg (by simpa using h.symm)]
  rfl

theorem isConstant_extend (t : SortTable) (sort : String) (new : List String) (constant : String) :
    (t.extend sort new).isConstant constant = true ↔
      t.isConstant constant = true ∨ constant ∈ new := by
  show (t.constants.insertMany new).contains constant = true ↔ t.constants.contains constant = true ∨ _
  rw [Std.HashSet.contains_insertMany_list, Bool.or_eq_true, List.contains_iff_mem]

theorem names_extend (t : SortTable) (sort : String) (new : List String) :
    (t.extend sort new).names.toList =
      if sort ∈ t.names.toList then t.names.toList else t.names.toList ++ [sort] :=
  Roster.toList_insert t.names sort

theorem elementsOf_extend {sort : String} {new : List String} (hnodup : new.Nodup)
    (hfresh : ∀ constant ∈ new, constant ∉ t.elementsOf sort) (other : String) :
    (t.extend sort new).elementsOf other =
      if other = sort then t.elementsOf other ++ new else t.elementsOf other := by
  split
  · next hsame =>
    subst hsame
    rw [← toList_getD_get?] at hfresh
    rw [elementsOf_of_get? (t.get?_extend other new),
      Roster.toList_foldl_insert_of_fresh hnodup hfresh, toList_getD_get?]
  · next hne => rw [elementsOf, get?_extend_of_ne t hne, elementsOf]

/-- The list with constants at the end of those of a sort, or with the sort at its end if it is
not listed. -/
def appendTo (sort : String) (new : List String) :
    List (String × List String) → List (String × List String)
  | [] => [(sort, new)]
  | (name, constants) :: rest =>
    if name = sort then (name, constants ++ new) :: rest
    else (name, constants) :: appendTo sort new rest

theorem appendTo_appendTo (sort : String) (new later : List String)
    (l : List (String × List String)) :
    appendTo sort later (appendTo sort new l) = appendTo sort (new ++ later) l := by
  induction l with
  | nil => simp [appendTo]
  | cons entry rest ih =>
    obtain ⟨name, constants⟩ := entry
    by_cases hsame : name = sort
    · simp [appendTo, hsame]
    · simp [appendTo, hsame, ih]

/-- A list in which no name is repeated has one place for the constants. -/
theorem appendTo_map {sort : String} {new names : List String} (hnodup : names.Nodup)
    {constantsOf : String → List String} (hnone : sort ∉ names → constantsOf sort = []) :
    appendTo sort new (names.map fun name => (name, constantsOf name)) =
      (if sort ∈ names then names else names ++ [sort]).map fun name =>
        (name, if name = sort then constantsOf name ++ new else constantsOf name) := by
  induction names with
  | nil => simp [appendTo, hnone]
  | cons name names ih =>
    obtain ⟨hnot, hnodup⟩ := List.nodup_cons.1 hnodup
    rw [List.map_cons, appendTo]
    by_cases hsame : name = sort
    · subst hsame
      rw [if_pos rfl, if_pos List.mem_cons_self, List.map_cons, if_pos rfl]
      refine congrArg _ (List.map_congr_left fun other hother => ?_)
      have hne : other ≠ name := fun heq => hnot (heq ▸ hother)
      rw [if_neg hne]
    · have hmem : sort ∈ name :: names ↔ sort ∈ names := by
        simp [Ne.symm hsame]
      have hrest := ih hnodup fun habsent => hnone fun h => habsent (hmem.1 h)
      rw [if_neg hsame, hrest]
      by_cases hin : sort ∈ names
      · rw [if_pos hin, if_pos (hmem.2 hin), List.map_cons, if_neg hsame]
      · rw [if_neg hin, if_neg fun h => hin (hmem.1 h), List.cons_append, List.map_cons,
          if_neg hsame]

theorem listed_extend {sort : String} {new : List String} (hnodup : new.Nodup)
    (hfresh : ∀ constant ∈ new, constant ∉ t.elementsOf sort) :
    (t.extend sort new).listed = appendTo sort new t.listed := by
  have hnone : sort ∉ t.names.toList → t.elementsOf sort = [] := by
    intro habsent
    unfold elementsOf
    cases hget : t.get? sort with
    | none => rfl
    | some roster => exact (habsent (mem_names_iff.2 ⟨roster, hget⟩)).elim
  have hnames : t.names.toList.Nodup := t.names.nodup
  rw [listed_eq, listed_eq, appendTo_map hnames hnone, names_extend]
  exact List.map_congr_left fun name _ => by rw [elementsOf_extend hnodup hfresh]

/-! ## Fresh names -/

theorem numbered_injective (stem : String) : Function.Injective (numbered stem) := by
  intro i j h
  rw [numbered, numbered, String.append_right_inj, Nat.toString_eq_repr, Nat.toString_eq_repr] at h
  exact Nat.repr_inj.1 h

/-- The names that are looked at are more than the sort has constants, so enough of them are
fresh. -/
theorem length_freshNames (elements : Roster String) (stem : String) (count : Nat) :
    (freshNames elements stem count).length = count := by
  let candidates := (List.range' elements.size (elements.size + count)).map (numbered stem)
  have hnodup : candidates.Nodup := List.Nodup.map (numbered_injective stem) List.nodup_range'
  have hused : (candidates.filter elements.contains).length ≤ elements.size := by
    refine (List.subperm_of_subset (hnodup.filter _) fun name hname => ?_).length_le
    exact (elements.contains_iff name).1 (List.mem_filter.1 hname).2
  have hall : candidates.length = elements.size + count := by
    rw [List.length_map, List.length_range']
  have hsplit := List.length_eq_length_filter_add (l := candidates) elements.contains
  rw [freshNames, toList_findFresh, List.nil_append, List.length_take]
  show min count (candidates.filter fun name => !elements.contains name).length = count
  omega

theorem fresh_of_mem_freshNames {elements : Roster String} {stem name : String} {count : Nat}
    (h : name ∈ freshNames elements stem count) :
    name ∉ elements.toList ∧ ∃ index, numbered stem index = name := by
  rw [freshNames, toList_findFresh, List.nil_append] at h
  obtain ⟨hname, hfresh⟩ := List.mem_filter.1 (List.mem_of_mem_take h)
  obtain ⟨index, _, hindex⟩ := List.mem_map.1 hname
  rw [Bool.not_eq_true', ← Bool.not_eq_true, Roster.contains_iff] at hfresh
  exact ⟨hfresh, index, hindex⟩

theorem nodup_freshNames (elements : Roster String) (stem : String) (count : Nat) :
    (freshNames elements stem count).Nodup := by
  rw [freshNames, toList_findFresh, List.nil_append]
  refine List.Nodup.sublist (List.take_sublist _ _) (List.Nodup.filter _ ?_)
  exact List.Nodup.map (numbered_injective stem) List.nodup_range'

/-! ## Declared sorts -/

theorem declared_of_get? {sort : String} {roster : Roster String}
    (h : t.get? sort = some roster) : t.declared sort = t := by
  unfold declared
  rw [h]

theorem declared_of_get?_eq_none {sort : String} (h : t.get? sort = none) :
    t.declared sort = t.extend sort [] := by
  unfold declared
  rw [h]

theorem signatures_declared (t : SortTable) (sort : String) :
    (t.declared sort).signatures = t.signatures := by
  unfold declared
  split <;> rfl

theorem get?_declared (t : SortTable) (sort other : String) :
    (t.declared sort).get? other =
      if other = sort then some ((t.get? sort).getD ∅) else t.get? other := by
  cases hget : t.get? sort with
  | some roster =>
    rw [declared_of_get? hget]
    split
    · next hsame => rw [hsame, hget, Option.getD_some]
    · rfl
  | none =>
    rw [declared_of_get?_eq_none hget]
    split
    · next hsame =>
      rw [hsame, get?_extend, hget]
      rfl
    · next hne => exact get?_extend_of_ne t hne []

theorem elementsOf_declared (t : SortTable) (sort other : String) :
    (t.declared sort).elementsOf other = t.elementsOf other := by
  unfold elementsOf
  rw [get?_declared]
  split
  · next hsame =>
    rw [hsame]
    cases t.get? sort <;> rfl
  · rfl

theorem names_declared (t : SortTable) (sort : String) :
    (t.declared sort).names.toList =
      if sort ∈ t.names.toList then t.names.toList else t.names.toList ++ [sort] := by
  cases hget : t.get? sort with
  | some roster => rw [declared_of_get? hget, if_pos (mem_names_iff.2 ⟨roster, hget⟩)]
  | none => rw [declared_of_get?_eq_none hget, names_extend]

theorem listed_declared (t : SortTable) (sort : String) :
    (t.declared sort).listed = appendTo sort [] t.listed := by
  rw [← listed_extend List.nodup_nil (by simp), listed_eq, listed_eq, names_declared, names_extend]
  refine List.map_congr_left fun name _ => ?_
  rw [elementsOf_declared, elementsOf_extend List.nodup_nil (by simp), List.append_nil, ite_self]

/-! ## Calls -/

theorem addElement_cases (t : SortTable) (sort constant : String) :
    (legalToken sort = false ∧ t.addElement sort constant = (.error (.illegalName sort), t)) ∨
    (legalToken sort = true ∧ legalToken constant = false ∧
      t.addElement sort constant = (.error (.illegalName constant), t.declared sort)) ∨
    (legalToken sort = true ∧ legalToken constant = true ∧ constant ∈ t.elementsOf sort ∧
      t.addElement sort constant = (.error (.duplicateConstant sort constant), t.declared sort)) ∨
    (legalToken sort = true ∧ legalToken constant = true ∧ constant ∉ t.elementsOf sort ∧
      t.addElement sort constant = (.ok (), (t.declared sort).extend sort [constant])) := by
  have hcontains : (((t.declared sort).get? sort).getD ∅).contains constant = true ↔
      constant ∈ t.elementsOf sort := by
    rw [Roster.contains_iff, toList_getD_get?, elementsOf_declared]
  unfold addElement declare
  cases hsort : legalToken sort with
  | false => exact .inl ⟨rfl, rfl⟩
  | true =>
    cases hconstant : legalToken constant with
    | false => exact .inr (.inl ⟨rfl, rfl, rfl⟩)
    | true =>
      by_cases hmem : constant ∈ t.elementsOf sort
      · exact .inr (.inr (.inl ⟨rfl, rfl, hmem, by simp [hcontains.2 hmem]⟩))
      · have hfresh := Bool.eq_false_iff.2 fun h => hmem (hcontains.1 h)
        exact .inr (.inr (.inr ⟨rfl, rfl, hmem, by simp [hfresh]⟩))

/-- The names that a fill adds to a sort. -/
def fillNames (t : SortTable) (sort : String) (count : Nat) : List String :=
  freshNames ((t.get? sort).getD ∅) sort count

theorem fill_cases (t : SortTable) (sort : String) (count : Nat) :
    (legalToken sort = false ∧ t.fill sort count = (.error (.illegalName sort), t)) ∨
    (legalToken sort = true ∧ t.fill sort count =
      (.ok (t.fillNames sort count), (t.declared sort).extend sort (t.fillNames sort count))) := by
  have hknown : ((t.declared sort).get? sort).getD ∅ = (t.get? sort).getD ∅ := by
    rw [get?_declared, if_pos rfl, Option.getD_some]
  unfold fill declare fillNames
  cases hsort : legalToken sort with
  | false => exact .inl ⟨rfl, rfl⟩
  | true =>
    refine .inr ⟨rfl, ?_⟩
    rw [← hknown]
    rfl

theorem notMem_elementsOf_of_mem_fillNames {sort name : String} {count : Nat}
    (h : name ∈ t.fillNames sort count) : name ∉ t.elementsOf sort := by
  rw [← toList_getD_get?]
  exact (fresh_of_mem_freshNames h).1

/-- Constants that are new to a sort are put at its end, and the sort is declared first. -/
theorem listed_extend_declared {sort : String} {new : List String} (hnodup : new.Nodup)
    (hfresh : ∀ constant ∈ new, constant ∉ t.elementsOf sort) :
    ((t.declared sort).extend sort new).listed = appendTo sort new t.listed := by
  rw [listed_extend hnodup fun constant hconstant => by
    rw [elementsOf_declared]
    exact hfresh constant hconstant]
  rw [listed_declared, appendTo_appendTo, List.nil_append]

theorem listed_fillNames (t : SortTable) (sort : String) (count : Nat) :
    ((t.declared sort).extend sort (t.fillNames sort count)).listed =
      appendTo sort (t.fillNames sort count) t.listed :=
  listed_extend_declared (nodup_freshNames _ _ _) fun _ => notMem_elementsOf_of_mem_fillNames

/-- A call that changes a table. -/
inductive Call where
  | declare (sort : String)
  | addElement (sort constant : String)
  | fill (sort : String) (count : Nat)
  | addSignature (signature : Signature)
deriving DecidableEq, Repr

/-- The sort that a call names. -/
def Call.sort? : Call → Option String
  | .declare sort | .addElement sort _ | .fill sort _ => some sort
  | .addSignature _ => none

/-- The table after a call, also if the call fails. -/
def after (t : SortTable) : Call → SortTable
  | .declare sort =>
    match t.declare sort with
    | .ok u => u
    | .error _ => t
  | .addElement sort constant => (t.addElement sort constant).2
  | .fill sort count => (t.fill sort count).2
  | .addSignature signature => t.addSignature signature

theorem after_declare (t : SortTable) (sort : String) :
    t.after (.declare sort) = if legalToken sort = true then t.declared sort else t := by
  show (match t.declare sort with | .ok u => u | .error _ => t) = _
  unfold declare
  cases legalToken sort <;> rfl

/-- A call leaves the lists alone, or puts constants at the end of the list that it names. -/
theorem listed_after (t : SortTable) (call : Call) :
    (t.after call).listed = t.listed ∨
      ∃ sort new, call.sort? = some sort ∧ (t.after call).listed = appendTo sort new t.listed := by
  cases call with
  | declare sort =>
    rw [after_declare]
    split
    · exact .inr ⟨sort, [], rfl, t.listed_declared sort⟩
    · exact .inl rfl
  | addElement sort constant =>
    show (t.addElement sort constant).2.listed = _ ∨ ∃ name new, _ ∧
      (t.addElement sort constant).2.listed = _
    rcases t.addElement_cases sort constant with ⟨_, heq⟩ | ⟨_, _, heq⟩ | ⟨_, _, _, heq⟩ |
      ⟨_, _, hfresh, heq⟩
    · exact .inl (by rw [heq])
    · exact .inr ⟨sort, [], rfl, by rw [heq, listed_declared]⟩
    · exact .inr ⟨sort, [], rfl, by rw [heq, listed_declared]⟩
    · refine .inr ⟨sort, [constant], rfl, ?_⟩
      rw [heq, listed_extend_declared (List.nodup_singleton constant) (by simpa using hfresh)]
  | fill sort count =>
    show (t.fill sort count).2.listed = _ ∨ ∃ name new, _ ∧ (t.fill sort count).2.listed = _
    rcases t.fill_cases sort count with ⟨_, heq⟩ | ⟨_, heq⟩
    · exact .inl (by rw [heq])
    · exact .inr ⟨sort, _, rfl, by rw [heq, listed_fillNames]⟩
  | addSignature signature => exact .inl rfl

/-! ## Legal tokens -/

/-- The constants of all sorts are legal tokens. -/
def Legal (t : SortTable) : Prop :=
  ∀ constant, t.isConstant constant = true → legalToken constant = true

/-- The names of all sorts are legal tokens. -/
def LegalNames (t : SortTable) : Prop :=
  ∀ sort ∈ t.names.toList, legalToken sort = true

theorem legal_of_get?_eq_none (h : ∀ sort, t.get? sort = none) : t.Legal := by
  intro constant hconstant
  obtain ⟨sort, roster, hroster, _⟩ := (isConstant_iff _ _).1 hconstant
  rw [h sort] at hroster
  cases hroster

theorem get?_empty (sort : String) : ({} : SortTable).get? sort = none :=
  Std.HashMap.getElem?_empty

theorem Legal.extend (h : t.Legal) (sort : String) {new : List String}
    (hnew : ∀ constant ∈ new, legalToken constant = true) : (t.extend sort new).Legal :=
  fun constant hconstant =>
    ((isConstant_extend t sort new constant).1 hconstant).elim (h constant) (hnew constant)

theorem LegalNames.extend (h : t.LegalNames) {sort : String} (hsort : legalToken sort = true)
    (new : List String) : (t.extend sort new).LegalNames := by
  intro name hname
  rw [names_extend] at hname
  split at hname
  · exact h name hname
  · rcases List.mem_append.1 hname with hname | hname
    · exact h name hname
    · rwa [List.mem_singleton.1 hname]

theorem Legal.declared (h : t.Legal) (sort : String) : (t.declared sort).Legal := by
  unfold SortTable.declared
  split
  · exact h
  · exact h.extend sort (by simp)

theorem LegalNames.declared (h : t.LegalNames) {sort : String} (hsort : legalToken sort = true) :
    (t.declared sort).LegalNames := by
  unfold SortTable.declared
  split
  · exact h
  · exact h.extend hsort []

theorem Legal.addElement (h : t.Legal) (sort constant : String) :
    (t.addElement sort constant).2.Legal := by
  have hdeclared := h.declared sort
  rcases t.addElement_cases sort constant with ⟨_, heq⟩ | ⟨_, _, heq⟩ | ⟨_, _, _, heq⟩ |
    ⟨_, hlegal, _, heq⟩
  · rwa [heq]
  · rwa [heq]
  · rwa [heq]
  · rw [heq]
    exact hdeclared.extend sort (by simpa using hlegal)

theorem isDigit_cases {c : Char} (h : c.isDigit = true) :
    Text.isBlank c = false ∧ c ∉ reserved ∧ c ≠ '-' := by
  have hrange : 48 ≤ c.toNat ∧ c.toNat ≤ 57 := by
    simp only [Char.isDigit, Bool.and_eq_true, decide_eq_true_eq, ge_iff_le,
      UInt32.le_iff_toNat_le] at h
    exact h
  refine ⟨?_, ?_, ?_⟩
  · simp only [Text.isBlank, Bool.or_eq_false_iff, Bool.and_eq_false_iff, decide_eq_false_iff_not,
      beq_eq_false_iff_ne]
    omega
  · intro hreserved
    simp only [reserved, List.mem_cons, List.not_mem_nil, or_false] at hreserved
    rcases hreserved with rfl | rfl | rfl | rfl | rfl | rfl | rfl <;> revert hrange <;> decide
  · rintro rfl
    revert hrange
    decide

/-- Digits after a token leave it a token. -/
theorem legalToken_numbered {stem : String} (h : legalToken stem = true) (index : Nat) :
    legalToken (numbered stem index) = true := by
  obtain ⟨hne, hblank, hreserved, hpair⟩ := isToken_iff.1 h
  have hdigits : ∀ c ∈ Nat.toDigits 10 index, c.isDigit = true := fun c hc =>
    Nat.isDigit_of_mem_toDigits (by decide) (by decide) hc
  have hlist : (numbered stem index).toList = stem.toList ++ Nat.toDigits 10 index := by
    rw [numbered, String.toList_append, Nat.toString_eq_repr, Nat.toList_repr]
  obtain ⟨first, rest, hcons⟩ := List.exists_cons_of_ne_nil (Nat.toDigits_ne_nil (n := index) (b := 10))
  rw [hcons] at hdigits hlist
  rw [legalToken, hlist, isToken_iff]
  refine ⟨by simp, fun c hc => ?_, fun c hc => ?_, ?_⟩
  · exact (List.mem_append.1 hc).elim (hblank c) fun hc => (isDigit_cases (hdigits c hc)).1
  · exact (List.mem_append.1 hc).elim (hreserved c) fun hc => (isDigit_cases (hdigits c hc)).2.1
  · have hfirst := (isDigit_cases (hdigits first List.mem_cons_self)).2.2
    refine Text.cutPair?_append hfirst hfirst hpair (Text.cutPair?_of_notMem fun hdash => ?_)
    exact (isDigit_cases (hdigits _ (List.mem_cons_of_mem _ hdash))).2.2 rfl

theorem Legal.fill (h : t.Legal) (sort : String) (count : Nat) :
    (t.fill sort count).2.Legal := by
  rcases t.fill_cases sort count with ⟨_, heq⟩ | ⟨hsort, heq⟩
  · rwa [heq]
  · rw [heq]
    refine Legal.extend (h.declared sort) sort fun name hname => ?_
    obtain ⟨_, index, rfl⟩ := fresh_of_mem_freshNames hname
    exact legalToken_numbered hsort index

theorem Legal.after (h : t.Legal) (call : Call) : (t.after call).Legal := by
  cases call with
  | declare sort =>
    rw [after_declare]
    split
    · exact h.declared sort
    · exact h
  | addElement sort constant => exact h.addElement sort constant
  | fill sort count => exact h.fill sort count
  | addSignature signature => exact h

theorem LegalNames.after (h : t.LegalNames) (call : Call) : (t.after call).LegalNames := by
  cases call with
  | declare sort =>
    rw [after_declare]
    split
    · next hsort => exact h.declared hsort
    · exact h
  | addElement sort constant =>
    show (t.addElement sort constant).2.LegalNames
    rcases t.addElement_cases sort constant with ⟨_, heq⟩ | ⟨hsort, _, heq⟩ | ⟨hsort, _, _, heq⟩ |
      ⟨hsort, _, _, heq⟩
    · rwa [heq]
    · rw [heq]
      exact h.declared hsort
    · rw [heq]
      exact h.declared hsort
    · rw [heq]
      exact (h.declared hsort).extend hsort _
  | fill sort count =>
    show (t.fill sort count).2.LegalNames
    rcases t.fill_cases sort count with ⟨_, heq⟩ | ⟨hsort, heq⟩
    · rwa [heq]
    · rw [heq]
      exact (h.declared hsort).extend hsort _
  | addSignature signature => exact h

theorem legal_foldl_after (calls : List Call) {t : SortTable} (h : t.Legal) (hnames : t.LegalNames) :
    (calls.foldl after t).Legal ∧ (calls.foldl after t).LegalNames := by
  induction calls generalizing t with
  | nil => exact ⟨h, hnames⟩
  | cons call calls ih => exact ih (h.after call) (hnames.after call)

/-! ## Tables that are reached -/

/-- What a table of sorts is to those who use it. -/
structure Indexed (t : SortTable) : Prop where
  nodup_names : (t.sorts.map (·.name)).Nodup
  legal_names : ∀ sort ∈ t.sorts, legalToken sort.name = true
  /-- Exactly the sorts of the table are found under their names. -/
  get?_iff : ∀ name elements, t.get? name = some elements ↔ ⟨name, elements⟩ ∈ t.sorts
  nodup_elements : ∀ sort ∈ t.sorts, sort.elements.toList.Nodup
  legal_elements : ∀ sort ∈ t.sorts, ∀ constant ∈ sort.elements.toList, legalToken constant = true
  contains_iff : ∀ sort ∈ t.sorts, ∀ constant,
    sort.elements.contains constant = true ↔ constant ∈ sort.elements.toList
  isConstant_iff : ∀ constant,
    t.isConstant constant = true ↔ ∃ sort ∈ t.sorts, sort.elements.contains constant = true
  /-- A call adds constants at the end of the sort that it names, which comes last if it is new, or
  it leaves all sorts alone. -/
  appends : ∀ call, (t.after call).listed = t.listed ∨
    ∃ sort new, call.sort? = some sort ∧ (t.after call).listed = appendTo sort new t.listed
  /-- A constant that is taken is added once. -/
  adds : ∀ sort constant, (t.addElement sort constant).1 = .ok () →
    constant ∉ t.elementsOf sort ∧
      (t.addElement sort constant).2.listed = appendTo sort [constant] t.listed
  /-- A sort with a legal name can be filled, with as many new constants as are asked for. -/
  fills : ∀ sort count, legalToken sort = true → ∃ fresh, (t.fill sort count).1 = .ok fresh ∧
    fresh.length = count ∧ fresh.Nodup ∧ (∀ constant ∈ fresh, constant ∉ t.elementsOf sort) ∧
      (t.fill sort count).2.listed = appendTo sort fresh t.listed
  /-- Other sorts cannot be filled. -/
  fills_legal : ∀ sort count fresh, (t.fill sort count).1 = .ok fresh → legalToken sort = true

theorem Legal.indexed (h : t.Legal) (hnames : t.LegalNames) : t.Indexed where
  nodup_names := by
    rw [names_sorts]
    exact t.names.nodup
  legal_names sort hsort := hnames _ (mem_names_iff.2 ⟨_, mem_sorts_iff.1 hsort⟩)
  get?_iff name elements := by rw [mem_sorts_iff]
  nodup_elements sort _ := sort.elements.nodup
  legal_elements sort hsort constant hconstant :=
    h constant ((t.isConstant_iff constant).2 ⟨_, _, mem_sorts_iff.1 hsort, hconstant⟩)
  contains_iff sort _ constant := sort.elements.contains_iff constant
  isConstant_iff constant := by
    rw [t.isConstant_iff]
    constructor
    · rintro ⟨name, roster, hroster, hconstant⟩
      exact ⟨⟨name, roster⟩, mem_sorts_iff.2 hroster, (roster.contains_iff constant).2 hconstant⟩
    · rintro ⟨sort, hsort, hconstant⟩
      exact ⟨_, _, mem_sorts_iff.1 hsort, (sort.elements.contains_iff constant).1 hconstant⟩
  appends := t.listed_after
  adds sort constant hok := by
    rcases t.addElement_cases sort constant with ⟨_, heq⟩ | ⟨_, _, heq⟩ | ⟨_, _, _, heq⟩ |
      ⟨_, _, hfresh, heq⟩
    · rw [heq] at hok
      cases hok
    · rw [heq] at hok
      cases hok
    · rw [heq] at hok
      cases hok
    · rw [heq]
      exact ⟨hfresh, listed_extend_declared (List.nodup_singleton constant) (by simpa using hfresh)⟩
  fills sort count hsort := by
    rcases t.fill_cases sort count with ⟨hillegal, _⟩ | ⟨_, heq⟩
    · rw [hsort] at hillegal
      cases hillegal
    · rw [heq]
      exact ⟨_, rfl, length_freshNames _ _ _, nodup_freshNames _ _ _,
        fun _ => notMem_elementsOf_of_mem_fillNames, t.listed_fillNames sort count⟩
  fills_legal sort count fresh hok := by
    rcases t.fill_cases sort count with ⟨_, heq⟩ | ⟨hsort, _⟩
    · rw [heq] at hok
      cases hok
    · exact hsort

/-- Whatever calls are made from the empty table on, and whether or not they fail, the sorts are
found under their names, and they hold distinct legal constants in the order of the calls. -/
theorem indexed_foldl_after (calls : List Call) : (calls.foldl after {}).Indexed := by
  have hnames : ({} : SortTable).LegalNames := by
    intro sort hsort
    cases hsort
  obtain ⟨hlegal, hnames⟩ := legal_foldl_after calls (legal_of_get?_eq_none get?_empty) hnames
  exact hlegal.indexed hnames

end SortTable

end Groundwork
