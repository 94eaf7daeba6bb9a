import Groundwork.Listing
import Mathlib.Data.List.Chain

/-!
# Wrapped listings

A listing is its items in order, cut into groups with a group on each line.  A line is never cut
without need, and never runs over the width unless a single item does.  There is only one way to
cut the items so.

* `isComparisonAtom_iff`, `itemOf?_eq_some_iff`: which literals have an item, and which;
* `wrapped_groupsFrom`: the groups that are cut off one after the other are as they should be;
* `intercalate_wrapFrom`: they are the lines that are written;
* `Wrapped.unique`: the width determines the groups;
* `render_wraps`: what is listed of a model.

A line that is empty counts as one without items, so the lines are only cut as they should be as
long as no item is empty.
-/

namespace Groundwork.Listing

/-! ## Items -/

/-- A ground atom of three words, with an operator between the others. -/
def StatesComparison (text : String) : Prop :=
  ∃ left operator right : String, (operator = "=" ∨ operator = "!=") ∧
    ' ' ∉ left.toList ∧ ' ' ∉ right.toList ∧ text = " ".intercalate [left, operator, right]

theorem notMem_of_mem_splitOn {c : Char} {cs word : List Char} (h : word ∈ cs.splitOn c) :
    c ∉ word := by
  induction cs generalizing word with
  | nil =>
    rw [List.splitOn_nil, List.mem_singleton] at h
    exact h ▸ List.not_mem_nil
  | cons d cs ih =>
    rw [List.splitOn_cons_eq_if_modifyHead] at h
    split at h
    · rcases List.mem_cons.1 h with rfl | h
      · exact List.not_mem_nil
      · exact ih h
    · next hd =>
      cases hsplit : cs.splitOn c with
      | nil => exact absurd hsplit (List.splitOn_ne_nil _ _)
      | cons first rest =>
        rw [hsplit] at h ih
        rcases List.mem_cons.1 h with rfl | h
        · have hne : c ≠ d := fun hcd => hd (beq_iff_eq.2 hcd.symm)
          exact fun hc => (List.mem_cons.1 hc).elim hne (ih List.mem_cons_self)
        · exact ih (List.mem_cons_of_mem _ h)

theorem isComparisonAtom_iff {text : String} :
    isComparisonAtom text = true ↔ StatesComparison text := by
  unfold isComparisonAtom
  constructor
  · intro h
    split at h
    · next left operator right hsplit =>
      have hword : ∀ word ∈ [left, operator, right], ' ' ∉ word := fun word hword =>
        notMem_of_mem_splitOn (hsplit ▸ hword)
      have hjoined : [' '].intercalate (text.toList.splitOn ' ') = text.toList :=
        List.intercalate_splitOn ' '
      rw [hsplit] at hjoined
      refine ⟨String.ofList left, String.ofList operator, String.ofList right, ?_, ?_, ?_, ?_⟩
      · simpa [isOperator] using h
      · simpa using hword left (by simp)
      · simpa using hword right (by simp)
      · apply String.toList_injective
        rw [String.toList_intercalate, ← hjoined]
        simp only [List.map_cons, List.map_nil, String.toList_ofList]
        rfl
    · cases h
  · rintro ⟨left, operator, right, hoperator, hleft, hright, rfl⟩
    have hword : ∀ word ∈ [left, operator, right], ' ' ∉ word.toList := by
      have hmiddle : ' ' ∉ operator.toList := by
        rcases hoperator with rfl | rfl <;> decide
      simp [hleft, hmiddle, hright]
    have hsplit : (" ".intercalate [left, operator, right]).toList.splitOn ' ' =
        [left, operator, right].map String.toList := by
      rw [String.toList_intercalate]
      exact List.splitOn_intercalate ' ' (List.forall_mem_map.2 hword) (List.cons_ne_nil _ _)
    rw [hsplit]
    simpa [isOperator] using hoperator

/-- Comparisons are passed over unless they are asked for. -/
theorem passed_iff {withComparisons : Bool} {text : String} :
    (!withComparisons && isComparisonAtom text) = true ↔
      ¬ (StatesComparison text → withComparisons = true) := by
  rw [← isComparisonAtom_iff, Bool.and_eq_true, Bool.not_eq_true', Classical.not_imp, and_comm,
    Bool.not_eq_true]

/-- The item of a literal, if the flags ask for one. -/
def itemOf? (atoms : AtomTable) (withFalse withComparisons : Bool) (l : Literal) : Option String :=
  (atoms.text? (Literal.atom l)).bind fun text =>
    if !withComparisons && isComparisonAtom text then none
    else if Literal.polarity l then some text
    else if withFalse then some ("not " ++ text)
    else none

theorem items_eq (atoms : AtomTable) (model : List Literal) (withFalse withComparisons : Bool) :
    items atoms model withFalse withComparisons =
      model.filterMap (itemOf? atoms withFalse withComparisons) :=
  rfl

/-- The item that is asked for on a literal: the ground atom of its atom, if that has one.
Comparisons and false atoms have an item on request only, and that of a false atom says so. -/
inductive Shows (atoms : AtomTable) (withFalse withComparisons : Bool) (l : Literal) :
    String → Prop where
  | holds {text : String} (htext : atoms.text? (Literal.atom l) = some text)
      (hcomparison : StatesComparison text → withComparisons = true)
      (htrue : Literal.polarity l = true) : Shows atoms withFalse withComparisons l text
  | fails {text : String} (htext : atoms.text? (Literal.atom l) = some text)
      (hcomparison : StatesComparison text → withComparisons = true)
      (hfalse : Literal.polarity l = false) (hwith : withFalse = true) :
      Shows atoms withFalse withComparisons l ("not " ++ text)

theorem itemOf?_eq_some_iff {atoms : AtomTable} {withFalse withComparisons : Bool} {l : Literal}
    {item : String} :
    itemOf? atoms withFalse withComparisons l = some item ↔
      Shows atoms withFalse withComparisons l item := by
  unfold itemOf?
  constructor
  · intro h
    obtain ⟨text, htext, hitem⟩ := Option.bind_eq_some_iff.1 h
    split at hitem
    · cases hitem
    · next hcomparison =>
      have hcomparison := passed_iff.not_left.1 hcomparison
      split at hitem
      · next htrue =>
        cases hitem
        exact .holds htext hcomparison htrue
      · next hfalse =>
        split at hitem
        · next hwith =>
          cases hitem
          exact .fails htext hcomparison (Bool.eq_false_iff.2 hfalse) hwith
        · cases hitem
  · rintro (⟨htext, hcomparison, htrue⟩ | ⟨htext, hcomparison, hfalse, hwith⟩)
    · rw [htext, Option.bind_some, if_neg (passed_iff.not_left.2 hcomparison), if_pos htrue]
    · rw [htext, Option.bind_some, if_neg (passed_iff.not_left.2 hcomparison),
        if_neg (by simp [hfalse]), if_pos hwith]

theorem ne_empty_of_mem_items {atoms : AtomTable} {model : List Literal}
    {withFalse withComparisons : Bool}
    (hatoms : ∀ atom text, atoms.text? atom = some text → text ≠ "") :
    ∀ item ∈ items atoms model withFalse withComparisons, item ≠ "" := by
  intro item hitem
  rw [items_eq, List.mem_filterMap] at hitem
  obtain ⟨l, _, hshown⟩ := hitem
  cases itemOf?_eq_some_iff.1 hshown with
  | holds htext => exact hatoms _ _ htext
  | fails => simp

/-! ## Groups -/

/-- The items of a group on one line. -/
def lineOf (group : List String) : String :=
  ", ".intercalate group

theorem lineOf_concat {group : List String} (h : group ≠ []) (item : String) :
    lineOf (group ++ [item]) = lineOf group ++ ", " ++ item := by
  rw [lineOf, String.intercalate_append_of_ne_nil h (List.cons_ne_nil _ _),
    String.intercalate_singleton, lineOf]

theorem lineOf_append {group more : List String} (h : group ≠ []) (h' : more ≠ []) :
    lineOf (group ++ more) = lineOf group ++ ", " ++ lineOf more :=
  String.intercalate_append_of_ne_nil h h'

/-- Groups as they are to be: each has an item, and is kept within the width unless it has a
single item; and no group has room for the first item of the next. -/
structure Wrapped (width : Nat) (groups : List (List String)) : Prop where
  nonempty : ∀ group ∈ groups, group ≠ []
  fits : ∀ group ∈ groups, 2 ≤ group.length → (lineOf group ++ ",").length ≤ width
  full : groups.IsChain fun group next =>
    ∀ item ∈ next.head?, width < (lineOf group ++ ", " ++ item ++ ",").length

/-- The groups of items, of which some are in the first group already. -/
def groupsFrom (width : Nat) (group : List String) : List String → List (List String)
  | [] => [group]
  | item :: rest =>
    if width < (lineOf group ++ ", " ++ item ++ ",").length then
      group :: groupsFrom width [item] rest
    else groupsFrom width (group ++ [item]) rest

theorem groupsFrom_ne_nil (width : Nat) (group items : List String) :
    groupsFrom width group items ≠ [] := by
  induction items generalizing group with
  | nil => exact List.cons_ne_nil _ _
  | cons item rest ih =>
    unfold groupsFrom
    split
    · exact List.cons_ne_nil _ _
    · exact ih _

theorem flatten_groupsFrom (width : Nat) (group items : List String) :
    (groupsFrom width group items).flatten = group ++ items := by
  induction items generalizing group with
  | nil => simp [groupsFrom]
  | cons item rest ih =>
    unfold groupsFrom
    split
    · rw [List.flatten_cons, ih, List.singleton_append]
    · rw [ih, List.append_assoc, List.singleton_append]

/-- The first group goes on from the items that it has. -/
theorem head?_groupsFrom {width : Nat} {group items first : List String}
    (h : first ∈ (groupsFrom width group items).head?) : group <+: first := by
  induction items generalizing group with
  | nil =>
    cases h
    exact List.prefix_rfl
  | cons item rest ih =>
    unfold groupsFrom at h
    split at h
    · cases h
      exact List.prefix_rfl
    · exact (List.prefix_append _ _).trans (ih h)

theorem wrapped_groupsFrom {width : Nat} {group : List String} (hne : group ≠ [])
    (hfits : 2 ≤ group.length → (lineOf group ++ ",").length ≤ width) (items : List String) :
    Wrapped width (groupsFrom width group items) := by
  induction items generalizing group with
  | nil =>
    refine ⟨?_, ?_, List.isChain_singleton _⟩
    · simpa [groupsFrom] using hne
    · simpa [groupsFrom] using hfits
  | cons item rest ih =>
    unfold groupsFrom
    split
    · next hfull =>
      have hrest := ih (List.cons_ne_nil item []) fun h => by simp at h
      refine ⟨List.forall_mem_cons.2 ⟨hne, hrest.nonempty⟩,
        List.forall_mem_cons.2 ⟨hfits, hrest.fits⟩, hrest.full.cons fun next hnext => ?_⟩
      obtain ⟨more, rfl⟩ := head?_groupsFrom hnext
      intro first hfirst
      cases hfirst
      exact hfull
    · next hroom =>
      refine ih (by simp) fun _ => ?_
      rw [lineOf_concat hne]
      exact Nat.le_of_not_lt hroom

/-! ## Lines -/

theorem wrapFrom_ne_nil {width used : Nat} {line : String} (h : line ≠ "") (items : List String) :
    wrapFrom width line used items ≠ [] := by
  induction items generalizing line used with
  | nil => simp [wrapFrom, h]
  | cons item rest ih =>
    unfold wrapFrom
    rw [if_neg (by simpa using h)]
    split
    · exact List.cons_ne_nil _ _
    · exact ih (by simp)

/-- The count of characters that is kept beside a line is that of the line. -/
theorem intercalate_wrapFrom (width : Nat) {group : List String} (hne : group ≠ [])
    (hline : lineOf group ≠ "") {items : List String} (hitems : ∀ item ∈ items, item ≠ "") :
    "\n".intercalate (wrapFrom width (lineOf group) (lineOf group).length items) =
      ",\n".intercalate ((groupsFrom width group items).map lineOf) := by
  induction items generalizing group with
  | nil => simp [wrapFrom, groupsFrom, hline, String.intercalate_singleton]
  | cons item rest ih =>
    obtain ⟨hitem, hrest⟩ := List.forall_mem_cons.1 hitems
    have hwidth : (lineOf group ++ ", " ++ item ++ ",").length =
        (lineOf group).length + 2 + item.length + 1 := by
      simp only [String.length_append]
      rfl
    have hnewline : ",\n" = "," ++ "\n" := rfl
    unfold wrapFrom groupsFrom
    rw [if_neg (by simpa using hline), hwidth]
    split
    · have hsingle : lineOf [item] = item := String.intercalate_singleton
      have ih := ih (List.cons_ne_nil item []) (by rwa [hsingle]) hrest
      rw [hsingle] at ih
      rw [String.intercalate_cons_of_ne_nil (wrapFrom_ne_nil hitem rest), List.map_cons,
        String.intercalate_cons_of_ne_nil (by simpa using groupsFrom_ne_nil _ _ _), ih]
      simp only [hnewline, String.append_assoc]
    · have hgroup : group ++ [item] ≠ [] := by simp
      have ih := ih hgroup (by simp [lineOf_concat hne]) hrest
      have hused : (lineOf (group ++ [item])).length = (lineOf group).length + 2 + item.length := by
        simp only [lineOf_concat hne, String.length_append]
        rfl
      rwa [hused, lineOf_concat hne] at ih

/-! ## Only one way to cut -/

/-- A group that goes on behind another one has room for its next item. -/
theorem length_lineOf_le {group more : List String} {item : String} (h : group ≠ []) :
    (lineOf group ++ ", " ++ item ++ ",").length ≤
      (lineOf (group ++ item :: more) ++ ",").length := by
  cases more with
  | nil => rw [lineOf_concat h]
  | cons next more =>
    rw [← List.singleton_append, ← List.append_assoc,
      lineOf_append (by simp) (List.cons_ne_nil next more), lineOf_concat h]
    simp only [String.length_append]
    omega

/-- If a group that is cut off is the beginning of another one, they are the same. -/
theorem Wrapped.eq_nil_of_append {width : Nat} {group more : List String}
    {groups others : List (List String)} (h : Wrapped width (group :: groups))
    (h' : Wrapped width ((group ++ more) :: others))
    (hflatten : groups.flatten = more ++ others.flatten) : more = [] := by
  cases more with
  | nil => rfl
  | cons item more =>
    have hgroup := h.nonempty group List.mem_cons_self
    cases groups with
    | nil => simp at hflatten
    | cons next groups =>
      have hnext := h.nonempty next (by simp)
      have hfirst : item ∈ next.head? := by
        cases next with
        | nil => exact absurd rfl hnext
        | cons first next =>
          simp only [List.flatten_cons, List.cons_append, List.cons.injEq] at hflatten
          exact congrArg some hflatten.1
      have hfull := (List.isChain_cons_cons.1 h.full).1 item hfirst
      -- One group was cut off before an item for which the other has room.
      have hfits := h'.fits _ List.mem_cons_self (by
        have := List.length_pos_iff.2 hgroup
        simp only [List.length_append, List.length_cons]
        omega)
      exact absurd (Nat.lt_of_lt_of_le hfull ((length_lineOf_le hgroup).trans hfits))
        (Nat.lt_irrefl _)

theorem Wrapped.tail {width : Nat} {group : List String} {groups : List (List String)}
    (h : Wrapped width (group :: groups)) : Wrapped width groups where
  nonempty := (List.forall_mem_cons.1 h.nonempty).2
  fits := (List.forall_mem_cons.1 h.fits).2
  full := h.full.tail

theorem Wrapped.unique {width : Nat} {groups others : List (List String)}
    (h : Wrapped width groups) (h' : Wrapped width others)
    (hflatten : groups.flatten = others.flatten) : groups = others := by
  induction groups generalizing others with
  | nil =>
    cases others with
    | nil => rfl
    | cons other others => exact absurd hflatten (by simp [h'.nonempty other])
  | cons group groups ih =>
    cases others with
    | nil => exact absurd hflatten (by simp [h.nonempty group])
    | cons other others =>
      have hsame : group = other := by
        rw [List.flatten_cons, List.flatten_cons] at hflatten
        rcases List.append_eq_append_iff.1 hflatten with ⟨more, rfl, hrest⟩ | ⟨more, rfl, hrest⟩
        · rw [h.eq_nil_of_append h' hrest, List.append_nil]
        · rw [h'.eq_nil_of_append h hrest, List.append_nil]
      subst hsame
      rw [ih h.tail h'.tail (List.append_cancel_left hflatten)]

/-! ## Listings -/

/-- The groups of items. -/
def groupsOf (width : Nat) : List String → List (List String)
  | [] => []
  | item :: rest => groupsFrom width [item] rest

theorem wrapped_groupsOf (width : Nat) (items : List String) :
    Wrapped width (groupsOf width items) := by
  cases items with
  | nil => exact ⟨by simp [groupsOf], by simp [groupsOf], List.isChain_nil⟩
  | cons item rest => exact wrapped_groupsFrom (List.cons_ne_nil _ _) (fun h => by simp at h) rest

theorem flatten_groupsOf (width : Nat) (items : List String) :
    (groupsOf width items).flatten = items := by
  cases items with
  | nil => rfl
  | cons item rest => exact flatten_groupsFrom width [item] rest

theorem wrap_eq {width : Nat} {items : List String} (h : ∀ item ∈ items, item ≠ "") :
    wrap width items = ",\n".intercalate ((groupsOf width items).map lineOf) := by
  cases items with
  | nil => rfl
  | cons item rest =>
    obtain ⟨hitem, hrest⟩ := List.forall_mem_cons.1 h
    have hsingle : lineOf [item] = item := String.intercalate_singleton
    have hlines := intercalate_wrapFrom width (List.cons_ne_nil item [])
      (by rwa [hsingle]) hrest
    rw [hsingle] at hlines
    unfold wrap wrapFrom
    rw [if_pos (by rfl)]
    exact hlines

/-- A model is listed as the items that are asked for, in its order, cut into groups in the only
way in which no line is too long without need and none is cut without need. -/
theorem render_wraps {atoms : AtomTable}
    (hatoms : ∀ atom text, atoms.text? atom = some text → text ≠ "") (model : List Literal)
    (withFalse withComparisons : Bool) (width : Nat) :
    ∃ (item? : Literal → Option String) (groups : List (List String)),
      (∀ l item, item? l = some item ↔ Shows atoms withFalse withComparisons l item) ∧
      groups.flatten = model.filterMap item? ∧ Wrapped width groups ∧
      render atoms model withFalse withComparisons width =
        ",\n".intercalate (groups.map (", ".intercalate ·)) ∧
      ∀ others : List (List String), others.flatten = model.filterMap item? →
        Wrapped width others → others = groups := by
  refine ⟨itemOf? atoms withFalse withComparisons,
    groupsOf width (items atoms model withFalse withComparisons), fun _ _ => itemOf?_eq_some_iff,
    flatten_groupsOf _ _, wrapped_groupsOf _ _, wrap_eq (ne_empty_of_mem_items hatoms), ?_⟩
  intro others hflatten hwrapped
  exact hwrapped.unique (wrapped_groupsOf _ _) (hflatten.trans (flatten_groupsOf _ _).symm)

/-- Atoms of which one is a comparison. -/
def phrases : AtomTable where
  entries := #[some { text := "leaf n1" }, some { text := "left of n1 n2" },
    some { text := "n1 != n2" }, some { text := "phrase n2" }]
  index := .ofList [("leaf n1", 1), ("left of n1 n2", 2), ("n1 != n2", 3), ("phrase n2", 4)]

theorem phrases_ne_empty (atom : Nat) (text : String) (h : phrases.text? atom = some text) :
    text ≠ "" := by
  obtain ⟨entry, hentry, rfl⟩ := Option.map_eq_some_iff.1 h
  cases atom with
  | zero => cases hentry
  | succ n =>
    have hmem := Array.mem_of_getElem? (Option.join_eq_some_iff.1 hentry)
    have hmem : entry.text ∈ ["leaf n1", "left of n1 n2", "n1 != n2", "phrase n2"] := by
      simp only [phrases, List.mem_toArray, List.mem_cons, Option.some.injEq, List.not_mem_nil,
        or_false] at hmem
      rcases hmem with rfl | rfl | rfl | rfl <;> decide
    intro hempty
    rw [hempty] at hmem
    exact absurd hmem (by decide)

/-- The first line takes the whole width, and the second one would take one character more. -/
theorem render_wraps_phrases :
    (∀ atom text, phrases.text? atom = some text → text ≠ "") ∧
    ∃ groups : List (List String),
      groups.flatten = ["leaf n1", "left of n1 n2", "n1 != n2", "not phrase n2"] ∧
      Wrapped 23 groups ∧
      render phrases [1, 2, 3, -4] true true 23 =
        ",\n".intercalate (groups.map (", ".intercalate ·)) ∧
      groups = [["leaf n1", "left of n1 n2"], ["n1 != n2"], ["not phrase n2"]] := by
  obtain ⟨item?, groups, hitem, hflatten, hwrapped, hrender, hunique⟩ :=
    render_wraps phrases_ne_empty [1, 2, 3, -4] true true 23
  have hitems : List.filterMap item? [1, 2, 3, -4] =
      ["leaf n1", "left of n1 n2", "n1 != n2", "not phrase n2"] := by
    rw [List.filterMap_cons_some ((hitem _ _).2 (.holds rfl (fun _ => rfl) (by decide))),
      List.filterMap_cons_some ((hitem _ _).2 (.holds rfl (fun _ => rfl) (by decide))),
      List.filterMap_cons_some ((hitem _ _).2 (.holds rfl (fun _ => rfl) (by decide))),
      List.filterMap_cons_some ((hitem _ _).2 (.fails rfl (fun _ => rfl) (by decide) rfl)),
      List.filterMap_nil]
    rfl
  rw [hitems] at hflatten hunique
  refine ⟨phrases_ne_empty, groups, hflatten, hwrapped, hrender, (hunique _ rfl ?_).symm⟩
  exact ⟨by decide, by decide, by decide⟩

end Groundwork.Listing
