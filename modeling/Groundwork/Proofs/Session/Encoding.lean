import Groundwork.Proofs.AtomTable
import Groundwork.Proofs.Distinct
import Groundwork.Proofs.Running
import Groundwork.Session.Unfolding
import Mathlib.Data.List.Dedup

/-!
# Encoding ground clauses

A pass meets ground atoms one after the other, each with the predicates of its rule.
What the table becomes does not depend on how they are spread over clauses and rules:
`Encodes` says that a computation meets a given list of mentions, stops only when the
numbers run out, and reads its result off the table at the end.

* `known_meetAll`, `get?_meetAll_of_known`: what was met is known, and keeps its number;
* `predicateOf_meetAll`: a ground atom has the first predicate that fits it;
* `largest_meetAll`: only ground atoms that are new need numbers;
* `get?_meetAll_eq_some_iff`: those get the next numbers, in order of first occurrence;
* `encodes_encodeGrounded`: the clauses of a rule are its signed atoms, read off the
  table.
-/

namespace Groundwork

/-- A ground atom, with the predicates among which its own is looked for. -/
structure Mention where
  text : String
  predicates : List String
deriving DecidableEq, Repr

/-- The clauses of a grounded rule, as lists of signed ground atoms. -/
def Grounded.signed (grounded : Grounded) : List (List (String × Bool)) :=
  grounded.clauses.toList.map fun clause => clause.signedAtoms grounded.kind

namespace AtomTable

/-! ## Predicates -/

theorem adoptPredicate_eq (t : AtomTable) (atom : Nat) (predicates : List String) :
    t.adoptPredicate atom predicates = t ∨
      ∃ predicate, t.adoptPredicate atom predicates = (t.setPredicate atom predicate).2 := by
  unfold adoptPredicate
  split
  · split
    · next predicate _ => exact Or.inr ⟨predicate, rfl⟩
    · exact Or.inl rfl
  · exact Or.inl rfl

theorem adoptPredicate_index (t : AtomTable) (atom : Nat) (predicates : List String) :
    (t.adoptPredicate atom predicates).index = t.index := by
  rcases adoptPredicate_eq t atom predicates with heq | ⟨predicate, heq⟩
  · rw [heq]
  · rw [heq, setPredicate_index]

theorem largest_adoptPredicate (t : AtomTable) (atom : Nat) (predicates : List String) :
    (t.adoptPredicate atom predicates).largest = t.largest := by
  rcases adoptPredicate_eq t atom predicates with heq | ⟨predicate, heq⟩
  · rw [heq]
  · rw [heq, largest_setPredicate]

theorem Sound.adoptPredicate {t : AtomTable} (h : t.Sound) (atom : Nat)
    (predicates : List String) : (t.adoptPredicate atom predicates).Sound := by
  rcases adoptPredicate_eq t atom predicates with heq | ⟨predicate, heq⟩
  · rw [heq]
    exact h
  · rw [heq]
    exact h.setPredicate atom predicate

/-- Only the atom itself changes: it gets the first predicate that fits, if it has none. -/
theorem entry?_adoptPredicate (t : AtomTable) (atom : Nat) (predicates : List String)
    (other : Nat) :
    entry? (t.adoptPredicate atom predicates) other =
      (t.entry? other).map fun entry =>
        if other = atom then
          { entry with predicate := entry.predicate.or (predicates.find? (fits entry.text)) }
        else entry := by
  by_cases hsame : other = atom
  · subst hsame
    simp only [if_true]
    unfold adoptPredicate
    cases hentry : t.entry? other with
    | none => exact hentry
    | some entry =>
      obtain ⟨text, predicate⟩ := entry
      cases predicate with
      | some predicate => exact hentry
      | none =>
        cases hfind : predicates.find? (fits text) with
        | none =>
          simp only [hfind, hentry, Option.map_some]
          rfl
        | some predicate =>
          have hfits : fits text predicate = true := List.find?_some hfind
          simp only [hfind, entry?_setPredicate, hentry, Option.map_some, hfits]
          rfl
  · simp only [if_neg hsame]
    rcases adoptPredicate_eq t atom predicates with heq | ⟨predicate, heq⟩
    · rw [heq, Option.map_id']
    · rw [heq, entry?_setPredicate]
      simp [hsame]

/-- The predicate that is recorded for a ground atom. -/
def predicateOf (t : AtomTable) (text : String) : Option String :=
  (t.get? text).bind t.predicate?

theorem predicateOf_eq {t : AtomTable} {text : String} {atom : Nat} {entry : AtomEntry}
    (hget : t.get? text = some atom) (hentry : t.entry? atom = some entry) :
    t.predicateOf text = entry.predicate := by
  rw [predicateOf, hget, Option.bind_some, predicate?, hentry, Option.bind_some]

theorem predicateOf_eq_none {t : AtomTable} {text : String} (h : t.get? text = none) :
    t.predicateOf text = none := by
  rw [predicateOf, h, Option.bind_none]

theorem Sound.exists_entry {t : AtomTable} (h : t.Sound) {text : String} {atom : Nat}
    (hget : t.get? text = some atom) : ∃ entry, t.entry? atom = some entry ∧ entry.text = text :=
  text?_eq_some_iff.1 ((h.get?_iff text atom).1 hget)

/-- An entry is known from its ground atom and from the predicate of that. -/
theorem Sound.entry?_eq_some_iff {t : AtomTable} (h : t.Sound) {atom : Nat} {text : String}
    {predicate : Option String} :
    t.entry? atom = some { text, predicate } ↔
      t.text? atom = some text ∧ t.predicateOf text = predicate := by
  constructor
  · intro hentry
    have htext : t.text? atom = some text := text?_eq_some_iff.2 ⟨_, hentry, rfl⟩
    exact ⟨htext, predicateOf_eq ((h.get?_iff _ _).2 htext) hentry⟩
  · rintro ⟨htext, hpredicate⟩
    obtain ⟨⟨_, found⟩, hentry, rfl⟩ := text?_eq_some_iff.1 htext
    rw [predicateOf_eq ((h.get?_iff _ _).2 htext) hentry] at hpredicate
    rw [hentry, ← hpredicate]

theorem Sound.text_injective {t : AtomTable} (h : t.Sound) {text other : String} {atom : Nat}
    (hget : t.get? text = some atom) (hother : t.get? other = some atom) : text = other := by
  have htext := (h.get?_iff _ _).1 hget
  rw [(h.get?_iff _ _).1 hother, Option.some.injEq] at htext
  exact htext.symm

theorem predicateOf_record {t : AtomTable} (h : t.Sound) (text other : String) :
    (t.record text).predicateOf other = t.predicateOf other := by
  cases hother : t.get? other with
  | some atom =>
    obtain ⟨entry, hentry, _⟩ := h.exists_entry hother
    have hle := (h.le_largest hother).2
    have hget : (t.record text).get? other = some atom := by
      rw [get?_record]
      split
      · next hsame =>
        rw [numberOf, ← hsame, hother]
        rfl
      · exact hother
    have hrecord : entry? (t.record text) atom = some entry := by
      rw [entry?_record, if_neg (by omega), hentry]
    rw [predicateOf_eq hget hrecord, predicateOf_eq hother hentry]
  | none =>
    rw [predicateOf_eq_none hother]
    by_cases hsame : other = text
    · subst hsame
      have hget : (t.record other).get? other = some (t.largest + 1) := by
        rw [get?_record, if_pos rfl, numberOf, hother]
        rfl
      have hentry : entry? (t.record other) (t.largest + 1) = some { text := other } := by
        rw [entry?_record, if_pos ⟨hother, rfl⟩]
      exact predicateOf_eq hget hentry
    · refine predicateOf_eq_none ?_
      rw [get?_record, if_neg hsame, hother]

theorem predicateOf_adoptPredicate {t : AtomTable} (h : t.Sound) {text : String} {atom : Nat}
    (hget : t.get? text = some atom) (predicates : List String) (other : String) :
    (t.adoptPredicate atom predicates).predicateOf other =
      (t.predicateOf other).or
        (if other = text then predicates.find? (fits other) else none) := by
  have hindex : (t.adoptPredicate atom predicates).get? other = t.get? other := by
    rw [get?, adoptPredicate_index]
    rfl
  cases hother : t.get? other with
  | none =>
    have hne : other ≠ text := by
      rintro rfl
      rw [hother] at hget
      cases hget
    rw [predicateOf_eq_none hother, predicateOf_eq_none (hindex.trans hother), if_neg hne]
    rfl
  | some number =>
    obtain ⟨entry, hentry, rfl⟩ := h.exists_entry hother
    have hadopted := entry?_adoptPredicate t atom predicates number
    rw [hentry, Option.map_some] at hadopted
    rw [predicateOf_eq hother hentry, predicateOf_eq (hindex.trans hother) hadopted]
    by_cases hsame : entry.text = text
    · rw [← hsame, hother, Option.some.injEq] at hget
      rw [if_pos hget, if_pos hsame]
    · have hne : number ≠ atom := by
        rintro rfl
        exact hsame (h.text_injective hother hget)
      rw [if_neg hne, if_neg hsame, Option.or_none]

/-! ## One mention -/

/-- The table after a mention, whether or not the numbers run out. -/
def meet (t : AtomTable) (m : Mention) : AtomTable :=
  (t.record m.text).adoptPredicate (t.numberOf m.text) m.predicates

theorem get?_meet (t : AtomTable) (m : Mention) (text : String) :
    (t.meet m).get? text = if text = m.text then some (t.numberOf m.text) else t.get? text := by
  rw [← get?_record, get?, meet, adoptPredicate_index]
  rfl

theorem largest_meet (t : AtomTable) (m : Mention) :
    (t.meet m).largest = if (t.get? m.text).isSome then t.largest else t.largest + 1 := by
  rw [meet, largest_adoptPredicate, largest_record]

theorem Sound.meet {t : AtomTable} (h : t.Sound) (m : Mention) : (t.meet m).Sound :=
  (h.record m.text).adoptPredicate _ _

theorem get?_meet_of_known {t : AtomTable} {text : String} {atom : Nat}
    (h : t.get? text = some atom) (m : Mention) : (t.meet m).get? text = some atom := by
  rw [get?_meet]
  split
  · next hsame =>
    rw [numberOf, ← hsame, h]
    rfl
  · exact h

theorem predicateOf_meet {t : AtomTable} (h : t.Sound) (m : Mention) (text : String) :
    (t.meet m).predicateOf text =
      (t.predicateOf text).or
        (if text = m.text then m.predicates.find? (fits text) else none) := by
  have hget : (t.record m.text).get? m.text = some (t.numberOf m.text) := by
    rw [get?_record, if_pos rfl]
  rw [meet, predicateOf_adoptPredicate (h.record m.text) hget, predicateOf_record h]

/-! ## All mentions -/

/-- The table after mentions, one after the other. -/
def meetAll (t : AtomTable) (mentions : List Mention) : AtomTable :=
  mentions.foldl meet t

theorem meetAll_append (t : AtomTable) (mentions later : List Mention) :
    t.meetAll (mentions ++ later) = (t.meetAll mentions).meetAll later :=
  List.foldl_append

theorem Sound.meetAll {t : AtomTable} (h : t.Sound) (mentions : List Mention) :
    (t.meetAll mentions).Sound := by
  induction mentions generalizing t with
  | nil => exact h
  | cons m mentions ih => exact ih (h.meet m)

theorem get?_meetAll_of_known {t : AtomTable} {text : String} {atom : Nat}
    (h : t.get? text = some atom) (mentions : List Mention) :
    (t.meetAll mentions).get? text = some atom := by
  induction mentions generalizing t with
  | nil => exact h
  | cons m mentions ih => exact ih (get?_meet_of_known h m)

theorem known_meetAll (t : AtomTable) (mentions : List Mention) (text : String) :
    ((t.meetAll mentions).get? text).isSome ↔
      (t.get? text).isSome ∨ text ∈ mentions.map Mention.text := by
  induction mentions generalizing t with
  | nil => simp [meetAll]
  | cons m mentions ih =>
    show ((meetAll (t.meet m) mentions).get? text).isSome ↔ _
    rw [ih, get?_meet, List.map_cons, List.mem_cons]
    by_cases hsame : text = m.text
    · simp [hsame]
    · simp [hsame]

/-- The predicate of a ground atom is the first that fits it among those it was met with. -/
def firstFitting (mentions : List Mention) (text : String) : Option String :=
  mentions.findSome? fun m =>
    if text = m.text then m.predicates.find? (fits text) else none

theorem predicateOf_meetAll {t : AtomTable} (h : t.Sound) (mentions : List Mention)
    (text : String) :
    (t.meetAll mentions).predicateOf text = (t.predicateOf text).or (firstFitting mentions text) := by
  induction mentions generalizing t with
  | nil => exact (Option.or_none).symm
  | cons m mentions ih =>
    show (meetAll (t.meet m) mentions).predicateOf text = _
    rw [ih (h.meet m), predicateOf_meet h, Option.or_assoc]
    congr 1
    unfold firstFitting
    rw [List.findSome?_cons]
    cases (if text = m.text then m.predicates.find? (fits text) else none) <;> rfl

/-- A mention changes nothing if its ground atom is known, and no predicate is left for it. -/
theorem Sound.meet_eq_self {t : AtomTable} (h : t.Sound) {m : Mention}
    (hknown : (t.get? m.text).isSome)
    (hnone : t.predicateOf m.text = none → m.predicates.find? (fits m.text) = none) :
    t.meet m = t := by
  obtain ⟨atom, hget⟩ := Option.isSome_iff_exists.1 hknown
  obtain ⟨⟨_, predicate⟩, hentry, rfl⟩ := h.exists_entry hget
  rw [predicateOf_eq hget hentry] at hnone
  have hrecord : t.record m.text = t := by
    rw [AtomTable.record, hget]
  rw [AtomTable.meet, hrecord, numberOf, hget, Option.getD_some, AtomTable.adoptPredicate, hentry]
  cases predicate with
  | some predicate => rfl
  | none => simp only [hnone rfl]

/-- Mentions that were met change nothing when they are met again. -/
theorem Sound.meetAll_meetAll {t : AtomTable} (h : t.Sound) (mentions : List Mention) :
    (t.meetAll mentions).meetAll mentions = t.meetAll mentions := by
  have hself : ∀ m ∈ mentions, (t.meetAll mentions).meet m = t.meetAll mentions := by
    intro m hm
    refine (h.meetAll mentions).meet_eq_self ?_ fun hnone => ?_
    · exact (known_meetAll _ _ _).2 (.inr (List.mem_map_of_mem hm))
    · rw [predicateOf_meetAll h, Option.or_eq_none_iff] at hnone
      have hfirst := List.findSome?_eq_none_iff.1 hnone.2 m hm
      rwa [if_pos rfl] at hfirst
  generalize t.meetAll mentions = u at hself
  induction mentions with
  | nil => rfl
  | cons m mentions ih =>
    show (u.meet m).meetAll mentions = u
    rw [hself m List.mem_cons_self]
    exact ih fun m' hm' => hself m' (List.mem_cons_of_mem _ hm')

/-- Every predicate that is recorded fits its ground atom. -/
def Fitting (t : AtomTable) : Prop :=
  ∀ text predicate, t.predicateOf text = some predicate → fits text predicate = true

theorem fitting_empty : Fitting {} := by
  intro text predicate h
  rw [predicateOf_eq_none Std.HashMap.getElem?_empty] at h
  cases h

theorem fits_of_firstFitting {mentions : List Mention} {text predicate : String}
    (h : firstFitting mentions text = some predicate) : fits text predicate = true := by
  obtain ⟨m, _, hm⟩ := List.exists_of_findSome?_eq_some h
  split at hm
  · exact List.find?_some hm
  · cases hm

theorem Fitting.meetAll {t : AtomTable} (h : t.Fitting) (hsound : t.Sound)
    (mentions : List Mention) : (t.meetAll mentions).Fitting := by
  intro text predicate hpredicate
  rw [predicateOf_meetAll hsound, Option.or_eq_some_iff] at hpredicate
  rcases hpredicate with hold | ⟨_, hnew⟩
  · exact h text predicate hold
  · exact fits_of_firstFitting hnew

/-- A ground atom that is not withdrawn keeps its predicate. -/
theorem predicateOf_rollback {t : AtomTable} (h : t.Sound) {bound : Nat} {text : String}
    (hknown : ((t.rollback bound).get? text).isSome) :
    (t.rollback bound).predicateOf text = t.predicateOf text := by
  obtain ⟨atom, hget⟩ := Option.isSome_iff_exists.1 hknown
  obtain ⟨hold, hle⟩ := (get?_rollback_iff h).1 hget
  rw [predicateOf, predicateOf, hget, hold, Option.bind_some, Option.bind_some, predicate?,
    entry?_rollback, if_pos hle]
  rfl

theorem known_of_predicateOf {t : AtomTable} {text predicate : String}
    (h : t.predicateOf text = some predicate) : (t.get? text).isSome := by
  obtain ⟨atom, hget, _⟩ := Option.bind_eq_some_iff.1 h
  exact Option.isSome_iff_exists.2 ⟨atom, hget⟩

theorem Fitting.rollback {t : AtomTable} (h : t.Fitting) (hsound : t.Sound) (bound : Nat) :
    (t.rollback bound).Fitting := by
  intro text predicate hpredicate
  rw [predicateOf_rollback hsound (known_of_predicateOf hpredicate)] at hpredicate
  exact h text predicate hpredicate

theorem largest_le_meetAll (t : AtomTable) (mentions : List Mention) :
    t.largest ≤ (t.meetAll mentions).largest := by
  induction mentions generalizing t with
  | nil => exact Nat.le_refl _
  | cons m mentions ih =>
    refine Nat.le_trans ?_ (ih (t.meet m))
    rw [largest_meet]
    split <;> omega

theorem largest_meetAll_le (t : AtomTable) (mentions : List Mention) :
    (t.meetAll mentions).largest ≤ t.largest + mentions.length := by
  induction mentions generalizing t with
  | nil => exact Nat.le_refl _
  | cons m mentions ih =>
    have hstep : (t.meet m).largest ≤ t.largest + 1 := by
      rw [largest_meet]
      split <;> omega
    have hrest := ih (t.meet m)
    show (meetAll (t.meet m) mentions).largest ≤ t.largest + (mentions.length + 1)
    omega

/-- The ground atoms among the mentions that need a number, each once. -/
def fresh (t : AtomTable) (mentions : List Mention) : List String :=
  ((mentions.map Mention.text).filter fun text => (t.get? text).isNone).eraseDups

/-- After a mention, its ground atom needs no number any more. -/
theorem fresh_cons (t : AtomTable) (m : Mention) (mentions : List Mention) :
    t.fresh (m :: mentions) =
      (if (t.get? m.text).isNone then [m.text] else []) ++ (t.meet m).fresh mentions := by
  unfold fresh
  rw [List.map_cons]
  cases hget : t.get? m.text with
  | some atom =>
    have hsame : ∀ text, ((t.meet m).get? text).isNone = (t.get? text).isNone := by
      intro text
      rw [get?_meet]
      split
      · next hsame =>
        rw [hsame, hget]
        rfl
      · rfl
    rw [List.filter_cons_of_neg (by simp [hget])]
    simp [hsame]
  | none =>
    have hsame : ∀ text, ((t.meet m).get? text).isNone =
        ((t.get? text).isNone && !(text == m.text)) := by
      intro text
      rw [get?_meet]
      split
      · next hsame => simp [hsame]
      · next hne => simp [hne]
    rw [List.filter_cons_of_pos (by simp [hget]), List.eraseDups_cons, List.filter_filter]
    simp [hsame, Bool.and_comm]

theorem largest_meetAll (t : AtomTable) (mentions : List Mention) :
    (t.meetAll mentions).largest = t.largest + (t.fresh mentions).length := by
  induction mentions generalizing t with
  | nil => rfl
  | cons m mentions ih =>
    show (meetAll (t.meet m) mentions).largest = _
    rw [ih, largest_meet, fresh_cons, List.length_append]
    cases t.get? m.text with
    | some atom => simp
    | none =>
      simp
      omega

/-- Numbers are given in order of first occurrence. -/
theorem get?_meetAll_of_fresh {t : AtomTable} {mentions : List Mention} {i : Nat} {text : String}
    (h : (t.fresh mentions)[i]? = some text) :
    (t.meetAll mentions).get? text = some (t.largest + 1 + i) := by
  induction mentions generalizing t i with
  | nil => simp [fresh] at h
  | cons m mentions ih =>
    show (meetAll (t.meet m) mentions).get? text = _
    rw [fresh_cons] at h
    cases hget : t.get? m.text with
    | some atom =>
      rw [hget] at h
      rw [ih h, largest_meet, hget]
      rfl
    | none =>
      rw [hget] at h
      cases i with
      | zero =>
        cases h
        refine get?_meetAll_of_known ?_ mentions
        rw [get?_meet, if_pos rfl, numberOf, hget]
        rfl
      | succ i =>
        have hlater : ((t.meet m).fresh mentions)[i]? = some text := by simpa using h
        have hlargest : (t.meet m).largest = t.largest + 1 := by
          rw [largest_meet, hget]
          rfl
        rw [ih hlater, hlargest]
        congr 1
        omega

/-- A pass keeps the numbers that were given and gives the next ones, and no others. -/
theorem get?_meetAll_eq_some_iff (t : AtomTable) (mentions : List Mention) (text : String)
    (atom : Nat) :
    (t.meetAll mentions).get? text = some atom ↔
      t.get? text = some atom ∨
        ∃ i, (t.fresh mentions)[i]? = some text ∧ atom = t.largest + 1 + i := by
  constructor
  · intro h
    cases hold : t.get? text with
    | some before =>
      rw [get?_meetAll_of_known hold] at h
      exact Or.inl h
    | none =>
      have hmet : text ∈ mentions.map Mention.text := by
        have hknown := (known_meetAll t mentions text).1 (by rw [h]; rfl)
        rw [hold] at hknown
        simpa using hknown
      have hfresh : text ∈ t.fresh mentions := by
        rw [fresh, List.mem_eraseDups, List.mem_filter, hold]
        exact ⟨hmet, rfl⟩
      obtain ⟨i, hi⟩ := List.mem_iff_getElem?.1 hfresh
      rw [get?_meetAll_of_fresh hi, Option.some.injEq] at h
      exact Or.inr ⟨i, hi, h.symm⟩
  · rintro (hold | ⟨i, hi, rfl⟩)
    · exact get?_meetAll_of_known hold mentions
    · exact get?_meetAll_of_fresh hi

theorem nodup_fresh (t : AtomTable) (mentions : List Mention) : (t.fresh mentions).Nodup :=
  nodup_eraseDups _

/-- How many numbers are needed does not depend on the order of the mentions. -/
theorem largest_meetAll_congr (t : AtomTable) {mentions mentions' : List Mention}
    (h : ∀ text, text ∈ mentions.map Mention.text ↔ text ∈ mentions'.map Mention.text) :
    (t.meetAll mentions).largest = (t.meetAll mentions').largest := by
  have hperm : (t.fresh mentions).Perm (t.fresh mentions') := by
    refine (List.perm_ext_iff_of_nodup (nodup_fresh _ _) (nodup_fresh _ _)).2 fun text => ?_
    simp only [fresh, List.mem_eraseDups, List.mem_filter, h]
  rw [largest_meetAll, largest_meetAll, hperm.length_eq]

/-! ## Computations -/

/-- The literal of a signed ground atom that is known. -/
def literalOf (t : AtomTable) (signed : String × Bool) : Literal :=
  Literal.ofAtom ((t.get? signed.1).getD 0) signed.2

/-- The computation meets the mentions in their order, and its result can be read off the
table then and later.  It only stops on the way when the numbers run out. -/
structure Encodes {α : Type} (m : AtomM α) (mentions : List Mention) (result : AtomTable → α) :
    Prop where
  run : ∀ t : AtomTable, t.Sound → t.largest ≤ maxAtom → (t.meetAll mentions).largest ≤ maxAtom →
    exec m t = (.ok (result (t.meetAll mentions)), t.meetAll mentions)
  stop : ∀ t : AtomTable, t.Sound → t.largest ≤ maxAtom →
    ¬ (t.meetAll mentions).largest ≤ maxAtom →
    ∃ met, met <+: mentions ∧ exec m t = (.error .atomsExhausted, t.meetAll met) ∧
      (t.meetAll met).largest ≤ maxAtom
  stable : ∀ (t : AtomTable) (later : List Mention),
    (∀ x ∈ mentions, (t.get? x.text).isSome) → result (t.meetAll later) = result t

theorem largest_meetAll_singleton (t : AtomTable) (m : Mention) :
    (t.meetAll [m]).largest = (t.record m.text).largest :=
  largest_adoptPredicate _ _ _

/-- A ground atom for which no number is left changes nothing. -/
theorem exec_encodeAtom_error {t : AtomTable} (hle : t.largest ≤ maxAtom)
    {predicates : List String} {signed : String × Bool}
    (hroom : ¬ (t.meetAll [⟨signed.1, predicates⟩]).largest ≤ maxAtom) :
    exec (encodeAtom predicates signed) t = (.error .atomsExhausted, t) := by
  rw [largest_meetAll_singleton] at hroom
  unfold encodeAtom
  refine exec_bind_error ?_
  rw [exec_mk, intern_eq hle, if_neg hroom]

theorem encodes_encodeAtom (predicates : List String) (signed : String × Bool) :
    Encodes (encodeAtom predicates signed) [⟨signed.1, predicates⟩]
      fun t => t.literalOf signed := by
  refine ⟨?_, ?_, ?_⟩
  · intro t _ hle hroom
    rw [largest_meetAll_singleton] at hroom
    unfold encodeAtom
    rw [exec_bind_ok (a := t.numberOf signed.1) (t := t.record signed.1)]
    · have hget : (t.meetAll [⟨signed.1, predicates⟩]).get? signed.1 =
          some (t.numberOf signed.1) := by
        show (t.meet ⟨signed.1, predicates⟩).get? signed.1 = _
        rw [get?_meet, if_pos rfl]
      rw [literalOf, hget, Option.getD_some]
      rfl
    · rw [exec_mk, intern_eq hle, if_pos hroom]
  · intro t _ hle hroom
    exact ⟨[], List.nil_prefix, exec_encodeAtom_error hle hroom, hle⟩
  · intro t later hknown
    obtain ⟨atom, hget⟩ := Option.isSome_iff_exists.1 (hknown _ List.mem_cons_self)
    rw [literalOf, literalOf, get?_meetAll_of_known hget, hget]

/-- The induction is on the list; the first result stays as it was read while the rest is
encoded. -/
theorem Encodes.mapM {α β : Type} {f : α → AtomM β} {mentions : α → List Mention}
    {result : AtomTable → α → β} (h : ∀ a, Encodes (f a) (mentions a) fun t => result t a)
    (l : List α) : Encodes (l.mapM f) (l.flatMap mentions) fun t => l.map (result t) := by
  induction l with
  | nil =>
    refine ⟨fun t _ _ _ => rfl, fun t _ hle hroom => absurd hle hroom, fun _ _ _ => rfl⟩
  | cons a l ih =>
    have hsplit : ∀ t : AtomTable, t.meetAll ((a :: l).flatMap mentions) =
        (t.meetAll (mentions a)).meetAll (l.flatMap mentions) := by
      intro t
      rw [List.flatMap_cons, meetAll_append]
    refine ⟨?_, ?_, ?_⟩
    · intro t ht hle hroom
      rw [hsplit] at hroom ⊢
      have hroom' := Nat.le_trans (largest_le_meetAll _ _) hroom
      have hfirst := (h a).run t ht hle hroom'
      have hrest := ih.run _ (ht.meetAll (mentions a)) hroom' hroom
      have hknown : ∀ x ∈ mentions a, ((t.meetAll (mentions a)).get? x.text).isSome := by
        intro x hx
        exact (known_meetAll _ _ _).2 (Or.inr (List.mem_map_of_mem hx))
      have hstable := (h a).stable (t.meetAll (mentions a)) (l.flatMap mentions) hknown
      rw [List.mapM_cons, exec_bind_ok hfirst, exec_bind_ok hrest, exec_pure, List.map_cons,
        hstable]
    · intro t ht hle hroom
      rw [hsplit] at hroom
      by_cases hroom' : (t.meetAll (mentions a)).largest ≤ maxAtom
      · have hfirst := (h a).run t ht hle hroom'
        obtain ⟨met, hbegins, hstop, hmet⟩ := ih.stop _ (ht.meetAll (mentions a)) hroom' hroom
        refine ⟨mentions a ++ met, ?_, ?_, ?_⟩
        · rw [List.flatMap_cons]
          exact (List.prefix_append_right_inj _).2 hbegins
        · rw [List.mapM_cons, exec_bind_ok hfirst, exec_bind_error hstop, meetAll_append]
        · rwa [meetAll_append]
      · obtain ⟨met, hbegins, hstop, hmet⟩ := (h a).stop t ht hle hroom'
        refine ⟨met, ?_, by rw [List.mapM_cons, exec_bind_error hstop], hmet⟩
        rw [List.flatMap_cons]
        exact hbegins.trans (List.prefix_append _ _)
    · intro t later hknown
      rw [List.flatMap_cons] at hknown
      have hfirst := (h a).stable t later fun x hx => hknown x (List.mem_append_left _ hx)
      have hrest := ih.stable t later fun x hx => hknown x (List.mem_append_right _ hx)
      rw [List.map_cons, List.map_cons, hfirst, hrest]

/-- The mentions of a ground clause. -/
def mentionsOfClause (kind : RuleKind) (predicates : List String) (clause : GroundClause) :
    List Mention :=
  (clause.signedAtoms kind).map fun signed => ⟨signed.1, predicates⟩

/-- The mentions of a grounded rule. -/
def mentionsOf (grounded : Grounded) : List Mention :=
  grounded.clauses.toList.flatMap (mentionsOfClause grounded.kind grounded.predicates)

theorem encodes_encodeClause (kind : RuleKind) (predicates : List String)
    (clause : GroundClause) :
    Encodes (encodeClause kind predicates clause) (mentionsOfClause kind predicates clause)
      fun t => (clause.signedAtoms kind).map t.literalOf := by
  have h := Encodes.mapM (encodes_encodeAtom predicates) (clause.signedAtoms kind)
  rwa [← List.map_eq_flatMap] at h

theorem encodes_encodeGrounded (grounded : Grounded) :
    Encodes (encodeGrounded grounded) (mentionsOf grounded)
      fun t => grounded.signed.map fun signed => signed.map t.literalOf := by
  have h := Encodes.mapM (encodes_encodeClause grounded.kind grounded.predicates)
    grounded.clauses.toList
  simp only [Grounded.signed, List.map_map]
  exact h

end AtomTable

end Groundwork
