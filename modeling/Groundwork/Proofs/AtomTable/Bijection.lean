import Groundwork.Proofs.Relation.Fitting
import Groundwork.Proofs.Session.Installing

/-!
# The table of atoms after any calls

A table of atoms is used through five calls.  Given pairings may leave numbers open and fill
them later, and a rollback may cut the table off in between, so a table that is reached need
not be dense.  It is still a bijection between the ground atoms it knows and the numbers it has
issued, and the predicate that it records for an atom belongs to the ground atom which has the
number now.

* `Kept.after`: what a single call keeps;
* `Kept.bijection`: what this says of a table, as it is seen from outside;
* `bijection_foldl_after`: the tables that are reached from the empty one.
-/

namespace Groundwork.AtomTable

variable {t : AtomTable}

/-! ## Calls -/

/-- A call that changes a table. -/
inductive Call where
  | intern (text : String)
  | insertAt (text : String) (atom bound : Nat)
  | setPredicate (atom : Nat) (predicate : String)
  | rollback (atom : Nat)
  | clear
deriving DecidableEq, Repr

/-- Whether the call takes numbers back. -/
def Call.withdraws : Call → Bool
  | .rollback _ | .clear => true
  | _ => false

/-- The table after a call, also if the call fails. -/
def after (t : AtomTable) : Call → AtomTable
  | .intern text => (t.intern text).2
  | .insertAt text atom bound =>
    match t.insertAt text atom bound with
    | .ok u => u
    | .error _ => t
  | .setPredicate atom predicate => (t.setPredicate atom predicate).2
  | .rollback atom => t.rollback atom
  | .clear => {}

/-! ## What a call keeps -/

/-- What every call keeps: index and entries agree, numbers are within bounds, and predicates fit
their ground atoms. -/
structure Kept (t : AtomTable) : Prop where
  sound : t.Sound
  largest_le : t.largest ≤ maxAtom
  fitting : t.Fitting

theorem kept_empty : Kept {} :=
  ⟨sound_empty, Nat.zero_le _, fitting_empty⟩

theorem Fitting.record (h : t.Fitting) (hsound : t.Sound) (text : String) :
    (t.record text).Fitting := by
  intro other predicate hpredicate
  rw [predicateOf_record hsound] at hpredicate
  exact h other predicate hpredicate

theorem Fitting.insertAt {u : AtomTable} (hfitting : t.Fitting) (hsound : t.Sound) {text : String}
    {atom bound : Nat} (h : t.insertAt text atom bound = .ok u) : u.Fitting := by
  intro other predicate hpredicate
  rw [predicateOf_insertAt hsound h] at hpredicate
  exact hfitting other predicate hpredicate

theorem Fitting.setPredicate (h : t.Fitting) (hsound : t.Sound) (atom : Nat) (predicate : String) :
    (t.setPredicate atom predicate).2.Fitting := by
  rcases setPredicate_cases t atom predicate with heq | ⟨entry, hentry, hfits⟩
  · rw [heq]
    exact h
  · have hget : t.get? entry.text = some atom :=
      (hsound.get?_iff _ _).2 (text?_eq_some_iff.2 ⟨entry, hentry, rfl⟩)
    intro text found hfound
    rw [predicateOf_setPredicate hsound hget hfits] at hfound
    split at hfound
    · next hsame =>
      cases hfound
      rw [hsame]
      exact hfits
    · exact h text found hfound

theorem Kept.intern (h : t.Kept) (text : String) : (t.intern text).2.Kept := by
  rw [intern_eq h.largest_le]
  split
  · next hroom => exact ⟨h.sound.record text, hroom, h.fitting.record h.sound text⟩
  · exact h

theorem Kept.insertAt {u : AtomTable} (h : t.Kept) {text : String} {atom bound : Nat}
    (hinsert : t.insertAt text atom bound = .ok u) : u.Kept := by
  obtain ⟨⟨_, hatom, _⟩, _, _⟩ := insertAt_eq_ok_iff.1 hinsert
  refine ⟨h.sound.insertAt hinsert, ?_, h.fitting.insertAt h.sound hinsert⟩
  rw [largest_insertAt hinsert]
  exact Nat.max_le.2 ⟨h.largest_le, hatom⟩

theorem Kept.rollback (h : t.Kept) (atom : Nat) : (t.rollback atom).Kept := by
  refine ⟨h.sound.rollback atom, ?_, h.fitting.rollback h.sound atom⟩
  rw [largest_rollback]
  exact Nat.le_trans (Nat.min_le_left _ _) h.largest_le

theorem Kept.after (h : t.Kept) (call : Call) : (t.after call).Kept := by
  cases call with
  | intern text => exact h.intern text
  | insertAt text atom bound =>
    show (match t.insertAt text atom bound with | .ok u => u | .error _ => t).Kept
    cases hinsert : t.insertAt text atom bound with
    | ok u => exact h.insertAt hinsert
    | error e => exact h
  | setPredicate atom predicate =>
    refine ⟨h.sound.setPredicate atom predicate, ?_, h.fitting.setPredicate h.sound atom predicate⟩
    show (t.setPredicate atom predicate).2.largest ≤ maxAtom
    rw [largest_setPredicate]
    exact h.largest_le
  | rollback atom => exact h.rollback atom
  | clear => exact kept_empty

theorem kept_foldl_after (calls : List Call) (h : t.Kept) : (calls.foldl after t).Kept := by
  induction calls generalizing t with
  | nil => exact h
  | cons call calls ih => exact ih (h.after call)

/-- A number that is known changes in no call but those which take numbers back. -/
theorem Kept.get?_after (h : t.Kept) {call : Call} (hcall : call.withdraws = false)
    {text : String} {atom : Nat} (hget : t.get? text = some atom) :
    (t.after call).get? text = some atom := by
  cases call with
  | intern other =>
    show (t.intern other).2.get? text = some atom
    rw [intern_eq h.largest_le]
    split
    · show (t.record other).get? text = some atom
      rw [get?_record]
      split
      · next hsame => rw [numberOf, ← hsame, hget, Option.getD_some]
      · exact hget
    · exact hget
  | insertAt other number bound =>
    show (match t.insertAt other number bound with | .ok u => u | .error _ => t).get? text = some atom
    cases hinsert : t.insertAt other number bound with
    | ok u =>
      obtain ⟨_, ⟨hnone, _⟩, _⟩ := insertAt_eq_ok_iff.1 hinsert
      have hne : text ≠ other := by
        rintro rfl
        rw [hget] at hnone
        cases hnone
      exact (get?_insertAt hinsert text).trans ((if_neg hne).trans hget)
    | error e => exact hget
  | setPredicate number predicate =>
    show (t.setPredicate number predicate).2.index[text]? = some atom
    rw [setPredicate_index]
    exact hget
  | rollback _ => cases hcall
  | clear => cases hcall

/-- A ground atom that is new gets the number above all others, and comes without a predicate. -/
theorem Kept.intern_new (h : t.Kept) {text : String} {atom : Nat} (hnew : t.get? text = none)
    (hintern : (t.intern text).1 = .ok atom) :
    (t.intern text).2.get? text = some atom ∧ (t.intern text).2.predicate? atom = none ∧
      t.largest < atom := by
  have hnumber : t.numberOf text = t.largest + 1 := by
    rw [numberOf, hnew, Option.getD_none]
  rw [intern_eq h.largest_le] at hintern ⊢
  split at hintern
  · next hroom =>
    cases hintern
    rw [if_pos hroom]
    refine ⟨?_, ?_, by omega⟩
    · show (t.record text).get? text = _
      rw [get?_record, if_pos rfl]
    · show (t.record text).predicate? (t.numberOf text) = none
      rw [predicate?, entry?_record, if_pos ⟨hnew, hnumber⟩, Option.bind_some]
  · cases hintern

/-! ## The list of atoms -/

/-- The atoms with their texts, in the order in which they are listed. -/
def listed (t : AtomTable) : List (Nat × String) :=
  t.toList.map fun (atom, entry) => (atom, entry.text)

theorem mem_listed_iff {atom : Nat} {text : String} :
    (atom, text) ∈ t.listed ↔ t.text? atom = some text := by
  rw [listed, List.mem_map, text?_eq_some_iff]
  constructor
  · rintro ⟨⟨number, entry⟩, hmem, heq⟩
    cases heq
    exact ⟨entry, mem_toList_iff.1 hmem, rfl⟩
  · rintro ⟨entry, hentry, rfl⟩
    exact ⟨(atom, entry), mem_toList_iff.2 hentry, rfl⟩

/-- Open numbers are left out, and those that remain stay in order. -/
theorem pairwise_toList (t : AtomTable) : t.toList.Pairwise fun a b => a.1 < b.1 := by
  have hnumbers : (t.entries.toList.zipIdx 1).Pairwise fun a b => a.2 < b.2 := by
    apply List.pairwise_map.1
    rw [List.zipIdx_map_snd]
    exact List.pairwise_lt_range' 1
  refine List.pairwise_filterMap.2 (hnumbers.imp ?_)
  intro a b hlt x hx y hy
  obtain ⟨_, _, rfl⟩ := Option.map_eq_some_iff.1 hx
  obtain ⟨_, _, rfl⟩ := Option.map_eq_some_iff.1 hy
  exact hlt

theorem nodup_atoms (t : AtomTable) : (t.toList.map Prod.fst).Nodup :=
  List.pairwise_map.2 (t.pairwise_toList.imp fun hlt => Nat.ne_of_lt hlt)

theorem Sound.nodup_texts (h : t.Sound) : (t.toList.map fun listed => listed.2.text).Nodup := by
  refine t.nodup_atoms.of_map.map_on fun listed hlisted other hother hsame => ?_
  have hget := h.get?_of_mem_toList hlisted
  rw [hsame, h.get?_of_mem_toList hother, Option.some.injEq] at hget
  exact List.inj_on_of_nodup_map t.nodup_atoms hlisted hother hget.symm

/-- The index holds as many ground atoms as are listed, also while numbers are open. -/
theorem Sound.size_eq_length (h : t.Sound) : t.size = t.toList.length := by
  have hperm : t.numbers.Perm (t.toList.map Prod.fst) := by
    refine (List.perm_ext_iff_of_nodup h.nodup_numbers t.nodup_atoms).2 fun atom => ?_
    rw [mem_numbers_iff, List.mem_map]
    constructor
    · rintro ⟨text, hget⟩
      obtain ⟨entry, hentry, _⟩ := h.exists_entry hget
      exact ⟨(atom, entry), mem_toList_iff.2 hentry, rfl⟩
    · rintro ⟨⟨_, entry⟩, hmem, rfl⟩
      exact ⟨entry.text, h.get?_of_mem_toList hmem⟩
  have hlength := hperm.length_eq
  rw [numbers, List.length_map, Std.HashMap.length_keys, List.length_map] at hlength
  exact hlength

/-! ## Where the predicate ends -/

/-- The text is the predicate and a rest, cut at a position which lies within the text and between
characters.  The rest is empty or goes on with a space. -/
def CutAt (text predicate rest : String) : Prop :=
  ∃ position : text.Pos, position.offset.byteIdx = predicate.utf8ByteSize ∧
    position.Splits predicate rest ∧ (rest = "" ∨ rest.startsWith " " = true)

theorem cutAt_of_fits {text predicate : String} (h : fits text predicate = true) :
    ∃ rest, CutAt text predicate rest := by
  obtain ⟨_, hbegins⟩ := fits_iff.1 h
  have hstart : predicate.toList <+: text.toList := by
    refine List.prefix_of_prefix_length_le ((List.prefix_append _ _).trans hbegins)
      (List.prefix_append _ [' ']) ?_
    have hlength := hbegins.length_le
    rw [List.length_append, List.length_append] at hlength
    omega
  obtain ⟨rest, hrest⟩ := hstart
  have htext : text = predicate ++ String.ofList rest := by
    rw [← String.toList_inj, String.toList_append, String.toList_ofList, hrest]
  have hvalid : String.Pos.Raw.IsValid text predicate.rawEndPos :=
    String.Pos.Raw.isValid_iff_exists_append.2 ⟨_, _, htext, rfl⟩
  refine ⟨String.ofList rest, ⟨predicate.rawEndPos, hvalid⟩, rfl, ⟨htext, rfl⟩, ?_⟩
  rw [← hrest, List.append_assoc, List.prefix_append_right_inj] at hbegins
  cases rest with
  | nil => exact Or.inl rfl
  | cons c rest =>
    rw [List.cons_append, List.cons_prefix_cons] at hbegins
    refine Or.inr (String.startsWith_string_iff.2 ⟨rest, ?_⟩)
    rw [← hbegins.1]
    exact String.toList_ofList.symm

/-- The words of a text that are not empty. -/
def wordsOf (text : String) : List String :=
  ((text.toList.splitOn ' ').filter fun word => !word.isEmpty).map String.ofList

/-- The arguments are the words behind the cut. -/
theorem arguments_of_cutAt {atom : Nat} {text predicate rest : String}
    (hentry : t.entry? atom = some { text, predicate := some predicate })
    (hcut : CutAt text predicate rest) : t.arguments atom = wordsOf rest := by
  obtain ⟨_, _, hsplits, _⟩ := hcut
  have hdrop : text.toList.drop predicate.length = rest.toList := by
    rw [hsplits.eq_append, String.toList_append, ← String.length_toList, List.drop_left]
  unfold arguments wordsOf
  rw [hentry]
  dsimp only
  rw [hdrop]

/-! ## Bijections -/

/-- What a table is to those who use it. -/
structure Bijection (t : AtomTable) : Prop where
  get?_iff : ∀ text atom, t.get? text = some atom ↔ t.text? atom = some text
  inRange : ∀ text atom, t.get? text = some atom → 1 ≤ atom ∧ atom ≤ maxAtom
  /-- Exactly the issued pairs are listed. -/
  mem_listed : ∀ text atom, (atom, text) ∈ t.listed ↔ t.get? text = some atom
  /-- The atoms in the list increase, so each pair is listed once. -/
  increasing : t.listed.Pairwise fun pair later => pair.1 < later.1
  size_eq : t.size = t.listed.length
  /-- A predicate can be cut off the ground atom of its atom, and the arguments are read behind
  the cut. -/
  cut : ∀ atom predicate, t.predicate? atom = some predicate → predicate ≠ "" ∧
    ∃ text rest, t.text? atom = some text ∧ CutAt text predicate rest ∧
      t.arguments atom = wordsOf rest
  /-- A new ground atom gets an atom larger than every issued one, and has no predicate yet. -/
  fresh : ∀ text atom, t.get? text = none → (t.intern text).1 = .ok atom →
    (t.intern text).2.get? text = some atom ∧ (t.intern text).2.predicate? atom = none ∧
      ∀ other issued, t.get? other = some issued → issued < atom
  /-- The atom of a known text stays unless numbers are taken back. -/
  kept : ∀ call text atom, call.withdraws = false → t.get? text = some atom →
    (t.after call).get? text = some atom

theorem Kept.cut (h : t.Kept) {atom : Nat} {predicate : String}
    (hpredicate : t.predicate? atom = some predicate) : predicate ≠ "" ∧
      ∃ text rest, t.text? atom = some text ∧ CutAt text predicate rest ∧
        t.arguments atom = wordsOf rest := by
  obtain ⟨⟨text, recorded⟩, hentry, hrecorded⟩ := Option.bind_eq_some_iff.1 hpredicate
  have hrecorded : recorded = some predicate := hrecorded
  rw [hrecorded] at hentry
  obtain ⟨htext, hof⟩ := h.sound.entry?_eq_some_iff.1 hentry
  have hfits := h.fitting text predicate hof
  obtain ⟨rest, hcut⟩ := cutAt_of_fits hfits
  exact ⟨(fits_iff.1 hfits).1, text, rest, htext, hcut, arguments_of_cutAt hentry hcut⟩

theorem Kept.bijection (h : t.Kept) : t.Bijection where
  get?_iff := h.sound.get?_iff
  inRange text atom hget := by
    obtain ⟨hpos, hle⟩ := h.sound.le_largest hget
    exact ⟨hpos, Nat.le_trans hle h.largest_le⟩
  mem_listed text atom := by rw [mem_listed_iff, h.sound.get?_iff]
  increasing := List.pairwise_map.2 t.pairwise_toList
  size_eq := by rw [h.sound.size_eq_length, listed, List.length_map]
  cut _ _ := h.cut
  fresh text atom hnew hintern := by
    obtain ⟨hget, hpredicate, hlt⟩ := h.intern_new hnew hintern
    refine ⟨hget, hpredicate, fun other issued hissued => ?_⟩
    exact Nat.lt_of_le_of_lt (h.sound.le_largest hissued).2 hlt
  kept _ _ _ hcall hget := h.get?_after hcall hget

/-- Whatever calls are made from the empty table on, and whether or not they fail, the table is a
bijection. -/
theorem bijection_foldl_after (calls : List Call) : (calls.foldl after {}).Bijection :=
  (kept_foldl_after calls kept_empty).bijection

end Groundwork.AtomTable
