import Groundwork.Proofs.Product
import Mathlib.Data.List.Nodup

/-!
# The order of the tuples

A combination of positions, one in each sequence of a product, is read as a number: the lengths of
the sequences are the radices of its digits, and the last position is the least significant one.
The tuples of a product come in the order of these numbers.

* `digits` and `number`: a number below the product of the radices, and digits below their radices,
  determine each other (`number_digits`, `digits_number`), so that each combination of positions
  belongs to one number (`existsUnique_digits`);
* `getElem?_tuples`: the tuple at a number takes from each sequence the element at its digit;
* `nodup_tuples`: no tuple is repeated if no sequence repeats an element;
* `tuples_in_mixed_radix_order`: what this means for a product and its count.

A sequence without elements leaves no number below the product, wherever it stands, and without
sequences there is the number zero, which has no digits.  So neither is a case of its own: what is
said of all numbers is said modulo the product of the radices, which may be zero.
-/

namespace Groundwork.Product

universe u v w

/-! ## Numbers in a mixed radix -/

/-- The digits of a number, the most significant first.  The weight of a digit is the product of
the radices behind it. -/
def digits : List Nat → Nat → List Nat
  | [], _ => []
  | radix :: radices, i => i / radices.prod % radix :: digits radices i

/-- The number with the given digits. -/
def number : List Nat → List Nat → Nat
  | _ :: radices, digit :: rest => digit * radices.prod + number radices rest
  | _, _ => 0

section Digits

variable {radices positions : List Nat} {i : Nat}

theorem number_digits (radices : List Nat) (i : Nat) :
    number radices (digits radices i) = i % radices.prod := by
  induction radices with
  | nil =>
    rw [List.prod_nil, Nat.mod_one]
    rfl
  | cons radix radices ih =>
    rw [digits, number, ih, List.prod_cons, Nat.mul_comm radix, Nat.mod_mul, Nat.add_comm,
      Nat.mul_comm radices.prod]

/-- Digits do not see what is above the most significant of them, nor above digits in front of
it. -/
theorem digits_mod (radices : List Nat) (m i : Nat) :
    digits radices (i % (m * radices.prod)) = digits radices i := by
  induction radices generalizing m with
  | nil => rfl
  | cons radix radices ih =>
    rw [digits, digits, List.prod_cons, ← Nat.mul_assoc, ih, Nat.mod_mul_left_div_self,
      Nat.mod_mul_left_mod]

theorem digits_lt (h : 0 < radices.prod) (i : Nat) :
    List.Forall₂ (· < ·) (digits radices i) radices := by
  induction radices with
  | nil => exact .nil
  | cons radix radices ih =>
    rw [List.prod_cons] at h
    have hradix : 0 < radix := Nat.pos_of_mul_pos_right h
    have hrest : 0 < radices.prod := Nat.pos_of_mul_pos_left h
    exact .cons (Nat.mod_lt _ hradix) (ih hrest)

theorem number_lt (h : List.Forall₂ (· < ·) positions radices) :
    number radices positions < radices.prod := by
  induction h with
  | nil => exact Nat.one_pos
  | @cons position radix positions radices hposition _ ih =>
    rw [number, List.prod_cons]
    calc
      position * radices.prod + number radices positions
          < position * radices.prod + radices.prod := Nat.add_lt_add_left ih _
      _ = (position + 1) * radices.prod := (Nat.succ_mul _ _).symm
      _ ≤ radix * radices.prod := Nat.mul_le_mul_right _ hposition

theorem digits_number (h : List.Forall₂ (· < ·) positions radices) :
    digits radices (number radices positions) = positions := by
  induction h with
  | nil => rfl
  | @cons position radix positions radices hposition hrest ih =>
    have hlt : number radices positions < radices.prod := number_lt hrest
    have hpos : 0 < radices.prod := by omega
    rw [number, digits, Nat.mul_comm position, Nat.mul_add_div hpos, Nat.div_eq_of_lt hlt,
      Nat.add_zero, Nat.mod_eq_of_lt hposition]
    congr 1
    rw [← digits_mod radices 1, Nat.one_mul, Nat.mul_add_mod, Nat.mod_eq_of_lt hlt, ih]

theorem existsUnique_digits (h : List.Forall₂ (· < ·) positions radices) :
    ∃! i, i < radices.prod ∧ digits radices i = positions := by
  refine ⟨number radices positions, ⟨number_lt h, digits_number h⟩, ?_⟩
  intro j hj
  rw [← hj.2, number_digits, Nat.mod_eq_of_lt hj.1]

end Digits

/-! ## Tuples by their numbers -/

variable {α : Type u}

/-- The tuple of the elements at the given positions, one in each sequence. -/
def pick? : List (List α) → List Nat → Option (List α)
  | [], [] => some []
  | choices :: rest, position :: positions =>
    choices[position]?.bind fun a => (pick? rest positions).map (a :: ·)
  | _, _ => none

/-- The tuples with the first element of the first sequence come first, then those with the second
one, and so on.  The induction is on this sequence. -/
theorem getElem?_tuples_cons (choices : List α) (rest : List (List α)) (i : Nat) :
    (tuples (choices :: rest))[i]? =
      choices[i / (tuples rest).length]?.bind fun a =>
        (tuples rest)[i % (tuples rest).length]?.map (a :: ·) := by
  rw [tuples_cons]
  generalize tuples rest = tails
  induction choices generalizing i with
  | nil => simp
  | cons a choices ih =>
    rw [List.flatMap_cons, List.getElem?_append, List.length_map]
    by_cases hlt : i < tails.length
    · rw [if_pos hlt, Nat.div_eq_of_lt hlt, Nat.mod_eq_of_lt hlt, List.getElem?_map]
      rfl
    · rw [if_neg hlt, ih]
      have hle : tails.length ≤ i := Nat.le_of_not_lt hlt
      rcases Nat.eq_zero_or_pos tails.length with hzero | hpos
      · -- Without tails there are no tuples, and the quotient has no meaning.
        simp [List.length_eq_zero_iff.1 hzero]
      · rw [Nat.div_eq_sub_div hpos hle, Nat.mod_eq_sub_mod hle, List.getElem?_cons_succ]

theorem getElem?_tuples_mod (sequences : List (List α)) (i : Nat) :
    (tuples sequences)[i % (sequences.map List.length).prod]? =
      pick? sequences (digits (sequences.map List.length) i) := by
  induction sequences with
  | nil => simp [digits, pick?, Nat.mod_one]
  | cons choices rest ih =>
    rw [getElem?_tuples_cons, length_tuples, List.map_cons, List.prod_cons,
      Nat.mod_mul_left_div_self, Nat.mod_mul_left_mod, ih, digits, pick?]

theorem getElem?_tuples {sequences : List (List α)} {i : Nat}
    (h : i < (sequences.map List.length).prod) :
    (tuples sequences)[i]? = pick? sequences (digits (sequences.map List.length) i) := by
  rw [← getElem?_tuples_mod, Nat.mod_eq_of_lt h]

theorem nodup_tuples {sequences : List (List α)} (h : ∀ choices ∈ sequences, choices.Nodup) :
    (tuples sequences).Nodup := by
  induction sequences with
  | nil => simp
  | cons choices rest ih =>
    obtain ⟨hchoices, hrest⟩ := List.forall_mem_cons.1 h
    rw [tuples_cons, List.nodup_flatMap]
    constructor
    · intro a _
      exact (ih hrest).map List.cons_injective
    · refine hchoices.imp ?_
      intro a b hne tuple ha hb
      obtain ⟨tail, _, rfl⟩ := List.mem_map.1 ha
      obtain ⟨tail', _, heq⟩ := List.mem_map.1 hb
      exact hne (List.cons.inj heq).1.symm

theorem count_of_lt {sequences : List (List α)}
    (h : (sequences.map List.length).prod < 2 ^ 128) :
    count sequences = (sequences.map List.length).prod := by
  rw [count_eq, length_tuples, maxTuples_eq]
  omega

/-- The tuples of a product are as many as the product of the lengths of its sequences, and each
number below takes from each sequence the element at its digit.  Every combination of positions
belongs to one of these numbers, their count is exact as long as counts are told apart, no tuple
is repeated if no sequence repeats an element, and any enumeration runs through them in this
order. -/
theorem tuples_in_mixed_radix_order (sequences : List (List α)) :
    (tuples sequences).length = (sequences.map List.length).prod ∧
      (∀ i < (tuples sequences).length,
        List.Forall₂ (· < ·) (digits (sequences.map List.length) i) (sequences.map List.length) ∧
          number (sequences.map List.length) (digits (sequences.map List.length) i) = i ∧
          (tuples sequences)[i]? = pick? sequences (digits (sequences.map List.length) i)) ∧
      (∀ positions, List.Forall₂ (· < ·) positions (sequences.map List.length) →
        ∃! i, i < (tuples sequences).length ∧
          digits (sequences.map List.length) i = positions) ∧
      ((sequences.map List.length).prod < 2 ^ 128 →
        count sequences = (tuples sequences).length) ∧
      ((∀ choices ∈ sequences, choices.Nodup) → (tuples sequences).Nodup) ∧
      ∀ (σ : Type v) (m : Type v → Type w) [Monad m] [LawfulMonad m] (f : σ → List α → m σ) (s : σ),
        foldM f s sequences = (tuples sequences).foldlM f s := by
  rw [length_tuples]
  refine ⟨rfl, ?_, fun positions => existsUnique_digits, count_of_lt, nodup_tuples, ?_⟩
  · intro i hi
    refine ⟨digits_lt (Nat.zero_lt_of_lt hi) i, ?_, getElem?_tuples hi⟩
    rw [number_digits, Nat.mod_eq_of_lt hi]
  · intro σ m _ _ f s
    exact foldM_eq_foldlM_tuples f s sequences

/-- Sequences that share elements, with a single element in the middle. -/
def letters : List (List String) :=
  [["a", "b"], ["c"], ["a", "b", "d"]]

/-- The fifth of six tuples takes the second element, the only one and again the second. -/
theorem tuples_in_mixed_radix_order_letters :
    4 < (tuples letters).length ∧ (tuples letters)[4]? = some ["b", "c", "b"] ∧
      List.Forall₂ (· < ·) [1, 0, 1] (letters.map List.length) ∧
      (∃! i, i < (tuples letters).length ∧ digits (letters.map List.length) i = [1, 0, 1]) ∧
      (letters.map List.length).prod < 2 ^ 128 ∧ count letters = (tuples letters).length ∧
      (∀ choices ∈ letters, choices.Nodup) ∧ (tuples letters).Nodup ∧
      foldM (fun seen tuple => some (tuple :: seen)) [] letters =
        some (tuples letters).reverse := by
  obtain ⟨hlength, hnumber, hunique, hcount, hnodup, hfold⟩ := tuples_in_mixed_radix_order letters
  have hfifth : 4 < (tuples letters).length := by
    rw [hlength]
    decide
  have hsmall : (letters.map List.length).prod < 2 ^ 128 := by decide
  have hwithin : List.Forall₂ (· < ·) [1, 0, 1] (letters.map List.length) :=
    .cons (by decide) (.cons (by decide) (.cons (by decide) .nil))
  have hdistinct : ∀ choices ∈ letters, choices.Nodup := by decide
  refine ⟨hfifth, (hnumber 4 hfifth).2.2, hwithin, hunique _ hwithin, hsmall, hcount hsmall,
    hdistinct, hnodup hdistinct, ?_⟩
  rw [hfold _ _ _ _]
  decide

end Groundwork.Product
