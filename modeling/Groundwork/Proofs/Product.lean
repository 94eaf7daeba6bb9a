import Groundwork.Product
import Mathlib.Algebra.BigOperators.Group.List.Basic
import Mathlib.Data.List.Perm.Basic
import Mathlib.Logic.Function.Basic

/-!
# Tuples of a product

An enumeration runs through the tuples one after the other, whatever is done with
each of them (`foldM_eq_foldlM_tuples`).  Their number is the product of the lengths of the
sequences (`length_tuples`), and it is what is counted beforehand, up to saturation (`count_eq`).

When the sequences of a product are rearranged, so are its tuples.  A tuple is
then seen as a valuation of positions: `valuations` lists those of a product whose
sequences have positions as keys, and `valuations_perm` says that the order of the
keys does not matter.  `map_positions_perm` is what follows for tuples.
-/

namespace Groundwork.Product

universe u v w

variable {α : Type u}

/-! ## Enumeration -/

theorem foldlM_congr {β : Type u} {σ : Type v} {m : Type v → Type w} [Monad m] {f f' : σ → β → m σ}
    {l : List β} (h : ∀ b ∈ l, ∀ s, f s b = f' s b) (s : σ) : l.foldlM f s = l.foldlM f' s := by
  induction l generalizing s with
  | nil => rfl
  | cons b l ih =>
    obtain ⟨hb, hl⟩ := List.forall_mem_cons.1 h
    rw [List.foldlM_cons, List.foldlM_cons, hb]
    exact bind_congr (ih hl)

section Enumeration

variable {σ : Type v} {m : Type v → Type w} [Monad m] [LawfulMonad m]

theorem foldlM_flatMap {β : Type u} (f : σ → β → m σ) (g : α → List β) (l : List α) (s : σ) :
    (l.flatMap g).foldlM f s = l.foldlM (fun s a => (g a).foldlM f s) s := by
  induction l generalizing s with
  | nil => rfl
  | cons a l ih => simp [ih]

/-- The induction is on the sequences whose elements are not chosen yet. -/
theorem foldM_go (f : σ → List α → m σ) (sequences : List (List α)) (chosen : List α) (s : σ) :
    foldM.go f sequences chosen s =
      ((tuples sequences).map (chosen.reverse ++ ·)).foldlM f s := by
  induction sequences generalizing chosen s with
  | nil => simp [foldM.go]
  | cons choices rest ih =>
    rw [foldM.go, tuples_cons, List.map_flatMap, foldlM_flatMap]
    congr 1
    funext s a
    rw [ih, List.map_map]
    congr 2
    funext tail
    simp

theorem tuples_of_any_isEmpty {sequences : List (List α)}
    (h : sequences.any List.isEmpty = true) : tuples sequences = [] := by
  induction sequences with
  | nil => simp at h
  | cons choices rest ih =>
    rw [tuples_cons]
    rw [List.any_cons, Bool.or_eq_true] at h
    rcases h with h | h
    · rw [List.isEmpty_iff.1 h, List.flatMap_nil]
    · simp [ih h]

theorem foldM_eq_foldlM_tuples (f : σ → List α → m σ) (s : σ) (sequences : List (List α)) :
    foldM f s sequences = (tuples sequences).foldlM f s := by
  unfold foldM
  split
  · next h => rw [tuples_of_any_isEmpty h, List.foldlM_nil]
  · next h => rw [foldM_go, List.reverse_nil, List.map_congr_left fun _ _ => List.nil_append _,
      List.map_id']

/-- Only what is done with the tuples of the product counts. -/
theorem foldM_congr {f f' : σ → List α → m σ} {sequences : List (List α)}
    (h : ∀ tuple ∈ tuples sequences, ∀ s, f s tuple = f' s tuple) (s : σ) :
    foldM f s sequences = foldM f' s sequences := by
  rw [foldM_eq_foldlM_tuples, foldM_eq_foldlM_tuples, foldlM_congr h]

end Enumeration

/-- A tuple takes one element from each sequence. -/
theorem mem_tuples_iff {sequences : List (List α)} {tuple : List α} :
    tuple ∈ tuples sequences ↔ List.Forall₂ (fun choices a => a ∈ choices) sequences tuple := by
  induction sequences generalizing tuple with
  | nil => rw [tuples_nil, List.mem_singleton, List.forall₂_nil_left_iff]
  | cons choices rest ih =>
    simp only [tuples_cons, List.mem_flatMap, List.mem_map, List.forall₂_cons_left_iff, ih]
    constructor
    · intro h
      obtain ⟨a, ha, tail, htail, rfl⟩ := h
      exact ⟨a, tail, ha, htail, rfl⟩
    · intro h
      obtain ⟨a, tail, ha, htail, rfl⟩ := h
      exact ⟨a, ha, tail, htail, rfl⟩

/-! ## Counts -/

theorem length_tuples_cons (choices : List α) (rest : List (List α)) :
    (tuples (choices :: rest)).length = choices.length * (tuples rest).length := by
  rw [tuples_cons]
  induction choices with
  | nil => simp
  | cons a choices ih => simp [ih, Nat.add_mul, Nat.add_comm]

theorem length_tuples (sequences : List (List α)) :
    (tuples sequences).length = (sequences.map List.length).prod := by
  induction sequences with
  | nil => simp
  | cons choices rest ih => rw [length_tuples_cons, ih, List.map_cons, List.prod_cons]

theorem maxTuples_eq : maxTuples = 2 ^ 128 - 1 :=
  rfl

theorem saturatingMul_min (m n : Nat) :
    saturatingMul (min m maxTuples) n = saturatingMul m n := by
  unfold saturatingMul
  rcases Nat.le_total m maxTuples with hm | hm
  · rw [Nat.min_eq_left hm]
  · rw [Nat.min_eq_right hm]
    cases n with
    | zero => simp
    | succ n =>
      have hlow : maxTuples ≤ maxTuples * (n + 1) := Nat.le_mul_of_pos_right _ n.succ_pos
      have hhigh : maxTuples * (n + 1) ≤ m * (n + 1) := Nat.mul_le_mul_right _ hm
      rw [Nat.min_eq_right hlow, Nat.min_eq_right (Nat.le_trans hlow hhigh)]

/-- The factors after the first ones are multiplied in one by one, and the count saturates on
the way if it does at the end. -/
theorem foldl_saturatingMul (sequences : List (List α)) {n : Nat} (hn : n ≤ maxTuples) :
    sequences.foldl (fun n choices => saturatingMul n choices.length) n =
      saturatingMul n (tuples sequences).length := by
  induction sequences generalizing n with
  | nil => simp [saturatingMul, hn]
  | cons choices rest ih =>
    have hstep : saturatingMul n choices.length ≤ maxTuples := Nat.min_le_right _ _
    rw [List.foldl_cons, ih hstep, length_tuples_cons]
    show saturatingMul (min (n * choices.length) maxTuples) _ = _
    rw [saturatingMul_min, saturatingMul, saturatingMul, Nat.mul_assoc]

/-- A count is the number of tuples, as far as numbers are told apart. -/
theorem count_eq (sequences : List (List α)) :
    count sequences = min (tuples sequences).length maxTuples := by
  rw [count, foldl_saturatingMul sequences (by decide), saturatingMul, Nat.one_mul]

theorem saturatingMul_count {β : Type u} (sequences : List (List α)) (others : List (List β)) :
    saturatingMul (count sequences) (count others) =
      min ((tuples sequences).length * (tuples others).length) maxTuples := by
  rw [count_eq, count_eq, saturatingMul_min, saturatingMul, Nat.mul_comm]
  show saturatingMul (min _ maxTuples) _ = _
  rw [saturatingMul_min, saturatingMul, Nat.mul_comm]

/-- A product has tuples if none of its sequences is empty. -/
theorem length_tuples_pos {sequences : List (List α)} (h : ∀ choices ∈ sequences, choices ≠ []) :
    0 < (tuples sequences).length := by
  induction sequences with
  | nil => simp
  | cons choices rest ih =>
    rw [length_tuples_cons]
    refine Nat.mul_pos (List.length_pos_iff.2 (h choices List.mem_cons_self)) (ih fun c hc => ?_)
    exact h c (List.mem_cons_of_mem _ hc)

/-! ## Rearranged sequences -/

/-- The valuations that send each key to an element of its sequence, and are as given
elsewhere. -/
def valuations : List (Nat × List α) → (Nat → α) → List (Nat → α)
  | [], v => [v]
  | (key, choices) :: rest, v =>
    choices.flatMap fun a => valuations rest (Function.update v key a)

theorem flatMap_flatMap_perm {β γ : Type u} (l : List α) (l' : List β) (f : α → β → List γ) :
    (l.flatMap fun a => l'.flatMap fun b => f a b).Perm
      (l'.flatMap fun b => l.flatMap fun a => f a b) := by
  induction l with
  | nil => simp
  | cons a l ih =>
    simp only [List.flatMap_cons]
    exact (ih.append_left _).trans (List.flatMap_append_perm l' _ _)

theorem valuations_perm {keyed keyed' : List (Nat × List α)} (hperm : keyed.Perm keyed')
    (hkeys : (keyed.map Prod.fst).Nodup) (v : Nat → α) :
    (valuations keyed v).Perm (valuations keyed' v) := by
  induction hperm generalizing v with
  | nil => exact .refl _
  | cons x hperm ih =>
    refine List.Perm.flatMap_left x.2 fun a _ => ?_
    exact ih (List.nodup_cons.1 hkeys).2 _
  | swap x y rest =>
    have hne : x.1 ≠ y.1 := by
      have := (List.nodup_cons.1 hkeys).1
      simp only [List.map_cons, List.mem_cons, not_or] at this
      exact Ne.symm this.1
    refine (flatMap_flatMap_perm y.2 x.2 _).trans (.of_eq ?_)
    simp only [valuations, Function.update_comm hne]
  | trans hperm _ ih ih' =>
    exact (ih hkeys v).trans (ih' ((hperm.map _).nodup_iff.1 hkeys) v)

theorem eq_of_mem_valuations {keyed : List (Nat × List α)} {v w : Nat → α}
    (h : w ∈ valuations keyed v) {key : Nat} (hkey : key ∉ keyed.map Prod.fst) : w key = v key := by
  induction keyed generalizing v with
  | nil =>
    rw [valuations, List.mem_singleton] at h
    rw [h]
  | cons x rest ih =>
    rw [valuations, List.mem_flatMap] at h
    obtain ⟨a, _, h⟩ := h
    rw [List.map_cons, List.mem_cons, not_or] at hkey
    rw [ih h hkey.2, Function.update_of_ne hkey.1]

/-- Read off at the keys, the valuations of a product are its tuples. -/
theorem map_valuations {keys : List Nat} (hkeys : keys.Nodup) {sequences : List (List α)}
    (hlength : keys.length = sequences.length) (v : Nat → α) :
    (valuations (keys.zip sequences) v).map (fun w => keys.map w) = tuples sequences := by
  induction keys generalizing sequences v with
  | nil =>
    rw [List.length_eq_zero_iff.1 hlength.symm]
    simp [valuations]
  | cons key keys ih =>
    cases sequences with
    | nil => simp at hlength
    | cons choices rest =>
      rw [List.length_cons, List.length_cons, Nat.add_right_cancel_iff] at hlength
      obtain ⟨hkey, hkeys⟩ := List.nodup_cons.1 hkeys
      rw [List.zip_cons_cons, valuations, tuples_cons, List.map_flatMap]
      congr 1
      funext a
      rw [← ih hkeys hlength (Function.update v key a), List.map_map]
      refine List.map_congr_left fun w hw => ?_
      have hhead : w key = a := by
        rw [eq_of_mem_valuations hw, Function.update_self]
        rwa [List.map_fst_zip (Nat.le_of_eq hlength)]
      simp [hhead]

/-- When each sequence takes a position of its own, the tuples are those of the sequences in
the order of the positions, read off at the positions. -/
theorem map_positions_perm {sequences sequences' : List (List α)} {positions : List Nat}
    (hlength : positions.length = sequences'.length)
    (hperm : ((List.range sequences.length).zip sequences).Perm (positions.zip sequences'))
    (default : α) :
    ((tuples sequences).map fun tuple => positions.map fun p => tuple[p]?.getD default).Perm
      (tuples sequences') := by
  have hkeys : ((List.range sequences.length).zip sequences).map Prod.fst =
      List.range sequences.length :=
    List.map_fst_zip (by simp)
  have hkeys' : (positions.zip sequences').map Prod.fst = positions :=
    List.map_fst_zip (Nat.le_of_eq hlength)
  have hpositions : (List.range sequences.length).Perm positions := by
    have := hperm.map Prod.fst
    rwa [hkeys, hkeys'] at this
  have hread : ∀ w : Nat → α, positions.map
      (fun p => ((List.range sequences.length).map w)[p]?.getD default) = positions.map w := by
    intro w
    refine List.map_congr_left fun p hp => ?_
    have hlt : p < sequences.length := List.mem_range.1 (hpositions.mem_iff.2 hp)
    simp [hlt]
  have hnodup := List.nodup_range (n := sequences.length)
  rw [← map_valuations hnodup (by simp) fun _ => default, List.map_map,
    ← map_valuations (hpositions.nodup_iff.1 hnodup) hlength fun _ => default]
  refine .trans (.of_eq (List.map_congr_left fun w _ => hread w)) ?_
  exact (valuations_perm hperm (by rwa [hkeys]) _).map _

end Groundwork.Product
