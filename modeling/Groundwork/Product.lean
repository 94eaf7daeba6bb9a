/-!
# Products of sequences

The tuples of a product take one element from each sequence.  They are
enumerated with the last position varying fastest, so that their order follows
the order of the sequences and of the elements within each.  The product of no
sequences has one tuple, and a product with an empty sequence has none.
-/

namespace Groundwork.Product

universe u v w

variable {α : Type u}

/-- The tuples of the product.  The sequences after an empty one are not looked
at. -/
def tuples : List (List α) → List (List α)
  | [] => [[]]
  | [] :: _ => []
  | choices :: rest =>
    let tails := tuples rest
    choices.flatMap fun a => tails.map (a :: ·)

@[simp]
theorem tuples_nil : tuples ([] : List (List α)) = [[]] := by
  rw [tuples]

@[simp]
theorem tuples_cons (choices : List α) (rest : List (List α)) :
    tuples (choices :: rest) = choices.flatMap fun a => (tuples rest).map (a :: ·) := by
  cases choices <;> simp [tuples]

/-- The largest count of tuples that is told apart from larger ones. -/
def maxTuples : Nat :=
  0xFFFFFFFFFFFFFFFFFFFFFFFFFFFFFFFF

/-- The product of two counts of tuples, or the largest count if it is larger. -/
def saturatingMul (m n : Nat) : Nat :=
  min (m * n) maxTuples

/-- The number of tuples, or the largest count if there are more. -/
def count (sequences : List (List α)) : Nat :=
  sequences.foldl (fun n choices => saturatingMul n choices.length) 1

/-- Runs an action on every tuple in turn.  The tuples are never held all at
once, and no work is done for a product without tuples. -/
def foldM {σ : Type v} {m : Type v → Type w} [Monad m] (f : σ → List α → m σ) (start : σ)
    (sequences : List (List α)) : m σ :=
  if sequences.any List.isEmpty then pure start else go sequences [] start
where
  /-- Runs through the tuples whose first elements are chosen, in reverse. -/
  go : List (List α) → List α → σ → m σ
    | [], chosen, state => f state chosen.reverse
    | choices :: rest, chosen, state =>
      choices.foldlM (fun state a => go rest (a :: chosen) state) state

end Groundwork.Product
