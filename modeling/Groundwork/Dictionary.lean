/-!
# Dictionaries

A dictionary holds one value for each of some strings, in increasing order of the
strings.  Two dictionaries with the same entries are equal.
-/

namespace Groundwork

universe u

/-- Values under distinct strings, in increasing order of the strings. -/
structure Dictionary (α : Type u) where
  entries : List (String × α)
  sorted : entries.Pairwise fun a b => a.1 < b.1
deriving DecidableEq, Repr

namespace Dictionary

variable {α : Type u}

/-- The dictionary without entries. -/
def empty : Dictionary α where
  entries := []
  sorted := .nil

instance : EmptyCollection (Dictionary α) := ⟨empty⟩

instance : Inhabited (Dictionary α) := ⟨empty⟩

def size (d : Dictionary α) : Nat :=
  d.entries.length

/-- The value under a string. -/
def get? (d : Dictionary α) (key : String) : Option α :=
  d.entries.lookup key

/-- Entries of which each is the last among neighbours with the same string. -/
def keepLast : List (String × α) → List (String × α)
  | a :: b :: rest => if a.1 = b.1 then keepLast (b :: rest) else a :: keepLast (b :: rest)
  | entries => entries

theorem mem_of_mem_keepLast {entries : List (String × α)} {e : String × α}
    (h : e ∈ keepLast entries) : e ∈ entries := by
  fun_induction keepLast entries with
  | case1 a b rest _ ih => exact List.mem_cons_of_mem a (ih h)
  | case2 a b rest _ ih =>
    rcases List.mem_cons.1 h with rfl | h
    · exact List.mem_cons_self
    · exact List.mem_cons_of_mem a (ih h)
  | case3 => exact h

theorem pairwise_lt_keepLast {entries : List (String × α)}
    (h : entries.Pairwise fun a b => a.1 ≤ b.1) :
    (keepLast entries).Pairwise fun a b => a.1 < b.1 := by
  fun_induction keepLast entries with
  | case1 a b rest _ ih => exact ih (List.pairwise_cons.1 h).2
  | case2 a b rest ne ih =>
    obtain ⟨first, later⟩ := List.pairwise_cons.1 h
    have lt : a.1 < b.1 := Std.lt_of_le_of_ne (first b List.mem_cons_self) ne
    refine List.pairwise_cons.2 ⟨fun e he => ?_, ih later⟩
    rcases List.mem_cons.1 (mem_of_mem_keepLast he) with rfl | he
    · exact lt
    · exact Std.lt_of_lt_of_le lt ((List.pairwise_cons.1 later).1 e he)
  | case3 entries short =>
    match entries, short with
    | [], _ => exact .nil
    | [a], _ => exact List.pairwise_singleton _ a
    | a :: b :: rest, short => exact absurd rfl (short a b rest)

/-- Entries in increasing order of their strings.  Entries with the same string stay
in the order they had. -/
def sortEntries (entries : List (String × α)) : List (String × α) :=
  entries.mergeSort fun a b => a.1 ≤ b.1

theorem pairwise_le_sortEntries (entries : List (String × α)) :
    (sortEntries entries).Pairwise fun a b => a.1 ≤ b.1 := by
  refine (List.pairwise_mergeSort (fun a b c ab bc => ?_) (fun a b => ?_) entries).imp
    of_decide_eq_true
  · exact decide_eq_true (String.le_trans (of_decide_eq_true ab) (of_decide_eq_true bc))
  · simpa using String.le_total a.1 b.1

/-- The dictionary of some entries, of which the last counts for each string. -/
def ofList (entries : List (String × α)) : Dictionary α where
  entries := keepLast (sortEntries entries)
  sorted := pairwise_lt_keepLast (pairwise_le_sortEntries entries)

end Dictionary

end Groundwork
