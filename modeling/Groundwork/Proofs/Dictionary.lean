import Groundwork.Dictionary
import Mathlib.Data.List.Basic

/-!
# Dictionaries of distinct strings

Where no string is repeated, a dictionary leaves nothing out: `perm_ofList` says that it has the
given entries, in another order, and `ofList_entries` that the entries of a dictionary are those
of no other dictionary.
-/

namespace Groundwork.Dictionary

universe u

variable {α : Type u} {entries : List (String × α)}

theorem keepLast_eq_self (h : entries.Pairwise fun a b => a.1 ≠ b.1) :
    keepLast entries = entries := by
  fun_induction keepLast entries with
  | case1 a b rest hsame _ => exact absurd hsame ((List.pairwise_cons.1 h).1 b List.mem_cons_self)
  | case2 a b rest _ ih => rw [ih (List.pairwise_cons.1 h).2]
  | case3 => rfl

theorem perm_ofList (h : (entries.map Prod.fst).Nodup) :
    (ofList entries).entries.Perm entries := by
  have hperm : (sortEntries entries).Perm entries := List.mergeSort_perm _ _
  have hne : (sortEntries entries).Pairwise fun a b => a.1 ≠ b.1 :=
    List.pairwise_map.1 ((hperm.map Prod.fst).nodup_iff.2 h)
  show (keepLast (sortEntries entries)).Perm entries
  rw [keepLast_eq_self hne]
  exact hperm

theorem ofList_entries (d : Dictionary α) : ofList d.entries = d := by
  obtain ⟨entries, hsorted⟩ := d
  have hle : entries.Pairwise fun a b => decide (a.1 ≤ b.1) = true :=
    hsorted.imp fun hlt => decide_eq_true (Std.le_of_lt hlt)
  have hsame : sortEntries entries = entries := List.mergeSort_of_pairwise hle
  simp only [ofList, mk.injEq]
  rw [hsame]
  exact keepLast_eq_self (hsorted.imp Std.ne_of_lt)

end Groundwork.Dictionary
