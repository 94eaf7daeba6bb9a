import Std.Data.HashSet

/-!
# Rosters

A roster is a sequence of distinct items.  Items are only ever added at its end,
and whether an item is on it is found without walking the sequence.

`toList_insert` says what adding an item does to the sequence, and
`toList_ofList` that the roster of a list holds its items in order of their first
occurrence.  `distinct`, `outside` and `meets` are questions about lists that are
answered with a roster, or by looking through the list if it is short.
-/

namespace Groundwork

universe u

/-- A sequence of distinct items. -/
structure Roster (α : Type u) [BEq α] [Hashable α] where
  items : Array α
  members : Std.HashSet α
  mem_members : ∀ a, a ∈ members ↔ a ∈ items
  nodup : items.toList.Nodup

namespace Roster

variable {α : Type u} [BEq α] [Hashable α]

/-- The roster without items. -/
def empty : Roster α where
  items := #[]
  members := ∅
  mem_members := by simp
  nodup := by simp

instance : EmptyCollection (Roster α) := ⟨empty⟩

instance : Inhabited (Roster α) := ⟨empty⟩

def size (r : Roster α) : Nat :=
  r.items.size

def toList (r : Roster α) : List α :=
  r.items.toList

def contains (r : Roster α) (a : α) : Bool :=
  r.members.contains a

@[simp]
theorem toList_empty : (∅ : Roster α).toList = [] :=
  rfl

theorem contains_iff (r : Roster α) (a : α) : r.contains a = true ↔ a ∈ r.toList := by
  rw [contains, ← Std.HashSet.mem_iff_contains, r.mem_members, toList, Array.mem_toList_iff]

variable [LawfulBEq α]

/-- The roster with a new item at its end. -/
def push (r : Roster α) (a : α) (fresh : r.members.contains a = false) : Roster α where
  items := r.items.push a
  members := r.members.insert a
  mem_members := by
    intro other
    simp only [Std.HashSet.mem_insert, Array.mem_push, r.mem_members, beq_iff_eq]
    exact ⟨fun h => h.symm.imp id Eq.symm, fun h => h.symm.imp Eq.symm id⟩
  nodup := by
    have absent : a ∉ r.items := fun mem => by
      have := Std.HashSet.mem_iff_contains.1 ((r.mem_members a).2 mem)
      simp [fresh] at this
    rw [Array.toList_push, List.nodup_append]
    refine ⟨r.nodup, by simp, fun b hb c hc => ?_⟩
    rw [List.mem_singleton] at hc
    subst hc
    rintro rfl
    exact absent (Array.mem_toList_iff.1 hb)

/-- The roster with an item at its end, or `none` if the item is on it. -/
def insert? (r : Roster α) (a : α) : Option (Roster α) :=
  match h : r.members.contains a with
  | true => none
  | false => some (r.push a h)

/-- The roster with an item at its end, unless the item is on it already. -/
def insert (r : Roster α) (a : α) : Roster α :=
  match h : r.members.contains a with
  | true => r
  | false => r.push a h

theorem toList_insert (r : Roster α) (a : α) :
    (r.insert a).toList = if a ∈ r.toList then r.toList else r.toList ++ [a] := by
  have known := r.contains_iff a
  rw [contains] at known
  unfold insert
  split
  · next h => rw [if_pos (known.1 h)]
  · next h =>
    rw [if_neg fun mem => by simp [known.2 mem] at h]
    exact Array.toList_push

/-- The items of a list, each once, in order of their first occurrence. -/
def ofList (items : List α) : Roster α :=
  items.foldl insert ∅

theorem toList_foldl_insert (r : Roster α) (items : List α) :
    (items.foldl insert r).toList = r.toList ++ (items.removeAll r.toList).eraseDups := by
  induction items generalizing r with
  | nil => simp
  | cons a items ih =>
    rw [List.foldl_cons, ih, toList_insert]
    by_cases mem : a ∈ r.toList
    · simp [mem, List.removeAll]
    · have tail : items.removeAll (r.toList ++ [a]) =
          (items.removeAll r.toList).filter fun b => !b == a := by
        simp only [List.removeAll, List.filter_filter]
        refine List.filter_congr fun b _ => ?_
        by_cases same : b = a <;> simp [same]
      have head : (a :: items).removeAll r.toList = a :: items.removeAll r.toList := by
        simp [List.removeAll, mem]
      rw [if_neg mem, tail, head, List.eraseDups_cons, List.append_assoc, List.singleton_append]

theorem mem_toList_foldl_insert (r : Roster α) (items : List α) (a : α) :
    a ∈ (items.foldl insert r).toList ↔ a ∈ r.toList ∨ a ∈ items := by
  by_cases known : a ∈ r.toList <;> simp [toList_foldl_insert, List.removeAll, known]

theorem toList_ofList (items : List α) : (ofList items).toList = items.eraseDups := by
  rw [ofList, toList_foldl_insert, toList_empty, List.nil_append, List.removeAll,
    List.filter_eq_self.2 (by simp)]

theorem mem_toList_ofList (items : List α) (a : α) : a ∈ (ofList items).toList ↔ a ∈ items := by
  rw [toList_ofList, List.mem_eraseDups]

theorem contains_ofList (items : List α) (a : α) : (ofList items).contains a = items.contains a := by
  rw [Bool.eq_iff_iff, contains_iff, mem_toList_ofList, List.contains_iff_mem]

end Roster

variable {α : Type u} [BEq α] [Hashable α] [LawfulBEq α]

/-- The longest list that is looked through item by item. -/
def shortLength : Nat :=
  16

/-- The items of a list, each once, in order of their first occurrence. -/
def distinct (items : List α) : List α :=
  if items.length ≤ shortLength then items.eraseDups else (Roster.ofList items).toList

theorem distinct_eq_eraseDups (items : List α) : distinct items = items.eraseDups := by
  rw [distinct, Roster.toList_ofList, ite_self]

/-- The items that are not among the others. -/
def outside (items others : List α) : List α :=
  if others.length ≤ shortLength then items.removeAll others
  else
    let roster := Roster.ofList others
    items.filter fun a => !roster.contains a

theorem outside_eq_removeAll (items others : List α) :
    outside items others = items.removeAll others := by
  simp [outside, Roster.contains_ofList, List.removeAll]

/-- Whether some item is among the others. -/
def meets (items others : List α) : Bool :=
  if others.length ≤ shortLength then items.any others.contains
  else
    let roster := Roster.ofList others
    items.any roster.contains

theorem meets_iff (items others : List α) :
    meets items others = true ↔ ∃ a ∈ items, a ∈ others := by
  simp [meets, Roster.contains_ofList]

end Groundwork
