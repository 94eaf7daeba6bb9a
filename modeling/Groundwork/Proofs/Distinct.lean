import Groundwork.Roster
import Mathlib.Data.List.Nodup

/-!
# Items without repetitions

The first occurrences of the items of a list, in order.  Leaving out the others does not change what
is found first, and comes to the same before or after a function that tells the items apart.
-/

namespace Groundwork

/-- What holds of a list if it holds of its tail without the head holds of every list. -/
theorem eraseDups_induction {α : Type} [BEq α] {P : List α → Prop} (nil : P [])
    (cons : ∀ a l, P (l.filter fun b => !b == a) → P (a :: l)) (l : List α) : P l := by
  induction hn : l.length using Nat.strongRecOn generalizing l with
  | ind n ih =>
    cases l with
    | nil => exact nil
    | cons a l =>
      have hshorter := List.length_filter_le (fun b => !b == a) l
      rw [List.length_cons] at hn
      exact cons a l (ih _ (by omega) _ rfl)

variable {α β : Type} [BEq α] [LawfulBEq α] [BEq β] [LawfulBEq β]

theorem nodup_eraseDups (l : List α) : l.eraseDups.Nodup := by
  induction l using eraseDups_induction with
  | nil => exact List.nodup_nil
  | cons a l ih =>
    rw [List.eraseDups_cons, List.nodup_cons]
    exact ⟨by simp, ih⟩

theorem find?_eraseDups (p : α → Bool) (l : List α) : l.eraseDups.find? p = l.find? p := by
  induction l using eraseDups_induction with
  | nil => rfl
  | cons a l ih =>
    rw [List.eraseDups_cons, List.find?_cons, List.find?_cons, ih]
    cases hp : p a with
    | true => rfl
    | false =>
      dsimp only
      rw [List.find?_filter]
      congr 1
      funext b
      by_cases hsame : b = a
      · simp [hsame, hp]
      · simp [hsame]

theorem eraseDups_of_nodup {l : List α} (h : l.Nodup) : l.eraseDups = l := by
  induction l with
  | nil => rfl
  | cons a l ih =>
    obtain ⟨hnot, hl⟩ := List.nodup_cons.1 h
    have hfilter : (l.filter fun b => !b == a) = l := by
      refine List.filter_eq_self.2 fun b hb => ?_
      have hne : b ≠ a := fun hsame => hnot (hsame ▸ hb)
      simpa using hne
    rw [List.eraseDups_cons, hfilter, ih hl]

theorem eraseDups_map {f : α → β} {l : List α} (hf : ∀ a ∈ l, ∀ b ∈ l, f a = f b → a = b) :
    (l.map f).eraseDups = l.eraseDups.map f := by
  induction l using eraseDups_induction with
  | nil => rfl
  | cons a l ih =>
    have hsame : (l.map f).filter (fun c => !c == f a) = (l.filter fun b => !b == a).map f := by
      rw [List.filter_map]
      congr 1
      refine List.filter_congr fun b hb => ?_
      by_cases heq : b = a
      · simp [heq]
      · have hne : f b ≠ f a := fun h =>
          heq (hf b (List.mem_cons_of_mem a hb) a List.mem_cons_self h)
        simp [heq, hne]
    rw [List.map_cons, List.eraseDups_cons, List.eraseDups_cons, List.map_cons, hsame, ih]
    intro b hb c hc
    exact hf b (List.mem_cons_of_mem a (List.mem_of_mem_filter hb)) c
      (List.mem_cons_of_mem a (List.mem_of_mem_filter hc))

end Groundwork
