import Groundwork.Document
import Groundwork.Proofs.Json.Layout

/-!
# Values are read back from their tokens

The tokens of a value are taken by the machine one by one, whatever arrays and objects are open
around it, and then the value is placed in the innermost of them.  `Denotes` says this of tokens
and a value, together with what the layouts need.  Arrays and objects of tokens that denote
values denote the array and the object of these values (`denotes_array`, `denotes_object`), so
that a document can be put together from its parts.
-/

namespace Groundwork.Json

open Document (separated arrayTokens objectTokens)

/-- The tokens are those of the value, wherever a value may begin. -/
structure Denotes (ts : List Token) (v : Value) : Prop where
  legible : Legible ts
  steps : ∀ (stack : List Frame) (mode : Mode), mode = .value ∨ mode = .firstElement →
    ts.foldlM step (stack, mode) = some (deliver v stack)

/-- The first element of an array is read as any other value is. -/
theorem step_eq_beginValue {t : Token} (ht : t ≠ .endArray) (stack : List Frame) {mode : Mode}
    (hmode : mode = .value ∨ mode = .firstElement) :
    step (stack, mode) t = beginValue stack t := by
  rcases hmode with rfl | rfl
  · rcases stack with _ | ⟨_ | _, _⟩ <;> rfl
  · rcases stack with _ | ⟨_ | _, _⟩
    · rfl
    · cases t with
      | endArray => exact absurd rfl ht
      | _ => rfl
    · rfl

theorem denotes_integer (n : Int) : Denotes [.integer n] (.integer n) := by
  refine ⟨legible_cons.2 ⟨⟨trivial, fun u hu => by cases hu⟩, legible_nil⟩, ?_⟩
  intro stack mode hmode
  rw [List.foldlM_cons, step_eq_beginValue (by nofun) stack hmode]
  rfl

theorem denotes_text (s : String) : Denotes [.text s] (.text s) := by
  refine ⟨.cons trivial rfl legible_nil, ?_⟩
  intro stack mode hmode
  rw [List.foldlM_cons, step_eq_beginValue (by nofun) stack hmode]
  rfl

theorem foldlM_step_append {ts : List Token} {v : Value} (h : Denotes ts v) (us : List Token)
    (stack : List Frame) {mode : Mode} (hmode : mode = .value ∨ mode = .firstElement) :
    (ts ++ us).foldlM step (stack, mode) = us.foldlM step (deliver v stack) := by
  rw [List.foldlM_append, h.steps stack mode hmode]
  rfl

/-! ## Arrays -/

theorem separated_cons_cons (ts us : List Token) (rest : List (List Token)) :
    separated (ts :: us :: rest) = ts ++ .comma :: separated (us :: rest) := by
  rw [separated, List.intercalate_cons_cons, List.append_assoc, List.singleton_append]

theorem separated_singleton (ts : List Token) : separated [ts] = ts :=
  List.intercalate_singleton

theorem legible_separated {parts : List (List Token)} (h : ∀ ts ∈ parts, Legible ts) {t : Token}
    (ht : t.Plain) (hint : t.isInteger = false) : Legible (separated parts ++ [t]) := by
  have hlast : Legible [t] := .cons ht hint legible_nil
  induction parts with
  | nil => exact hlast
  | cons ts parts ih =>
    have hts := h ts List.mem_cons_self
    cases parts with
    | nil =>
      rw [separated_singleton]
      exact hts.append_cons hint hlast
    | cons us parts =>
      rw [separated_cons_cons, List.append_assoc, List.cons_append]
      exact hts.append_cons rfl
        (.cons trivial rfl (ih fun vs hvs => h vs (List.mem_cons_of_mem ts hvs)))

/-- The induction is on the elements, of which those before are on the stack. -/
theorem steps_elements {parts : List (List Token)} {vs : List Value}
    (h : List.Forall₂ Denotes parts vs) (hne : parts ≠ []) (read : List Value)
    (stack : List Frame) {mode : Mode} (hmode : mode = .value ∨ mode = .firstElement) :
    (separated parts ++ [Token.endArray]).foldlM step (.array read :: stack, mode) =
      some (deliver (.array (read.reverse ++ vs)) stack) := by
  induction h generalizing read mode with
  | nil => exact absurd rfl hne
  | @cons ts v parts vs hts hrest ih =>
    cases hrest with
    | nil =>
      rw [separated_singleton, foldlM_step_append hts _ _ hmode, ← List.reverse_cons]
      rfl
    | cons =>
      rw [separated_cons_cons, List.append_assoc, foldlM_step_append hts _ _ hmode,
        List.cons_append, List.foldlM_cons]
      show (_ : List Token).foldlM step (.array (v :: read) :: stack, .value) = _
      rw [ih (List.cons_ne_nil _ _) (v :: read) (Or.inl rfl), List.reverse_cons,
        List.append_assoc, List.singleton_append]

theorem denotes_array {parts : List (List Token)} {vs : List Value}
    (h : List.Forall₂ Denotes parts vs) : Denotes (arrayTokens parts) (.array vs) := by
  have hparts : ∀ ts ∈ parts, Legible ts := by
    intro ts hts
    obtain ⟨i, hi, rfl⟩ := List.getElem_of_mem hts
    exact (h.get hi (h.length_eq ▸ hi)).legible
  refine ⟨.cons trivial rfl (legible_separated hparts trivial rfl), fun stack mode hmode => ?_⟩
  rw [arrayTokens, List.cons_append, List.foldlM_cons,
    step_eq_beginValue (by nofun) stack hmode]
  show (_ : List Token).foldlM step (.array [] :: stack, .firstElement) = _
  cases h with
  | nil => rfl
  | cons hts hrest =>
    exact steps_elements (.cons hts hrest) (List.cons_ne_nil _ _) [] stack (Or.inr rfl)

/-! ## Objects -/

/-- The tokens of a member are its key, a colon and those of its value. -/
def memberTokens (member : String × List Token) : List Token :=
  .text member.1 :: .colon :: member.2

theorem legible_memberTokens {key : String} {ts : List Token} (h : Legible ts) :
    Legible (memberTokens (key, ts)) :=
  .cons trivial rfl (.cons trivial rfl h)

theorem steps_memberTokens {key : String} {ts : List Token} {v : Value} (h : Denotes ts v)
    (us : List Token) (read : List (Option String × Value)) (stack : List Frame) {mode : Mode}
    (hmode : mode = .key ∨ mode = .firstKey) :
    (memberTokens (key, ts) ++ us).foldlM step (.object read none :: stack, mode) =
      us.foldlM step (.object ((some key, v) :: read) none :: stack, .after) := by
  have hkey : step (.object read none :: stack, mode) (.text key) =
      some (.object read (some key) :: stack, .colon) := by
    rcases hmode with rfl | rfl <;> rfl
  rw [memberTokens, List.cons_append, List.foldlM_cons, hkey]
  show (ts ++ us).foldlM step (.object read (some key) :: stack, .value) = _
  rw [foldlM_step_append h us _ (Or.inl rfl)]
  rfl

/-- The induction is on the members, of which those before are on the stack. -/
theorem steps_members {members : List (String × List Token)} {vs : List (Option String × Value)}
    (h : List.Forall₂ (fun member v => v.1 = some member.1 ∧ Denotes member.2 v.2) members vs)
    (hne : members ≠ []) (read : List (Option String × Value)) (stack : List Frame) {mode : Mode}
    (hmode : mode = .key ∨ mode = .firstKey) :
    (separated (members.map memberTokens) ++ [Token.endObject]).foldlM step
        (.object read none :: stack, mode) =
      some (deliver (.object (read.reverse ++ vs)) stack) := by
  induction h generalizing read mode with
  | nil => exact absurd rfl hne
  | @cons member v members vs hmember hrest ih =>
    obtain ⟨key, ts⟩ := member
    obtain ⟨_, v⟩ := v
    obtain ⟨rfl, hts⟩ := hmember
    cases hrest with
    | nil =>
      rw [List.map_singleton, separated_singleton, steps_memberTokens hts _ _ _ hmode,
        ← List.reverse_cons]
      rfl
    | cons =>
      rw [List.map_cons, List.map_cons, separated_cons_cons, List.append_assoc,
        steps_memberTokens hts _ _ _ hmode, List.cons_append, List.foldlM_cons]
      show (_ : List Token).foldlM step (.object ((some key, v) :: read) none :: stack, .key) = _
      rw [← List.map_cons, ih (List.cons_ne_nil _ _) _ (Or.inl rfl), List.reverse_cons,
        List.append_assoc, List.singleton_append]

theorem denotes_object {members : List (String × List Token)}
    {vs : List (Option String × Value)}
    (h : List.Forall₂ (fun member v => v.1 = some member.1 ∧ Denotes member.2 v.2) members vs) :
    Denotes (objectTokens members) (.object vs) := by
  have hmembers : ∀ ts ∈ members.map memberTokens, Legible ts := by
    intro ts hts
    obtain ⟨member, hmember, rfl⟩ := List.mem_map.1 hts
    obtain ⟨i, hi, rfl⟩ := List.getElem_of_mem hmember
    exact legible_memberTokens (h.get hi (h.length_eq ▸ hi)).2.legible
  refine ⟨.cons trivial rfl (legible_separated hmembers trivial rfl), fun stack mode hmode => ?_⟩
  rw [objectTokens, List.cons_append, List.foldlM_cons,
    step_eq_beginValue (by nofun) stack hmode]
  show (separated (members.map memberTokens) ++ [Token.endObject]).foldlM step
    (.object [] none :: stack, .firstKey) = _
  cases h with
  | nil => rfl
  | cons hmember hrest =>
    exact steps_members (.cons hmember hrest) (List.cons_ne_nil _ _) [] stack (Or.inr rfl)

/-! ## Texts -/

theorem Denotes.ofTokens? {ts : List Token} {v : Value} (h : Denotes ts v) :
    Value.ofTokens? ts = some v := by
  rw [Value.ofTokens?, h.steps [] .value (Or.inl rfl)]
  rfl

theorem Denotes.ofText?_compact {ts : List Token} {v : Value} (h : Denotes ts v) :
    Value.ofText? (compact ts) = some v := by
  rw [Value.ofText?, tokens?_of_writes (writes_compact h.legible)]
  exact h.ofTokens?

theorem Denotes.ofText?_pretty {ts : List Token} {v : Value} (h : Denotes ts v) :
    Value.ofText? (pretty ts) = some v := by
  rw [Value.ofText?, tokens?_of_writes (writes_pretty h.legible)]
  exact h.ofTokens?

end Groundwork.Json
