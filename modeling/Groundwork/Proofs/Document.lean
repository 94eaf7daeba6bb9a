import Groundwork.Proofs.Dictionary
import Groundwork.Proofs.Json.Value

/-!
# Documents are read back from JSON

A writer and a reader belong together if the reader gives back what was written (`ReadsBack`).
Literals and texts are read back, and so are the arrays and dictionaries of whatever is read back,
up to whole documents.  `json_round_trips` says this of both layouts of every document.
-/

namespace Groundwork.Document

open Json (Token Value Denotes)

/-- What is written of anything of the type denotes a value from which it is read back. -/
def ReadsBack {α : Type} (write : α → List Token) (read : Value → Option α) : Prop :=
  ∀ a, ∃ v, Denotes (write a) v ∧ read v = some a

/-- A literal is a word, so its number is in the range of the reader. -/
theorem readsBack_literal : ReadsBack literalTokens literalOf? := by
  intro l
  refine ⟨.integer l.toInt, Json.denotes_integer _, ?_⟩
  rw [literalOf?, Int32.ofInt_toInt, if_pos rfl]

theorem readsBack_text : ReadsBack (fun s => [.text s]) textOf? :=
  fun s => ⟨.text s, Json.denotes_text s, rfl⟩

section Parts

variable {α : Type} {write : α → List Token} {read : Value → Option α}

theorem ReadsBack.exists_values (h : ReadsBack write read) (l : List α) :
    ∃ vs, List.Forall₂ Denotes (l.map write) vs ∧ vs.mapM read = some l := by
  induction l with
  | nil => exact ⟨[], .nil, rfl⟩
  | cons a l ih =>
    obtain ⟨v, hv, hread⟩ := h a
    obtain ⟨vs, hvs, hreads⟩ := ih
    refine ⟨v :: vs, .cons hv hvs, ?_⟩
    rw [List.mapM_cons, hread, hreads]
    rfl

theorem ReadsBack.array (h : ReadsBack write read) :
    ReadsBack (fun l => arrayTokens (l.map write)) (arrayOf? read) := by
  intro l
  obtain ⟨vs, hvs, hread⟩ := h.exists_values l
  exact ⟨.array vs, Json.denotes_array hvs, hread⟩

theorem ReadsBack.exists_members (h : ReadsBack write read) (entries : List (String × α)) :
    ∃ vs, List.Forall₂ (fun member v => v.1 = some member.1 ∧ Denotes member.2 v.2)
        (entries.map fun (key, a) => (key, write a)) vs ∧
      vs.mapM (memberOf? read) = some entries := by
  induction entries with
  | nil => exact ⟨[], .nil, rfl⟩
  | cons entry entries ih =>
    obtain ⟨key, a⟩ := entry
    obtain ⟨v, hv, hread⟩ := h a
    obtain ⟨vs, hvs, hreads⟩ := ih
    refine ⟨(some key, v) :: vs, .cons ⟨rfl, hv⟩ hvs, ?_⟩
    rw [List.mapM_cons, hreads, memberOf?, hread]
    rfl

/-- The entries are written in order of their strings, and are sorted into the same order. -/
theorem ReadsBack.dictionary (h : ReadsBack write read) :
    ReadsBack (fun d => objectTokens (d.entries.map fun (key, a) => (key, write a)))
      (dictionaryOf? read) := by
  intro d
  obtain ⟨vs, hvs, hread⟩ := h.exists_members d.entries
  refine ⟨.object vs, Json.denotes_object hvs, ?_⟩
  rw [dictionaryOf?, hread, Option.map_some, Dictionary.ofList_entries]

end Parts

theorem readsBack_triple :
    ReadsBack (fun (domain, function, image) =>
      arrayTokens [[.text domain], [.text function], [.text image]]) tripleOf? := by
  rintro ⟨domain, function, image⟩
  obtain ⟨v, hv, hread⟩ := readsBack_text.array [domain, function, image]
  refine ⟨v, hv, ?_⟩
  rw [tripleOf?, hread]
  rfl

/-- The fields of a document are told apart by their names. -/
theorem ofValue?_fields (clauses literals predicates values : Value) :
    ofValue? (.object [(some "clauses", clauses), (some "literals", literals),
        (some "predicates", predicates), (some "values", values)]) =
      ofFields? clauses literals predicates values :=
  rfl

theorem readsBack_document : ReadsBack tokens ofValue? := by
  rintro ⟨clauses, literals, predicates, values⟩
  obtain ⟨v, hv, hclauses⟩ := readsBack_literal.array.array clauses
  obtain ⟨w, hw, hliterals⟩ := readsBack_literal.dictionary literals
  obtain ⟨x, hx, hpredicates⟩ := readsBack_text.dictionary predicates
  obtain ⟨y, hy, hvalues⟩ := readsBack_triple.array values
  refine ⟨_, Json.denotes_object (.cons (b := (some "clauses", v)) ⟨rfl, hv⟩
    (.cons (b := (some "literals", w)) ⟨rfl, hw⟩ (.cons (b := (some "predicates", x)) ⟨rfl, hx⟩
      (.cons (b := (some "values", y)) ⟨rfl, hy⟩ .nil)))), ?_⟩
  rw [ofValue?_fields, ofFields?, hclauses, hliterals, hpredicates, hvalues]
  rfl

/-- Every document is read back from its JSON, on one line or with one element to a line. -/
theorem json_round_trips (d : Document) :
    ofJson? d.toJson = some d ∧ ofJson? d.toJsonPretty = some d := by
  obtain ⟨v, hv, hread⟩ := readsBack_document d
  constructor
  · rw [ofJson?, toJson, hv.ofText?_compact]
    exact hread
  · rw [ofJson?, toJsonPretty, hv.ofText?_pretty]
    exact hread

end Groundwork.Document
