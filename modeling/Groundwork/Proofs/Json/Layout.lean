import Groundwork.Proofs.Json.Spelling
import Mathlib.Data.List.Chain

/-!
# Both layouts are read back

Between two tokens a layout may put blanks, and may leave them out unless both are integers.
`Writes` says that a text is such a layout of some tokens, whichever blanks it has, and
`Writes.tokensFrom` that it is read as these tokens.  Both layouts of the library are of this
sort (`writes_compact`, `writes_pretty`), if the tokens are `Legible`: a writer uses them, and no
two integers are next to each other.
-/

namespace Groundwork.Json

/-- The text holds the tokens one after the other, with blanks around them. -/
inductive Writes : List Token → List Char → Prop where
  | nil : Writes [] []
  | blank {c : Char} {ts : List Token} {cs : List Char} (hc : isSpace c = true)
      (h : Writes ts cs) : Writes ts (c :: cs)
  | token {t : Token} {ts : List Token} {cs : List Char} (ht : t.Plain)
      (hrest : t.isInteger = true → Halts cs) (h : Writes ts cs) :
      Writes (t :: ts) (t.spelling.toList ++ cs)

theorem Writes.blanks {bs : List Char} (hbs : ∀ c ∈ bs, isSpace c = true) {ts : List Token}
    {cs : List Char} (h : Writes ts cs) : Writes ts (bs ++ cs) := by
  induction bs with
  | nil => exact h
  | cons b bs ih =>
    exact .blank (hbs b List.mem_cons_self) (ih fun c hc => hbs c (List.mem_cons_of_mem b hc))

/-- Blanks are skipped, and each token is read as far as it goes. -/
theorem Writes.tokensFrom {ts : List Token} {cs : List Char} (h : Writes ts cs)
    (read : List Token) : tokensFrom read cs = some (read.reverse ++ ts) := by
  induction h generalizing read with
  | nil => rw [Json.tokensFrom, List.append_nil]
  | blank hc _ ih =>
    rw [Json.tokensFrom, if_pos hc]
    exact ih read
  | @token t ts cs ht hrest _ ih =>
    obtain ⟨c, spelled, hspelling, hc, hnext⟩ := nextToken_spelling ht hrest
    rw [hspelling, List.cons_append, Json.tokensFrom, if_neg (by simp [hc])]
    split
    · next hnone =>
      rw [hnext] at hnone
      cases hnone
    · next u rest hsome =>
      rw [hnext, Option.some.injEq, Prod.mk.injEq] at hsome
      obtain ⟨rfl, rfl⟩ := hsome
      rw [ih, List.reverse_cons, List.append_assoc, List.singleton_append]

theorem tokens?_of_writes {ts : List Token} {text : String} (h : Writes ts text.toList) :
    tokens? text = some ts :=
  h.tokensFrom []

/-! ## Legible tokens -/

/-- The tokens may stand next to each other: they are not two integers. -/
def Token.Apart (t u : Token) : Prop :=
  t.isInteger = true → u.isInteger = false

/-- A writer uses the tokens, and no two integers are next to each other. -/
structure Legible (ts : List Token) : Prop where
  plain : ∀ t ∈ ts, t.Plain
  apart : ts.IsChain Token.Apart

theorem legible_nil : Legible [] := by
  refine ⟨fun t ht => ?_, .nil⟩
  cases ht

theorem legible_cons {t : Token} {ts : List Token} :
    Legible (t :: ts) ↔
      (t.Plain ∧ ∀ u ∈ ts.head?, t.Apart u) ∧ Legible ts := by
  constructor
  · intro h
    obtain ⟨hhead, htail⟩ := List.isChain_cons.1 h.apart
    exact ⟨⟨h.plain t List.mem_cons_self, hhead⟩,
      fun u hu => h.plain u (List.mem_cons_of_mem t hu), htail⟩
  · rintro ⟨⟨ht, hhead⟩, h⟩
    refine ⟨fun u hu => ?_, List.isChain_cons.2 ⟨hhead, h.apart⟩⟩
    rcases List.mem_cons.1 hu with rfl | hu
    · exact ht
    · exact h.plain u hu

/-- A token that is no integer may stand before all others. -/
theorem Legible.cons {t : Token} {ts : List Token} (ht : t.Plain) (hint : t.isInteger = false)
    (h : Legible ts) : Legible (t :: ts) := by
  refine legible_cons.2 ⟨⟨ht, fun u _ hinteger => ?_⟩, h⟩
  rw [hint] at hinteger
  cases hinteger

/-- Tokens may be joined before one that is no integer. -/
theorem Legible.append_cons {ts us : List Token} {t : Token} (h : Legible ts)
    (ht : t.isInteger = false) (h' : Legible (t :: us)) : Legible (ts ++ t :: us) := by
  refine ⟨fun u hu => (List.mem_append.1 hu).elim (h.plain u) (h'.plain u), ?_⟩
  refine h.apart.append h'.apart fun u _ v hv => ?_
  cases hv
  exact fun _ => ht

/-! ## Layouts -/

theorem halts_nil : Halts [] := by
  intro c hc
  cases hc

theorem halts_cons {c : Char} {cs : List Char}
    (h : isDigit c = false ∧ c ≠ '.' ∧ c ≠ 'e' ∧ c ≠ 'E') : Halts (c :: cs) := by
  intro d hd
  cases hd
  exact h

/-- Only the spelling of an integer can go on with a number. -/
theorem halts_spelling {t : Token} (ht : t.Plain) (hint : t.isInteger = false) (cs : List Char) :
    Halts (t.spelling.toList ++ cs) := by
  cases t with
  | broken | number | word => exact ht.elim
  | integer n => cases hint
  | text s =>
    have hspelling : (Token.text s).spelling.toList = quoted s := String.toList_ofList
    rw [hspelling]
    exact halts_cons (by decide)
  | beginArray => exact halts_cons (c := '[') (by decide)
  | endArray => exact halts_cons (c := ']') (by decide)
  | beginObject => exact halts_cons (c := '\x7b') (by decide)
  | endObject => exact halts_cons (c := '\x7d') (by decide)
  | colon => exact halts_cons (c := ':') (by decide)
  | comma => exact halts_cons (c := ',') (by decide)

theorem writes_compact {ts : List Token} (h : Legible ts) :
    Writes ts (compact ts).toList := by
  rw [compact, String.toList_join]
  induction ts with
  | nil => exact .nil
  | cons t ts ih =>
    obtain ⟨⟨ht, hapart⟩, hts⟩ := legible_cons.1 h
    refine .token ht (fun hint => ?_) (ih hts)
    cases ts with
    | nil => exact halts_nil
    | cons u ts => exact halts_spelling (legible_cons.1 hts).1.1 (hapart u rfl hint) _

theorem toList_newline (depth : Nat) :
    (newline depth).toList = '\n' :: List.replicate (2 * depth) ' ' :=
  String.toList_ofList

theorem isSpace_of_mem_newline {depth : Nat} : ∀ c ∈ (newline depth).toList, isSpace c = true := by
  intro c hc
  rw [toList_newline] at hc
  rcases List.mem_cons.1 hc with rfl | hc
  · rfl
  · rw [List.eq_of_mem_replicate hc]
    rfl

/-- A layout goes on with a number only if an integer comes next. -/
theorem halts_layout {ts : List Token} (h : Legible ts)
    (hhead : ∀ u ∈ ts.head?, u.isInteger = false) (depth : Nat) :
    Halts ((layout depth ts).flatMap String.toList) := by
  fun_cases layout depth ts with
  | case1 => exact halts_nil
  | case2 | case4 => exact halts_cons (c := '[') (by decide)
  | case3 | case5 => exact halts_cons (c := '\x7b') (by decide)
  | case6 | case7 =>
    rw [List.flatMap_cons, toList_newline]
    exact halts_cons (by decide)
  | case8 => exact halts_cons (c := ',') (by decide)
  | case9 => exact halts_cons (c := ':') (by decide)
  | case10 t rest => exact halts_spelling (legible_cons.1 h).1.1 (hhead t rfl) _

/-- The induction follows the layout, which puts blanks between tokens and nowhere else. -/
theorem writes_layout {ts : List Token} (h : Legible ts) (depth : Nat) :
    Writes ts ((layout depth ts).flatMap String.toList) := by
  fun_induction layout depth ts with
  | case1 => exact .nil
  | case2 depth rest ih =>
    have hrest := (legible_cons.1 (legible_cons.1 h).2).2
    exact .token (t := .beginArray) trivial (fun hint => by cases hint)
      (.token (t := .endArray) trivial (fun hint => by cases hint) (ih hrest))
  | case3 depth rest ih =>
    have hrest := (legible_cons.1 (legible_cons.1 h).2).2
    exact .token (t := .beginObject) trivial (fun hint => by cases hint)
      (.token (t := .endObject) trivial (fun hint => by cases hint) (ih hrest))
  | case4 depth rest _ ih =>
    exact .token (t := .beginArray) trivial (fun hint => by cases hint)
      (.blanks isSpace_of_mem_newline (ih (legible_cons.1 h).2))
  | case5 depth rest _ ih =>
    exact .token (t := .beginObject) trivial (fun hint => by cases hint)
      (.blanks isSpace_of_mem_newline (ih (legible_cons.1 h).2))
  | case6 depth rest ih =>
    exact .blanks isSpace_of_mem_newline
      (.token (t := .endArray) trivial (fun hint => by cases hint) (ih (legible_cons.1 h).2))
  | case7 depth rest ih =>
    exact .blanks isSpace_of_mem_newline
      (.token (t := .endObject) trivial (fun hint => by cases hint) (ih (legible_cons.1 h).2))
  | case8 depth rest ih =>
    exact .token (t := .comma) trivial (fun hint => by cases hint)
      (.blanks isSpace_of_mem_newline (ih (legible_cons.1 h).2))
  | case9 depth rest ih =>
    exact .token (t := .colon) trivial (fun hint => by cases hint)
      (.blank rfl (ih (legible_cons.1 h).2))
  | case10 depth t rest _ _ _ _ _ _ _ _ ih =>
    obtain ⟨⟨ht, hapart⟩, hrest⟩ := legible_cons.1 h
    refine .token ht (fun hint => ?_) (ih hrest)
    exact halts_layout hrest (fun u hu => hapart u hu hint) depth

theorem writes_pretty {ts : List Token} (h : Legible ts) : Writes ts (pretty ts).toList := by
  rw [pretty, String.toList_join]
  exact writes_layout h 0

end Groundwork.Json
