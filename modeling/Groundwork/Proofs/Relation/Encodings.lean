import Groundwork.Proofs.Relation

/-!
# What encodings tell apart

An encoding joins the parts of a relation with two dashes.  No part has two dashes in a row, but
a part may end with a dash and the next one may begin with one, so the place of the separator
in a run of dashes is not certain: `a-` and `b` are joined to the same text as `a` and `-b`.

If no part after the first begins with a dash, then the separator is the end of its run
(`Text.Separable.eq_of_intercalate_eq`), and relations with the same encoding are equal
(`Relation.Over.eq_of_encoding_eq`).
-/

namespace Groundwork

namespace Text

theorem cutPair?_cons {a b c : Char} {cs : List Char} (h : cutPair? a b (c :: cs) = none) :
    cutPair? a b cs = none := by
  cases cs with
  | nil => rfl
  | cons d cs =>
    rw [cutPair?] at h
    split at h
    · cases h
    · simpa using h

theorem cutPair?_append_pair (a b : Char) (cs ds : List Char) :
    cutPair? a b (cs ++ a :: b :: ds) ≠ none := by
  intro h
  induction cs with
  | nil => simp [cutPair?] at h
  | cons c cs ih => exact ih (cutPair?_cons h)

theorem cutPair?_of_notMem {a b : Char} {cs : List Char} (h : a ∉ cs) : cutPair? a b cs = none := by
  induction cs with
  | nil => rfl
  | cons c cs ih =>
    obtain ⟨hne, hcs⟩ := List.ne_and_not_mem_of_not_mem_cons h
    cases cs with
    | nil => rfl
    | cons d cs =>
      rw [cutPair?, if_neg fun hpair => hne hpair.1.symm, ih hcs]
      rfl

/-- A separator that is neither of the two characters keeps them apart. -/
theorem cutPair?_append {a b c : Char} (ha : c ≠ a) (hb : c ≠ b) {cs ds : List Char}
    (hcs : cutPair? a b cs = none) (hds : cutPair? a b ds = none) :
    cutPair? a b (cs ++ c :: ds) = none := by
  induction cs with
  | nil =>
    cases ds with
    | nil => rfl
    | cons d ds =>
      rw [List.nil_append, cutPair?, if_neg fun h => ha h.1, hds]
      rfl
  | cons e cs ih =>
    have hrest := ih (cutPair?_cons hcs)
    cases cs with
    | nil =>
      rw [List.cons_append, List.nil_append, cutPair?, if_neg fun h => hb h.2]
      rw [List.nil_append] at hrest
      rw [hrest]
      rfl
    | cons f cs =>
      rw [cutPair?] at hcs
      split at hcs
      · cases hcs
      · next hpair =>
        rw [List.cons_append, List.cons_append, cutPair?, if_neg hpair]
        rw [List.cons_append] at hrest
        rw [hrest]
        rfl

theorem cutPair?_intercalate {a b c : Char} (ha : c ≠ a) (hb : c ≠ b)
    {pieces : List (List Char)} (h : ∀ piece ∈ pieces, cutPair? a b piece = none) :
    cutPair? a b ([c].intercalate pieces) = none := by
  induction pieces with
  | nil => rfl
  | cons piece pieces ih =>
    obtain ⟨hpiece, hrest⟩ := List.forall_mem_cons.1 h
    cases pieces with
    | nil => rwa [List.intercalate_singleton]
    | cons next pieces =>
      rw [List.intercalate_cons_cons, List.append_assoc]
      exact cutPair?_append ha hb hpiece (ih hrest)

/-- The text begins, and with another character than a dash. -/
def Undashed (cs : List Char) : Prop :=
  ∃ c ∈ cs.head?, c ≠ '-'

theorem Undashed.append {cs : List Char} (h : Undashed cs) (ds : List Char) :
    Undashed (cs ++ ds) := by
  obtain ⟨c, hc, hne⟩ := h
  exact ⟨c, by rw [List.head?_append, hc]; rfl, hne⟩

theorem not_undashed_cons (cs : List Char) : ¬ Undashed ('-' :: cs) := by
  rintro ⟨c, hc, hne⟩
  rw [List.head?_cons, Option.mem_some_iff] at hc
  exact hne hc.symm

/-- The first separator that is not followed by a dash is found in one way only.  The induction
is on the piece before it. -/
theorem eq_of_append_dashes {p q later others : List Char}
    (hp : cutPair? '-' '-' p = none) (hq : cutPair? '-' '-' q = none)
    (hlater : Undashed later) (hothers : Undashed others)
    (h : p ++ '-' :: '-' :: later = q ++ '-' :: '-' :: others) : p = q ∧ later = others := by
  induction p generalizing q with
  | nil =>
    match q, hq with
    | [], _ => simpa using h
    | [c], _ =>
      simp only [List.nil_append, List.cons_append, List.cons.injEq, true_and] at h
      exact absurd (h.2 ▸ hlater) (not_undashed_cons _)
    | c :: d :: q, hq =>
      simp only [List.nil_append, List.cons_append, List.cons.injEq] at h
      obtain ⟨rfl, rfl, _⟩ := h
      simp [cutPair?] at hq
  | cons c p ih =>
    match q, hq with
    | d :: q, hq =>
      simp only [List.cons_append, List.cons.injEq] at h
      obtain ⟨rfl, hrest⟩ := h
      obtain ⟨rfl, rfl⟩ := ih (cutPair?_cons hp) (cutPair?_cons hq) hrest
      exact ⟨rfl, rfl⟩
    | [], _ =>
      simp only [List.nil_append, List.cons_append, List.cons.injEq] at h
      obtain ⟨rfl, hrest⟩ := h
      cases p with
      | nil =>
        simp only [List.nil_append, List.cons.injEq, true_and] at hrest
        exact absurd (hrest ▸ hothers) (not_undashed_cons _)
      | cons d p =>
        simp only [List.cons_append, List.cons.injEq] at hrest
        obtain ⟨rfl, _⟩ := hrest
        simp [cutPair?] at hp

/-- No piece has two dashes in a row, and none after the first begins with a dash. -/
structure Separable (pieces : List (List Char)) : Prop where
  undivided : ∀ piece ∈ pieces, cutPair? '-' '-' piece = none
  undashed : ∀ piece ∈ pieces.tail, Undashed piece

theorem Separable.undashed_intercalate {piece next : List Char} {pieces : List (List Char)}
    (h : Separable (piece :: next :: pieces)) :
    Undashed (['-', '-'].intercalate (next :: pieces)) := by
  have hnext := h.undashed next List.mem_cons_self
  cases pieces with
  | nil => rwa [List.intercalate_singleton]
  | cons other pieces =>
    rw [List.intercalate_cons_cons, List.append_assoc]
    exact hnext.append _

theorem Separable.tail {piece next : List Char} {pieces : List (List Char)}
    (h : Separable (piece :: next :: pieces)) : Separable (next :: pieces) :=
  ⟨fun other hother => h.undivided other (List.mem_cons_of_mem _ hother),
    fun other hother => h.undashed other (List.mem_cons_of_mem _ hother)⟩

/-- Separable pieces are told apart by the text to which they are joined. -/
theorem Separable.eq_of_intercalate_eq {pieces others : List (List Char)}
    (h : Separable pieces) (hothers : Separable others) (hne : pieces ≠ []) (hne' : others ≠ [])
    (heq : ['-', '-'].intercalate pieces = ['-', '-'].intercalate others) : pieces = others := by
  induction pieces generalizing others with
  | nil => exact absurd rfl hne
  | cons piece pieces ih =>
    obtain ⟨other, others, rfl⟩ := List.exists_cons_of_ne_nil hne'
    have hpiece := h.undivided piece List.mem_cons_self
    have hother := hothers.undivided other List.mem_cons_self
    cases pieces with
    | nil =>
      cases others with
      | nil => rw [List.intercalate_singleton, List.intercalate_singleton] at heq; rw [heq]
      | cons next others =>
        rw [List.intercalate_singleton, List.intercalate_cons_cons, List.append_assoc] at heq
        exact absurd (heq ▸ hpiece) (cutPair?_append_pair _ _ _ _)
    | cons next pieces =>
      cases others with
      | nil =>
        rw [List.intercalate_singleton, List.intercalate_cons_cons, List.append_assoc] at heq
        exact absurd (heq ▸ hother) (cutPair?_append_pair _ _ _ _)
      | cons next' others =>
        rw [List.intercalate_cons_cons, List.intercalate_cons_cons, List.append_assoc,
          List.append_assoc] at heq
        obtain ⟨rfl, hrest⟩ := eq_of_append_dashes hpiece hother h.undashed_intercalate
          hothers.undashed_intercalate heq
        rw [ih h.tail hothers.tail (List.cons_ne_nil _ _) (List.cons_ne_nil _ _) hrest]

end Text

/-! ## Relations -/

namespace Term

theorem Legal.toList_eq {term : String} (h : Legal term) :
    term.toList = ['.'].intercalate
      ((Term.base term).toList :: (Term.functions term).map String.toList) := by
  rw [← toList_apply, h.apply_eq]

theorem Legal.isToken_parts {term : String} (h : Legal term) :
    ∀ part ∈ (Term.base term).toList :: (Term.functions term).map String.toList, isToken part = true :=
  List.forall_mem_cons.2 ⟨h.base, List.forall_mem_map.2 h.functions⟩

theorem Legal.strip_eq {term : String} (h : Legal term) : Text.strip term = term := by
  rw [Text.strip, h.toList_eq, trim_intercalate '.' h.isToken_parts, ← h.toList_eq,
    String.ofList_toList]

theorem Legal.cutPair?_eq {term : String} (h : Legal term) :
    Text.cutPair? '-' '-' term.toList = none := by
  rw [h.toList_eq]
  exact Text.cutPair?_intercalate (by decide) (by decide) fun part hpart =>
    (isToken_iff.1 (h.isToken_parts part hpart)).2.2.2

/-- The term can be written, and its base does not begin with a dash. -/
structure Undashed (term : String) : Prop where
  legal : Legal term
  base : Text.Undashed (Term.base term).toList

theorem Undashed.toList {term : String} (h : Undashed term) : Text.Undashed term.toList := by
  obtain ⟨c, hc, hne⟩ := h.base
  refine ⟨c, ?_, hne⟩
  rwa [h.legal.toList_eq, head?_intercalate '.' (isToken_iff.1 h.legal.base).1]

end Term

namespace Relation

/-- No part of the relation has blanks around it, and its parts can be told apart. -/
structure PartsSeparable (r : Relation) : Prop where
  strip_eq : ∀ part ∈ r.parts, Text.strip part = part
  separable : Text.Separable (r.parts.map String.toList)

theorem Over.partsSeparable {r : Relation} (h : r.Over Term.Undashed) : r.PartsSeparable := by
  cases h with
  | @comparison left right equal hleft hright =>
    have hoperator : Text.strip (if equal then "=" else "!=") = (if equal then "=" else "!=") ∧
        Text.cutPair? '-' '-' (if equal then "=" else "!=").toList = none := by
      cases equal <;> decide
    have hundashed : Text.Undashed (if equal then "=" else "!=").toList := by
      cases equal
      · exact ⟨'!', rfl, by decide⟩
      · exact ⟨'=', rfl, by decide⟩
    show PartsSeparable ⟨left, [if equal then "=" else "!=", right]⟩
    refine ⟨?_, ?_, ?_⟩
    · simp [parts, hleft.legal.strip_eq, hoperator.1, hright.legal.strip_eq]
    · simp [parts, hleft.legal.cutPair?_eq, hoperator.2, hright.legal.cutPair?_eq]
    · simp [parts, hundashed, hright.toList]
  | @predicate words terms hne hwords hterms =>
    have hname : Text.cutPair? '-' '-' (" ".intercalate words).toList = none := by
      rw [String.toList_intercalate]
      exact Text.cutPair?_intercalate (by decide) (by decide) <|
        List.forall_mem_map.2 fun word hword => (isToken_iff.1 (hwords word hword)).2.2.2
    refine ⟨?_, ?_, ?_⟩
    · exact List.forall_mem_cons.2 ⟨strip_intercalate hwords, fun term hterm =>
        (hterms term hterm).legal.strip_eq⟩
    · exact List.forall_mem_map.2 <| List.forall_mem_cons.2 ⟨hname, fun term hterm =>
        (hterms term hterm).legal.cutPair?_eq⟩
    · exact List.forall_mem_map.2 fun term hterm => (hterms term hterm).toList

theorem PartsSeparable.toList_encoding {r : Relation} (h : r.PartsSeparable) :
    r.encoding.toList = ['-', '-'].intercalate (r.parts.map String.toList) := by
  have hparts : r.parts.map Text.strip = r.parts :=
    (List.map_congr_left h.strip_eq).trans (List.map_id _)
  rw [encoding, hparts, String.toList_intercalate]
  rfl

/-- If no base begins with a dash, only equal relations have the same encoding. -/
theorem Over.eq_of_encoding_eq {a b : Relation} (ha : a.Over Term.Undashed)
    (hb : b.Over Term.Undashed) (h : a.encoding = b.encoding) : a = b := by
  have hlists := congrArg String.toList h
  rw [ha.partsSeparable.toList_encoding, hb.partsSeparable.toList_encoding] at hlists
  have hparts := ha.partsSeparable.separable.eq_of_intercalate_eq hb.partsSeparable.separable
    (by simp [parts]) (by simp [parts]) hlists
  have hparts := List.map_injective_iff.2 (fun _ _ => String.toList_injective) hparts
  cases a
  cases b
  simpa [parts] using hparts

end Relation

end Groundwork
