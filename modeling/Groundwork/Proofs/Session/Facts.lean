import Groundwork.Proofs.Grounding.Meeting
import Groundwork.Proofs.Session.Populating

/-!
# Facts and their atoms

A fact is a ground relation to which an instance of a rule evaluates.  It is known under its
ground atom, and all facts with one ground atom have one literal.

* `literal_eq_iff_words_eq`: facts have the same literal exactly if they have the same words.
  Then they are the same fact if they have the same name or as many arguments, if their names
  are single words, or if one of them is a comparison.
* `facts_share_literal`: a name of two words may be a name of one word followed by a constant,
  so that two facts have the same literal.
-/

namespace Groundwork

namespace AtomTable

/-- The literal of a ground atom stands for it, with the polarity that was asked for. -/
theorem Sound.literal?_eq_some_iff {t : AtomTable} (h : t.Sound) (hle : t.largest ≤ maxAtom)
    {text : String} {polarity : Bool} {l : Literal} :
    t.literal? text polarity = some l ↔
      t.text? (Literal.atom l) = some text ∧ Literal.polarity l = polarity := by
  rw [literal?, Option.map_eq_some_iff]
  constructor
  · rintro ⟨atom, hget, rfl⟩
    obtain ⟨hpos, hatom⟩ := h.le_largest hget
    have hmax : atom ≤ maxAtom := Nat.le_trans hatom hle
    rw [Literal.atom_ofAtom hmax]
    exact ⟨(h.get?_iff _ _).1 hget, Literal.polarity_ofAtom hpos hmax polarity⟩
  · rintro ⟨htext, rfl⟩
    have hget := (h.get?_iff _ _).2 htext
    exact ⟨_, hget, Literal.ofAtom_atom (Nat.le_trans (h.le_largest hget).2 hle)⟩

theorem exists_literal? {t : AtomTable} {text : String} (hknown : (t.get? text).isSome)
    (polarity : Bool) : ∃ l, t.literal? text polarity = some l := by
  obtain ⟨atom, hatom⟩ := Option.isSome_iff_exists.1 hknown
  exact ⟨Literal.ofAtom atom polarity, by rw [literal?, hatom, Option.map_some]⟩

end AtomTable

namespace Session

open Grounder

/-- Facts that parsed rules meet, in whatever sessions, have the same literal of a session exactly
if they have the same words.  Then they are the same fact, unless their names are of different
lengths and have several words. -/
theorem literal_eq_iff_words_eq {s s' t : Session Solver} (hs : Reached s) (hs' : Reached s')
    (ht : Reached t) {restrictions accepted restrictions' accepted' : List (String × List String)}
    (haccepted : s.restrict restrictions = .ok accepted)
    (haccepted' : s'.restrict restrictions' = .ok accepted') {r r' : Rule} (hr : r.Parsed)
    (hr' : r'.Parsed) {a b : Relation} (ha : (s.grounder accepted).Meets r a)
    (hb : (s'.grounder accepted').Meets r' b) {polarity polarity' : Bool} {l : Literal}
    (hl : t.atoms.literal? a.groundAtom polarity = some l) :
    (t.atoms.literal? b.groundAtom polarity' = some l ↔
        polarity = polarity' ∧ a.words = b.words) ∧
      (a.words = b.words →
        a.isComparison = true ∨ a.name = b.name ∨ a.terms.length = b.terms.length ∨
          legalToken a.name = true ∧ legalToken b.name = true → a = b) := by
  have hground := ha.ground (hs.legal.grounder haccepted) hr
  have hground' := hb.ground (hs'.legal.grounder haccepted') hr'
  have hcoherent := ht.coherent
  constructor
  · rw [hcoherent.sound.literal?_eq_some_iff hcoherent.largest_le] at hl ⊢
    obtain ⟨htext, rfl⟩ := hl
    rw [htext, Option.some.injEq, hground.groundAtom_eq_iff hground', and_comm]
  · rintro hwords (hcomparison | hname | hlength | ⟨hname, hname'⟩)
    · exact hground.eq_of_words_eq hground' hwords (Or.inl hcomparison)
    · exact hground.eq_of_words_eq hground' hwords (Or.inr (Or.inl hname))
    · exact hground.eq_of_words_eq hground' hwords (Or.inr (Or.inr hlength))
    · exact hground.eq_of_legal_names hground' hwords hname hname'

/-! ## A name of two words -/

/-- A rule by which two facts hold, of which the second has a name of two words. -/
def twoNamesRule : Rule where
  kind := .assertion
  heads := [.predicate "p" ["a"], .predicate "p a" []]
  body := []
  vars := []

theorem parsed_twoNamesRule : twoNamesRule.Parsed :=
  Rule.parsed_of_unannotated "p (a), p a ()" ["a"] (fun _ => ⟨_, rfl⟩) [] rfl

/-- A session with one constant. -/
def oneConstant : Session Solver :=
  populated [("s", "a")]

theorem populated_oneConstant : oneConstant.Populated [("s", "a")] :=
  populated_spec (by decide) (by decide) (by decide)

theorem ranges_twoNamesRule : (oneConstant.grounder []).ranges twoNamesRule = .ok ⟨[], []⟩ :=
  populated_oneConstant.ranges_eq (fun _ hterm => hterm) (by decide) (by decide)

theorem meets_twoNamesRule {fact : Relation} (h : fact ∈ twoNamesRule.heads) :
    (oneConstant.grounder []).Meets twoNamesRule fact := by
  refine ⟨⟨[], []⟩, [], fact, fact, ranges_twoNamesRule, List.mem_cons_self,
    List.mem_append_left _ h, ?_, ?_⟩
  all_goals
    simp only [twoNamesRule, List.mem_cons, List.not_mem_nil, or_false] at h
    rcases h with rfl | rfl
  · exact List.mem_singleton.2 rfl
  · exact List.mem_singleton.2 rfl
  · rfl
  · rfl

theorem ground_twoNamesRule : (oneConstant.grounder []).ground twoNamesRule =
    .ok (gather (Grounder.start twoNamesRule) [[.withHead "p a" [], .withHead "p a" []]]) :=
  populated_oneConstant.ground_eq ranges_twoNamesRule rfl

/-- The session after the rule was unfolded. -/
def twoNames : Session Solver :=
  oneConstant.after (.unfoldRule twoNamesRule)

theorem exists_literal_twoNames : ∃ l, twoNames.atoms.literal? "p a" true = some l := by
  have hatoms := populated_oneConstant.atoms_after_unfoldRule (reached_populated _).coherent
    ground_twoNamesRule (by decide)
  refine AtomTable.exists_literal? ?_ true
  rw [twoNames, hatoms]
  exact (AtomTable.known_meetAll _ _ _).2 (Or.inr List.mem_cons_self)

/-- Facts with different names and arguments have the same literal. -/
theorem facts_share_literal :
    Reached oneConstant ∧ twoNamesRule.Parsed ∧
      ∃ a b, (oneConstant.grounder []).Meets twoNamesRule a ∧
        (oneConstant.grounder []).Meets twoNamesRule b ∧ a.name ≠ b.name ∧ a.terms ≠ b.terms ∧
        ∃ l, twoNames.atoms.literal? a.groundAtom true = some l ∧
          twoNames.atoms.literal? b.groundAtom true = some l := by
  obtain ⟨l, hl⟩ := exists_literal_twoNames
  exact ⟨reached_populated _, parsed_twoNamesRule, .predicate "p" ["a"], .predicate "p a" [],
    meets_twoNamesRule List.mem_cons_self,
    meets_twoNamesRule (List.mem_cons_of_mem _ List.mem_cons_self), by decide, by decide,
    l, hl, hl⟩

/-- They share the words, too. -/
theorem literal_eq_iff_words_eq_twoNames : ∃ l,
    twoNames.atoms.literal? (Relation.predicate "p" ["a"]).groundAtom true = some l ∧
      (twoNames.atoms.literal? (Relation.predicate "p a" []).groundAtom true = some l ↔
        true = true ∧ (Relation.predicate "p" ["a"]).words = (Relation.predicate "p a" []).words) := by
  obtain ⟨l, hl⟩ := exists_literal_twoNames
  have hreached : Reached oneConstant := reached_populated _
  have hrestrict : oneConstant.restrict [] = .ok [] := rfl
  exact ⟨l, hl, (literal_eq_iff_words_eq hreached hreached (hreached.after _) hrestrict hrestrict
    parsed_twoNamesRule parsed_twoNamesRule (meets_twoNamesRule List.mem_cons_self)
    (meets_twoNamesRule (List.mem_cons_of_mem _ List.mem_cons_self)) hl).1⟩

end Session

end Groundwork
