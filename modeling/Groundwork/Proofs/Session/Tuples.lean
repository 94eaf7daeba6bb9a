import Groundwork.Proofs.Session.Explained
import Groundwork.Proofs.Session.Facts

/-!
# The tuples of a model

The tuples of some names are meant to be the arguments of the true facts with these names.  The
predicate of an atom is looked for by its text, as the longest one of the rule that fits, so this
takes names that are apart: of the predicates of a rule that fit a fact, its own name has to be the
longest.  A name may be the beginning of another one.

* `NamesApart.eq_name`: then the longest predicate that fits a fact is its name;
* `mem_tuples_iff_yielded`: the tuples are those of the facts;
* `comparison_listed`: a comparison may be taken for a fact with its left side for a name, if the
  rule has such a predicate.
-/

namespace Groundwork

namespace Listing

variable {t : AtomTable} {model : List Literal} {names : List String} {tuple : List String}

theorem mem_tuples_iff : tuple ∈ tuples t model names ↔
    ∃ l ∈ model, Literal.polarity l = true ∧
      ∃ predicate ∈ names, t.predicate? (Literal.atom l) = some predicate ∧
        t.arguments (Literal.atom l) = tuple := by
  unfold tuples
  dsimp only
  rw [mem_eraseReps, List.mem_mergeSort, List.mem_filterMap]
  refine exists_congr fun l => and_congr_right fun _ => ?_
  cases Literal.polarity l with
  | false => simp
  | true =>
    simp only [if_true, true_and, Option.bind_eq_some_iff]
    constructor
    · rintro ⟨predicate, hpredicate, hlisted⟩
      split at hlisted
      · next hname => exact ⟨predicate, by simpa using hname, hpredicate, Option.some.inj hlisted⟩
      · cases hlisted
    · rintro ⟨predicate, hname, hpredicate, htuple⟩
      refine ⟨predicate, hpredicate, ?_⟩
      rw [if_pos (by simpa using hname), htuple]

end Listing

/-- The names of rules are apart, as far as they fit what the rules meet. -/
structure NamesApart (G : List (Grounder × Rule)) : Prop where
  /-- No longer predicate of the rule fits a fact that the rule meets. -/
  longest : ∀ gr ∈ G, ∀ fact, gr.1.Meets gr.2 fact → fact.isComparison = false →
    ∀ name ∈ gr.2.predicates, AtomTable.fits fact.groundAtom name = true →
      name.utf8ByteSize ≤ fact.name.utf8ByteSize
  /-- Facts with one ground atom have one name. -/
  shared : ∀ gr ∈ G, ∀ gr' ∈ G, ∀ fact fact', gr.1.Yields gr.2 fact → gr'.1.Meets gr'.2 fact' →
    fact.isComparison = false → fact'.isComparison = false →
      fact.groundAtom = fact'.groundAtom → fact.name = fact'.name
  /-- No predicate of the rule is the left side of a comparison that the rule meets. -/
  comparisons : ∀ gr ∈ G, ∀ left equal right,
    gr.1.Meets gr.2 (.comparison left equal right) → left ∉ gr.2.predicates

section Apart

open AtomTable

variable {t : AtomTable} {G : List (Grounder × Rule)} {text : String}

/-- The longest predicate of the rule that fits what the rule meets is its name, and nothing that
has one is a comparison. -/
theorem NamesApart.eq_name (h : NamesApart G) {gr : Grounder × Rule} (hgr : gr ∈ G)
    (hlegal : gr.1.Legal) (hparsed : gr.2.Parsed) {fact : Relation} (hmeets : gr.1.Meets gr.2 fact)
    {predicate : String}
    (hfound : gr.2.predicates.find? (fits fact.groundAtom) = some predicate) :
    fact.isComparison = false ∧ fact.name = predicate := by
  have hmem := List.mem_of_find?_eq_some hfound
  have hfits : fits fact.groundAtom predicate = true := List.find?_some hfound
  have hfact := hmeets.ground hlegal hparsed
  cases hcomparison : fact.isComparison with
  | false =>
    have hname := hmeets.yields.name_mem hlegal hparsed hcomparison
    have hfitting := hfact.fits_name hcomparison
    have hle := Rule.longest_of_find? hfound hname hfitting
    have hge := h.longest gr hgr fact hmeets hcomparison predicate hmem hfits
    exact ⟨rfl, eq_of_fits hfitting hfits (Nat.le_antisymm hle hge)⟩
  | true =>
    obtain ⟨words, hne, hwords, rfl⟩ := hparsed.exists_words hmem
    cases hfact with
    | @comparison left right equal hleft hright =>
      have hleft := Relation.Ground.eq_left_of_fits (.comparison equal hleft hright) hne hwords hfits
      exact absurd (hleft ▸ hmem) (h.comparisons gr hgr left equal right hmeets)
    | predicate _ _ hterms =>
      rw [Relation.isComparison_predicate_of_legal hterms] at hcomparison
      cases hcomparison

/-- No comparison has a predicate, and the predicate of a fact is its name. -/
theorem AtomTable.Explained.exists_fact (h : Explained G t) (hapart : NamesApart G)
    (hlegal : ∀ gr ∈ G, gr.1.Legal) (hparsed : ∀ gr ∈ G, gr.2.Parsed) {predicate : String}
    (hpredicate : t.predicateOf text = some predicate) :
    ∃ gr ∈ G, ∃ fact, gr.1.Meets gr.2 fact ∧ fact.groundAtom = text ∧
      fact.isComparison = false ∧ fact.name = predicate := by
  obtain ⟨gr, hgr, hfound, fact, hmeets, rfl⟩ := h.named text predicate hpredicate
  exact ⟨gr, hgr, fact, hmeets, rfl, hapart.eq_name hgr (hlegal gr hgr) (hparsed gr hgr) hmeets hfound⟩

/-- A fact that is known has its name for its predicate. -/
theorem AtomTable.Explained.predicateOf_eq (h : Explained G t) (hapart : NamesApart G)
    (hlegal : ∀ gr ∈ G, gr.1.Legal) (hparsed : ∀ gr ∈ G, gr.2.Parsed) {gr : Grounder × Rule}
    (hgr : gr ∈ G) {fact : Relation} (hyields : gr.1.Yields gr.2 fact)
    (hcomparison : fact.isComparison = false) (hknown : (t.get? fact.groundAtom).isSome) :
    t.predicateOf fact.groundAtom = some fact.name := by
  have hfact := hyields.ground (hlegal gr hgr) (hparsed gr hgr)
  obtain ⟨stated, hstated, htext, hsome⟩ := h.stated _ hknown
  have hkind : stated.isComparison = false := by
    rw [Bool.eq_false_iff]
    intro htrue
    have hsame := hstated.isComparison_eq hfact ((hstated.groundAtom_eq_iff hfact).1 htext) htrue
    rw [hcomparison] at hsame
    cases hsame
  obtain ⟨predicate, hpredicate⟩ := Option.isSome_iff_exists.1 (hsome hkind)
  obtain ⟨other, hother, met, hmeets, hatom, hmet, rfl⟩ :=
    h.exists_fact hapart hlegal hparsed hpredicate
  rw [hpredicate, hapart.shared gr hgr other hother fact met hyields hmeets hcomparison hmet hatom.symm]

end Apart

namespace Session

open AtomTable

/-- In a session that is only given parsed rules, whose names are apart, the tuples of some names are
the arguments of the facts with these names that are true in the model. -/
theorem mem_tuples_iff_yielded (options : Options) {ops : List Operation}
    (hops : ∀ op ∈ ops, op.OfRules)
    (hparsed : ∀ gr ∈ (ofOptions options).groundingsOf ops, gr.2.Parsed)
    (hapart : NamesApart ((ofOptions options).groundingsOf ops)) (model : List Literal)
    (names tuple : List String) :
    tuple ∈ (ops.foldl Session.after (ofOptions options)).tuples model names ↔
      ∃ gr ∈ (ofOptions options).groundingsOf ops, ∃ fact, gr.1.Yields gr.2 fact ∧
        fact.isComparison = false ∧ fact.name ∈ names ∧ fact.terms = tuple ∧
        ∃ l ∈ model, (ops.foldl Session.after (ofOptions options)).atoms.literal?
          fact.groundAtom true = some l := by
  have hstart := legal_ofOptions options
  have hlegal : ∀ gr ∈ (ofOptions options).groundingsOf ops, gr.1.Legal :=
    fun _ hgr => hstart.of_mem_groundingsOf hgr
  have hexplained := (coherent_ofOptions options).explained_run Solver.follows hstart hops hparsed
    (explained_empty (G := []))
  rw [List.nil_append] at hexplained
  have hcoherent := ((Reached.ofOptions options).run ops).coherent
  have hsound := hcoherent.sound
  generalize (ofOptions options).groundingsOf ops = G at hparsed hapart hlegal hexplained ⊢
  generalize ops.foldl Session.after (ofOptions options) = s at hexplained hcoherent hsound ⊢
  unfold Session.tuples
  rw [Listing.mem_tuples_iff]
  constructor
  · rintro ⟨l, hl, hpositive, predicate, hname, hpredicate, rfl⟩
    obtain ⟨⟨text, _⟩, hentry, rfl⟩ := Option.bind_eq_some_iff.1 hpredicate
    obtain ⟨htext, hof⟩ := hsound.entry?_eq_some_iff.1 hentry
    obtain ⟨gr, hgr, fact, hmeets, rfl, hcomparison, rfl⟩ :=
      hexplained.exists_fact hapart hlegal hparsed hof
    have hfact := hmeets.ground (hlegal gr hgr) (hparsed gr hgr)
    exact ⟨gr, hgr, fact, hmeets.yields, hcomparison, hname,
      (arguments_eq hfact hcomparison hentry).symm, l, hl,
      (hsound.literal?_eq_some_iff hcoherent.largest_le).2 ⟨htext, hpositive⟩⟩
  · rintro ⟨gr, hgr, fact, hyields, hcomparison, hname, rfl, l, hl, hliteral⟩
    have hfact := hyields.ground (hlegal gr hgr) (hparsed gr hgr)
    obtain ⟨htext, hpositive⟩ := (hsound.literal?_eq_some_iff hcoherent.largest_le).1 hliteral
    have hknown := Option.isSome_iff_exists.2 ⟨_, (hsound.get?_iff _ _).2 htext⟩
    have hof := hexplained.predicateOf_eq hapart hlegal hparsed hgr hyields hcomparison hknown
    have hentry := hsound.entry?_eq_some_iff.2 ⟨htext, hof⟩
    refine ⟨l, hl, hpositive, fact.name, hname, ?_, arguments_eq hfact hcomparison hentry⟩
    rw [predicate?, hentry]
    rfl

/-! ## Rules that state facts -/

/-- A rule by which some facts hold. -/
def stating (heads : List Relation) : Rule where
  kind := .assertion
  heads
  body := []
  vars := []

/-- The rule is unfolded after some constants were put in. -/
def unfolding (constants : List (String × String)) (heads : List Relation) : List Operation :=
  (constants.map fun entry => .addElement entry.1 entry.2) ++ [.unfoldRule (stating heads)]

/-- The facts are over the constants, and evaluate to themselves. -/
structure Stated (constants : List (String × String)) (heads : List Relation) : Prop where
  parsed : (stating heads).Parsed
  populated : (populated constants).Populated constants
  constant : ∀ term ∈ (stating heads).constantTerms, term ∈ constants.map Prod.snd
  instances : ∀ fact ∈ heads,
    Grounder.expand [] (Grounder.plainBindings (stating heads) ⟨[], []⟩ []) fact = [fact]
  evaluates : ∀ fact ∈ heads,
    fact.mapTermsM ((Session.populated constants).grounder []).values.evaluate = .ok fact
  clauses : ((Session.populated constants).grounder []).clausesAt (stating heads) ⟨[], []⟩ [] =
    .ok (heads.map fun fact => .withHead fact.groundAtom [])
  mentions : mentionsOfAll [Grounder.gather (Grounder.start (stating heads))
      [heads.map fun fact => .withHead fact.groundAtom []]] =
    heads.map fun fact => ⟨fact.groundAtom, (stating heads).predicates⟩
  few : heads.length ≤ maxAtom

theorem mem_predicates_stating {heads : List Relation} {name : String} :
    name ∈ (stating heads).predicates ↔
      ∃ fact ∈ heads, fact.isComparison = false ∧ fact.name = name := by
  rw [Rule.mem_predicates_iff, show (stating heads).relations = heads ++ [] from rfl,
    List.append_nil]

theorem ofRules_unfolding (constants : List (String × String)) (heads : List Relation) :
    ∀ op ∈ unfolding constants heads, op.OfRules := by
  intro op hop
  rcases List.mem_append.1 hop with hop | hop
  · obtain ⟨_, _, rfl⟩ := List.mem_map.1 hop
    trivial
  · rw [List.mem_singleton.1 hop]
    trivial

/-- Nothing is grounded while constants are put in. -/
theorem groundingsOf_addElements {β : Type} [Backend β] (s : Session β)
    (constants : List (String × String)) (ops : List Operation) :
    s.groundingsOf ((constants.map fun entry => .addElement entry.1 entry.2) ++ ops) =
      (constants.foldl (fun s entry => s.after (.addElement entry.1 entry.2)) s).groundingsOf
        ops := by
  induction constants generalizing s with
  | nil => rfl
  | cons entry constants ih => exact (List.nil_append _).trans (ih _)

section Unfolding

open Grounder

variable {constants : List (String × String)} {heads : List Relation} (h : Stated constants heads)
include h

theorem Stated.ranges_eq :
    ((Session.populated constants).grounder []).ranges (stating heads) = .ok ⟨[], []⟩ := by
  refine h.populated.ranges_eq h.constant (by simp [stating]) ?_
  show Product.saturatingMul 1 1 ≤ 10000000
  decide

theorem Stated.ground_eq :
    ((Session.populated constants).grounder []).ground (stating heads) =
      .ok (gather (Grounder.start (stating heads))
        [heads.map fun fact => .withHead fact.groundAtom []]) :=
  h.populated.ground_eq h.ranges_eq (congrArg (fun found => [found]) h.clauses)

/-- The rule meets what it states. -/
theorem Stated.meets {fact : Relation} (hfact : fact ∈ heads) :
    ((Session.populated constants).grounder []).Meets (stating heads) fact := by
  refine ⟨⟨[], []⟩, [], fact, fact, h.ranges_eq, List.mem_cons_self,
    List.mem_append_left _ hfact, ?_, h.evaluates fact hfact⟩
  show fact ∈ (expand [] (plainBindings (stating heads) ⟨[], []⟩ []) fact).eraseDupsBy sameEncoding
  rw [h.instances fact hfact]
  exact List.mem_singleton.2 rfl

/-- It yields nothing else. -/
theorem Stated.mem_of_yields {fact : Relation}
    (hyields : ((Session.populated constants).grounder []).Yields (stating heads) fact) :
    fact ∈ heads := by
  obtain ⟨ranges, tuple, relation, inst, hranges, htuple, hrelation, hinst, hfact⟩ := hyields
  rw [h.ranges_eq, Except.ok.injEq] at hranges
  subst hranges
  obtain rfl := List.mem_singleton.1 htuple
  have hrelation : relation ∈ heads := by simpa [Rule.relations, stating] using hrelation
  rw [h.instances relation hrelation, List.mem_singleton] at hinst
  rw [hinst, h.evaluates relation hrelation, Except.ok.injEq] at hfact
  rwa [← hfact]

theorem Stated.groundingsOf_eq : (ofOptions {}).groundingsOf (unfolding constants heads) =
    [((Session.populated constants).grounder [], stating heads)] := by
  rw [unfolding, groundingsOf_addElements]
  show (Session.populated constants).groundings (.unfoldRule (stating heads)) ++ [] = _
  rw [groundings_eq (pass_unfoldRule_eq h.ground_eq), List.append_nil]
  rfl

/-- The names are apart if they are apart in what the rule states. -/
theorem Stated.namesApart
    (hlongest : ∀ fact ∈ heads, fact.isComparison = false → ∀ other ∈ heads,
      other.isComparison = false → fits fact.groundAtom other.name = true →
        other.name.utf8ByteSize ≤ fact.name.utf8ByteSize)
    (hshared : ∀ fact ∈ heads, ∀ other ∈ heads, fact.groundAtom = other.groundAtom →
      fact.name = other.name)
    (hcomparisons : ∀ fact ∈ heads, fact.isComparison = true → ∀ other ∈ heads,
      other.isComparison = false → other.name ≠ fact.first) :
    NamesApart ((ofOptions {}).groundingsOf (unfolding constants heads)) := by
  have hmem : ∀ gr ∈ (ofOptions {}).groundingsOf (unfolding constants heads),
      gr.2 = stating heads ∧ ∀ fact, gr.1.Yields gr.2 fact → fact ∈ heads := by
    rw [h.groundingsOf_eq]
    exact List.forall_mem_singleton.2 ⟨rfl, fun fact hyields => h.mem_of_yields hyields⟩
  refine ⟨fun gr hgr fact hmeets hcomparison name hname hfits => ?_,
    fun gr hgr gr' hgr' fact fact' hyields hmeets _ _ hatom => ?_,
    fun gr hgr left equal right hmeets hname => ?_⟩
  · obtain ⟨hrule, hfacts⟩ := hmem gr hgr
    rw [hrule, mem_predicates_stating] at hname
    obtain ⟨other, hother, hkind, rfl⟩ := hname
    exact hlongest fact (hfacts fact hmeets.yields) hcomparison other hother hkind hfits
  · exact hshared fact ((hmem gr hgr).2 fact hyields) fact' ((hmem gr' hgr').2 fact' hmeets.yields)
      hatom
  · obtain ⟨hrule, hfacts⟩ := hmem gr hgr
    rw [hrule, mem_predicates_stating] at hname
    obtain ⟨other, hother, hkind, hleft⟩ := hname
    exact hcomparisons _ (hfacts _ hmeets.yields) (Relation.isComparison_comparison left equal right)
      other hother hkind hleft

theorem Stated.parsed_of_mem_groundingsOf :
    ∀ gr ∈ (ofOptions {}).groundingsOf (unfolding constants heads), gr.2.Parsed := by
  rw [h.groundingsOf_eq]
  exact List.forall_mem_singleton.2 h.parsed

/-- The table after the rule was unfolded. -/
theorem Stated.atoms_eq : ((unfolding constants heads).foldl Session.after (ofOptions {})).atoms =
    ({} : AtomTable).meetAll
      (heads.map fun fact => ⟨fact.groundAtom, (stating heads).predicates⟩) := by
  have hfew : (mentionsOfAll [gather (Grounder.start (stating heads))
      [heads.map fun fact => .withHead fact.groundAtom []]]).length ≤ maxAtom := by
    rw [h.mentions, List.length_map]
    exact h.few
  rw [unfolding, List.foldl_append, List.foldl_map]
  show ((Session.populated constants).after (.unfoldRule (stating heads))).atoms = _
  rw [h.populated.atoms_after_unfoldRule (reached_populated _).coherent h.ground_eq hfew, h.mentions]

theorem Stated.exists_literal {fact : Relation} (hfact : fact ∈ heads) :
    ∃ l, ((unfolding constants heads).foldl Session.after (ofOptions {})).atoms.literal?
      fact.groundAtom true = some l := by
  refine exists_literal? ?_ true
  rw [h.atoms_eq, known_meetAll, List.map_map]
  exact Or.inr (List.mem_map_of_mem (f := fun fact => fact.groundAtom) hfact)

end Unfolding

/-! ## Two names of which one begins the other -/

/-- Two constants of one sort. -/
def nodes : List (String × String) :=
  [("node", "n1"), ("node", "n2")]

/-- Facts of which the name of one begins that of the other, and a comparison. -/
def neighbours : List Relation :=
  [.predicate "left" ["n1", "n2"], .predicate "left of" ["n2", "n1"], .comparison "n1" true "n1"]

theorem stated_neighbours : Stated nodes neighbours := by
  have hparsed : (stating neighbours).Parsed :=
    Rule.parsed_of_unannotated "left (n1, n2), left of (n2, n1), n1 = n1"
      ["n1", "n2", "n2", "n1", "n1", "n1"] (fun _ => ⟨_, rfl⟩) [] rfl
  refine ⟨hparsed, populated_spec (by decide) (by decide) (by decide), by decide, ?_, ?_, rfl, rfl,
    by decide⟩
  · exact List.forall_mem_cons.2 ⟨rfl, List.forall_mem_cons.2 ⟨rfl, List.forall_mem_singleton.2 rfl⟩⟩
  · exact List.forall_mem_cons.2 ⟨rfl, List.forall_mem_cons.2 ⟨rfl, List.forall_mem_singleton.2 rfl⟩⟩

theorem namesApart_neighbours :
    NamesApart ((ofOptions {}).groundingsOf (unfolding nodes neighbours)) := by
  apply stated_neighbours.namesApart
  · simp only [fits_iff]
    decide
  · decide
  · decide

/-- One name begins the other, and each has its own tuples. -/
theorem mem_tuples_iff_yielded_apart :
    (∀ op ∈ unfolding nodes neighbours, op.OfRules) ∧
      (∀ gr ∈ (ofOptions {}).groundingsOf (unfolding nodes neighbours), gr.2.Parsed) ∧
      NamesApart ((ofOptions {}).groundingsOf (unfolding nodes neighbours)) ∧
      ∃ left leftOf, ∀ tuple,
        let s := (unfolding nodes neighbours).foldl Session.after (ofOptions {})
        (tuple ∈ s.tuples [left, leftOf] ["left"] ↔ tuple = ["n1", "n2"]) ∧
          (tuple ∈ s.tuples [left, leftOf] ["left of"] ↔ tuple = ["n2", "n1"]) := by
  have hops := ofRules_unfolding nodes neighbours
  have hparsed := stated_neighbours.parsed_of_mem_groundingsOf
  have hleft : Relation.predicate "left" ["n1", "n2"] ∈ neighbours := List.mem_cons_self
  have hleftOf : Relation.predicate "left of" ["n2", "n1"] ∈ neighbours :=
    List.mem_cons_of_mem _ List.mem_cons_self
  obtain ⟨left, hl⟩ := stated_neighbours.exists_literal hleft
  obtain ⟨leftOf, hlOf⟩ := stated_neighbours.exists_literal hleftOf
  have hgr := stated_neighbours.groundingsOf_eq ▸ List.mem_singleton.2 rfl
  -- A fact that is not a comparison is one of the two.
  have hfacts : ∀ gr ∈ (ofOptions {}).groundingsOf (unfolding nodes neighbours), ∀ fact,
      gr.1.Yields gr.2 fact → fact.isComparison = false →
        fact = .predicate "left" ["n1", "n2"] ∨ fact = .predicate "left of" ["n2", "n1"] := by
    rw [stated_neighbours.groundingsOf_eq]
    refine List.forall_mem_singleton.2 fun fact hyields hcomparison => ?_
    have hmem := stated_neighbours.mem_of_yields hyields
    simp only [neighbours, List.mem_cons, List.not_mem_nil, or_false] at hmem
    rcases hmem with rfl | rfl | rfl
    · exact Or.inl rfl
    · exact Or.inr rfl
    · cases hcomparison
  have hiff : ∀ names tuple,
      tuple ∈ ((unfolding nodes neighbours).foldl Session.after (ofOptions {})).tuples
        [left, leftOf] names ↔
          "left" ∈ names ∧ tuple = ["n1", "n2"] ∨ "left of" ∈ names ∧ tuple = ["n2", "n1"] := by
    intro names tuple
    rw [mem_tuples_iff_yielded {} hops hparsed namesApart_neighbours]
    constructor
    · rintro ⟨gr, hgr, fact, hyields, hcomparison, hname, rfl, _⟩
      rcases hfacts gr hgr fact hyields hcomparison with rfl | rfl
      · exact Or.inl ⟨hname, rfl⟩
      · exact Or.inr ⟨hname, rfl⟩
    · rintro (⟨hname, rfl⟩ | ⟨hname, rfl⟩)
      · exact ⟨_, hgr, _, (stated_neighbours.meets hleft).yields, rfl, hname, rfl, left,
          List.mem_cons_self, hl⟩
      · exact ⟨_, hgr, _, (stated_neighbours.meets hleftOf).yields, rfl, hname, rfl, leftOf,
          List.mem_cons_of_mem _ List.mem_cons_self, hlOf⟩
  exact ⟨hops, hparsed, namesApart_neighbours, left, leftOf, fun tuple =>
    ⟨(hiff _ _).trans (by simp), (hiff _ _).trans (by simp)⟩⟩

/-! ## A fact and a comparison -/

/-- A fact, and that its constant is equal to itself.  The constant is named as the predicate. -/
def reflexive : List Relation :=
  [.predicate "p" ["p"], .comparison "p" true "p"]

theorem stated_reflexive : Stated [("s", "p")] reflexive := by
  have hparsed : (stating reflexive).Parsed :=
    Rule.parsed_of_unannotated "p (p), p = p" ["p", "p", "p"] (fun _ => ⟨_, rfl⟩) [] rfl
  refine ⟨hparsed, populated_spec (by decide) (by decide) (by decide), by decide, ?_, ?_, rfl, rfl,
    by decide⟩
  · exact List.forall_mem_cons.2 ⟨rfl, List.forall_mem_singleton.2 rfl⟩
  · exact List.forall_mem_cons.2 ⟨rfl, List.forall_mem_singleton.2 rfl⟩

/-- The only predicate of the rule is the left side of the comparison, and fits it. -/
theorem predicateOf_comparison :
    ((unfolding [("s", "p")] reflexive).foldl Session.after (ofOptions {})).atoms.predicateOf
      "p = p" = some "p" := by
  have hpredicates : ∀ name ∈ (stating reflexive).predicates, name = "p" := by
    intro name hname
    obtain ⟨fact, hfact, hcomparison, rfl⟩ := mem_predicates_stating.1 hname
    simp only [reflexive, List.mem_cons, List.not_mem_nil, or_false] at hfact
    rcases hfact with rfl | rfl
    · rfl
    · cases hcomparison
  have hmem : "p" ∈ (stating reflexive).predicates :=
    mem_predicates_stating.2 ⟨_, List.mem_cons_self, rfl, rfl⟩
  have hfits : fits "p = p" "p" = true := fits_iff.2 ⟨by decide, by decide⟩
  have hsome : ((stating reflexive).predicates.find? (fits "p = p")).isSome :=
    List.find?_isSome.2 ⟨"p", hmem, hfits⟩
  obtain ⟨predicate, hfound⟩ := Option.isSome_iff_exists.1 hsome
  obtain rfl := hpredicates predicate (List.mem_of_find?_eq_some hfound)
  have hfirst : firstFitting [⟨"p p", (stating reflexive).predicates⟩,
      ⟨"p = p", (stating reflexive).predicates⟩] "p = p" = some "p" := by
    simp [firstFitting, hfound]
  rw [stated_reflexive.atoms_eq, predicateOf_meetAll sound_empty,
    predicateOf_eq_none Std.HashMap.getElem?_empty, Option.none_or]
  exact hfirst

/-- Here the constant is named as the predicate.  The comparison is taken for a fact with that name,
and the operator for its first argument, although no fact has such arguments. -/
theorem comparison_listed :
    (∀ op ∈ unfolding [("s", "p")] reflexive, op.OfRules) ∧
      (∀ gr ∈ (ofOptions {}).groundingsOf (unfolding [("s", "p")] reflexive), gr.2.Parsed) ∧
      ∃ l, ["=", "p"] ∈
          ((unfolding [("s", "p")] reflexive).foldl Session.after (ofOptions {})).tuples [l] ["p"] ∧
        ∀ gr ∈ (ofOptions {}).groundingsOf (unfolding [("s", "p")] reflexive), ∀ fact,
          gr.1.Yields gr.2 fact → fact.isComparison = false → fact.terms ≠ ["=", "p"] := by
  have hparsed := stated_reflexive.parsed_of_mem_groundingsOf
  have hfact : Relation.comparison "p" true "p" ∈ reflexive :=
    List.mem_cons_of_mem _ List.mem_cons_self
  obtain ⟨l, hl⟩ := stated_reflexive.exists_literal hfact
  have hcoherent := ((Reached.ofOptions {}).run (unfolding [("s", "p")] reflexive)).coherent
  obtain ⟨htext, hpositive⟩ := (hcoherent.sound.literal?_eq_some_iff hcoherent.largest_le).1 hl
  have hentry := hcoherent.sound.entry?_eq_some_iff.2 ⟨htext, predicateOf_comparison⟩
  refine ⟨ofRules_unfolding _ _, hparsed, l, Listing.mem_tuples_iff.2 ?_, ?_⟩
  · refine ⟨l, List.mem_singleton.2 rfl, hpositive, "p", List.mem_singleton.2 rfl, ?_, ?_⟩
    · rw [predicate?, hentry]
      rfl
    · unfold arguments
      rw [hentry]
      decide
  · intro gr hgr fact hyields _ hterms
    have hground := hyields.ground ((legal_ofOptions {}).of_mem_groundingsOf hgr) (hparsed gr hgr)
    have hlegal := hground.legal_terms "=" (by rw [hterms]; exact List.mem_cons_self)
    revert hlegal
    decide

end Session

end Groundwork
