import Groundwork.Proofs.Distinct
import Groundwork.Proofs.Session.Installed
import Groundwork.Proofs.Session.Rebuilding

/-!
# The documents that are accepted

A session is made from a document in three rounds, for its atoms, its clauses and its values, and
every round may fail.  It is made from exactly the documents that hang together, and then its own
document is the given one.  Only values may differ: where a pair of a constant and a function has
several, the last one counts, at the place of the first.

* `Document.Coherent`: the documents that hang together;
* `ValueTable.toList_setAll`: what is listed after values were set one after the other;
* `names_of_installClauses`, `legal_of_setValues`: what the rounds have looked at when they pass;
* `ofDocument_accepts_coherent`: which documents are accepted, and what becomes of them.
-/

namespace Groundwork

/-! ## Values that are set again -/

namespace ValueTable

variable {listed : List (String × String × String)}

/-- The table after all values of a list were set, one after the other. -/
def setAll (t : ValueTable) (listed : List (String × String × String)) : ValueTable :=
  listed.foldl (fun t x => (t.set x.1 x.2.1 x.2.2).2) t

/-- The last triple of a list for a pair of a constant and a function. -/
def lastOf? (listed : List (String × String × String)) (pair : String × String) :
    Option (String × String × String) :=
  listed.reverse.find? fun x => pairOf x == pair

/-- The triples of a list with each pair once, at its first place and with its last value. -/
def lastValues (listed : List (String × String × String)) : List (String × String × String) :=
  (listed.map pairOf).eraseDups.filterMap (lastOf? listed)

theorem setAll_concat (t : ValueTable) (x : String × String × String) :
    t.setAll (listed ++ [x]) = ((t.setAll listed).set x.1 x.2.1 x.2.2).2 :=
  List.foldl_concat _ _ _ _

theorem lastOf?_concat (x : String × String × String) (pair : String × String) :
    lastOf? (listed ++ [x]) pair = if pairOf x = pair then some x else lastOf? listed pair := by
  unfold lastOf?
  rw [List.reverse_concat, List.find?_cons]
  by_cases hsame : pairOf x = pair
  · rw [if_pos hsame, beq_iff_eq.2 hsame]
  · rw [if_neg hsame, beq_eq_false_iff_ne.2 hsame]

theorem mem_of_lastOf? {pair : String × String} {x : String × String × String}
    (h : lastOf? listed pair = some x) : x ∈ listed ∧ pairOf x = pair :=
  ⟨List.mem_reverse.1 (List.mem_of_find?_eq_some h), beq_iff_eq.1 (List.find?_some h :)⟩

theorem isSome_lastOf?_iff {pair : String × String} :
    (lastOf? listed pair).isSome = true ↔ pair ∈ listed.map pairOf := by
  rw [lastOf?, List.find?_isSome, List.mem_map]
  simp only [List.mem_reverse, beq_iff_eq]

theorem get?_setAll (listed : List (String × String × String)) (pair : String × String) :
    (setAll {} listed).get? pair.1 pair.2 = (lastOf? listed pair).map fun x => x.2.2 := by
  induction listed using List.reverseRecOn with
  | nil => exact Std.HashMap.getElem?_empty
  | append_singleton listed x ih =>
    rw [setAll_concat, get?_set, lastOf?_concat, ih]
    show (if pair = pairOf x then _ else _) = _
    by_cases hsame : pairOf x = pair
    · rw [if_pos hsame, if_pos hsame.symm, Option.map_some]
    · rw [if_neg hsame, if_neg fun hpair => hsame hpair.symm]

theorem order_setAll (listed : List (String × String × String)) :
    (setAll {} listed).order.toList = (listed.map pairOf).eraseDups := by
  induction listed using List.reverseRecOn with
  | nil => rfl
  | append_singleton listed x ih =>
    have hknown : ((setAll {} listed).get? x.1 x.2.1).isSome = true ↔
        pairOf x ∈ listed.map pairOf := by
      have hget := get?_setAll listed (pairOf x)
      rw [← isSome_lastOf?_iff, show (setAll {} listed).get? x.1 x.2.1 = _ from hget,
        Option.isSome_map]
    rw [setAll_concat, order_set, ih, List.map_append, List.eraseDups_append]
    by_cases hmem : pairOf x ∈ listed.map pairOf
    · rw [if_pos (hknown.2 hmem)]
      simp only [List.map_singleton, List.removeAll, List.filter_singleton, List.elem_eq_contains,
        List.contains_iff_mem.2 hmem]
      exact (List.append_nil _).symm
    · rw [if_neg (mt hknown.1 hmem)]
      have hnew : (listed.map pairOf).contains (pairOf x) = false :=
        Bool.eq_false_iff.2 fun h => hmem (List.contains_iff_mem.1 h)
      simp only [List.map_singleton, List.removeAll, List.filter_singleton, List.elem_eq_contains,
        hnew]
      rfl

/-- Values that are set one after the other are listed with each pair at its first place and with
its last value. -/
theorem toList_setAll (listed : List (String × String × String)) :
    (setAll {} listed).toList = lastValues listed := by
  rw [toList, order_setAll, lastValues]
  refine List.filterMap_congr fun pair _ => ?_
  show ((setAll {} listed).get? pair.1 pair.2).map _ = _
  rw [get?_setAll, Option.map_map]
  cases hlast : lastOf? listed pair with
  | none => rfl
  | some x =>
    rw [← (mem_of_lastOf? hlast).2]
    rfl

theorem map_pairOf_lastValues (listed : List (String × String × String)) :
    (lastValues listed).map pairOf = (listed.map pairOf).eraseDups := by
  have hall : ∀ pair ∈ (listed.map pairOf).eraseDups,
      (lastOf? listed pair).map pairOf = some pair := by
    intro pair hpair
    obtain ⟨x, hx⟩ := Option.isSome_iff_exists.1 (isSome_lastOf?_iff.2 (List.mem_eraseDups.1 hpair))
    rw [hx, Option.map_some, (mem_of_lastOf? hx).2]
  rw [lastValues, List.map_filterMap, List.filterMap_congr hall, List.filterMap_some]

/-- The list stays as it is exactly if each pair has one value. -/
theorem lastValues_eq_self_iff : lastValues listed = listed ↔ (listed.map pairOf).Nodup := by
  constructor
  · intro heq
    rw [← heq, map_pairOf_lastValues]
    exact nodup_eraseDups _
  · intro hnodup
    have hall : ∀ x ∈ listed, lastOf? listed (pairOf x) = some x := by
      intro x hx
      obtain ⟨y, hy⟩ := Option.isSome_iff_exists.1
        (isSome_lastOf?_iff.2 (List.mem_map_of_mem hx))
      obtain ⟨hmem, hpair⟩ := mem_of_lastOf? hy
      rw [hy, List.inj_on_of_nodup_map hnodup hmem hx hpair]
    rw [lastValues, eraseDups_of_nodup hnodup, List.filterMap_map]
    exact (List.filterMap_congr hall).trans List.filterMap_some

end ValueTable

namespace Document

/-- The document hangs together: its atoms are numbered, its clauses are over these atoms, and its
values are between legal tokens. -/
structure Coherent (d : Document) : Prop extends d.Numbered where
  clauses : ∀ c ∈ d.clauses, ∀ l ∈ c, 1 ≤ Literal.atom l ∧ Literal.atom l ≤ d.literals.size
  values : ∀ triple ∈ d.values, legalToken triple.1 = true ∧ legalToken triple.2.1 = true ∧
    legalToken triple.2.2 = true

end Document

namespace Session

variable {s t : Session Solver}

/-! ## Clauses -/

/-- A clause that goes in is over known ground atoms. -/
theorem names_of_installClause {c : Clause} (h : exec (installClause c) s = (.ok (), t)) :
    (∀ l ∈ c, s.atoms.Names l) ∧ exec (handClause c) s = (.ok (), t) := by
  unfold installClause at h
  rw [exec_bind, exec_get] at h
  dsimp only at h
  cases hfind : c.find? fun l => (s.atoms.text? (Literal.atom l)).isNone with
  | some l =>
    rw [hfind] at h
    cases h
  | none =>
    rw [hfind] at h
    refine ⟨fun l hl => ?_, h⟩
    have hknown := List.find?_eq_none.1 hfind l hl
    rwa [Option.isNone_iff_eq_none, ← ne_eq, ← Option.isSome_iff_ne_none] at hknown

/-- All clauses are looked at with the same atoms, since none of them brings in others. -/
theorem names_of_installClauses {clauses : List Clause} (hle : s.atoms.largest ≤ maxAtom)
    (h : exec (clauses.forM installClause) s = (.ok (), t)) :
    ∀ c ∈ clauses, ∀ l ∈ c, s.atoms.Names l := by
  induction clauses generalizing s with
  | nil => simp
  | cons c clauses ih =>
    obtain ⟨_, u, hfirst, hrest⟩ := exec_bind_eq_ok_iff.1 h
    obtain ⟨hnames, hhand⟩ := names_of_installClause hfirst
    obtain ⟨admission, backend, hadd⟩ := Solver.accepts s.backend c fun l hl =>
      AtomTable.Sound.proper hle (hnames l hl)
    rw [exec_handClause_ok hadd] at hhand
    cases hhand
    have hlater := ih (s := s.taken c admission backend) hle hrest
    exact List.forall_mem_cons.2 ⟨hnames, hlater⟩

/-! ## Values -/

theorem legal_of_setValue {β : Type} {s t : Session β} {domain function image : String}
    {previous : Option String}
    (h : exec (setValue domain function image) s = (.ok previous, t)) :
    legalToken domain = true ∧ legalToken function = true ∧ legalToken image = true := by
  unfold setValue at h
  split at h
  · cases h
  · next hnone =>
    have htokens := List.find?_eq_none.1 (Option.eq_none_iff_forall_ne_some.2 hnone)
    simpa using htokens

/-- Every triple of a list is looked at before its value is set. -/
theorem legal_of_setValues {β : Type} {s t : Session β} {listed : List (String × String × String)}
    (h : exec (listed.forM fun (domain, function, image) =>
      discard (setValue domain function image)) s = (.ok (), t)) :
    ∀ triple ∈ listed, legalToken triple.1 = true ∧ legalToken triple.2.1 = true ∧
      legalToken triple.2.2 = true := by
  induction listed generalizing s with
  | nil => simp
  | cons first listed ih =>
    obtain ⟨_, u, hfirst, hrest⟩ := exec_bind_eq_ok_iff.1 h
    obtain ⟨previous, v, hset, _⟩ := exec_bind_eq_ok_iff.1 hfirst
    exact List.forall_mem_cons.2 ⟨legal_of_setValue hset, ih hrest⟩

/-- Values between legal tokens are all set, also where a pair had a value before, and nothing else
changes but the stage. -/
theorem exec_setAll {β : Type} {listed : List (String × String × String)}
    (hlegal : ∀ triple ∈ listed, legalToken triple.1 = true ∧ legalToken triple.2.1 = true ∧
      legalToken triple.2.2 = true) (s : Session β) :
    ∃ stage, (stage = s.stage ∨ stage = .input) ∧
      exec (listed.forM fun (domain, function, image) =>
          discard (setValue domain function image)) s =
        (.ok (), { s with stage := stage, values := s.values.setAll listed }) := by
  induction listed generalizing s with
  | nil => exact ⟨s.stage, .inl rfl, rfl⟩
  | cons first listed ih =>
    obtain ⟨domain, function, image⟩ := first
    obtain ⟨⟨hdomain, hfunction, himage⟩, hlegal⟩ := List.forall_mem_cons.1 hlegal
    obtain ⟨stage, hstage, hrest⟩ :=
      ih hlegal { s with stage := .input, values := (s.values.set domain function image).2 }
    have hfirst : exec (discard (setValue domain function image)) s =
        (.ok (), { s with stage := .input, values := (s.values.set domain function image).2 }) := by
      rw [exec_discard, exec_setValue hdomain hfunction himage]
      rfl
    exact ⟨stage, .inr (hstage.elim id id), (exec_bind_ok hfirst).trans hrest⟩

theorem exists_setAll {listed : List (String × String × String)}
    (hlegal : ∀ triple ∈ listed, legalToken triple.1 = true ∧ legalToken triple.2.1 = true ∧
      legalToken triple.2.2 = true) (s : Session Solver) :
    ∃ t, exec (listed.forM fun (domain, function, image) =>
        discard (setValue domain function image)) s = (.ok (), t) ∧ SameInstance s t ∧
      t.values = s.values.setAll listed := by
  obtain ⟨stage, hstage, hrun⟩ := exec_setAll hlegal s
  exact ⟨_, hrun, ⟨rfl, rfl, rfl, hstage⟩, rfl⟩

/-! ## Documents -/

variable {d : Document} {options : Options}

/-- The rounds in which a session is made from a document. -/
theorem ofDocument_rounds (h : ofDocument d options = .ok t) :
    ∃ atoms u, AtomTable.ofDocument d = .ok atoms ∧
      exec (d.clauses.forM installClause) { ofOptions options with atoms } = (.ok (), u) ∧
      exec (d.values.forM fun (domain, function, image) =>
        discard (setValue domain function image)) u = (.ok (), t) := by
  have hrun := ofDocument_eq_ok_iff.1 h
  unfold installDocument at hrun
  cases hatoms : AtomTable.ofDocument d with
  | error e =>
    rw [hatoms, exec_bind, exec_orFail_error] at hrun
    cases hrun
  | ok atoms =>
    rw [hatoms, exec_bind, exec_orFail_ok] at hrun
    dsimp only at hrun
    rw [exec_bind, exec_modify] at hrun
    obtain ⟨_, u, hclauses, hvalues⟩ := exec_bind_eq_ok_iff.1 hrun
    exact ⟨atoms, u, rfl, hclauses, hvalues⟩

theorem coherent_of_ofDocument (h : ofDocument d options = .ok t) : d.Coherent := by
  obtain ⟨atoms, u, hatoms, hclauses, hvalues⟩ := ofDocument_rounds h
  obtain ⟨hinstalled, hnumbered⟩ := AtomTable.installed_of_ofDocument hatoms
  have hnames := names_of_installClauses (AtomTable.sound_ofDocument hatoms).2 hclauses
  refine ⟨hnumbered, fun c hc l hl => ?_, legal_of_setValues hvalues⟩
  exact (hinstalled.names_iff hnumbered l).1 (hnames c hc l hl)

/-- Nothing is put in but what the document says. -/
theorem exists_of_coherent (h : d.Coherent) (options : Options) :
    ∃ t, ofDocument d options = .ok t ∧ t.atoms.Installed d ∧ t.clauses.toList = d.clauses ∧
      t.values = ValueTable.setAll {} d.values := by
  obtain ⟨atoms, hatoms⟩ := AtomTable.exists_ofDocument_of_numbered h.toNumbered
  obtain ⟨hinstalled, _⟩ := AtomTable.installed_of_ofDocument hatoms
  obtain ⟨_, hle⟩ := AtomTable.sound_ofDocument hatoms
  have hnames : ∀ c ∈ d.clauses, ∀ l ∈ c, atoms.Names l := fun c hc l hl =>
    (hinstalled.names_iff h.toNumbered l).2 (h.clauses c hc l hl)
  have hproper : ∀ c ∈ d.clauses, ∀ l ∈ c, Literal.Proper l := fun c hc l hl =>
    AtomTable.Sound.proper hle (hnames c hc l hl)
  obtain ⟨counters, hhand⟩ := exec_handClauses_solver hproper { ofOptions options with atoms }
  have hinstall := exec_installClauses (s := { ofOptions options with atoms }) hproper hnames
  obtain ⟨t, hset, hsame, hvalues⟩ := exists_setAll h.values
    (withClauses { ofOptions options with atoms } d.clauses counters)
  refine ⟨t, ofDocument_eq_ok_iff.2 ?_, ?_, ?_, ?_⟩
  · unfold installDocument
    rw [hatoms, exec_bind, exec_orFail_ok]
    dsimp only
    rw [exec_bind, exec_modify]
    exact (exec_bind_ok (hinstall.trans hhand)).trans hset
  · rw [hsame.atoms_eq]
    exact hinstalled
  · rw [hsame.clauses_eq, clauses_withClauses]
    exact List.nil_append _
  · exact hvalues

/-- What is recorded of a session that was made from a document. -/
theorem document_ofDocument (h : ofDocument d options = .ok t) :
    t.document = { d with values := ValueTable.lastValues d.values } := by
  have hcoherent := coherent_of_ofDocument h
  obtain ⟨u, hu, hinstalled, hclauses, hvalues⟩ := exists_of_coherent hcoherent options
  rw [h] at hu
  cases hu
  have hliterals := hinstalled.literals_perm hcoherent.toNumbered
  unfold document
  rw [hclauses, hvalues, ValueTable.toList_setAll]
  congr 1
  · exact Dictionary.ofList_eq_of_perm hliterals
  · exact Dictionary.ofList_eq_of_perm hinstalled.predicates_perm

/-- A session is made from exactly the documents that hang together.  Its own document is the given
one up to values that were given again, and the same where no pair has two of them. -/
theorem ofDocument_accepts_coherent (d : Document) (options : Options) :
    ((∃ s, ofDocument d options = .ok s) ↔ d.Coherent) ∧
      ∀ s, ofDocument d options = .ok s →
        s.document = { d with values := ValueTable.lastValues d.values } ∧
        (s.document = d ↔ (d.values.map ValueTable.pairOf).Nodup) := by
  refine ⟨⟨fun ⟨_, h⟩ => coherent_of_ofDocument h, fun h => ?_⟩, fun s h => ?_⟩
  · obtain ⟨t, ht, _⟩ := exists_of_coherent h options
    exact ⟨t, ht⟩
  · have hdocument := document_ofDocument h
    refine ⟨hdocument, ?_⟩
    rw [hdocument, ← ValueTable.lastValues_eq_self_iff]
    constructor
    · exact fun heq => congrArg Document.values heq
    · intro heq
      rw [heq]

end Session

end Groundwork
