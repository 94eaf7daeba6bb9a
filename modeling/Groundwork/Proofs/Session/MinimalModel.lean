import Groundwork.Proofs.Session.Deciding
import Groundwork.Proofs.Solver.Minimal

/-!
# The model of a decision

The model of a decision is a list of literals.  Under the names of the ground atoms it gives
truth values, `modelValue`, and these make all clauses and assumptions true with as few true
ground atoms as can be.

* `modelValue_eq`: under their names, ground atoms have the truth values of their numbers;
* `Coherent.isMinimal`: a minimal model over numbers is one over ground atoms;
* `Coherent.solveWith_minimal`: and so the model of a decision is.
-/

namespace Groundwork

/-! ## Occurrences -/

/-- The ground atom occurs among the literals with the polarity. -/
def AtomTable.Occurs (t : AtomTable) (literals : List Literal) (text : String) (polarity : Bool) :
    Prop :=
  ∃ l ∈ literals, t.text? (Literal.atom l) = some text ∧ Literal.polarity l = polarity

theorem AtomTable.clauseHolds_iff {t : AtomTable} {v : String → Bool} {c : Clause} :
    t.ClauseHolds v c ↔ ∃ text, t.Occurs c text (v text) := by
  constructor
  · intro h
    obtain ⟨l, hl, text, htext, hvalue⟩ := h
    exact ⟨text, l, hl, htext, hvalue.symm⟩
  · intro h
    obtain ⟨text, l, hl, htext, hvalue⟩ := h
    exact ⟨l, hl, text, htext, hvalue.symm⟩

/-- A clause that was read off a table has the signed ground atoms that it was read off for. -/
theorem AtomTable.Sound.occurs_literalOf_iff {t : AtomTable} (h : t.Sound)
    (hle : t.largest ≤ maxAtom) {c : List (String × Bool)}
    (hknown : ∀ signed ∈ c, (t.get? signed.1).isSome) {text : String} {polarity : Bool} :
    t.Occurs (c.map t.literalOf) text polarity ↔ (text, polarity) ∈ c := by
  constructor
  · intro hoccurs
    obtain ⟨l, hl, htext, hpolarity⟩ := hoccurs
    obtain ⟨signed, hsigned, rfl⟩ := List.mem_map.1 hl
    obtain ⟨hsame, hsign⟩ := h.literalOf hle (hknown signed hsigned)
    rw [hsame, Option.some.injEq] at htext
    rw [← htext, ← hpolarity, hsign]
    exact hsigned
  · intro hmem
    obtain ⟨hsame, hsign⟩ := h.literalOf hle (hknown _ hmem)
    exact ⟨_, List.mem_map_of_mem hmem, hsame, hsign⟩

namespace Session

variable {β : Type}

/-! ## Truth values of a model -/

theorem mem_modelAtoms_iff {s : Session β} {model : List Literal} {text : String}
    {polarity : Bool} : (text, polarity) ∈ s.modelAtoms model ↔
      s.atoms.Occurs model text polarity := by
  simp [modelAtoms, AtomTable.Occurs]

/-- The truth value of a ground atom in a model.  Those that are not in it are false. -/
def modelValue (s : Session β) (model : List Literal) (text : String) : Bool :=
  (s.modelAtoms model).contains (text, true)

theorem modelValue_eq_true_iff {s : Session β} {model : List Literal} {text : String} :
    s.modelValue model text = true ↔ s.atoms.Occurs model text true := by
  rw [modelValue, List.contains_iff_mem, mem_modelAtoms_iff]

theorem atom_eq_of_text? {t : AtomTable} (h : t.Sound) {atom other : Nat} {text : String}
    (htext : t.text? atom = some text) (hother : t.text? other = some text) : atom = other := by
  rw [← h.get?_iff] at htext hother
  rw [htext, Option.some.injEq] at hother
  exact hother

/-- Under their names, ground atoms have the truth values of their numbers. -/
theorem modelValue_eq {s : Session β} (h : s.atoms.Sound) {atom : Nat} {text : String}
    (htext : s.atoms.text? atom = some text) (model : List Literal) :
    s.modelValue model text = Assignment.ofModel model atom := by
  rw [Bool.eq_iff_iff, modelValue_eq_true_iff, Assignment.ofModel_eq_true_iff]
  refine exists_congr fun l => and_congr_right fun _ => and_congr_left fun _ => ?_
  constructor
  · intro hl
    exact atom_eq_of_text? h hl htext
  · rintro rfl
    exact htext

/-- The truth values of numbers that go with those of ground atoms. -/
def numbered (t : AtomTable) (v : String → Bool) : Assignment := fun atom =>
  ((t.text? atom).map v).getD false

theorem numbered_eq {t : AtomTable} {v : String → Bool} {atom : Nat} {text : String}
    (h : t.text? atom = some text) : numbered t v atom = v text := by
  rw [numbered, h]
  rfl

/-- Only ground atoms are true. -/
theorem numbered_eq_true_iff {t : AtomTable} {v : String → Bool} {atom : Nat} :
    numbered t v atom = true ↔ ∃ text, t.text? atom = some text ∧ v text = true := by
  rw [numbered]
  cases t.text? atom <;> simp

/-! ## Minimal models -/

/-- What it means that a model has as few true ground atoms as can be. -/
structure IsMinimal (s : Session β) (assumptions : List String) (model : List Literal) : Prop where
  models : s.Models (s.modelValue model)
  assumed : Assumed (s.modelValue model) assumptions
  least : ∀ v, s.Models v → Assumed v assumptions →
    (∀ text, v text = true → s.modelValue model text = true) →
    ∀ text, s.modelValue model text = true → v text = true
  named : ∀ l ∈ model, Literal.polarity l = true → s.atoms.Names l

section Minimal

variable {holds : β → List Clause → Prop} {s : Session β} {assumptions : List String}
  {model : List Literal}

/-- A minimal model of the clauses over numbers is one over ground atoms. -/
theorem Coherent.isMinimal (h : s.Coherent holds)
    (hknown : ∀ a ∈ assumptions.map readAssumption, (s.atoms.get? a.1).isSome)
    (hminimal : Assignment.Minimal (.ofModel model) s.clauses.toList
      ((assumptions.map readAssumption).map s.atoms.literalOf)) :
    s.IsMinimal assumptions model := by
  have hliteral : ∀ a ∈ assumptions, s.atoms.text?
        (Literal.atom (s.atoms.literalOf (readAssumption a))) = some (readAssumption a).1 ∧
      Literal.polarity (s.atoms.literalOf (readAssumption a)) = (readAssumption a).2 := fun a ha =>
    h.sound.literalOf h.largest_le (hknown _ (List.mem_map_of_mem ha))
  have hmodels : s.Models (s.modelValue model) := by
    intro c hc
    obtain ⟨l, hl, hholds⟩ := hminimal.models c hc
    obtain ⟨text, htext⟩ := Option.isSome_iff_exists.1 (h.named c hc l hl)
    exact ⟨l, hl, text, htext, (modelValue_eq h.sound htext _).trans hholds⟩
  have hassumed : Assumed (s.modelValue model) assumptions := by
    intro a ha
    obtain ⟨htext, hpolarity⟩ := hliteral a ha
    have hholds := hminimal.assumed _ (List.mem_map_of_mem (List.mem_map_of_mem ha))
    rw [modelValue_eq h.sound htext, ← hpolarity]
    exact hholds
  have hleast : ∀ v, s.Models v → Assumed v assumptions →
      (∀ text, v text = true → s.modelValue model text = true) →
      numbered s.atoms v = .ofModel model := by
    intro v hmodels hassumed hle
    refine hminimal.least _ (fun c hc => ?_) (fun l hl => ?_) fun atom hatom => ?_
    · obtain ⟨l, hl, text, htext, hvalue⟩ := hmodels c hc
      exact ⟨l, hl, (numbered_eq htext).trans hvalue⟩
    · obtain ⟨signed, hsigned, rfl⟩ := List.mem_map.1 hl
      obtain ⟨a, ha, rfl⟩ := List.mem_map.1 hsigned
      obtain ⟨htext, hpolarity⟩ := hliteral a ha
      rw [Literal.Holds, numbered_eq htext, hpolarity]
      exact hassumed a ha
    · obtain ⟨text, htext, htrue⟩ := numbered_eq_true_iff.1 hatom
      rw [← modelValue_eq h.sound htext]
      exact hle text htrue
  refine ⟨hmodels, hassumed, fun v hv hv' hle text htrue => ?_, fun l hl hpolarity => ?_⟩
  · obtain ⟨l, _, htext, _⟩ := modelValue_eq_true_iff.1 htrue
    rw [modelValue_eq h.sound htext, ← hleast v hv hv' hle] at htrue
    rwa [numbered_eq htext] at htrue
  · -- Without the literals that are not named, the model would have fewer true ground atoms.
    have htrue := Assignment.ofModel_eq_true_iff.2 ⟨l, hl, rfl, hpolarity⟩
    rw [← hleast _ hmodels hassumed fun _ htext => htext] at htrue
    obtain ⟨text, htext, _⟩ := numbered_eq_true_iff.1 htrue
    exact Option.isSome_iff_exists.2 ⟨text, htext⟩

end Minimal

theorem Coherent.solveWith_minimal {s : Session Solver} (h : s.Coherent Solver.Holds)
    {assumptions : List String}
    (hknown : ∀ a ∈ assumptions.map readAssumption, (s.atoms.get? a.1).isSome)
    {model : List Literal} (hanswer : (exec (solveWith assumptions) s).1 = .ok (true, model)) :
    s.IsMinimal assumptions model := by
  obtain ⟨g, hrecords, hclauses⟩ := h.holds
  rcases h.exec_solveWith hknown rfl with ⟨found, hexec, hsat, hfound, _⟩ | ⟨hexec, _⟩
  · obtain ⟨found', hfound', hminimal⟩ := hrecords.minimal hsat
    rw [hfound, Except.ok.injEq] at hfound'
    rw [hexec, Except.ok.injEq, Prod.mk.injEq] at hanswer
    rw [hclauses, ← hfound', hanswer.2] at hminimal
    exact h.isMinimal hknown hminimal
  · rw [hexec] at hanswer
    cases hanswer

end Session

end Groundwork
