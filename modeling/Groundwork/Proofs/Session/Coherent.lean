import Groundwork.Proofs.Session.Encoding
import Groundwork.Proofs.Solver.History

/-!
# What every session keeps

A session is *coherent* if its table of atoms is sound, every literal of its clauses
has a ground atom, and its backend holds its clauses.  What it means that a backend
holds clauses is left open: `Backend.Follows` says which calls have to keep it.

Clauses reach a session only through a commit, which first meets all ground atoms and
then hands the clauses over, so that the literals of a clause are known by then.

* `keeps_handClause`: a clause whose literals are known can be handed over;
* `exec_encodeAll`: the literals of all rules of a pass are read off one table, or the
  table is cut back to what it was;
* `Coherent.commit`: a pass keeps the session coherent, whether or not it fails;
* `Coherent.exec_commit`: if the backend takes all clauses, a pass fails only when the
  numbers run out, and otherwise adds its clauses to those of the session.
-/

namespace Groundwork

variable {β : Type}

/-- Whether the table has a ground atom for a literal. -/
def AtomTable.Names (t : AtomTable) (l : Literal) : Prop :=
  (t.text? (Literal.atom l)).isSome

/-- The relation between a backend and the clauses that it holds follows its calls. -/
structure Backend.Follows [Backend β] (holds : β → List Clause → Prop) : Prop where
  add_ok : ∀ {b b' : β} {clauses : List Clause} {c : Clause} {admission : Admission},
    holds b clauses → (∀ l ∈ c, Literal.Proper l) →
    Backend.add b c = (.ok admission, b') → holds b' (clauses ++ [c])
  add_error : ∀ {b b' : β} {clauses : List Clause} {c : Clause} {e : BackendError},
    holds b clauses → (∀ l ∈ c, Literal.Proper l) →
    Backend.add b c = (.error e, b') → holds b' clauses
  solve : ∀ {b : β} {clauses : List Clause} {assumptions : List Literal},
    holds b clauses → (∀ l ∈ assumptions, Literal.Proper l) →
    holds (Backend.solve b assumptions).2 clauses
  reset : ∀ b : β, holds (Backend.reset b) []

/-- The relation may also say nothing of backends. -/
theorem Backend.follows_any [Backend β] : Backend.Follows fun (_ : β) _ => True :=
  ⟨fun _ _ _ => trivial, fun _ _ _ => trivial, fun _ _ => trivial, fun _ => trivial⟩

/-- The backend takes every clause of proper literals. -/
def Backend.Accepts (β : Type) [Backend β] : Prop :=
  ∀ (b : β) (c : Clause), (∀ l ∈ c, Literal.Proper l) →
    ∃ admission b', Backend.add b c = (.ok admission, b')

namespace AtomTable

theorem Sound.proper {t : AtomTable} (hle : t.largest ≤ maxAtom) {l : Literal}
    (h : t.Names l) : Literal.Proper l := by
  obtain ⟨text, htext⟩ := Option.isSome_iff_exists.1 h
  obtain ⟨entry, hentry, _⟩ := text?_eq_some_iff.1 htext
  obtain ⟨hpos, hle'⟩ := le_largest_of_entry? hentry
  refine ⟨?_, by omega⟩
  rintro rfl
  exact absurd hpos (by decide)

/-- The literal of a known ground atom says what was signed. -/
theorem Sound.literalOf {t : AtomTable} (h : t.Sound) (hle : t.largest ≤ maxAtom)
    {signed : String × Bool} (hknown : (t.get? signed.1).isSome) :
    t.text? (Literal.atom (t.literalOf signed)) = some signed.1 ∧
      Literal.polarity (t.literalOf signed) = signed.2 := by
  obtain ⟨atom, hget⟩ := Option.isSome_iff_exists.1 hknown
  obtain ⟨hpos, hatom⟩ := h.le_largest hget
  have hmax : atom ≤ maxAtom := Nat.le_trans hatom hle
  rw [AtomTable.literalOf, hget, Option.getD_some, Literal.atom_ofAtom hmax,
    Literal.polarity_ofAtom hpos hmax]
  exact ⟨(h.get?_iff _ _).1 hget, rfl⟩

theorem Sound.names_literalOf {t : AtomTable} (h : t.Sound) (hle : t.largest ≤ maxAtom)
    {signed : String × Bool} (hknown : (t.get? signed.1).isSome) :
    t.Names (t.literalOf signed) := by
  rw [Names, (h.literalOf hle hknown).1]
  rfl

theorem Sound.text?_meetAll {t : AtomTable} (h : t.Sound) {atom : Nat} {text : String}
    (htext : t.text? atom = some text) (mentions : List Mention) :
    (t.meetAll mentions).text? atom = some text := by
  rw [← (h.meetAll mentions).get?_iff]
  exact get?_meetAll_of_known ((h.get?_iff _ _).2 htext) mentions

theorem Sound.names_meetAll {t : AtomTable} (h : t.Sound) {l : Literal} (hl : t.Names l)
    (mentions : List Mention) : (t.meetAll mentions).Names l := by
  obtain ⟨text, htext⟩ := Option.isSome_iff_exists.1 hl
  rw [Names, h.text?_meetAll htext]
  rfl

/-- A table that is cut back to what it was has the ground atoms that it had before. -/
theorem Sound.text?_rollback {t : AtomTable} (h : t.Sound) {atom : Nat} {text : String}
    (htext : t.text? atom = some text) (met : List Mention) :
    ((t.meetAll met).rollback t.largest).text? atom = some text := by
  obtain ⟨entry, hentry, _⟩ := text?_eq_some_iff.1 htext
  obtain ⟨_, hle⟩ := le_largest_of_entry? hentry
  rw [text?, entry?_rollback, if_pos hle, ← text?]
  exact h.text?_meetAll htext met

end AtomTable

namespace Session

/-- The session hangs together. -/
structure Coherent (holds : β → List Clause → Prop) (s : Session β) : Prop where
  sound : s.atoms.Sound
  largest_le : s.atoms.largest ≤ maxAtom
  named : ∀ c ∈ s.clauses.toList, ∀ l ∈ c, s.atoms.Names l
  holds : holds s.backend s.clauses.toList

/-! ## Steps -/

/-- The sessions have the same atoms, clauses and backend.  The second may be one into which
something else was put. -/
structure SameInstance (s t : Session β) : Prop where
  atoms_eq : t.atoms = s.atoms
  clauses_eq : t.clauses = s.clauses
  backend_eq : t.backend = s.backend
  stage_eq : t.stage = s.stage ∨ t.stage = .input

theorem SameInstance.refl (s : Session β) : SameInstance s s :=
  ⟨rfl, rfl, rfl, Or.inl rfl⟩

theorem SameInstance.trans {s t u : Session β} (hst : SameInstance s t) (htu : SameInstance t u) :
    SameInstance s u := by
  refine ⟨htu.atoms_eq.trans hst.atoms_eq, htu.clauses_eq.trans hst.clauses_eq,
    htu.backend_eq.trans hst.backend_eq, ?_⟩
  rcases htu.stage_eq with hsame | hinput
  · rw [hsame]
    exact hst.stage_eq
  · exact Or.inr hinput

/-- The property is one of the instance, and is not lost when something else is put in. -/
def OfInstance (P : Session β → Prop) : Prop :=
  ∀ s t : Session β, SameInstance s t → P s → P t

theorem ofInstance_sameInstance (s : Session β) : OfInstance (SameInstance s) :=
  fun _ _ htu hst => hst.trans htu

theorem ofInstance_coherent (holds : β → List Clause → Prop) :
    OfInstance (Coherent (β := β) holds) := by
  intro s t hst h
  obtain ⟨hatoms, hclauses, hbackend, _⟩ := hst
  obtain ⟨hsound, hle, hnamed, hholds⟩ := h
  refine ⟨?_, ?_, ?_, ?_⟩
  · rwa [hatoms]
  · rwa [hatoms]
  · rwa [hatoms, hclauses]
  · rwa [hbackend, hclauses]

theorem Coherent.meetAll {holds : β → List Clause → Prop} {s : Session β} (h : s.Coherent holds)
    {met : List Mention} (hroom : (s.atoms.meetAll met).largest ≤ maxAtom) :
    Coherent holds { s with atoms := s.atoms.meetAll met } :=
  ⟨h.sound.meetAll met, hroom, fun c hc l hl => h.sound.names_meetAll (h.named c hc l hl) met,
    h.holds⟩

theorem exec_orFail_ok {ε α : Type} (cause : ε → Failure) (a : α) (s : Session β) :
    exec (orFail cause (.ok a)) s = (.ok a, s) :=
  rfl

theorem exec_orFail_error {ε α : Type} (cause : ε → Failure) (e : ε) (s : Session β) :
    exec (orFail cause (.error e) : SessionM β α) s = (.error (cause e), s) :=
  rfl

theorem exec_onAtoms {α : Type} (m : AtomM α) (s : Session β) :
    exec (onAtoms m : SessionM β α) s =
      ((exec m s.atoms).1.mapError .ground, { s with atoms := (exec m s.atoms).2 }) := by
  unfold onAtoms
  rw [exec_bind, exec_modifyGet]
  show exec (orFail Failure.ground (exec m s.atoms).1) { s with atoms := (exec m s.atoms).2 } = _
  cases (exec m s.atoms).1 <;> rfl

/-- The session after its backend took a clause. -/
def taken (s : Session β) (c : Clause) (admission : Admission) (backend : β) : Session β :=
  { s with
    backend
    counters :=
      { s.counters with
        clauses := s.counters.clauses + 1
        tautologies := s.counters.tautologies + (admission == .tautology).toNat }
    clauses := s.clauses.push c
    stage := .input }

theorem exec_handClause_ok [Backend β] {s : Session β} {c : Clause} {admission : Admission}
    {backend : β} (h : Backend.add s.backend c = (.ok admission, backend)) :
    exec (handClause c) s = (.ok (), s.taken c admission backend) := by
  unfold handClause
  rw [exec_bind, exec_modifyGet]
  simp only [h]
  rfl

theorem exec_handClause_error [Backend β] {s : Session β} {c : Clause} {e : BackendError}
    {backend : β} (h : Backend.add s.backend c = (.error e, backend)) :
    exec (handClause c) s = (.error (.backend e), { s with backend }) := by
  unfold handClause
  rw [exec_bind, exec_modifyGet]
  simp only [h]
  rfl

section Handing

variable [Backend β] {holds : β → List Clause → Prop}

theorem keeps_handClause (hfollows : Backend.Follows holds) {atoms : AtomTable} {c : Clause}
    (hc : ∀ l ∈ c, atoms.Names l) :
    Keeps (fun s : Session β => s.Coherent holds ∧ s.atoms = atoms) (handClause c) := by
  intro s h
  obtain ⟨h, rfl⟩ := h
  have hproper : ∀ l ∈ c, Literal.Proper l := fun l hl =>
    AtomTable.Sound.proper h.largest_le (hc l hl)
  cases hadd : Backend.add s.backend c with
  | mk answer backend =>
    cases answer with
    | ok admission =>
      rw [exec_handClause_ok hadd]
      refine ⟨⟨h.sound, h.largest_le, ?_, ?_⟩, rfl⟩
      · intro d hd
        rw [taken, Array.toList_push, List.mem_append, List.mem_singleton] at hd
        rcases hd with hd | rfl
        · exact h.named d hd
        · exact hc
      · rw [taken, Array.toList_push]
        exact hfollows.add_ok h.holds hproper hadd
    | error e =>
      rw [exec_handClause_error hadd]
      exact ⟨⟨h.sound, h.largest_le, h.named, hfollows.add_error h.holds hproper hadd⟩, rfl⟩

theorem keeps_handClauses (hfollows : Backend.Follows holds) {atoms : AtomTable}
    {clauses : List Clause} (hclauses : ∀ c ∈ clauses, ∀ l ∈ c, atoms.Names l) :
    Keeps (fun s : Session β => s.Coherent holds ∧ s.atoms = atoms)
      (clauses.forM handClause) :=
  Keeps.forM fun c hc => keeps_handClause hfollows (hclauses c hc)

theorem exec_handClauses (haccepts : Backend.Accepts β) (hfollows : Backend.Follows holds)
    {clauses : List Clause} {s : Session β} (h : s.Coherent holds)
    (hclauses : ∀ c ∈ clauses, ∀ l ∈ c, s.atoms.Names l) :
    ∃ t, exec (clauses.forM handClause) s = (.ok (), t) ∧
      t.clauses.toList = s.clauses.toList ++ clauses ∧
      (t.stage = .input ∨ clauses = [] ∧ t = s) := by
  induction clauses generalizing s with
  | nil => exact ⟨s, rfl, (List.append_nil _).symm, Or.inr ⟨rfl, rfl⟩⟩
  | cons c clauses ih =>
    have hc := hclauses c List.mem_cons_self
    obtain ⟨admission, backend, hadd⟩ := haccepts s.backend c fun l hl =>
      AtomTable.Sound.proper h.largest_le (hc l hl)
    have hfirst := exec_handClause_ok hadd
    have hkept := (keeps_handClause hfollows hc s ⟨h, rfl⟩).1
    rw [hfirst] at hkept
    obtain ⟨t, hrest, ht, hstage⟩ :=
      ih hkept fun c' hc' => hclauses c' (List.mem_cons_of_mem _ hc')
    refine ⟨t, (exec_bind_ok hfirst).trans hrest, ?_, ?_⟩
    · rw [ht, taken, Array.toList_push, List.append_assoc, List.singleton_append]
    · rcases hstage with hinput | ⟨_, rfl⟩
      · exact Or.inl hinput
      · exact Or.inl rfl

end Handing

/-! ## Passes -/

/-- The session with another table of atoms, after more bindings were counted. -/
def encoded (s : Session β) (atoms : AtomTable) (counters : Counters) : Session β :=
  { s with atoms, counters }

/-- The counters after more bindings. -/
def counted (s : Session β) (bindings : Nat) : Counters :=
  { s.counters with bindings := s.counters.bindings + bindings }

theorem Coherent.encoded {holds : β → List Clause → Prop} {s : Session β} (h : s.Coherent holds)
    {met : List Mention} (hroom : (s.atoms.meetAll met).largest ≤ maxAtom) (counters : Counters) :
    (s.encoded (s.atoms.meetAll met) counters).Coherent holds :=
  ofInstance_coherent holds { s with atoms := s.atoms.meetAll met } _
    ⟨rfl, rfl, rfl, Or.inl rfl⟩ (h.meetAll hroom)

theorem exec_encode (largest : Nat) (clauses : Array Clause) (grounded : Grounded)
    (s : Session β) :
    exec (encode largest clauses grounded) s =
      match exec (AtomTable.encodeGrounded grounded) s.atoms with
      | (.ok found, atoms) =>
        (.ok (clauses ++ found), s.encoded atoms (s.counted grounded.bindings))
      | (.error e, atoms) =>
        (.error (.ground e), s.encoded (atoms.rollback largest) (s.counted grounded.bindings)) := by
  unfold encode
  rw [exec_bind, exec_modify]
  dsimp only
  rw [exec_bind, exec_tryCatch, exec_bind, exec_onAtoms]
  dsimp only
  cases exec (AtomTable.encodeGrounded grounded) s.atoms with
  | mk answer atoms => cases answer <;> rfl

/-- The mentions of a pass. -/
def mentionsOfAll (grounded : List Grounded) : List Mention :=
  grounded.flatMap AtomTable.mentionsOf

/-- The clauses of a pass, as lists of signed ground atoms. -/
def signedOfAll (grounded : List Grounded) : List (List (String × Bool)) :=
  grounded.flatMap Grounded.signed

/-- The clauses of a pass, read off a table. -/
def clausesOfAll (t : AtomTable) (grounded : List Grounded) : List Clause :=
  (signedOfAll grounded).map fun c => c.map t.literalOf

theorem known_of_mem_signed {grounded : Grounded} {c : List (String × Bool)}
    (hc : c ∈ grounded.signed) {signed : String × Bool} (hsigned : signed ∈ c) :
    signed.1 ∈ (AtomTable.mentionsOf grounded).map Mention.text := by
  obtain ⟨clause, hclause, rfl⟩ := List.mem_map.1 hc
  refine List.mem_map.2 ⟨⟨signed.1, grounded.predicates⟩, ?_, rfl⟩
  exact List.mem_flatMap.2 ⟨clause, hclause, List.mem_map_of_mem hsigned⟩

theorem known_of_mem_signedOfAll {grounded : List Grounded} {c : List (String × Bool)}
    (hc : c ∈ signedOfAll grounded) {signed : String × Bool} (hsigned : signed ∈ c)
    (t : AtomTable) : ((t.meetAll (mentionsOfAll grounded)).get? signed.1).isSome := by
  obtain ⟨one, hone, hc⟩ := List.mem_flatMap.1 hc
  refine (AtomTable.known_meetAll _ _ _).2 (Or.inr ?_)
  obtain ⟨m, hm, hsame⟩ := List.mem_map.1 (known_of_mem_signed hc hsigned)
  exact List.mem_map.2 ⟨m, List.mem_flatMap.2 ⟨one, hone, hm⟩, hsame⟩

theorem meetAll_mentionsOfAll_cons (t : AtomTable) (first : Grounded) (grounded : List Grounded) :
    t.meetAll (mentionsOfAll (first :: grounded)) =
      (t.meetAll (AtomTable.mentionsOf first)).meetAll (mentionsOfAll grounded) := by
  rw [mentionsOfAll, List.flatMap_cons, AtomTable.meetAll_append]
  rfl

theorem signedOfAll_cons (first : Grounded) (grounded : List Grounded) :
    signedOfAll (first :: grounded) = first.signed ++ signedOfAll grounded :=
  List.flatMap_cons

/-- All clauses of a pass are read off the table that the whole pass leaves. -/
theorem exec_encodeAll_ok (largest : Nat) (grounded : List Grounded) (clauses : Array Clause)
    (s : Session β) (hsound : s.atoms.Sound) (hle : s.atoms.largest ≤ maxAtom)
    (hroom : (s.atoms.meetAll (mentionsOfAll grounded)).largest ≤ maxAtom) :
    ∃ counters, exec (grounded.foldlM (encode largest) clauses) s =
      (.ok (clauses ++ clausesOfAll (s.atoms.meetAll (mentionsOfAll grounded)) grounded),
        s.encoded (s.atoms.meetAll (mentionsOfAll grounded)) counters) := by
  induction grounded generalizing clauses s with
  | nil => exact ⟨s.counters, by
      simp [mentionsOfAll, clausesOfAll, signedOfAll, AtomTable.meetAll, encoded]⟩
  | cons first grounded ih =>
    rw [meetAll_mentionsOfAll_cons] at hroom ⊢
    have hroom' := Nat.le_trans (AtomTable.largest_le_meetAll _ _) hroom
    have hencodes := AtomTable.encodes_encodeGrounded first
    have hfirst := exec_encode largest clauses first s
    rw [hencodes.run s.atoms hsound hle hroom'] at hfirst
    dsimp only at hfirst
    obtain ⟨counters, hrest⟩ := ih _ (s.encoded (s.atoms.meetAll (AtomTable.mentionsOf first))
      (s.counted first.bindings)) (hsound.meetAll _) hroom' hroom
    refine ⟨counters, ?_⟩
    rw [List.foldlM_cons, exec_bind_ok hfirst, hrest]
    have hknown : ∀ x ∈ AtomTable.mentionsOf first,
        ((s.atoms.meetAll (AtomTable.mentionsOf first)).get? x.text).isSome := by
      intro x hx
      exact (AtomTable.known_meetAll _ _ _).2 (Or.inr (List.mem_map_of_mem hx))
    rw [← hencodes.stable _ (mentionsOfAll grounded) hknown, clausesOfAll, clausesOfAll,
      signedOfAll_cons, List.map_append]
    refine Prod.ext (congrArg Except.ok ?_) rfl
    apply Array.ext'
    simp only [Array.toList_appendList, List.append_assoc]
    rfl

/-- When the numbers run out, the table is cut back, to what it was before the pass if that
is how far it was to be cut back. -/
theorem exec_encodeAll_error (largest : Nat) (grounded : List Grounded) (clauses : Array Clause)
    (s : Session β) (hsound : s.atoms.Sound) (hle : s.atoms.largest ≤ maxAtom)
    (hroom : ¬ (s.atoms.meetAll (mentionsOfAll grounded)).largest ≤ maxAtom) :
    ∃ met counters, met <+: mentionsOfAll grounded ∧
      exec (grounded.foldlM (encode largest) clauses) s =
        (.error (.ground .atomsExhausted),
          s.encoded ((s.atoms.meetAll met).rollback largest) counters) ∧
      (s.atoms.meetAll met).largest ≤ maxAtom := by
  induction grounded generalizing clauses s with
  | nil => exact absurd hle hroom
  | cons first grounded ih =>
    rw [meetAll_mentionsOfAll_cons] at hroom
    have hencodes := AtomTable.encodes_encodeGrounded first
    have hfirst := exec_encode largest clauses first s
    by_cases hroom' : (s.atoms.meetAll (AtomTable.mentionsOf first)).largest ≤ maxAtom
    · rw [hencodes.run s.atoms hsound hle hroom'] at hfirst
      obtain ⟨met, counters, hbegins, hrest, hmet⟩ := ih _
        (s.encoded (s.atoms.meetAll (AtomTable.mentionsOf first)) (s.counted first.bindings))
        (hsound.meetAll _) hroom' hroom
      refine ⟨AtomTable.mentionsOf first ++ met, counters, ?_, ?_, ?_⟩
      · exact (List.prefix_append_right_inj _).2 hbegins
      · rw [List.foldlM_cons, exec_bind_ok hfirst, hrest, AtomTable.meetAll_append]
        rfl
      · rwa [AtomTable.meetAll_append]
    · obtain ⟨met, hbegins, hstop, hmet⟩ := hencodes.stop s.atoms hsound hle hroom'
      rw [hstop] at hfirst
      refine ⟨met, _, hbegins.trans ?_, by rw [List.foldlM_cons, exec_bind_error hfirst], hmet⟩
      exact List.prefix_append _ _

theorem names_of_mem_clausesOfAll {t : AtomTable} (hsound : t.Sound) {grounded : List Grounded}
    (hroom : (t.meetAll (mentionsOfAll grounded)).largest ≤ maxAtom) {c : Clause}
    (hc : c ∈ clausesOfAll (t.meetAll (mentionsOfAll grounded)) grounded) {l : Literal}
    (hl : l ∈ c) : (t.meetAll (mentionsOfAll grounded)).Names l := by
  obtain ⟨clause, hclause, rfl⟩ := List.mem_map.1 hc
  obtain ⟨signed, hsigned, rfl⟩ := List.mem_map.1 hl
  exact (hsound.meetAll _).names_literalOf hroom (known_of_mem_signedOfAll hclause hsigned t)

section Passes

variable [Backend β] {holds : β → List Clause → Prop} {s : Session β} {grounded : List Grounded}

/-- A commit hands over the clauses of the pass, once all ground atoms have numbers. -/
theorem exec_commit_of_room (h : s.Coherent holds)
    (hroom : (s.atoms.meetAll (mentionsOfAll grounded)).largest ≤ maxAtom) :
    ∃ counters, exec (commit grounded) s =
      exec (do
          (clausesOfAll (s.atoms.meetAll (mentionsOfAll grounded)) grounded).forM handClause
          return (signedOfAll grounded).length)
        (s.encoded (s.atoms.meetAll (mentionsOfAll grounded)) counters) := by
  obtain ⟨counters, hencode⟩ :=
    exec_encodeAll_ok s.atoms.largest grounded #[] s h.sound h.largest_le hroom
  refine ⟨counters, ?_⟩
  unfold commit
  rw [exec_bind, exec_get]
  dsimp only
  rw [exec_bind_ok hencode]
  simp [clausesOfAll]

/-- A pass for which there are not enough numbers leaves the clauses and the backend alone. -/
theorem Coherent.exec_commit_error (h : s.Coherent holds)
    (hroom : ¬ (s.atoms.meetAll (mentionsOfAll grounded)).largest ≤ maxAtom) :
    ∃ met counters, met <+: mentionsOfAll grounded ∧
      exec (Session.commit grounded) s = (.error (.ground .atomsExhausted),
        s.encoded ((s.atoms.meetAll met).rollback s.atoms.largest) counters) ∧
      (s.encoded ((s.atoms.meetAll met).rollback s.atoms.largest) counters).Coherent holds := by
  obtain ⟨met, counters, hbegins, hencode, hmet⟩ :=
    exec_encodeAll_error s.atoms.largest grounded #[] s h.sound h.largest_le hroom
  refine ⟨met, counters, hbegins, ?_, (h.sound.meetAll met).rollback _, ?_, fun c hc l hl => ?_, h.holds⟩
  · unfold Session.commit
    rw [exec_bind, exec_get]
    dsimp only
    rw [exec_bind_error hencode]
  · show ((s.atoms.meetAll met).rollback s.atoms.largest).largest ≤ maxAtom
    rw [AtomTable.largest_rollback]
    omega
  · obtain ⟨text, htext⟩ := Option.isSome_iff_exists.1 (h.named c hc l hl)
    exact Option.isSome_iff_exists.2 ⟨text, h.sound.text?_rollback htext met⟩

/-- Even if the backend refuses a clause, all ground atoms of the pass have been met. -/
theorem Coherent.commit_of_room (hfollows : Backend.Follows holds) (h : s.Coherent holds)
    (hroom : (s.atoms.meetAll (mentionsOfAll grounded)).largest ≤ maxAtom) :
    Coherent holds (exec (Session.commit grounded) s).2 ∧
      (exec (Session.commit grounded) s).2.atoms = s.atoms.meetAll (mentionsOfAll grounded) := by
  obtain ⟨counters, hcommit⟩ := exec_commit_of_room h hroom
  rw [hcommit]
  refine Keeps.bind (keeps_handClauses hfollows fun c hc l hl => ?_) (fun _ => Keeps.pure _)
    _ ⟨h.encoded hroom counters, rfl⟩
  exact names_of_mem_clausesOfAll h.sound hroom hc hl

/-- A commit keeps the session coherent, even if numbers run out or the backend refuses. -/
theorem Coherent.commit (hfollows : Backend.Follows holds) (grounded : List Grounded) :
    Keeps (Coherent holds) (commit grounded : SessionM β Nat) := by
  intro s h
  by_cases hroom : (s.atoms.meetAll (mentionsOfAll grounded)).largest ≤ maxAtom
  · exact (h.commit_of_room hfollows hroom).1
  · obtain ⟨met, counters, _, hcommit, ht⟩ := h.exec_commit_error hroom
    rw [hcommit]
    exact ht

/-- What a pass leaves if the backend takes all clauses and there are enough numbers. -/
theorem Coherent.exec_commit (haccepts : Backend.Accepts β) (hfollows : Backend.Follows holds)
    (h : s.Coherent holds)
    (hroom : (s.atoms.meetAll (mentionsOfAll grounded)).largest ≤ maxAtom) :
    ∃ t, exec (Session.commit grounded) s = (.ok (signedOfAll grounded).length, t) ∧
      t.atoms = s.atoms.meetAll (mentionsOfAll grounded) ∧
      t.clauses.toList = s.clauses.toList ++ clausesOfAll t.atoms grounded ∧
      (t.stage = .input ∨
        signedOfAll grounded = [] ∧ t.stage = s.stage ∧ t.backend = s.backend) := by
  obtain ⟨counters, hcommit⟩ := exec_commit_of_room h hroom
  have hcoherent := h.encoded hroom counters
  have hnames : ∀ c ∈ clausesOfAll (s.atoms.meetAll (mentionsOfAll grounded)) grounded,
      ∀ l ∈ c, (s.atoms.meetAll (mentionsOfAll grounded)).Names l := fun c hc l hl =>
    names_of_mem_clausesOfAll h.sound hroom hc hl
  obtain ⟨t, hhanded, hclauses, hstage⟩ := exec_handClauses haccepts hfollows hcoherent hnames
  have hatoms := (keeps_handClauses hfollows hnames _ ⟨hcoherent, rfl⟩).2
  rw [hhanded] at hatoms
  refine ⟨t, ?_, hatoms, ?_, hstage.imp id fun hnone => ?_⟩
  · rw [hcommit, exec_bind_ok hhanded, exec_pure]
  · rw [hclauses, hatoms]
    rfl
  · obtain ⟨hnil, rfl⟩ := hnone
    exact ⟨List.map_eq_nil_iff.1 hnil, rfl, rfl⟩

end Passes

end Session

end Groundwork
