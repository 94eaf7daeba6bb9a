import Groundwork.Proofs.Solver.Search
import Groundwork.Solver

/-!
# The solver over a history of calls

A solver is told clauses, decides them under assumptions, and is reset, in any order.
This module relates its state after such a history to what it was given since the last
reset.

* `Given` is the second side: the clauses as they were given, and all literals met.
* `Keeps` is the invariant, as long as no literal is zero.  The recorded clauses have the
  models of the given ones that are no tautologies, although literals are sorted and the
  empty clause is kept as a flag; and the solver knows the greatest atom.  `Keeps.after` is
  the step, and `keeps_run` the run.
* `Records` is what it comes to on atoms in use.  There the tautologies hold always, so that
  the recorded clauses have the models of all clauses that were given.
* `solve_decides` is the main statement: each answer of the solver is right, and so is
  the model it gives.
-/

namespace Groundwork

/-- The literal of an atom that is in use: neither zero nor the least word. -/
def Literal.Proper (l : Literal) : Prop :=
  l ≠ 0 ∧ Literal.atom l ≤ maxAtom

instance (l : Literal) : Decidable (Literal.Proper l) :=
  inferInstanceAs (Decidable (_ ∧ _))

/-- Given so that literals are looked at, and not all words. -/
instance (c : Clause) : Decidable (∀ l ∈ c, Literal.Proper l) :=
  List.decidableBAll Literal.Proper c

theorem Literal.Proper.atom_pos {l : Literal} (h : Literal.Proper l) : 0 < Literal.atom l := by
  rcases Nat.eq_zero_or_pos (Literal.atom l) with hzero | hpos
  · have hint : l.toInt = (0 : Int32).toInt := by
      simpa [Literal.atom] using hzero
    exact absurd (Int32.toInt_inj.1 hint) h.1
  · exact hpos

theorem Literal.polarity_ofAtom {atom : Nat} (hpos : 0 < atom) (hle : atom ≤ maxAtom)
    (polarity : Bool) : Literal.polarity (Literal.ofAtom atom polarity) = polarity := by
  have hzero : (0 : Int32).toInt = 0 := rfl
  unfold Literal.polarity
  rw [Bool.eq_iff_iff, decide_eq_true_iff, Int32.lt_iff_toInt_lt, hzero, Literal.toInt_ofAtom hle]
  cases polarity with
  | true => simpa using hpos
  | false => simp

theorem Literal.bounds_of_polarity {l : Literal} (h : Literal.polarity l = true) :
    0 < Literal.atom l ∧ Literal.atom l ≤ maxAtom := by
  have hzero : (0 : Int32).toInt = 0 := rfl
  rw [Literal.polarity, decide_eq_true_iff, Int32.lt_iff_toInt_lt, hzero] at h
  have hupper := l.toInt_lt
  simp only [Literal.atom, maxAtom]
  omega

theorem Literal.polarity_of_atom_eq_zero {l : Literal} (h : Literal.atom l = 0) :
    Literal.polarity l = false := by
  cases hpol : Literal.polarity l with
  | false => rfl
  | true =>
    have := (Literal.bounds_of_polarity hpol).1
    omega

/-! The least word is a literal as well, the one of the atom after the largest.  It is negative,
and there is no other literal of that atom. -/

theorem Literal.atom_le (l : Literal) : Literal.atom l ≤ maxAtom + 1 := by
  have hlower := l.le_toInt
  have hupper := l.toInt_lt
  simp only [Literal.atom, maxAtom]
  omega

theorem Literal.atom_ofAtom_of_le_succ {n : Nat} (h : n ≤ maxAtom + 1) (polarity : Bool) :
    Literal.atom (Literal.ofAtom n polarity) = n := by
  rcases Nat.le_or_eq_of_le_succ h with hle | rfl
  · exact Literal.atom_ofAtom hle polarity
  · cases polarity <;> decide

theorem Literal.polarity_ofAtom_false {n : Nat} (h : n ≤ maxAtom + 1) :
    Literal.polarity (Literal.ofAtom n false) = false := by
  rcases Nat.le_or_eq_of_le_succ h with hle | rfl
  · rcases Nat.eq_zero_or_pos n with rfl | hpos
    · rfl
    · exact Literal.polarity_ofAtom hpos hle false
  · decide

/-- The greatest atom of some literals, or zero. -/
def greatestAtom (literals : List Literal) : Nat :=
  literals.foldl (fun n l => max n (Literal.atom l)) 0

theorem foldl_max_le {literals : List Literal} {n bound : Nat} (hn : n ≤ bound)
    (h : ∀ l ∈ literals, Literal.atom l ≤ bound) :
    literals.foldl (fun n l => max n (Literal.atom l)) n ≤ bound := by
  induction literals generalizing n with
  | nil => exact hn
  | cons l literals ih =>
    have hl := h l List.mem_cons_self
    exact ih (Nat.max_le.2 ⟨hn, hl⟩) fun l' hl' => h l' (List.mem_cons_of_mem _ hl')

theorem le_foldl_max (literals : List Literal) (n : Nat) :
    n ≤ literals.foldl (fun n l => max n (Literal.atom l)) n ∧
      ∀ l ∈ literals, Literal.atom l ≤ literals.foldl (fun n l => max n (Literal.atom l)) n := by
  induction literals generalizing n with
  | nil => simp
  | cons l literals ih =>
    obtain ⟨hn, hall⟩ := ih (max n (Literal.atom l))
    refine ⟨Nat.le_trans (Nat.le_max_left _ _) hn, fun l' hl' => ?_⟩
    rcases List.mem_cons.1 hl' with rfl | hl'
    · exact Nat.le_trans (Nat.le_max_right _ _) hn
    · exact hall l' hl'

/-- No atom is new where all of them are known. -/
theorem foldl_max_eq {literals : List Literal} {n : Nat}
    (h : ∀ l ∈ literals, Literal.atom l ≤ n) :
    literals.foldl (fun n l => max n (Literal.atom l)) n = n :=
  Nat.le_antisymm (foldl_max_le (Nat.le_refl n) h) (le_foldl_max literals n).1

theorem atom_le_greatestAtom {literals : List Literal} {l : Literal} (h : l ∈ literals) :
    Literal.atom l ≤ greatestAtom literals :=
  (le_foldl_max literals 0).2 l h

theorem greatestAtom_le_succ (literals : List Literal) : greatestAtom literals ≤ maxAtom + 1 :=
  foldl_max_le (Nat.zero_le _) fun l _ => l.atom_le

/-- What a clause says depends on its literals only, not on their order or number. -/
theorem Clause.holds_of_mem_iff {c c' : Clause} (h : ∀ l, l ∈ c ↔ l ∈ c') (v : Assignment) :
    Clause.Holds v c ↔ Clause.Holds v c' :=
  exists_congr fun l => and_congr_left' (h l)

theorem mem_eraseReps_loop {α : Type} [BEq α] [LawfulBEq α] {l acc : List α} {first a : α} :
    a ∈ List.eraseRepsBy.loop (· == ·) first l acc ↔ a ∈ acc ∨ a = first ∨ a ∈ l := by
  induction l generalizing first acc with
  | nil => simp [List.eraseRepsBy.loop, or_comm]
  | cons next l ih =>
    rw [List.eraseRepsBy.loop]
    cases hsame : first == next with
    | true =>
      obtain rfl : first = next := by simpa using hsame
      simp [ih]
    | false => simp [ih, or_assoc, or_left_comm]

/-- Where repetitions are left out, nothing is lost. -/
theorem mem_eraseReps {α : Type} [BEq α] [LawfulBEq α] {l : List α} {a : α} :
    a ∈ l.eraseReps ↔ a ∈ l := by
  cases l with
  | nil => rfl
  | cons first l => simp [List.eraseReps, List.eraseRepsBy, mem_eraseReps_loop]

theorem eraseReps_loop_sublist {α : Type} [BEq α] [LawfulBEq α] (first : α) (l acc : List α) :
    (List.eraseRepsBy.loop (· == ·) first l acc).Sublist (acc.reverse ++ first :: l) := by
  induction l generalizing first acc with
  | nil => simp [List.eraseRepsBy.loop]
  | cons next l ih =>
    rw [List.eraseRepsBy.loop]
    cases hsame : first == next with
    | true =>
      refine (ih first acc).trans (List.Sublist.append_left ?_ _)
      exact (List.sublist_cons_self next l).cons_cons first
    | false => simpa using ih next (first :: acc)

/-- What is left stands in the same order. -/
theorem eraseReps_sublist {α : Type} [BEq α] [LawfulBEq α] (l : List α) :
    l.eraseReps.Sublist l := by
  cases l with
  | nil => exact List.Sublist.refl _
  | cons first l => exact eraseReps_loop_sublist first l []

namespace Solver

/-! ## Histories -/

/-- A call to a solver. -/
inductive Call where
  | add (c : Clause)
  | solve (assumptions : List Literal)
  | reset
deriving DecidableEq, Repr

/-- All literals of the call belong to atoms in use. -/
def Call.Proper : Call → Prop
  | .add c => ∀ l ∈ c, Literal.Proper l
  | .solve assumptions => ∀ l ∈ assumptions, Literal.Proper l
  | .reset => True

instance : (call : Call) → Decidable call.Proper
  | .add c => inferInstanceAs (Decidable (∀ l ∈ c, Literal.Proper l))
  | .solve assumptions => inferInstanceAs (Decidable (∀ l ∈ assumptions, Literal.Proper l))
  | .reset => inferInstanceAs (Decidable True)

/-- No literal of the call is zero. -/
def Call.NonZero : Call → Prop
  | .add c => ∀ l ∈ c, l ≠ 0
  | .solve assumptions => ∀ l ∈ assumptions, l ≠ 0
  | .reset => True

instance : (call : Call) → Decidable call.NonZero
  | .add c => List.decidableBAll (· ≠ 0) c
  | .solve assumptions => List.decidableBAll (· ≠ 0) assumptions
  | .reset => inferInstanceAs (Decidable True)

/-- The solver after a call. -/
def after (s : Solver) : Call → Solver
  | .add c => (s.add c).2
  | .solve assumptions => (s.solve assumptions).2
  | .reset => s.reset

/-- The solver after a history of calls. -/
def run (minimise : Bool) (calls : List Call) : Solver :=
  calls.foldl after { minimise }

/-- What a solver was given since the last reset. -/
structure Given where
  /-- The clauses, in order. -/
  clauses : List Clause := []
  /-- The literals of the clauses and of all assumptions. -/
  literals : List Literal := []

/-- What was given, with one more call. -/
def Given.note (g : Given) : Call → Given
  | .add c => { clauses := g.clauses ++ [c], literals := g.literals ++ c }
  | .solve assumptions => { g with literals := g.literals ++ assumptions }
  | .reset => {}

/-- What was given over a history of calls. -/
def given (calls : List Call) : Given :=
  calls.foldl Given.note {}

/-- The clauses that were given, without those that have a literal together with its negation. -/
def Given.recorded (g : Given) : List Clause :=
  g.clauses.filter fun c => !isTautology c

/-- The solver has kept what counts of the clauses that it was given. -/
structure Keeps (minimise : Bool) (s : Solver) (g : Given) : Prop where
  models : ∀ v, s.formula.Models v ↔ ∀ c ∈ g.recorded, Clause.Holds v c
  atoms : s.atoms = greatestAtom g.literals
  subset : ∀ c ∈ g.clauses, c ⊆ g.literals
  minimise_eq : s.minimise = minimise

/-- The solver holds what it was given, and all atoms are in use. -/
structure Records (s : Solver) (g : Given) : Prop where
  /-- The recorded clauses have the models of the given ones. -/
  models : ∀ v, s.formula.Models v ↔ ∀ c ∈ g.clauses, Clause.Holds v c
  atoms : s.atoms = greatestAtom g.literals
  proper : ∀ l ∈ g.literals, Literal.Proper l
  subset : ∀ c ∈ g.clauses, c ⊆ g.literals

/-! ## Clauses as they are stored -/

theorem mem_normalise {c : Clause} {l : Literal} : l ∈ normalise c ↔ l ∈ c := by
  rw [normalise, mem_eraseReps, List.mem_mergeSort]

theorem holds_normalise {v : Assignment} {c : Clause} :
    Clause.Holds v (normalise c) ↔ Clause.Holds v c :=
  Clause.holds_of_mem_iff (fun _ => mem_normalise) v

theorem isTautology_normalise (c : Clause) : isTautology (normalise c) = isTautology c := by
  rw [Bool.eq_iff_iff, isTautology, isTautology, meets_iff, meets_iff]
  simp only [List.mem_map, mem_normalise]

/-- A tautology holds under every assignment. -/
theorem holds_of_isTautology {c : Clause} (h : isTautology c = true)
    (hc : ∀ l ∈ c, Literal.Proper l) (v : Assignment) : Clause.Holds v c := by
  rw [isTautology, meets_iff] at h
  obtain ⟨other, hother, hmem⟩ := h
  obtain ⟨l, hl, rfl⟩ := List.mem_map.1 hother
  have hproper := hc l hl
  by_cases htrue : v (Literal.atom l) = Literal.polarity l
  · exact ⟨l, hl, htrue⟩
  · refine ⟨Literal.negate l, hmem, ?_⟩
    have hopposite := Literal.polarity_negate (by have := hproper.atom_pos; omega) hproper.2
    rw [Literal.Holds, Literal.atom_negate, hopposite]
    exact Bool.eq_not.2 htrue

theorem formula_models_iff {s : Solver} {v : Assignment} :
    s.formula.Models v ↔ s.hasEmpty = false ∧ ∀ c ∈ s.clauses.toList, Clause.Holds v c := by
  have hempty : ¬ Clause.Holds v [] := by
    intro h
    obtain ⟨l, hl, _⟩ := h
    simp at hl
  have hclauses : s.formula.clauses = (if s.hasEmpty then [[]] else []) ++ s.clauses.toList := rfl
  unfold Formula.Models
  rw [hclauses]
  cases s.hasEmpty with
  | false => simp
  | true => simp [hempty]

/-! ## One call -/

theorem noteAtoms_eq {literals : List Literal} (h : ∀ l ∈ literals, l ≠ 0)
    (s : Solver) : s.noteAtoms literals =
      (.ok (), { s with
        atoms := literals.foldl (fun n l => max n (Literal.atom l)) s.atoms }) := by
  induction literals generalizing s with
  | nil => rfl
  | cons l literals ih =>
    have hl := h l List.mem_cons_self
    rw [noteAtoms, if_neg hl, ih fun l' hl' => h l' (List.mem_cons_of_mem _ hl')]
    rfl

/-- What a clause leaves behind. -/
theorem add_eq {s : Solver} {c : Clause} (h : ∀ l ∈ c, l ≠ 0) :
    s.add c =
      let t := { s with atoms := c.foldl (fun n l => max n (Literal.atom l)) s.atoms }
      if isTautology (normalise c) then (.ok .tautology, t)
      else if (normalise c).isEmpty then (.ok .added, { t with hasEmpty := true })
      else (.ok .added, { t with clauses := t.clauses.push (normalise c) }) := by
  unfold Solver.add
  rw [noteAtoms_eq h]

/-- What a decision leaves behind. -/
theorem solve_eq {s : Solver} {assumptions : List Literal} (h : ∀ l ∈ assumptions, l ≠ 0) :
    s.solve assumptions =
      let n := assumptions.foldl (fun n l => max n (Literal.atom l)) s.atoms
      match s.formula.solve? assumptions with
      | some p => (.ok .satisfiable,
          { s with atoms := n, model := some (p.model n), core := [] })
      | none => (.ok .unsatisfiable,
          { s with
            atoms := n, model := none, core := coreOf s.formula s.minimise assumptions }) := by
  unfold Solver.solve
  rw [noteAtoms_eq h]
  rfl

theorem solve_of_eq_some {s : Solver} {assumptions : List Literal} (h : ∀ l ∈ assumptions, l ≠ 0)
    {p : Position} (hp : s.formula.solve? assumptions = some p) :
    s.solve assumptions = (.ok .satisfiable,
      { s with
        atoms := assumptions.foldl (fun n l => max n (Literal.atom l)) s.atoms
        model := some (p.model (assumptions.foldl (fun n l => max n (Literal.atom l)) s.atoms))
        core := [] }) := by
  rw [solve_eq h]
  dsimp only
  rw [hp]

theorem solve_of_eq_none {s : Solver} {assumptions : List Literal} (h : ∀ l ∈ assumptions, l ≠ 0)
    (hp : s.formula.solve? assumptions = none) :
    s.solve assumptions = (.ok .unsatisfiable,
      { s with
        atoms := assumptions.foldl (fun n l => max n (Literal.atom l)) s.atoms
        model := none
        core := coreOf s.formula s.minimise assumptions }) := by
  rw [solve_eq h]
  dsimp only
  rw [hp]

theorem noteAtoms_zero {literals : List Literal} (h : 0 ∈ literals) (s : Solver) :
    (s.noteAtoms literals).1 = .error .zeroLiteral := by
  induction literals generalizing s with
  | nil => simp at h
  | cons l literals ih =>
    rw [noteAtoms]
    split
    · rfl
    · next hne => exact ih ((List.mem_cons.1 h).resolve_left (Ne.symm hne)) _

/-- A clause with a zero is not recorded. -/
theorem add_of_zero {c : Clause} (h : 0 ∈ c) (s : Solver) :
    s.add c = (.error .zeroLiteral, (s.noteAtoms c).2) := by
  have hzero := noteAtoms_zero h s
  unfold Solver.add
  cases hnote : s.noteAtoms c with
  | mk answer t =>
    rw [hnote] at hzero
    cases hzero
    rfl

/-- Nothing is decided under assumptions with a zero. -/
theorem solve_of_zero {assumptions : List Literal} (h : 0 ∈ assumptions) (s : Solver) :
    s.solve assumptions = (.error .zeroLiteral, (s.noteAtoms assumptions).2) := by
  have hzero := noteAtoms_zero h s
  unfold Solver.solve
  cases hnote : s.noteAtoms assumptions with
  | mk answer t =>
    rw [hnote] at hzero
    cases hzero
    rfl

theorem solve_zero {assumptions : List Literal} (h : 0 ∈ assumptions) (s : Solver) :
    (s.solve assumptions).1 = .error .zeroLiteral :=
  congrArg Prod.fst (solve_of_zero h s)

/-- There is a verdict only about literals. -/
theorem ne_zero_of_solve {s : Solver} {assumptions : List Literal} {verdict : Verdict}
    (h : (s.solve assumptions).1 = .ok verdict) : ∀ l ∈ assumptions, l ≠ 0 := by
  rintro l hl rfl
  rw [solve_zero hl s] at h
  cases h

/-- Only the empty clause is stored as the empty clause. -/
theorem eq_nil_of_normalise {c : Clause} (h : (normalise c).isEmpty = true) : c = [] := by
  cases c with
  | nil => rfl
  | cons l c =>
    have hl : l ∈ normalise (l :: c) := mem_normalise.2 List.mem_cons_self
    rw [List.isEmpty_iff.1 h] at hl
    simp at hl

/-- A clause that is added counts, unless it is a tautology. -/
theorem models_add {s : Solver} {c : Clause} (hc : ∀ l ∈ c, l ≠ 0) (v : Assignment) :
    (s.add c).2.formula.Models v ↔
      s.formula.Models v ∧ (isTautology c = false → Clause.Holds v c) := by
  rw [add_eq hc, isTautology_normalise]
  dsimp only
  split
  · next htaut => exact (and_iff_left fun hnot => by rw [htaut] at hnot; cases hnot).symm
  · next htaut =>
    split
    · next hnil =>
      obtain rfl := eq_nil_of_normalise hnil
      simp [formula_models_iff, htaut, Clause.Holds]
    · simp only [formula_models_iff, Array.toList_push, List.mem_append, List.mem_singleton,
        or_imp, forall_and, forall_eq, holds_normalise, htaut, true_imp_iff, and_assoc]

/-- What else is known of a solver that a clause was added to. -/
theorem add_fields {s : Solver} {c : Clause} (hc : ∀ l ∈ c, l ≠ 0) :
    (s.add c).2.atoms = c.foldl (fun n l => max n (Literal.atom l)) s.atoms ∧
      (s.add c).2.minimise = s.minimise ∧ (s.add c).2.model = s.model ∧
        (s.add c).2.core = s.core := by
  rw [add_eq hc]
  dsimp only
  split
  · exact ⟨rfl, rfl, rfl, rfl⟩
  · split <;> exact ⟨rfl, rfl, rfl, rfl⟩

theorem recorded_note_add (g : Given) (c : Clause) :
    (g.note (.add c)).recorded = g.recorded ++ if isTautology c then [] else [c] := by
  show (g.clauses ++ [c]).filter _ = _
  rw [List.filter_append]
  cases h : isTautology c <;> simp [Given.recorded, h]

section Keeps

variable {minimise : Bool} {s : Solver} {g : Given}

theorem Keeps.greatest (h : Keeps minimise s g) (literals : List Literal) :
    literals.foldl (fun n l => max n (Literal.atom l)) s.atoms =
      greatestAtom (g.literals ++ literals) := by
  rw [h.atoms, greatestAtom, greatestAtom, List.foldl_append]

theorem Keeps.add (h : Keeps minimise s g) {c : Clause} (hc : ∀ l ∈ c, l ≠ 0) :
    Keeps minimise (s.add c).2 (g.note (.add c)) := by
  obtain ⟨hatoms, hminimise, _, _⟩ := add_fields (s := s) hc
  refine ⟨fun v => ?_, hatoms.trans (h.greatest c), fun d hd l hl => ?_,
    hminimise.trans h.minimise_eq⟩
  · rw [models_add hc, h.models v, recorded_note_add]
    cases isTautology c <;> simp [or_imp, forall_and]
  · rcases List.mem_append.1 hd with hd | hd
    · exact List.mem_append_left _ (h.subset d hd hl)
    · exact List.mem_append_right _ (List.mem_singleton.1 hd ▸ hl)

theorem Keeps.solve (h : Keeps minimise s g) {assumptions : List Literal}
    (hassumptions : ∀ l ∈ assumptions, l ≠ 0) :
    Keeps minimise (s.solve assumptions).2 (g.note (.solve assumptions)) := by
  have hsubset : ∀ c ∈ g.clauses, c ⊆ g.literals ++ assumptions := fun c hc =>
    List.subset_append_of_subset_left _ (h.subset c hc)
  rw [solve_eq hassumptions, h.greatest assumptions]
  dsimp only
  split <;> exact ⟨h.models, rfl, hsubset, h.minimise_eq⟩

theorem keeps_nil (minimise : Bool) : Keeps minimise { minimise } {} := by
  refine ⟨fun v => ?_, rfl, by simp, rfl⟩
  rw [formula_models_iff]
  simp [Given.recorded]

theorem Keeps.after (h : Keeps minimise s g) {call : Call} (hcall : call.NonZero) :
    Keeps minimise (s.after call) (g.note call) := by
  cases call with
  | add c => exact h.add hcall
  | solve assumptions => exact h.solve hcall
  | reset =>
    obtain rfl := h.minimise_eq
    exact keeps_nil s.minimise

end Keeps

/-! ## Literals of atoms in use -/

theorem Call.Proper.nonZero {call : Call} (h : call.Proper) : call.NonZero := by
  cases call with
  | add c => exact fun l hl => (h l hl).1
  | solve assumptions => exact fun l hl => (h l hl).1
  | reset => trivial

/-- On literals of atoms in use, the clauses that are left out hold always. -/
theorem holds_recorded_iff {g : Given} (hproper : ∀ l ∈ g.literals, Literal.Proper l)
    (hsubset : ∀ c ∈ g.clauses, c ⊆ g.literals) (v : Assignment) :
    (∀ c ∈ g.recorded, Clause.Holds v c) ↔ ∀ c ∈ g.clauses, Clause.Holds v c := by
  constructor
  · intro h c hc
    cases htaut : isTautology c with
    | true => exact holds_of_isTautology htaut (fun l hl => hproper l (hsubset c hc hl)) v
    | false => exact h c (List.mem_filter.2 ⟨hc, by simp [htaut]⟩)
  · exact fun h c hc => h c (List.mem_filter.1 hc).1

theorem records_iff {s : Solver} {g : Given} :
    Records s g ↔ Keeps s.minimise s g ∧ ∀ l ∈ g.literals, Literal.Proper l := by
  constructor
  · intro h
    refine ⟨⟨fun v => ?_, h.atoms, h.subset, rfl⟩, h.proper⟩
    exact (h.models v).trans (holds_recorded_iff h.proper h.subset v).symm
  · intro h
    obtain ⟨h, hproper⟩ := h
    refine ⟨fun v => ?_, h.atoms, hproper, h.subset⟩
    exact (h.models v).trans (holds_recorded_iff hproper h.subset v)

theorem Records.greatest {s : Solver} {g : Given} (h : Records s g) (literals : List Literal) :
    literals.foldl (fun n l => max n (Literal.atom l)) s.atoms =
      greatestAtom (g.literals ++ literals) :=
  (records_iff.1 h).1.greatest literals

theorem Call.Proper.note {g : Given} (h : ∀ l ∈ g.literals, Literal.Proper l) {call : Call}
    (hcall : call.Proper) : ∀ l ∈ (g.note call).literals, Literal.Proper l := by
  cases call with
  | add c => exact fun l hl => (List.mem_append.1 hl).elim (h l) (hcall l)
  | solve assumptions => exact fun l hl => (List.mem_append.1 hl).elim (h l) (hcall l)
  | reset => simp [Given.note]

theorem Records.after {s : Solver} {g : Given} (h : Records s g) {call : Call}
    (hcall : call.Proper) : Records (s.after call) (g.note call) := by
  obtain ⟨hkeeps, hproper⟩ := records_iff.1 h
  have hafter := hkeeps.after hcall.nonZero
  rw [← hafter.minimise_eq] at hafter
  exact records_iff.2 ⟨hafter, hcall.note hproper⟩

theorem Records.add {s : Solver} {g : Given} (h : Records s g) {c : Clause}
    (hc : ∀ l ∈ c, Literal.Proper l) : Records (s.add c).2 (g.note (.add c)) :=
  Records.after h (show (Call.add c).Proper from hc)

theorem Records.solve {s : Solver} {g : Given} (h : Records s g) {assumptions : List Literal}
    (hassumptions : ∀ l ∈ assumptions, Literal.Proper l) :
    Records (s.solve assumptions).2 (g.note (.solve assumptions)) :=
  Records.after h (show (Call.solve assumptions).Proper from hassumptions)

theorem records_nil (minimise : Bool) : Records { minimise } {} :=
  records_iff.2 ⟨keeps_nil minimise, by simp⟩

/-! ## All calls -/

/-- The induction is on the calls, from a solver that has kept what it was given before. -/
theorem keeps_foldl {minimise : Bool} {s : Solver} {g : Given} (h : Keeps minimise s g)
    {calls : List Call} (hcalls : ∀ call ∈ calls, call.NonZero) :
    Keeps minimise (calls.foldl Solver.after s) (calls.foldl Given.note g) := by
  induction calls generalizing s g with
  | nil => exact h
  | cons call calls ih =>
    have hcall := hcalls call List.mem_cons_self
    exact ih (h.after hcall) fun call' hcall' => hcalls call' (List.mem_cons_of_mem _ hcall')

theorem keeps_run (minimise : Bool) {calls : List Call} (hcalls : ∀ call ∈ calls, call.NonZero) :
    Keeps minimise (run minimise calls) (given calls) :=
  keeps_foldl (keeps_nil minimise) hcalls

theorem proper_given {calls : List Call} (hcalls : ∀ call ∈ calls, call.Proper) :
    ∀ l ∈ (given calls).literals, Literal.Proper l := by
  have hfoldl : ∀ g : Given, (∀ l ∈ g.literals, Literal.Proper l) →
      ∀ l ∈ (calls.foldl Given.note g).literals, Literal.Proper l := by
    induction calls with
    | nil => exact fun g hg => hg
    | cons call calls ih =>
      intro g hg
      have hcall := hcalls call List.mem_cons_self
      exact ih (fun call' hcall' => hcalls call' (List.mem_cons_of_mem _ hcall')) _
        (hcall.note hg)
  exact hfoldl {} (by simp)

theorem minimise_run (minimise : Bool) {calls : List Call}
    (hcalls : ∀ call ∈ calls, call.Proper) : (run minimise calls).minimise = minimise :=
  (keeps_run minimise fun call hcall => (hcalls call hcall).nonZero).minimise_eq

theorem records_run (minimise : Bool) {calls : List Call} (hcalls : ∀ call ∈ calls, call.Proper) :
    Records (run minimise calls) (given calls) := by
  have hkeeps := keeps_run minimise fun call hcall => (hcalls call hcall).nonZero
  refine records_iff.2 ⟨?_, proper_given hcalls⟩
  rwa [minimise_run minimise hcalls]

theorem Records.satisfiable_iff {s : Solver} {g : Given} (h : Records s g)
    (assumptions : List Literal) :
    Satisfiable s.formula.clauses assumptions ↔ Satisfiable g.clauses assumptions :=
  exists_congr fun v => and_congr_left' (h.models v)

/-! ## The answers -/

theorem map_atom_model (p : Position) {n : Nat} (h : n ≤ maxAtom + 1) :
    (p.model n).map Literal.atom = List.range' 1 n := by
  rw [Position.model, List.map_map]
  have hid : ∀ a ∈ List.range' 1 n,
      (Literal.atom ∘ fun a => Literal.ofAtom a (p.assignment a)) a = id a := by
    intro a ha
    have hmem := List.mem_range'_1.1 ha
    exact Literal.atom_ofAtom_of_le_succ (by omega) _
  rw [List.map_congr_left hid, List.map_id]

/-- The model of a position has the literals that its assignment makes true. -/
theorem mem_model {p : Position} {l : Literal} (hl : Literal.Proper l) {n : Nat}
    (hle : Literal.atom l ≤ n) (htrue : Literal.Holds p.assignment l) : l ∈ p.model n := by
  refine List.mem_map.2 ⟨Literal.atom l, ?_, ?_⟩
  · have := hl.atom_pos
    exact List.mem_range'_1.2 (by omega)
  · have hvalue : p.assignment (Literal.atom l) = Literal.polarity l := htrue
    rw [hvalue, Literal.ofAtom_atom hl.2]

theorem solve_eq_unsatisfiable_iff {s : Solver} {g : Given} (h : Records s g)
    {assumptions : List Literal} (hassumptions : ∀ l ∈ assumptions, Literal.Proper l) :
    (s.solve assumptions).1 = .ok .unsatisfiable ↔ ¬ Satisfiable g.clauses assumptions := by
  rw [← h.satisfiable_iff, ← Formula.solve?_eq_none_iff,
    solve_eq fun l hl => (hassumptions l hl).1]
  dsimp only
  cases s.formula.solve? assumptions <;> simp

/-- What it means that the outcome of a decision is right. -/
structure Decides (outcome : Except BackendError Verdict × Solver) (g : Given)
    (assumptions : List Literal) : Prop where
  /-- The clauses hold together with the assumptions exactly if the answer says so. -/
  satisfiable_iff : outcome.1 = .ok .satisfiable ↔ Satisfiable g.clauses assumptions
  /-- The model has one literal for each atom up to the greatest one met, in order, and
  makes all clauses and assumptions true. -/
  model : outcome.1 = .ok .satisfiable → ∃ model, outcome.2.model? = .ok model ∧
    model.map Literal.atom = List.range' 1 (greatestAtom (g.literals ++ assumptions)) ∧
    (∀ c ∈ g.clauses, ∃ l ∈ c, l ∈ model) ∧ ∀ l ∈ assumptions, l ∈ model
  /-- The only other answer leaves no model behind. -/
  noModel : outcome.1 ≠ .ok .satisfiable →
    outcome.1 = .ok .unsatisfiable ∧ outcome.2.model? = .error .noModel

theorem Records.decides {s : Solver} {g : Given} (h : Records s g) {assumptions : List Literal}
    (hassumptions : ∀ l ∈ assumptions, Literal.Proper l) :
    Decides (s.solve assumptions) g assumptions := by
  have hunsat := h.satisfiable_iff assumptions
  rw [solve_eq fun l hl => (hassumptions l hl).1, h.greatest assumptions]
  dsimp only
  split
  · next p hp =>
    obtain ⟨hmodels, hholds⟩ := (Formula.found_of_solve? hp).solves
    have hproper : ∀ l ∈ g.literals ++ assumptions, Literal.Proper l := fun l hl =>
      (List.mem_append.1 hl).elim (h.proper l) (hassumptions l)
    have hmem : ∀ l ∈ g.literals ++ assumptions, Literal.Holds p.assignment l →
        l ∈ p.model (greatestAtom (g.literals ++ assumptions)) := fun l hl htrue =>
      mem_model (hproper l hl) (atom_le_greatestAtom hl) htrue
    refine ⟨iff_of_true rfl (hunsat.1 ⟨p.assignment, hmodels, hholds⟩), fun _ => ?_, ?_⟩
    · refine ⟨_, rfl, map_atom_model p (greatestAtom_le_succ _), fun c hc => ?_, fun l hl => ?_⟩
      · obtain ⟨l, hl, htrue⟩ := (h.models p.assignment).1 hmodels c hc
        exact ⟨l, hl, hmem l (List.mem_append_left _ (h.subset c hc hl)) htrue⟩
      · exact hmem l (List.mem_append_right _ hl) (hholds l hl)
    · exact fun hne => absurd rfl hne
  · next hnone =>
    have hnot := (Formula.solve?_eq_none_iff _ _).1 hnone
    refine ⟨iff_of_false (by simp) (fun hsat => hnot (hunsat.2 hsat)), ?_, fun _ => ⟨rfl, rfl⟩⟩
    simp

/-- After every history of calls, each decision is right about the clauses given since
the last reset. -/
theorem solve_decides (minimise : Bool) (calls : List Call)
    (hcalls : ∀ call ∈ calls, call.Proper) (assumptions : List Literal)
    (hassumptions : ∀ l ∈ assumptions, Literal.Proper l) :
    Decides ((run minimise calls).solve assumptions) (given calls) assumptions :=
  (records_run minimise hcalls).decides hassumptions

/-- A history with a reset, a tautology, a repeated literal and contradictory assumptions. -/
theorem solve_decides_after_reset :
    Decides
      ((run true [.add [1], .reset, .add [2, -2], .add [-1, 3, 3], .solve [1, -1]]).solve
        [1, -3, 1])
      (given [.add [1], .reset, .add [2, -2], .add [-1, 3, 3], .solve [1, -1]]) [1, -3, 1] :=
  solve_decides true _ (by decide) _ (by decide)

end Solver

end Groundwork
