/-!
# Literals and clauses

Atoms are numbered from one.  A literal is an atom with a polarity, written as a
signed word of 32 bits whose sign is the polarity.  A clause is a list of literals
and says that one of them is true.  Zero is no literal, as it ends a clause in
DIMACS.

Words wrap.  The least word has no opposite, and is its own negation, so the
literals in use are those of the atoms up to `maxAtom`.
-/

namespace Groundwork

/-- An atom with a polarity, as a signed word. -/
abbrev Literal := Int32

/-- The disjunction of some literals. -/
abbrev Clause := List Literal

/-- The largest atom: those above it have no positive literal. -/
def maxAtom : Nat :=
  0x7FFFFFFF

namespace Literal

/-- The literal of an atom with a polarity. -/
def ofAtom (atom : Nat) (polarity : Bool) : Literal :=
  if polarity then Int32.ofNat atom else -Int32.ofNat atom

/-- The atom of a literal, which is its distance from zero. -/
def atom (l : Literal) : Nat :=
  l.toInt.natAbs

/-- Whether a literal is positive. -/
def polarity (l : Literal) : Bool :=
  0 < l

/-- The literal of the same atom with the other polarity. -/
def negate (l : Literal) : Literal :=
  -l

theorem toInt_ofAtom {n : Nat} (h : n ≤ maxAtom) (polarity : Bool) :
    (ofAtom n polarity).toInt = if polarity then (n : Int) else -(n : Int) := by
  simp only [maxAtom] at h
  have word : (Int32.ofNat n).toInt = n := Int32.toInt_ofNat_of_lt (by omega)
  cases polarity with
  | true => simpa [ofAtom] using word
  | false =>
    simp only [ofAtom, Bool.false_eq_true, if_false, Int32.toInt_neg, word, Int.bmod_def]
    omega

theorem atom_ofAtom {n : Nat} (h : n ≤ maxAtom) (polarity : Bool) :
    atom (ofAtom n polarity) = n := by
  cases polarity <;> simp [atom, toInt_ofAtom h]

theorem ofAtom_atom {l : Literal} (h : atom l ≤ maxAtom) : ofAtom (atom l) (polarity l) = l := by
  apply Int32.toInt_inj.1
  have zero : (0 : Int32).toInt = 0 := rfl
  rw [toInt_ofAtom h]
  simp only [polarity, atom, Int32.lt_iff_toInt_lt, zero, decide_eq_true_eq]
  omega

theorem negate_negate (l : Literal) : negate (negate l) = l :=
  Int32.neg_neg

/-- Also the least word keeps its atom, as it is its own negation. -/
theorem atom_negate (l : Literal) : atom (negate l) = atom l := by
  have lower := l.le_toInt
  have upper := l.toInt_lt
  simp only [atom, negate, Int32.toInt_neg, Int.bmod_def]
  omega

theorem polarity_negate {l : Literal} (pos : atom l ≠ 0) (h : atom l ≤ maxAtom) :
    polarity (negate l) = !polarity l := by
  simp only [atom, maxAtom] at pos h
  have zero : (0 : Int32).toInt = 0 := rfl
  have opposite : (-l).toInt = -l.toInt := by
    rw [Int32.toInt_neg, Int.bmod_def]
    omega
  simp only [polarity, negate, Int32.lt_iff_toInt_lt, opposite, zero]
  by_cases sign : 0 < l.toInt <;> simp [sign] <;> omega

end Literal

/-- A truth value for each atom. -/
abbrev Assignment := Nat → Bool

/-- The assignment makes the literal true. -/
def Literal.Holds (v : Assignment) (l : Literal) : Prop :=
  v (Literal.atom l) = Literal.polarity l

/-- The assignment makes some literal of the clause true. -/
def Clause.Holds (v : Assignment) (c : Clause) : Prop :=
  ∃ l ∈ c, Literal.Holds v l

instance (v : Assignment) (c : Clause) : Decidable (Clause.Holds v c) :=
  inferInstanceAs (Decidable (∃ l ∈ c, v (Literal.atom l) = Literal.polarity l))

/-- A clause in DIMACS form: its literals with spaces between them, and the zero
that ends a clause if it is asked for. -/
def Clause.dimacs (c : Clause) (zero : Bool) : String :=
  " ".intercalate (c.map (fun l => toString l) ++ if zero then ["0"] else [])

end Groundwork
