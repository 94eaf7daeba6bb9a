import Groundwork.Document
import Groundwork.Proofs.Json.Spelling

/-!
# What an export in DIMACS form says

A text in DIMACS form is read line by line.  Lines that begin with a `c` are comments.  The
first other line is the header, and all lines after it hold the numbers of the clauses, each
clause with a zero at its end.

A document is written with its ground atoms in comments.  A ground atom is any text, so it may
go on behind the end of its line, and what it says there is not in a comment any more.

* `words_intercalate` and `loudLines_flatMap`: words and lines that were joined are told apart;
* `clauses?_flatMap`: so are clauses;
* `read?_toDimacs`: the export of a document says what its clauses are if no ground atom says
  anything behind its first line, and nothing otherwise.
-/

namespace Groundwork

/-- What a text in DIMACS form says. -/
structure Dimacs where
  /-- The largest atom, from the header. -/
  atoms : Nat
  clauses : List (List Int)
deriving DecidableEq, Repr

namespace Dimacs

/-! ## Reading -/

/-- The words of a line. -/
def words (line : List Char) : List (List Char) :=
  (line.splitOnP Char.isWhitespace).filter fun word => !word.isEmpty

/-- A line says nothing if it is a comment or blank. -/
def silent (line : List Char) : Bool :=
  line.head? == some 'c' || (words line).isEmpty

/-- The lines that say something. -/
def loudLines (cs : List Char) : List (List Char) :=
  (cs.splitOn '\n').filter fun line => !silent line

/-- Reads digits. -/
def natural? (word : List Char) : Option Nat :=
  if word.isEmpty then none else Text.digits? word

/-- Reads the header: the largest atom and the count of clauses. -/
def header? (line : List Char) : Option (Nat × Nat) :=
  match words line with
  | [['p'], ['c', 'n', 'f'], atoms, count] => do
    return (← natural? atoms, ← natural? count)
  | _ => none

/-- Reads a number, with a sign if it is negative. -/
def integer? : List Char → Option Int
  | '-' :: digits => (natural? digits).map fun n => -(n : Int)
  | digits => (natural? digits).map fun n => (n : Int)

/-- Reads clauses, each with a zero at its end. -/
def clauses? : List Int → Option (List (List Int))
  | [] => some []
  | n :: rest => do
    let clauses ← clauses? rest
    if n = 0 then return [] :: clauses
    else match clauses with
      | [] => none
      | c :: clauses => return (n :: c) :: clauses

/-- Reads the header and the clauses behind it, about which the header has to be right. -/
def readLines? : List (List Char) → Option Dimacs
  | [] => none
  | first :: rest => do
    let (atoms, count) ← header? first
    let numbers ← (rest.flatMap words).mapM integer?
    let clauses ← clauses? numbers
    if clauses.length = count ∧ ∀ c ∈ clauses, ∀ n ∈ c, n.natAbs ≤ atoms then
      return { atoms, clauses }
    else none

/-- Reads a text. -/
def read? (text : String) : Option Dimacs :=
  readLines? (loudLines text.toList)

/-! ## Lines -/

theorem loudLines_append_newline (cs rest : List Char) :
    loudLines (cs ++ '\n' :: rest) = loudLines cs ++ loudLines rest := by
  rw [loudLines, List.splitOn_append_cons_self, List.filter_append]
  rfl

/-- Texts with a newline behind each have the lines of the texts. -/
theorem loudLines_flatMap (texts : List (List Char)) :
    loudLines (texts.flatMap (· ++ ['\n'])) = texts.flatMap loudLines := by
  induction texts with
  | nil => rfl
  | cons text texts ih =>
    rw [List.flatMap_cons, List.append_assoc, List.singleton_append, loudLines_append_newline, ih,
      List.flatMap_cons]

theorem loudLines_of_notMem {line : List Char} (h : '\n' ∉ line) (hloud : silent line = false) :
    loudLines line = [line] := by
  rw [loudLines, List.splitOn_eq_singleton h]
  simp [hloud]

/-- What a text says behind its first line. -/
def behind (text : String) : List (List Char) :=
  (text.toList.splitOn '\n').tail.filter fun line => !silent line

/-- Nothing is said behind the first line. -/
def quiet (text : String) : Bool :=
  (behind text).isEmpty

theorem quiet_of_notMem {text : String} (h : '\n' ∉ text.toList) : quiet text = true := by
  rw [quiet, behind, List.splitOn_eq_singleton h]
  rfl

theorem exists_splitOn_append {front : List Char} (h : '\n' ∉ front) (cs : List Char) :
    ∃ line, (front ++ cs).splitOn '\n' = (front ++ line) :: (cs.splitOn '\n').tail := by
  induction front with
  | nil =>
    obtain ⟨line, lines, hlines⟩ := List.exists_cons_of_ne_nil (List.splitOn_ne_nil '\n' cs)
    exact ⟨line, by rw [List.nil_append, hlines]; rfl⟩
  | cons c front ih =>
    have hc : (c == '\n') = false :=
      beq_eq_false_iff_ne.2 fun hsame => h (hsame ▸ List.mem_cons_self)
    obtain ⟨line, hline⟩ := ih fun hmem => h (List.mem_cons_of_mem c hmem)
    refine ⟨line, ?_⟩
    rw [List.cons_append, List.splitOn_cons_eq_if_modifyHead, hc, hline]
    rfl

/-- Of a text in a comment, only what it says behind its first line is left. -/
theorem loudLines_comment {front : List Char} (h : '\n' ∉ front) (text : String) :
    loudLines ('c' :: front ++ text.toList) = behind text := by
  have hfront : '\n' ∉ 'c' :: front := by simp [h]
  obtain ⟨line, hline⟩ := exists_splitOn_append hfront text.toList
  rw [loudLines, hline]
  exact List.filter_cons_of_neg (by simp [silent])

/-! ## Words -/

/-- The word is not empty, and has no blank in it. -/
def Solid (word : List Char) : Prop :=
  word ≠ [] ∧ ∀ c ∈ word, c.isWhitespace = false

theorem words_append_blank {b : Char} (hb : b.isWhitespace = true) (cs rest : List Char) :
    words (cs ++ b :: rest) = words cs ++ words rest := by
  rw [words, List.splitOnP_append_cons cs rest hb, List.filter_append]
  rfl

theorem words_of_solid {word : List Char} (h : Solid word) : words word = [word] := by
  rw [words, List.splitOnP_eq_singleton h.2]
  simp [h.1]

/-- Words that are joined by spaces are told apart. -/
theorem words_intercalate {ws : List (List Char)} (h : ∀ word ∈ ws, Solid word) :
    words ([' '].intercalate ws) = ws := by
  induction ws with
  | nil => rfl
  | cons word ws ih =>
    obtain ⟨hword, hws⟩ := List.forall_mem_cons.1 h
    cases ws with
    | nil => rw [List.intercalate_singleton, words_of_solid hword]
    | cons next ws =>
      rw [List.intercalate_cons_cons, List.append_assoc, List.singleton_append,
        words_append_blank rfl, words_of_solid hword, ih hws]
      rfl

theorem newline_notMem_intercalate {ws : List (List Char)} (h : ∀ word ∈ ws, Solid word) :
    '\n' ∉ [' '].intercalate ws := by
  induction ws with
  | nil => exact List.not_mem_nil
  | cons word ws ih =>
    obtain ⟨hword, hws⟩ := List.forall_mem_cons.1 h
    have hnot : '\n' ∉ word := fun hmem => absurd (hword.2 _ hmem) (by decide)
    cases ws with
    | nil => rwa [List.intercalate_singleton]
    | cons next ws =>
      rw [List.intercalate_cons_cons, List.mem_append, List.mem_append]
      rintro ((hmem | hmem) | hmem)
      · exact hnot hmem
      · exact absurd hmem (by decide)
      · exact ih hws hmem

theorem head?_intercalate {word : List Char} (hne : word ≠ []) (ws : List (List Char)) :
    ([' '].intercalate (word :: ws)).head? = word.head? := by
  cases ws with
  | nil => rw [List.intercalate_singleton]
  | cons next ws =>
    rw [List.intercalate_cons_cons, List.append_assoc, List.head?_append_of_ne_nil _ hne]

/-- A line of words is one that says something, unless it begins like a comment. -/
theorem loudLines_intercalate {word : List Char} {ws : List (List Char)}
    (h : ∀ w ∈ word :: ws, Solid w) (hcomment : word.head? ≠ some 'c') :
    loudLines ([' '].intercalate (word :: ws)) = [[' '].intercalate (word :: ws)] := by
  refine loudLines_of_notMem (newline_notMem_intercalate h) ?_
  rw [silent, words_intercalate h, head?_intercalate (h word List.mem_cons_self).1]
  simp [hcomment]

/-! ## Numbers -/

theorem isWhitespace_of_isDigit {c : Char} (h : c.isDigit = true) : c.isWhitespace = false := by
  cases hblank : c.isWhitespace with
  | false => rfl
  | true =>
    simp only [Char.isWhitespace, Bool.or_eq_true, decide_eq_true_eq] at hblank
    rcases hblank with ((rfl | rfl) | rfl) | rfl <;> cases h

theorem isDigit_of_mem_toDigits {n : Nat} {c : Char} (h : c ∈ Nat.toDigits 10 n) :
    c.isDigit = true :=
  Nat.isDigit_of_mem_toDigits (by decide) (by decide) h

/-- A number is written with its digits, and with a sign in front if it is negative. -/
theorem toList_repr (n : Int) : ∃ m, (n.repr.toList = Nat.toDigits 10 m ∧ n = m) ∨
    (n.repr.toList = '-' :: Nat.toDigits 10 m ∧ n = -m) := by
  rw [Int.repr_eq_if]
  split
  · exact ⟨n.toNat, Or.inl ⟨Nat.toList_repr, by omega⟩⟩
  · refine ⟨(-n).toNat, Or.inr ⟨?_, by omega⟩⟩
    rw [String.toList_append, Nat.toList_repr]
    rfl

theorem solid_repr (n : Int) : Solid n.repr.toList := by
  obtain ⟨m, ⟨heq, _⟩ | ⟨heq, _⟩⟩ := toList_repr n
  · rw [heq]
    exact ⟨Nat.toDigits_ne_nil, fun c hc => isWhitespace_of_isDigit (isDigit_of_mem_toDigits hc)⟩
  · rw [heq]
    refine ⟨List.cons_ne_nil _ _, List.forall_mem_cons.2 ⟨rfl, fun c hc => ?_⟩⟩
    exact isWhitespace_of_isDigit (isDigit_of_mem_toDigits hc)

/-- No number begins like a comment. -/
theorem head?_repr (n : Int) : n.repr.toList.head? ≠ some 'c' := by
  obtain ⟨m, ⟨heq, _⟩ | ⟨heq, _⟩⟩ := toList_repr n
  · rw [heq]
    intro hhead
    have hc := isDigit_of_mem_toDigits (List.mem_of_head? hhead)
    cases hc
  · rw [heq, List.head?_cons]
    decide

theorem natural?_toDigits (n : Nat) : natural? (Nat.toDigits 10 n) = some n := by
  rw [natural?, if_neg (by simp [Nat.toDigits_ne_nil]), Json.digits?_toDigits]

theorem integer?_repr (n : Int) : integer? n.repr.toList = some n := by
  obtain ⟨m, ⟨heq, rfl⟩ | ⟨heq, rfl⟩⟩ := toList_repr n
  · rw [heq]
    unfold integer?
    split
    · next hsign =>
      have hdigit := isDigit_of_mem_toDigits (hsign ▸ List.mem_cons_self)
      cases hdigit
    · rw [natural?_toDigits]
      rfl
  · rw [heq, integer?, natural?_toDigits]
    rfl

theorem mapM_integer?_repr (numbers : List Int) :
    (numbers.map fun n => n.repr.toList).mapM integer? = some numbers := by
  induction numbers with
  | nil => rfl
  | cons n numbers ih => simp [integer?_repr, ih]

theorem mapM_integer?_eq_none {ws : List (List Char)} {word : List Char} (h : word ∈ ws)
    (hword : integer? word = none) : ws.mapM integer? = none := by
  induction ws with
  | nil => simp at h
  | cons first ws ih =>
    rw [List.mapM_cons]
    rcases List.mem_cons.1 h with rfl | hrest
    · rw [hword]
      rfl
    · rw [ih hrest]
      cases integer? first <;> rfl

/-! ## Clauses -/

theorem clauses?_append {c : List Int} (h : ∀ n ∈ c, n ≠ 0) (rest : List Int) :
    clauses? (c ++ 0 :: rest) = (clauses? rest).map (c :: ·) := by
  induction c with
  | nil =>
    rw [List.nil_append, clauses?]
    cases clauses? rest <;> rfl
  | cons n c ih =>
    obtain ⟨hn, hc⟩ := List.forall_mem_cons.1 h
    rw [List.cons_append, clauses?, ih hc]
    cases clauses? rest with
    | none => rfl
    | some clauses => simp [hn]

/-- Clauses with a zero behind each are told apart, the empty ones as well. -/
theorem clauses?_flatMap {cs : List (List Int)} (h : ∀ c ∈ cs, ∀ n ∈ c, n ≠ 0) :
    clauses? (cs.flatMap (· ++ [0])) = some cs := by
  induction cs with
  | nil => rfl
  | cons c cs ih =>
    obtain ⟨hc, hcs⟩ := List.forall_mem_cons.1 h
    rw [List.flatMap_cons, List.append_assoc, List.singleton_append, clauses?_append hc, ih hcs]
    rfl

/-! ## Documents -/

/-- The words of the header. -/
def headerWords (atoms count : Nat) : List (List Char) :=
  [['p'], ['c', 'n', 'f'], atoms.repr.toList, count.repr.toList]

/-- The numbers of a clause, with the zero at its end. -/
def numbers (c : Clause) : List Int :=
  c.map Int32.toInt ++ [0]

/-- The words of a clause. -/
def clauseWords (c : Clause) : List (List Char) :=
  (numbers c).map fun n => n.repr.toList

theorem solid_headerWords (atoms count : Nat) : ∀ word ∈ headerWords atoms count, Solid word := by
  intro word hword
  simp only [headerWords, List.mem_cons, List.not_mem_nil, or_false] at hword
  rcases hword with rfl | rfl | rfl | rfl
  · exact ⟨List.cons_ne_nil _ _, by simp [Char.isWhitespace]⟩
  · exact ⟨List.cons_ne_nil _ _, by simp [Char.isWhitespace]⟩
  · exact solid_repr atoms
  · exact solid_repr count

theorem solid_clauseWords (c : Clause) : ∀ word ∈ clauseWords c, Solid word := by
  intro word hword
  obtain ⟨n, _, rfl⟩ := List.mem_map.1 hword
  exact solid_repr n

theorem header?_headerWords (atoms count : Nat) :
    header? ([' '].intercalate (headerWords atoms count)) = some (atoms, count) := by
  rw [header?, words_intercalate (solid_headerWords atoms count)]
  show (do return (← natural? atoms.repr.toList, ← natural? count.repr.toList)) =
    some (atoms, count)
  rw [Nat.toList_repr, Nat.toList_repr, natural?_toDigits, natural?_toDigits]
  rfl

theorem loudLines_headerWords (atoms count : Nat) :
    loudLines ([' '].intercalate (headerWords atoms count)) =
      [[' '].intercalate (headerWords atoms count)] :=
  loudLines_intercalate (solid_headerWords atoms count) (by decide)

theorem loudLines_clauseWords (c : Clause) :
    loudLines ([' '].intercalate (clauseWords c)) = [[' '].intercalate (clauseWords c)] := by
  have hsolid := solid_clauseWords c
  cases c with
  | nil => exact loudLines_intercalate hsolid (head?_repr 0)
  | cons l c => exact loudLines_intercalate hsolid (head?_repr l.toInt)

theorem toList_dimacs (c : Clause) :
    (Clause.dimacs c true).toList = [' '].intercalate (clauseWords c) := by
  rw [Clause.dimacs, if_pos rfl, String.toList_intercalate, clauseWords, numbers, List.map_append,
    List.map_append, List.map_map, List.map_map]
  rfl

/-- The ground atoms of a document, in the order in which they are exported. -/
def exported (d : Document) : List (String × Literal) :=
  d.literals.entries.mergeSort fun a b => a.2 ≤ b.2

/-- The literal that the header of an export gives. -/
def lastLiteral (d : Document) : Literal :=
  ((exported d).getLast?.map Prod.snd).getD 0

/-- What stands before a ground atom, behind the letter of the comment. -/
def label (l : Literal) : List Char :=
  ' ' :: (l.toInt.repr.toList ++ [' '])

theorem newline_notMem_label (l : Literal) : '\n' ∉ label l := by
  have hsolid := solid_repr l.toInt
  have hnot : '\n' ∉ l.toInt.repr.toList := fun hmem => absurd (hsolid.2 _ hmem) (by decide)
  simp [label, hnot]

theorem toList_toDimacs {d : Document} {atoms : Nat} (hatoms : (lastLiteral d).toInt = atoms) :
    d.toDimacs.toList =
      ((exported d).map (fun entry => 'c' :: label entry.2 ++ entry.1.toList) ++
        [' '].intercalate (headerWords atoms d.clauses.length) ::
          d.clauses.map fun c => [' '].intercalate (clauseWords c)).flatMap (· ++ ['\n']) := by
  have hlast : toString (lastLiteral d) = atoms.repr := by
    show (lastLiteral d).toInt.repr = _
    rw [hatoms]
    rfl
  have hcomment : ∀ entry ∈ exported d,
      ("c " ++ toString entry.2 ++ " " ++ entry.1 ++ "\n").toList =
        'c' :: label entry.2 ++ entry.1.toList ++ ['\n'] := by
    intro entry _
    simp [label, show toString entry.2 = entry.2.toInt.repr from rfl]
  have hheader : ("p cnf " ++ atoms.repr ++ " " ++ toString d.clauses.length ++ "\n").toList =
      [' '].intercalate (headerWords atoms d.clauses.length) ++ ['\n'] := by
    simp [headerWords]
  have hclause : ∀ c ∈ d.clauses, (Clause.dimacs c true ++ "\n").toList =
      [' '].intercalate (clauseWords c) ++ ['\n'] := by
    intro c _
    rw [String.toList_append, toList_dimacs]
    rfl
  show (String.join
    ((exported d).map (fun entry => "c " ++ toString entry.2 ++ " " ++ entry.1 ++ "\n") ++
      ("p cnf " ++ toString (lastLiteral d) ++ " " ++ toString d.clauses.length ++ "\n") ::
        d.clauses.map fun c => Clause.dimacs c true ++ "\n")).toList = _
  rw [hlast, String.toList_join, List.flatMap_append, List.flatMap_append, List.flatMap_cons,
    List.flatMap_cons, List.flatMap_map, List.flatMap_map, List.flatMap_map, List.flatMap_map,
    List.flatMap_congr hcomment, hheader, List.flatMap_congr hclause]

theorem loudLines_toDimacs {d : Document} {atoms : Nat} (hatoms : (lastLiteral d).toInt = atoms) :
    loudLines d.toDimacs.toList =
      (exported d).flatMap (fun entry => behind entry.1) ++
        [' '].intercalate (headerWords atoms d.clauses.length) ::
          d.clauses.map fun c => [' '].intercalate (clauseWords c) := by
  have hcomment : ∀ entry ∈ exported d,
      loudLines ('c' :: label entry.2 ++ entry.1.toList) = behind entry.1 := fun entry _ =>
    loudLines_comment (newline_notMem_label entry.2) entry.1
  have hclause : ∀ c ∈ d.clauses, loudLines ([' '].intercalate (clauseWords c)) =
      [[' '].intercalate (clauseWords c)] := fun c _ => loudLines_clauseWords c
  rw [toList_toDimacs hatoms, loudLines_flatMap, List.flatMap_append, List.flatMap_cons,
    List.flatMap_map, List.flatMap_map, loudLines_headerWords, List.flatMap_congr hcomment,
    List.flatMap_congr hclause, List.map_eq_flatMap]
  rfl

/-- A second header is not among the numbers. -/
theorem readLines?_eq_none {first : List Char} {rest : List (List Char)}
    (h : ['p'] ∈ rest.flatMap words) : readLines? (first :: rest) = none := by
  rw [readLines?, mapM_integer?_eq_none h rfl]
  cases header? first <;> rfl

theorem flatMap_clauseWords (clauses : List Clause) :
    clauses.flatMap clauseWords = (clauses.flatMap numbers).map fun n => n.repr.toList := by
  rw [List.map_flatMap]
  rfl

/-- The header and the clauses are read back. -/
theorem readLines?_clauses {clauses : List Clause} {atoms : Nat}
    (h : ∀ c ∈ clauses, ∀ l ∈ c, l ≠ 0 ∧ Literal.atom l ≤ atoms) :
    readLines? ([' '].intercalate (headerWords atoms clauses.length) ::
        clauses.map fun c => [' '].intercalate (clauseWords c)) =
      some { atoms, clauses := clauses.map (·.map Int32.toInt) } := by
  have hwords : (clauses.map fun c => [' '].intercalate (clauseWords c)).flatMap words =
      (clauses.flatMap numbers).map fun n => n.repr.toList := by
    rw [List.flatMap_map, ← flatMap_clauseWords]
    exact List.flatMap_congr fun c _ => words_intercalate (solid_clauseWords c)
  have hzero : ∀ c ∈ clauses.map (·.map Int32.toInt), ∀ n ∈ c, n ≠ 0 ∧ n.natAbs ≤ atoms := by
    intro numbers hnumbers n hn
    obtain ⟨c, hc, rfl⟩ := List.mem_map.1 hnumbers
    obtain ⟨l, hl, rfl⟩ := List.mem_map.1 hn
    obtain ⟨hne, hle⟩ := h c hc l hl
    exact ⟨fun hl0 => hne (Int32.toInt_inj.1 hl0), hle⟩
  have hclauses : clauses? (clauses.flatMap numbers) = some (clauses.map (·.map Int32.toInt)) := by
    rw [← clauses?_flatMap fun c hc n hn => (hzero c hc n hn).1, List.flatMap_map]
    rfl
  have hbound : ∀ c ∈ clauses.map (·.map Int32.toInt), ∀ n ∈ c, n.natAbs ≤ atoms := fun c hc n hn =>
    (hzero c hc n hn).2
  simp only [readLines?, header?_headerWords, hwords, mapM_integer?_repr, hclauses,
    Option.bind_eq_bind, Option.bind_some]
  exact if_pos ⟨List.length_map _, hbound⟩

/-- The export of a document says what its clauses are, if no ground atom says anything behind
its first line.  Otherwise the true header comes too late, and is no number. -/
theorem read?_toDimacs {d : Document} {atoms : Nat} (hatoms : (lastLiteral d).toInt = atoms)
    (hliterals : ∀ c ∈ d.clauses, ∀ l ∈ c, l ≠ 0 ∧ Literal.atom l ≤ atoms) :
    read? d.toDimacs =
      if d.literals.entries.all fun entry => quiet entry.1 then
        some { atoms, clauses := d.clauses.map (·.map Int32.toInt) }
      else none := by
  have hquiet : (d.literals.entries.all fun entry => quiet entry.1) = true ↔
      (exported d).flatMap (fun entry => behind entry.1) = [] := by
    rw [List.all_eq_true, List.flatMap_eq_nil_iff]
    simp only [quiet, exported, List.mem_mergeSort, List.isEmpty_iff]
  rw [read?, loudLines_toDimacs hatoms]
  by_cases hnil : (exported d).flatMap (fun entry => behind entry.1) = []
  · rw [if_pos (hquiet.2 hnil), hnil, List.nil_append, readLines?_clauses hliterals]
  · obtain ⟨first, rest, hfirst⟩ := List.exists_cons_of_ne_nil hnil
    rw [if_neg fun hall => hnil (hquiet.1 hall), hfirst, List.cons_append]
    refine readLines?_eq_none ?_
    rw [List.flatMap_append, List.flatMap_cons, words_intercalate (solid_headerWords _ _)]
    exact List.mem_append_right _ (List.mem_append_left _ List.mem_cons_self)

end Dimacs

end Groundwork
