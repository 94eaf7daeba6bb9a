import Groundwork.Text.Count

/-!
# Tokens of JSON

A text in JSON is a sequence of tokens with blanks around them.  Of numbers only
integers have a value here, and any other number is kept as it is written.  The
escapes of a text may spell half of a surrogate pair.  Such a text is no string,
and is told apart.
-/

namespace Groundwork.Json

/-- A token of JSON. -/
inductive Token where
  | beginArray
  | endArray
  | beginObject
  | endObject
  | colon
  | comma
  | text (s : String)
  /-- A text with half of a surrogate pair, as its code units and code points. -/
  | broken (units : List Nat)
  | integer (n : Int)
  /-- A number with a fraction or an exponent, or a negative zero. -/
  | number (spelling : String)
  /-- The literal `true`, `false` or `null`. -/
  | word (spelling : String)
deriving DecidableEq, Repr

/-! ## Reading -/

/-- The blanks of JSON. -/
def isSpace (c : Char) : Bool :=
  c == ' ' || c == '\n' || c == '\t' || c == '\r'

/-- The value of a hexadecimal digit. -/
def hexDigit? (c : Char) : Option Nat :=
  if '0' ≤ c ∧ c ≤ '9' then some (c.toNat - '0'.toNat)
  else if 'a' ≤ c ∧ c ≤ 'f' then some (c.toNat - 'a'.toNat + 10)
  else if 'A' ≤ c ∧ c ≤ 'F' then some (c.toNat - 'A'.toNat + 10)
  else none

/-- The number that four hexadecimal digits write. -/
def hexNumber? (a b c d : Char) : Option Nat := do
  return 16 * (16 * (16 * (← hexDigit? a) + (← hexDigit? b)) + (← hexDigit? c)) + (← hexDigit? d)

/-- The character that stands for itself or for a control after a backslash. -/
def unescape? (c : Char) : Option Nat :=
  if c = '"' ∨ c = '\\' ∨ c = '/' then some c.toNat
  else if c = 'b' then some 0x8
  else if c = 'f' then some 0xC
  else if c = 'n' then some 0xA
  else if c = 'r' then some 0xD
  else if c = 't' then some 0x9
  else none

/-- Reads the rest of a text up to its closing quote.  Gives its code points, with
halves of surrogate pairs as they are, and what follows. -/
def scanText (read : List Nat) : List Char → Option (List Nat × List Char)
  | [] => none
  | '"' :: rest => some (read.reverse, rest)
  | '\\' :: 'u' :: a :: b :: c :: d :: rest =>
    match hexNumber? a b c d with
    | some n => scanText (n :: read) rest
    | none => none
  | '\\' :: c :: rest =>
    match unescape? c with
    | some n => scanText (n :: read) rest
    | none => none
  | c :: rest => if c.toNat < 0x20 then none else scanText (c.toNat :: read) rest

/-- The characters that code points spell, where two halves of a surrogate pair make
one character. -/
def assemble? : List Nat → Option (List Char)
  | [] => some []
  | [n] => if n.isValidChar then some [Char.ofNat n] else none
  | m :: n :: rest =>
    if 0xD800 ≤ m ∧ m ≤ 0xDBFF ∧ 0xDC00 ≤ n ∧ n ≤ 0xDFFF then
      (assemble? rest).map (Char.ofNat (0x10000 + (m - 0xD800) * 0x400 + (n - 0xDC00)) :: ·)
    else if m.isValidChar then (assemble? (n :: rest)).map (Char.ofNat m :: ·)
    else none

/-- The token of a text with the given code points. -/
def textToken (units : List Nat) : Token :=
  match assemble? units with
  | some chars => .text (String.ofList chars)
  | none => .broken units

/-- Whether a character is a decimal digit. -/
def isDigit (c : Char) : Bool :=
  (Text.digit? c).isSome

/-- What follows the digits of a fraction, if there is a fraction.  A point without
digits after it is no number. -/
def scanFraction : List Char → Option (List Char)
  | '.' :: rest => if (rest.takeWhile isDigit).isEmpty then none else some (rest.dropWhile isDigit)
  | rest => some rest

/-- What follows the sign of an exponent, if there is a sign. -/
def dropSign : List Char → List Char
  | '+' :: rest => rest
  | '-' :: rest => rest
  | rest => rest

/-- What follows the digits of an exponent, if there is an exponent.  An exponent
without digits is no number. -/
def scanExponent : List Char → Option (List Char)
  | 'e' :: rest => digits (dropSign rest)
  | 'E' :: rest => digits (dropSign rest)
  | rest => some rest
where
  /-- What follows the digits, of which there has to be one. -/
  digits (rest : List Char) : Option (List Char) :=
    if (rest.takeWhile isDigit).isEmpty then none else some (rest.dropWhile isDigit)

/-- Whether no fraction and no exponent follows the digits of a number. -/
def endsInteger : List Char → Bool
  | c :: _ => !(c == '.' || c == 'e' || c == 'E')
  | [] => true

/-- Reads a number whose sign is read. -/
def scanNumber (negative : Bool) (cs : List Char) : Option (Token × List Char) := do
  let digits := cs.takeWhile isDigit
  let afterDigits := cs.dropWhile isDigit
  if digits.isEmpty || (digits.head? == some '0' && digits.length != 1) then none
  else
    let n ← Text.digits? digits
    let rest ← scanExponent (← scanFraction afterDigits)
    let token :=
      if endsInteger afterDigits && !(negative && n == 0) then
        Token.integer (if negative then -(n : Int) else n)
      else
        let spelling := cs.take (cs.length - rest.length)
        Token.number (String.ofList (if negative then '-' :: spelling else spelling))
    return (token, rest)

/-- Reads the token that begins with a character. -/
def nextToken : Char → List Char → Option (Token × List Char)
  | '[', rest => some (.beginArray, rest)
  | ']', rest => some (.endArray, rest)
  | '{', rest => some (.beginObject, rest)
  | '}', rest => some (.endObject, rest)
  | ':', rest => some (.colon, rest)
  | ',', rest => some (.comma, rest)
  | '"', rest => (scanText [] rest).map fun (units, rest) => (textToken units, rest)
  | 't', 'r' :: 'u' :: 'e' :: rest => some (.word "true", rest)
  | 'f', 'a' :: 'l' :: 's' :: 'e' :: rest => some (.word "false", rest)
  | 'n', 'u' :: 'l' :: 'l' :: rest => some (.word "null", rest)
  | '-', rest => scanNumber true rest
  | c, rest => scanNumber false (c :: rest)

/-! ### Reading goes on -/

theorem length_scanText_lt {read units : List Nat} {cs rest : List Char}
    (h : scanText read cs = some (units, rest)) : rest.length < cs.length := by
  fun_induction scanText read cs with
  | case1 => contradiction
  | case2 => cases h; exact Nat.lt_succ_self _
  | case3 _ _ _ _ _ _ _ _ ih =>
    have := ih h
    simp only [List.length_cons]
    omega
  | case4 => contradiction
  | case5 _ _ _ _ _ _ ih =>
    have := ih h
    simp only [List.length_cons]
    omega
  | case6 => contradiction
  | case7 => contradiction
  | case8 _ _ _ _ _ _ _ ih => exact Nat.lt_succ_of_lt (ih h)

theorem length_dropWhile_le (p : Char → Bool) (cs : List Char) :
    (cs.dropWhile p).length ≤ cs.length :=
  (List.dropWhile_sublist p).length_le

theorem length_scanFraction_le {cs rest : List Char} (h : scanFraction cs = some rest) :
    rest.length ≤ cs.length := by
  unfold scanFraction at h
  split at h
  · split at h
    · contradiction
    · cases h
      exact Nat.le_succ_of_le (length_dropWhile_le _ _)
  · cases h
    exact Nat.le_refl _

theorem length_dropSign_le (cs : List Char) : (dropSign cs).length ≤ cs.length := by
  unfold dropSign
  split <;> simp

theorem length_scanExponent_digits_le {cs rest : List Char}
    (h : scanExponent.digits cs = some rest) : rest.length ≤ cs.length := by
  unfold scanExponent.digits at h
  split at h
  · contradiction
  · cases h
    exact length_dropWhile_le _ _

theorem length_scanExponent_le {cs rest : List Char} (h : scanExponent cs = some rest) :
    rest.length ≤ cs.length := by
  unfold scanExponent at h
  split at h
  · exact Nat.le_succ_of_le
      (Nat.le_trans (length_scanExponent_digits_le h) (length_dropSign_le _))
  · exact Nat.le_succ_of_le
      (Nat.le_trans (length_scanExponent_digits_le h) (length_dropSign_le _))
  · cases h
    exact Nat.le_refl _

theorem length_scanNumber_lt {negative : Bool} {cs rest : List Char} {t : Token}
    (h : scanNumber negative cs = some (t, rest)) : rest.length < cs.length := by
  simp only [scanNumber] at h
  split at h
  · contradiction
  · next nonempty =>
    simp only [bind, Option.bind_eq_some_iff, pure, Option.some.injEq, Prod.mk.injEq] at h
    obtain ⟨n, _, fraction, hf, exponent, he, _, rfl⟩ := h
    have afterDigits : (cs.dropWhile isDigit).length < cs.length := by
      have split := congrArg List.length (List.takeWhile_append_dropWhile (p := isDigit) (l := cs))
      have some : (cs.takeWhile isDigit).length ≠ 0 := by
        intro zero
        simp [List.length_eq_zero_iff.1 zero] at nonempty
      rw [List.length_append] at split
      omega
    have := length_scanFraction_le hf
    have := length_scanExponent_le he
    omega

theorem length_nextToken_le {c : Char} {cs rest : List Char} {t : Token}
    (h : nextToken c cs = some (t, rest)) : rest.length ≤ cs.length := by
  unfold nextToken at h
  split at h
  case h_7 =>
    simp only [Option.map_eq_some_iff, Prod.mk.injEq] at h
    obtain ⟨_, found, _, rfl⟩ := h
    exact Nat.le_of_lt (length_scanText_lt found)
  case h_11 => exact Nat.le_of_lt (length_scanNumber_lt h)
  case h_12 => exact Nat.le_of_lt_succ (length_scanNumber_lt h)
  case h_8 | h_9 | h_10 =>
    cases h
    simp only [List.length_cons]
    omega
  all_goals
    cases h
    exact Nat.le_refl _

/-- Reads the tokens of a text, behind those read already, the latest first. -/
def tokensFrom (read : List Token) : List Char → Option (List Token)
  | [] => some read.reverse
  | c :: cs =>
    if isSpace c then tokensFrom read cs
    else
      match _h : nextToken c cs with
      | none => none
      | some (t, rest) => tokensFrom (t :: read) rest
termination_by cs => cs.length
decreasing_by
  · exact Nat.lt_succ_self _
  · exact Nat.lt_succ_of_le (length_nextToken_le (by assumption))

/-- The tokens of a text. -/
def tokens? (text : String) : Option (List Token) :=
  tokensFrom [] text.toList

/-! ## Writing -/

/-- A code point in the four digits of an escape. -/
def hexEscape (n : Nat) : List Char :=
  let digit (m : Nat) : Char := ((Nat.toDigits 16 (m % 16)).headD '0')
  ['\\', 'u', digit (n / 4096), digit (n / 256), digit (n / 16), digit n]

/-- A character as it is written in a text: quotes, backslashes and controls are
escaped, and nothing else. -/
def escape (c : Char) : List Char :=
  if c = '"' then ['\\', '"']
  else if c = '\\' then ['\\', '\\']
  else if c = '\x08' then ['\\', 'b']
  else if c = '\x0c' then ['\\', 'f']
  else if c = '\n' then ['\\', 'n']
  else if c = '\r' then ['\\', 'r']
  else if c = '\t' then ['\\', 't']
  else if c.toNat < 0x20 then hexEscape c.toNat
  else [c]

/-- A text between quotes. -/
def quoted (s : String) : List Char :=
  '"' :: s.toList.flatMap escape ++ ['"']

/-- The spelling of a token. -/
def Token.spelling : Token → String
  | .beginArray => "["
  | .endArray => "]"
  | .beginObject => "\x7b"
  | .endObject => "\x7d"
  | .colon => ":"
  | .comma => ","
  | .text s => String.ofList (quoted s)
  | .broken units => String.ofList ('"' :: units.flatMap hexEscape ++ ['"'])
  | .integer n => toString n
  | .number spelling => spelling
  | .word spelling => spelling

/-- Tokens without blanks between them. -/
def compact (tokens : List Token) : String :=
  String.join (tokens.map Token.spelling)

/-- A new line that is indented for the given depth. -/
def newline (depth : Nat) : String :=
  String.ofList ('\n' :: List.replicate (2 * depth) ' ')

/-- The parts of a layout with one element to a line.  Arrays and objects without
elements stay on their line. -/
def layout (depth : Nat) : List Token → List String
  | [] => []
  | .beginArray :: .endArray :: rest => "[" :: "]" :: layout depth rest
  | .beginObject :: .endObject :: rest => "\x7b" :: "\x7d" :: layout depth rest
  | .beginArray :: rest => "[" :: newline (depth + 1) :: layout (depth + 1) rest
  | .beginObject :: rest => "\x7b" :: newline (depth + 1) :: layout (depth + 1) rest
  | .endArray :: rest => newline (depth - 1) :: "]" :: layout (depth - 1) rest
  | .endObject :: rest => newline (depth - 1) :: "\x7d" :: layout (depth - 1) rest
  | .comma :: rest => "," :: newline depth :: layout depth rest
  | .colon :: rest => ": " :: layout depth rest
  | t :: rest => t.spelling :: layout depth rest

/-- Tokens with one element to a line, indented by two spaces for each level. -/
def pretty (tokens : List Token) : String :=
  String.join (layout 0 tokens)

end Groundwork.Json
