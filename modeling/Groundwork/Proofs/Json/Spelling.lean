import Groundwork.Json.Token
import Mathlib.Data.List.Basic

/-!
# Spelled tokens are read back

A token that a writer uses is structural, a text or an integer.  Its spelling is read back as
the token, together with all that follows.  Only an integer has to be told apart from what
follows, which may not go on with the number (`Halts`).

* `scanNumber_toDigits`: an integer, whose digits have no leading zero;
* `scanText_escaped`, `assemble?_toNat`: a text, whose escapes are undone one by one, and whose
  characters are never halves of surrogate pairs;
* `nextToken_spelling`: every token that a writer uses.
-/

namespace Groundwork.Json

/-! ## Integers -/

theorem isDigit_of_mem_toDigits {n : Nat} {c : Char} (h : c ∈ Nat.toDigits 10 n) :
    isDigit c = true := by
  have hdigit := Nat.isDigit_of_mem_toDigits (by decide) (by decide) h
  simp only [Char.isDigit, Bool.and_eq_true, decide_eq_true_eq] at hdigit
  rw [isDigit, Text.digit?, if_pos ⟨hdigit.1, hdigit.2⟩]
  rfl

/-- The digits are read from the first on, on top of what was read before them. -/
theorem foldlM_digits {cs : List Char} (h : ∀ c ∈ cs, isDigit c = true) (n : Nat) :
    cs.foldlM (fun n c => (Text.digit? c).map (10 * n + ·)) n = some (Nat.ofDigitChars 10 cs n) := by
  induction cs generalizing n with
  | nil => rfl
  | cons c cs ih =>
    have hc := h c List.mem_cons_self
    simp only [isDigit, Text.digit?] at hc
    split at hc
    · next hrange =>
      rw [List.foldlM_cons, Text.digit?, if_pos hrange, Nat.ofDigitChars_cons]
      exact ih (fun d hd => h d (List.mem_cons_of_mem c hd)) _
    · cases hc

theorem digits?_toDigits (n : Nat) : Text.digits? (Nat.toDigits 10 n) = some n := by
  rw [Text.digits?, foldlM_digits fun c hc => isDigit_of_mem_toDigits hc]
  rw [Nat.ofDigitChars_toDigits (by decide) (by decide)]

/-- Only zero itself begins with a zero. -/
theorem head?_toDigits {n : Nat} (h : 0 < n) : (Nat.toDigits 10 n).head? ≠ some '0' := by
  induction n using Nat.strongRecOn with
  | _ n ih =>
    by_cases hlt : n < 10
    · rw [Nat.toDigits_of_lt_base hlt]
      have hone : ∀ n < 10, 0 < n → [n.digitChar].head? ≠ some '0' := by decide
      exact hone n hlt h
    · rw [Nat.toDigits_of_base_le (by decide) (by omega),
        List.head?_append_of_ne_nil _ Nat.toDigits_ne_nil]
      exact ih (n / 10) (by omega) (by omega)

theorem leadingZero_toDigits (n : Nat) :
    ((Nat.toDigits 10 n).head? == some '0' && (Nat.toDigits 10 n).length != 1) = false := by
  cases n with
  | zero => decide
  | succ n =>
    have hhead := head?_toDigits (Nat.succ_pos n)
    rw [beq_eq_false_iff_ne.2 hhead, Bool.false_and]

/-- The text does not go on with a number. -/
def Halts (cs : List Char) : Prop :=
  ∀ c, cs.head? = some c → isDigit c = false ∧ c ≠ '.' ∧ c ≠ 'e' ∧ c ≠ 'E'

theorem Halts.scan {cs : List Char} (h : Halts cs) :
    scanFraction cs = some cs ∧ scanExponent cs = some cs ∧ endsInteger cs = true ∧
      cs.takeWhile isDigit = [] ∧ cs.dropWhile isDigit = cs := by
  cases cs with
  | nil => exact ⟨rfl, rfl, rfl, rfl, rfl⟩
  | cons c cs =>
    obtain ⟨hdigit, hpoint, hlower, hupper⟩ := h c rfl
    refine ⟨?_, ?_, by simp [endsInteger, hpoint, hlower, hupper], by simp [hdigit],
      by simp [hdigit]⟩
    · unfold scanFraction
      split
      · next heq => exact absurd (List.cons.inj heq).1 hpoint
      · rfl
    · unfold scanExponent
      split
      · next heq => exact absurd (List.cons.inj heq).1 hlower
      · next heq => exact absurd (List.cons.inj heq).1 hupper
      · rfl

/-- Digits are read as the number that they write, unless it is a negative zero. -/
theorem scanNumber_toDigits {negative : Bool} {n : Nat} {rest : List Char}
    (hzero : negative = true → n ≠ 0) (hrest : Halts rest) :
    scanNumber negative (Nat.toDigits 10 n ++ rest) =
      some (.integer (if negative then -(n : Int) else n), rest) := by
  obtain ⟨hfraction, hexponent, hends, htake, hdrop⟩ := hrest.scan
  have hdigits : ∀ c ∈ Nat.toDigits 10 n, isDigit c = true := fun c => isDigit_of_mem_toDigits
  unfold scanNumber
  rw [List.takeWhile_append_of_pos hdigits, List.dropWhile_append_of_pos hdigits, htake, hdrop,
    List.append_nil]
  simp [Nat.toDigits_ne_nil, leadingZero_toDigits, digits?_toDigits, hfraction, hexponent, hends]
  exact hzero

theorem spelling_integer (n : Int) :
    (Token.integer n).spelling.toList =
      if 0 ≤ n then Nat.toDigits 10 n.toNat else '-' :: Nat.toDigits 10 (-n).toNat := by
  show (toString n).toList = _
  rw [Int.toString_eq_repr, Int.repr_eq_if]
  split
  · exact Nat.toList_repr
  · rw [String.toList_append, Nat.toList_repr]
    rfl

/-! ## Texts -/

/-- The escapes of controls are read as the controls. -/
theorem hexNumber?_hexEscape : ∀ n < 0x20, ∃ a b c d,
    hexEscape n = ['\\', 'u', a, b, c, d] ∧ hexNumber? a b c d = some n := by
  intro n h
  refine ⟨_, _, _, _, rfl, ?_⟩
  revert n
  decide

/-- An escaped character is read as the character. -/
theorem scanText_escape (c : Char) (read : List Nat) (rest : List Char) :
    scanText read (escape c ++ rest) = scanText (c.toNat :: read) rest := by
  unfold escape
  split
  · next h => rw [h]; rfl
  split
  · next h => rw [h]; rfl
  split
  · next h => rw [h]; rfl
  split
  · next h => rw [h]; rfl
  split
  · next h => rw [h]; rfl
  split
  · next h => rw [h]; rfl
  split
  · next h => rw [h]; rfl
  split
  · next hcontrol =>
    obtain ⟨x, y, z, w, hescape, hnumber⟩ := hexNumber?_hexEscape c.toNat hcontrol
    rw [hescape]
    simp only [List.cons_append, List.nil_append]
    rw [scanText, hnumber]
  -- All other characters are written as they are, and neither ends the text nor escapes.
  · next hquote hbackslash _ _ _ _ _ hcontrol =>
    rw [List.singleton_append, scanText.eq_def]
    split
    case h_5 heq =>
      obtain ⟨rfl, rfl⟩ := List.cons.inj heq
      rw [if_neg hcontrol]
    all_goals simp_all

/-- The induction is on the text, and each escape is undone in its turn. -/
theorem scanText_escaped (cs : List Char) (read : List Nat) (rest : List Char) :
    scanText read (cs.flatMap escape ++ '"' :: rest) =
      some (read.reverse ++ cs.map Char.toNat, rest) := by
  induction cs generalizing read with
  | nil =>
    rw [List.map_nil, List.append_nil]
    rfl
  | cons c cs ih =>
    rw [List.flatMap_cons, List.append_assoc, scanText_escape, ih, List.reverse_cons, List.map_cons,
      List.append_assoc, List.singleton_append]

/-- No character is half of a surrogate pair. -/
theorem assemble?_toNat (cs : List Char) : assemble? (cs.map Char.toNat) = some cs := by
  induction cs with
  | nil => rfl
  | cons c cs ih =>
    have hvalid : c.toNat.isValidChar := c.valid
    have hchar : Char.ofNat c.toNat = c := Char.ofNat_toNat c
    cases cs with
    | nil =>
      show (if c.toNat.isValidChar then some [Char.ofNat c.toNat] else none) = _
      rw [if_pos hvalid, hchar]
    | cons d cs =>
      have hhalf : ¬ (0xD800 ≤ c.toNat ∧ c.toNat ≤ 0xDBFF ∧ 0xDC00 ≤ d.toNat ∧
          d.toNat ≤ 0xDFFF) := by
        simp only [Nat.isValidChar] at hvalid
        omega
      rw [List.map_cons, List.map_cons, assemble?, if_neg hhalf, if_pos hvalid, hchar,
        ← List.map_cons, ih]
      rfl

theorem textToken_toNat (s : String) : textToken (s.toList.map Char.toNat) = .text s := by
  rw [textToken, assemble?_toNat]
  dsimp only
  rw [String.ofList_toList]

/-! ## Tokens -/

/-- The token is one that a writer uses. -/
def Token.Plain : Token → Prop
  | .broken _ | .number _ | .word _ => False
  | _ => True

/-- Whether the token is an integer, whose spelling may not be followed by a digit. -/
def Token.isInteger : Token → Bool
  | .integer _ => true
  | _ => false

theorem nextToken_digit {c : Char} {rest : List Char} (h : isDigit c = true) :
    nextToken c rest = scanNumber false (c :: rest) := by
  have hne : ∀ d : Char, isDigit d = false → c ≠ d := by
    rintro d hd rfl
    rw [h] at hd
    cases hd
  unfold nextToken
  split
  case h_12 => rfl
  all_goals exact absurd rfl (hne _ (by decide))

/-- The spelling of a token is not empty, does not begin with a blank, and is read back. -/
theorem nextToken_spelling {t : Token} (h : t.Plain) {rest : List Char}
    (hrest : t.isInteger = true → Halts rest) :
    ∃ c cs, t.spelling.toList = c :: cs ∧ isSpace c = false ∧
      nextToken c (cs ++ rest) = some (t, rest) := by
  cases t with
  | broken | number | word => exact h.elim
  | text s =>
    refine ⟨'"', s.toList.flatMap escape ++ ['"'], String.toList_ofList, by decide, ?_⟩
    show Option.map _ (scanText [] (s.toList.flatMap escape ++ ['"'] ++ rest)) = _
    rw [List.append_assoc, List.singleton_append, scanText_escaped, Option.map_some]
    exact congrArg (fun t => some (t, rest)) (textToken_toNat s)
  | integer n =>
    have hrest := hrest rfl
    rw [spelling_integer]
    split
    · next hle =>
      obtain ⟨c, cs, hdigits⟩ := List.exists_cons_of_ne_nil
        (Nat.toDigits_ne_nil (b := 10) (n := n.toNat))
      have hc : isDigit c = true := isDigit_of_mem_toDigits (hdigits ▸ List.mem_cons_self)
      refine ⟨c, cs, hdigits, ?_, ?_⟩
      · cases hspace : isSpace c with
        | false => rfl
        | true =>
          simp only [isSpace, Bool.or_eq_true, beq_iff_eq] at hspace
          rcases hspace with ((rfl | rfl) | rfl) | rfl <;> cases hc
      · rw [nextToken_digit hc, ← List.cons_append, ← hdigits,
          scanNumber_toDigits (fun h => by cases h) hrest]
        simp [Int.toNat_of_nonneg hle]
    · next hlt =>
      refine ⟨'-', _, rfl, by decide, ?_⟩
      show scanNumber true _ = _
      rw [scanNumber_toDigits (fun _ => by omega) hrest]
      simp only [if_true]
      rw [Int.toNat_of_nonneg (by omega), Int.neg_neg]
  | _ => exact ⟨_, _, rfl, by decide, rfl⟩

end Groundwork.Json
