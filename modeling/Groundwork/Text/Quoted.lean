import Groundwork.Text.DefaultIgnorable
import Groundwork.Text.GraphemeExtend
import Groundwork.Text.Unprintable

/-!
# Quoted text and tagged records

The messages of the library show data in one notation: a text stands in double
quotes with its unprintable characters escaped, a tagged value shows its fields
in parentheses, and a tagged record shows named fields in braces.
-/

namespace Groundwork.Text

/-- The two halfwidth voicing marks.  They extend the kana before them but are
letters with a cell of their own, so a reader sees them wherever they stand. -/
def isHalfwidthVoicing (c : Char) : Bool :=
  c = '\uFF9E' || c = '\uFF9F'

/-- The characters that are shown by their number: those that leave nothing to
see, and those that would be drawn into the character before them. -/
def isHidden (c : Char) : Bool :=
  unprintable.contains c || defaultIgnorable.contains c ||
    (graphemeExtend.contains c && !isHalfwidthVoicing c)

/-- A character as it stands between double quotes. -/
def escape (c : Char) : List Char :=
  if c = '"' then ['\\', '"']
  else if c = '\\' then ['\\', '\\']
  else if c = '\t' then ['\\', 't']
  else if c = '\n' then ['\\', 'n']
  else if c = '\r' then ['\\', 'r']
  else if c.toNat = 0 then ['\\', '0']
  else if isHidden c then ['\\', 'u', '\x7b'] ++ Nat.toDigits 16 c.toNat ++ ['\x7d']
  else [c]

/-- A text in double quotes. -/
def quote (s : String) : String :=
  String.ofList ('"' :: s.toList.flatMap escape ++ ['"'])

/-- Texts in brackets, each quoted. -/
def quoteAll (texts : List String) : String :=
  "[" ++ ", ".intercalate (texts.map quote) ++ "]"

/-- A tag with one unnamed field. -/
def tagged (tag field : String) : String :=
  tag ++ "(" ++ field ++ ")"

/-- A tag with named fields. -/
def record (tag : String) (fields : List (String × String)) : String :=
  tag ++ " \x7b " ++ ", ".intercalate (fields.map fun (name, value) => name ++ ": " ++ value) ++
    " \x7d"

end Groundwork.Text
