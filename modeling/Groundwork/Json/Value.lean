import Groundwork.Json.Token

/-!
# Values of JSON

Tokens are put together to a value by a machine with a stack of the arrays and
objects that are still open, so that a value may be nested to any depth.
-/

namespace Groundwork.Json

/-- A value of JSON.  The key of a member is missing if it is no string. -/
inductive Value where
  | text (s : String)
  | integer (n : Int)
  /-- Any other value without parts. -/
  | scalar
  | array (elements : List Value)
  | object (members : List (Option String × Value))

/-- An array or an object that is still open, with its parts in reverse. -/
inductive Frame where
  | array (elements : List Value)
  /-- An object, with the key of the member that is being read. -/
  | object (members : List (Option String × Value)) (key : Option String)

/-- What may come next. -/
inductive Mode where
  | value
  /-- The first element of an array, or its end. -/
  | firstElement
  /-- The first key of an object, or its end. -/
  | firstKey
  | key
  | colon
  /-- A comma, or the end of what is open. -/
  | after
  /-- Nothing, as the value is complete. -/
  | complete (v : Value)

/-- Places a value in the innermost open array or object. -/
def deliver (v : Value) : List Frame → List Frame × Mode
  | [] => ([], .complete v)
  | .array elements :: stack => (.array (v :: elements) :: stack, .after)
  | .object members key :: stack => (.object ((key, v) :: members) none :: stack, .after)

/-- Begins a value. -/
def beginValue (stack : List Frame) : Token → Option (List Frame × Mode)
  | .beginArray => some (.array [] :: stack, .firstElement)
  | .beginObject => some (.object [] none :: stack, .firstKey)
  | .text s => some (deliver (.text s) stack)
  | .integer n => some (deliver (.integer n) stack)
  | .broken _ | .number _ | .word _ => some (deliver .scalar stack)
  | _ => none

/-- Takes the key of a member. -/
def takeKey (members : List (Option String × Value)) (stack : List Frame) :
    Token → Option (List Frame × Mode)
  | .text s => some (.object members (some s) :: stack, .colon)
  | .broken _ => some (.object members none :: stack, .colon)
  | _ => none

/-- Takes one token. -/
def step : List Frame × Mode → Token → Option (List Frame × Mode)
  | (.array elements :: stack, .firstElement), .endArray =>
    some (deliver (.array elements.reverse) stack)
  | (.array elements :: stack, .after), .endArray =>
    some (deliver (.array elements.reverse) stack)
  | (.array elements :: stack, .after), .comma => some (.array elements :: stack, .value)
  | (.object members _ :: stack, .firstKey), .endObject =>
    some (deliver (.object members.reverse) stack)
  | (.object members _ :: stack, .after), .endObject =>
    some (deliver (.object members.reverse) stack)
  | (.object members key :: stack, .after), .comma => some (.object members key :: stack, .key)
  | (.object members _ :: stack, .firstKey), t => takeKey members stack t
  | (.object members _ :: stack, .key), t => takeKey members stack t
  | (stack, .colon), .colon => some (stack, .value)
  | (stack, .value), t => beginValue stack t
  | (stack, .firstElement), t => beginValue stack t
  | _, _ => none

/-- The value that tokens make up. -/
def Value.ofTokens? (tokens : List Token) : Option Value :=
  match tokens.foldlM step ([], .value) with
  | some (_, .complete v) => some v
  | _ => none

/-- The value that a text writes. -/
def Value.ofText? (text : String) : Option Value :=
  (tokens? text).bind Value.ofTokens?

end Groundwork.Json
