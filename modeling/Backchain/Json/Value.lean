/-!
JSON values.

Integers are kept apart from all other number literals, since only they are exact. Members of an
object keep their order and may repeat a name. A string may escape one half of a surrogate pair;
it is well formed but has no text, which `none` records.
-/
set_option autoImplicit false

namespace Backchain

inductive Json where
  | null
  | bool (value : Bool)
  /-- A literal without fraction and exponent, other than minus zero. -/
  | integer (value : Int)
  /-- Any other number literal, as it is written. -/
  | real (literal : String)
  | string (text : Option String)
  | array (elements : List Json)
  | object (members : List (Option String × Json))

namespace Json

/-- A string with a text. -/
def ofString (text : String) : Json :=
  .string (some text)

/-- An object from names and values. -/
def ofMembers (members : List (String × Json)) : Json :=
  .object (members.map fun (name, value) => (some name, value))

end Json

end Backchain
