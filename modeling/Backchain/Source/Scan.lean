import Backchain.Decimal

/-!
The words of clause source: blanks, names, numbers and strings.

Source is a list of characters. A scanner takes what it wants from the front and gives the rest.
Names and digits are ASCII; anything may stand in strings and comments.
-/
set_option autoImplicit false

namespace Backchain.Source

/-- Space, tab and the two line characters. -/
def isBlank (c : Char) : Bool :=
  c == ' ' || c == '\t' || c == '\r' || c == '\n'

mutual

/-- Drops blanks and comments from the front. -/
def skip : List Char → List Char
  | [] => []
  | c :: rest =>
    if isBlank c then skip rest
    else if c = '%' then skipComment rest
    else c :: rest

/-- Drops the rest of a comment, which runs up to the end of its line, and what may be skipped
after it. -/
def skipComment : List Char → List Char
  | [] => []
  | c :: rest => if c = '\n' then skip rest else skipComment rest

end

/-- A letter, a digit or an underscore. -/
def isNamePart (c : Char) : Bool :=
  c.isAlphanum || c == '_'

/-- Takes a name whose first character passes a test. -/
def name? (first : Char → Bool) : List Char → Option (String × List Char)
  | [] => none
  | c :: rest =>
    if first c then
      some (String.ofList (c :: rest.takeWhile isNamePart), rest.dropWhile isNamePart)
    else none

/-- Takes a number that fits a signed word of 64 bits. -/
def number? (source : List Char) : Option (Int64 × List Char) :=
  let digits := source.takeWhile Char.isDigit
  if digits ≠ [] ∧ Decimal.value digits ≤ Int64.maxValue.toNatClampNeg then
    some (Int64.ofNat (Decimal.value digits), source.dropWhile Char.isDigit)
  else none

/-- Takes a string between double quotes. -/
def quoted? : List Char → Option (String × List Char)
  | '"' :: rest =>
    match rest.dropWhile (· != '"') with
    | '"' :: after => some (String.ofList (rest.takeWhile (· != '"')), after)
    | _ => none
  | _ => none

end Backchain.Source
