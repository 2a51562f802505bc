import Backchain.Decimal
import Backchain.Json.Value

/-!
Reading strict JSON text.

A reader takes a value from the front and gives the rest, or fails. Blanks may stand around values
and marks, and nothing else may. Values nest as deep as the text goes; the length of the text is
enough fuel, because every step takes at least one character.
-/
set_option autoImplicit false

namespace Backchain.Json.Reader

/-- The four characters that may stand between tokens. -/
def isBlank (c : Char) : Bool :=
  c == ' ' || c == '\t' || c == '\n' || c == '\r'

def skip (source : List Char) : List Char :=
  source.dropWhile isBlank

/-- The number of a hexadecimal digit. -/
def hexValue? (c : Char) : Option Nat :=
  if c.isDigit then some (c.toNat - '0'.toNat)
  else if 'a' ≤ c ∧ c ≤ 'f' then some (c.toNat - 'a'.toNat + 10)
  else if 'A' ≤ c ∧ c ≤ 'F' then some (c.toNat - 'A'.toNat + 10)
  else none

/-- A part of a string: a character, or a sixteen-bit unit given by its number. -/
inductive Piece where
  | char (c : Char)
  | unit (value : Nat)

/-- The character that a backslash and one letter stand for. -/
def shortEscape? (c : Char) : Option Char :=
  match c with
  | '"' => some '"'
  | '\\' => some '\\'
  | '/' => some '/'
  | 'b' => some '\x08'
  | 'f' => some '\x0c'
  | 'n' => some '\n'
  | 'r' => some '\r'
  | 't' => some '\t'
  | _ => none

/-- The unit that four hexadecimal digits give. -/
def unit? (a b c d : Char) : Option Nat :=
  match hexValue? a, hexValue? b, hexValue? c, hexValue? d with
  | some a, some b, some c, some d => some (((a * 16 + b) * 16 + c) * 16 + d)
  | _, _, _, _ => none

/-- Reads the parts of a string up to its closing quote. -/
def pieces : List Char → Option (List Piece × List Char)
  | [] => none
  | '"' :: rest => some ([], rest)
  | '\\' :: 'u' :: a :: b :: c :: d :: rest =>
    match unit? a b c d, pieces rest with
    | some value, some (parts, rest) => some (.unit value :: parts, rest)
    | _, _ => none
  | '\\' :: c :: rest =>
    match shortEscape? c, pieces rest with
    | some c, some (parts, rest) => some (.char c :: parts, rest)
    | _, _ => none
  | c :: rest =>
    if c.toNat < 32 ∨ c = '\\' then none
    else (pieces rest).map fun (parts, rest) => (.char c :: parts, rest)

/-- Whether a unit is the first half of a surrogate pair. -/
def isHigh (value : Nat) : Bool :=
  0xd800 ≤ value && value < 0xdc00

/-- Whether a unit is the second half of a surrogate pair. -/
def isLow (value : Nat) : Bool :=
  0xdc00 ≤ value && value < 0xe000

/-- The text of a string, if every half of a surrogate pair has its other half beside it. -/
def joined? : List Piece → Option (List Char)
  | [] => some []
  | .char c :: parts => (joined? parts).map (c :: ·)
  | .unit high :: .unit low :: parts =>
    if isHigh high && isLow low then
      (joined? parts).map (Char.ofNat (0x10000 + (high - 0xd800) * 0x400 + (low - 0xdc00)) :: ·)
    else if isHigh high || isLow high then none
    else (joined? (.unit low :: parts)).map (Char.ofNat high :: ·)
  | .unit value :: parts =>
    if isHigh value || isLow value then none
    else (joined? parts).map (Char.ofNat value :: ·)

/-- Reads a string after its opening quote. -/
def stringAfterQuote (source : List Char) : Option (Option String × List Char) :=
  (pieces source).map fun (parts, rest) => ((joined? parts).map String.ofList, rest)

/-- Reads the digits before a fraction: a single zero, or digits that start with another one. -/
def whole : List Char → Option (List Char × List Char)
  | '0' :: rest => some (['0'], rest)
  | source =>
    let digits := source.takeWhile Char.isDigit
    if digits.isEmpty then none else some (digits, source.dropWhile Char.isDigit)

/-- Reads a fraction, which may be absent. -/
def fraction : List Char → Option (List Char × List Char)
  | '.' :: rest =>
    let digits := rest.takeWhile Char.isDigit
    if digits.isEmpty then none else some ('.' :: digits, rest.dropWhile Char.isDigit)
  | source => some ([], source)

/-- Reads the sign of an exponent, which may be absent. -/
def sign : List Char → List Char × List Char
  | '+' :: rest => (['+'], rest)
  | '-' :: rest => (['-'], rest)
  | source => ([], source)

/-- Reads an exponent, which may be absent. -/
def exponent : List Char → Option (List Char × List Char)
  | [] => some ([], [])
  | c :: rest =>
    if c = 'e' ∨ c = 'E' then
      let (mark, rest) := sign rest
      let digits := rest.takeWhile Char.isDigit
      if digits.isEmpty then none
      else some (c :: mark ++ digits, rest.dropWhile Char.isDigit)
    else some ([], c :: rest)

/-- Reads the literal of a number without its sign, and whether it is a plain run of digits. -/
def unsigned? (source : List Char) : Option (List Char × Bool × List Char) :=
  match whole source with
  | none => none
  | some (digits, rest) =>
    match fraction rest with
    | none => none
    | some (places, rest) =>
      match exponent rest with
      | none => none
      | some (power, rest) =>
        some (digits ++ places ++ power, places.isEmpty && power.isEmpty, rest)

/-- Reads a number. -/
def number? : List Char → Option (Json × List Char)
  | '-' :: source =>
    (unsigned? source).map fun (literal, plain, rest) =>
      if plain && literal != ['0'] then (.integer (-(Decimal.value literal : Int)), rest)
      else (.real (String.ofList ('-' :: literal)), rest)
  | source =>
    (unsigned? source).map fun (literal, plain, rest) =>
      if plain then (.integer (Decimal.value literal), rest)
      else (.real (String.ofList literal), rest)

/-- Reads the elements of an array up to its end. -/
def elements (item : List Char → Option (Json × List Char)) :
    Nat → List Char → Option (List Json × List Char)
  | 0, _ => none
  | fuel + 1, source =>
    match item source with
    | none => none
    | some (value, rest) =>
      match skip rest with
      | ']' :: rest => some ([value], rest)
      | ',' :: rest => (elements item fuel rest).map fun (values, rest) => (value :: values, rest)
      | _ => none

/-- Reads a member of an object: a name, a colon and a value. -/
def member (item : List Char → Option (Json × List Char)) (source : List Char) :
    Option ((Option String × Json) × List Char) :=
  match skip source with
  | '"' :: rest =>
    match stringAfterQuote rest with
    | none => none
    | some (name, rest) =>
      match skip rest with
      | ':' :: rest => (item rest).map fun (value, rest) => ((name, value), rest)
      | _ => none
  | _ => none

/-- Reads the members of an object up to its end. -/
def members (item : List Char → Option (Json × List Char)) :
    Nat → List Char → Option (List (Option String × Json) × List Char)
  | 0, _ => none
  | fuel + 1, source =>
    match member item source with
    | none => none
    | some (first, rest) =>
      match skip rest with
      | '}' :: rest => some ([first], rest)
      | ',' :: rest => (members item fuel rest).map fun (others, rest) => (first :: others, rest)
      | _ => none

/-- Reads a value. -/
def value : Nat → List Char → Option (Json × List Char)
  | 0, _ => none
  | fuel + 1, source =>
    match skip source with
    | 'n' :: 'u' :: 'l' :: 'l' :: rest => some (.null, rest)
    | 't' :: 'r' :: 'u' :: 'e' :: rest => some (.bool true, rest)
    | 'f' :: 'a' :: 'l' :: 's' :: 'e' :: rest => some (.bool false, rest)
    | '"' :: rest => (stringAfterQuote rest).map fun (text, rest) => (.string text, rest)
    | '[' :: rest =>
      match skip rest with
      | ']' :: rest => some (.array [], rest)
      | _ => (elements (value fuel) fuel rest).map fun (values, rest) => (.array values, rest)
    | '{' :: rest =>
      match skip rest with
      | '}' :: rest => some (.object [], rest)
      | _ => (members (value fuel) fuel rest).map fun (all, rest) => (.object all, rest)
    | start => number? start

end Backchain.Json.Reader

namespace Backchain.Json

/-- The value of a whole text. -/
def parse? (text : String) : Option Json :=
  let source := text.toList
  match Reader.value (source.length + 1) source with
  | some (value, rest) => if (Reader.skip rest).isEmpty then some value else none
  | none => none

end Backchain.Json
