/-!
UTF-8 as octets, decoded without ever failing.

The machine remembers the character it is in: what its octets so far denote, how many are owed, and
the range of the next one. An octet that cannot continue a character ends it; the octets of the
character so far are replaced by one replacement character, and the octet is taken as a first one.
-/
set_option autoImplicit false

namespace Backchain.Utf8

/-- A character that is still owed octets. -/
structure Open where
  value : Nat
  owed : Nat
  low : Nat := 0x80
  high : Nat := 0xbf

def replacement : Char :=
  '\ufffd'

/-- What an octet that starts a character gives at once, and the character it leaves open. -/
def first (octet : Nat) : List Char × Option Open :=
  if octet < 0x80 then ([Char.ofNat octet], none)
  else if 0xc2 ≤ octet ∧ octet ≤ 0xdf then ([], some { value := octet - 0xc0, owed := 1 })
  else if octet = 0xe0 then ([], some { value := 0, owed := 2, low := 0xa0 })
  else if octet = 0xed then ([], some { value := 0xd, owed := 2, high := 0x9f })
  else if 0xe1 ≤ octet ∧ octet ≤ 0xef then ([], some { value := octet - 0xe0, owed := 2 })
  else if octet = 0xf0 then ([], some { value := 0, owed := 3, low := 0x90 })
  else if octet = 0xf4 then ([], some { value := 4, owed := 3, high := 0x8f })
  else if 0xf1 ≤ octet ∧ octet ≤ 0xf3 then ([], some { value := octet - 0xf0, owed := 3 })
  else ([replacement], none)

/-- What the next octet gives, and the character it leaves open. -/
def next (state : Option Open) (octet : Nat) : List Char × Option Open :=
  match state with
  | none => first octet
  | some char =>
    if char.low ≤ octet ∧ octet ≤ char.high then
      let value := char.value * 0x40 + (octet - 0x80)
      if char.owed ≤ 1 then ([Char.ofNat value], none)
      else ([], some { value, owed := char.owed - 1 })
    else
      match first octet with
      | (chars, state) => (replacement :: chars, state)

def decodeFrom : Option Open → List UInt8 → List Char
  | none, [] => []
  | some _, [] => [replacement]
  | state, octet :: octets =>
    match next state octet.toNat with
    | (chars, state) => chars ++ decodeFrom state octets

/-- The text of some octets, with a replacement character for every part that is not UTF-8. -/
def decode (octets : List UInt8) : String :=
  String.ofList (decodeFrom none octets)

end Backchain.Utf8
