/-!
Decimal digits as numbers.
-/
set_option autoImplicit false

namespace Backchain.Decimal

/-- The number that decimal digits denote, the most significant first. -/
def value (digits : List Char) : Nat :=
  digits.foldl (fun value digit => 10 * value + (digit.toNat - '0'.toNat)) 0

end Backchain.Decimal
