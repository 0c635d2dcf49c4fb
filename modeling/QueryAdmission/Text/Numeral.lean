import QueryAdmission.Text.Blank

/-! Whole numbers written by hand: an optional plus sign and decimal digits. -/

namespace QueryAdmission.Text

/-- The value of a decimal digit. -/
def digit? (c : Char) : Option Nat :=
  if '0' ≤ c ∧ c ≤ '9' then some (c.toNat - '0'.toNat) else none

/-- The number that decimal digits denote after the digits of `n`. -/
def digits? (n : Nat) : List Char → Option Nat
  | [] => some n
  | c :: cs => (digit? c).bind fun d => digits? (10 * n + d) cs

/-- The number that a numeral denotes. Leading zeros are allowed, a minus sign is not. -/
def numeral? : List Char → Option Nat
  | [] => none
  | '+' :: [] => none
  | '+' :: c :: cs => digits? 0 (c :: cs)
  | c :: cs => digits? 0 (c :: cs)

/-- The number below `bound` that a text denotes between its blank margins. -/
def numeralBelow? (bound : Nat) (s : String) : Option Nat :=
  (numeral? (trimChars s.toList)).filter (· < bound)

end QueryAdmission.Text
