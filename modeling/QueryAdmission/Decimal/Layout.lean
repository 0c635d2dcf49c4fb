import QueryAdmission.Decimal.Shortest

/-! How the digits of a decimal are laid out on the line. -/

namespace QueryAdmission

/-- The choices of a number format. A decimal is written positionally when the exponent of its
first digit lies between `least` and `greatest`. -/
structure Layout where
  least : Int
  greatest : Int
  /-- Whether a whole number ends in `.0`. -/
  pointZero : Bool

namespace Layout

def zeros (n : Nat) : String := String.ofList (List.replicate n '0')

/-- Digits with the point after the first `n` of them. -/
def positional (f : Layout) (digits : List Char) (n : Int) : String :=
  if n ≤ 0 then "0." ++ zeros (-n).toNat ++ String.ofList digits
  else if digits.length ≤ n.toNat then
    String.ofList digits ++ zeros (n.toNat - digits.length) ++ if f.pointZero then ".0" else ""
  else String.ofList (digits.take n.toNat) ++ "." ++ String.ofList (digits.drop n.toNat)

/-- Digits with the point after the first and a signed power of ten. -/
def scientific (digits : List Char) (e : Int) : String :=
  String.ofList (digits.take 1)
    ++ (if digits.length ≤ 1 then "" else "." ++ String.ofList (digits.drop 1))
    ++ (if e < 0 then "e-" else "e+") ++ toString e.natAbs

def decimal (f : Layout) (d : Decimal) : String :=
  let digits := Nat.toDigits 10 d.digits
  let e := d.exponent + digits.length - 1
  if f.least ≤ e ∧ e ≤ f.greatest then f.positional digits (e + 1) else scientific digits e

/-- A double in the fewest digits that read back as it. -/
def double (f : Layout) (x : Float) : String :=
  let sign := if 9223372036854775808 ≤ x.toBits.toNat then "-" else ""
  match Decimal.ofDouble? x with
  | some b => sign ++ f.decimal b.shortest
  | none => sign ++ if x.isFinite then (if f.pointZero then "0.0" else "0") else "inf"

end Layout

end QueryAdmission
